import Mathlib.Data.List.Basic
import MinaVerify.ForkChoice

/-! # Blocks from gossip

`block_from_gossip_payload` of `crates/mina-verify/src/lib.rs`: a payload is eight bytes of length, which
are skipped, and a `GossipNetMessageV2`. Of the three kinds of message only a new state carries a block,
and the message starts with the tag of its kind. What comes after the message is not looked at.

Who reads payloads from an untrusted sender, the worker of the live monitor and the command line, decodes
the block and then calls `verify_tip`; `checkPayload` is the two in turn. -/
namespace MinaVerify
set_option autoImplicit false

variable {T : Types}

/-- `GossipNetMessageV2`; nothing here reads the pool diffs. -/
inductive GossipNetMessage (T : Types) where
  | newState (block : Block T)
  | snarkPoolDiff
  | transactionPoolDiff

inductive DecodeError where
  | tooShort
  | binprot (error : String)
  | notABlock
  deriving DecidableEq, Repr

def DecodeError.display : DecodeError → String
  | .tooShort => "payload shorter than 8-byte gossip prefix"
  | .binprot e => "binprot decode failed: " ++ e
  | .notABlock => "gossip message is not a NewState (block)"

/-- `GossipNetMessageV2::binprot_read`, which is third-party and may fail with any text or panic. The
first byte is the tag of the message, and the tag of a block is 0. -/
structure GossipCodec (T : Types) where
  read : List UInt8 → Outcome (Except String (GossipNetMessage T))
  tag_of_block : ∀ bytes block, read bytes = .returned (.ok (.newState block)) → bytes.head? = some 0

def blockFromGossipPayload (codec : GossipCodec T) (payload : List UInt8) :
    Outcome (Except DecodeError (Block T)) :=
  if payload.length < 8 then .returned (.error .tooShort)
  else
    (codec.read (payload.drop 8)).bind fun
      | .error e => .returned (.error (.binprot e))
      | .ok (.newState block) => .returned (.ok block)
      | .ok _ => .returned (.error .notABlock)

section Payload
variable {codec : GossipCodec T} {payload : List UInt8}

theorem blockFromGossipPayload_ok {block : Block T} :
    blockFromGossipPayload codec payload = .returned (.ok block) ↔
      8 ≤ payload.length ∧ codec.read (payload.drop 8) = .returned (.ok (.newState block)) := by
  unfold blockFromGossipPayload
  split_ifs with hshort
  · simp only [Outcome.returned.injEq, reduceCtorEq, false_iff, not_and]
    omega
  · rw [Outcome.bind_eq_returned]
    constructor
    · intro h
      obtain ⟨r, hr, h⟩ := h
      split at h
      · simp at h
      · simp only [Outcome.returned.injEq, Except.ok.injEq] at h
        exact ⟨by omega, by rw [hr, h]⟩
      · simp at h
    · intro h
      exact ⟨_, h.2, rfl⟩

/-- A payload that carries a block has the tag of a block at its ninth byte. -/
theorem tag_of_blockFromGossipPayload {block : Block T}
    (h : blockFromGossipPayload codec payload = .returned (.ok block)) : payload[8]? = some 0 := by
  obtain ⟨_, hread⟩ := blockFromGossipPayload_ok.mp h
  have hhead := codec.tag_of_block _ _ hread
  rwa [List.head?_drop] at hhead

end Payload

/-! ## Decoding and verifying -/

namespace Verifier
variable (core : Core T) (codec : GossipCodec T) (verifier : Verifier T)

def checkPayload (payload : List UInt8) :
    Outcome (Except DecodeError (Except String (Option (VerifiedTip T)))) :=
  (blockFromGossipPayload codec payload).bind fun
    | .error e => .returned (.error e)
    | .ok block => (verifier.verifyTip core block).bind fun r => .returned (.ok r)

/-- The tip of a payload whose block verifies. -/
def tipOf (payload : List UInt8) : Option (VerifiedTip T) :=
  match verifier.checkPayload core codec payload with
  | .returned (.ok (.ok tip)) => tip
  | _ => none

/-- The payload decodes to a block whose proof does not verify. -/
def isRejected (payload : List UInt8) : Bool :=
  match verifier.checkPayload core codec payload with
  | .returned (.ok (.ok none)) => true
  | _ => false

def verifiedTips (payloads : List (List UInt8)) : List (VerifiedTip T) :=
  payloads.filterMap (verifier.tipOf core codec)

variable {core codec verifier} {payload : List UInt8} {tip : VerifiedTip T}

theorem verifyTip_some {block : Block T} :
    verifier.verifyTip core block = .returned (.ok (some tip)) ↔
      tip.block = block ∧ verifier.verifyBlock core block = .returned true ∧
        core.tryHash block.header = .ok tip.stateHash := by
  unfold verifyTip
  rw [Outcome.bind_eq_returned]
  constructor
  · intro h
    obtain ⟨ok, hok, h⟩ := h
    cases ok with
    | false => simp at h
    | true =>
      rw [if_pos rfl] at h
      cases hhash : core.tryHash block.header with
      | error e => simp [hhash] at h
      | ok stateHash =>
        simp only [hhash, Outcome.returned.injEq, Except.ok.injEq, Option.some.injEq] at h
        rw [← h]
        exact ⟨rfl, hok, rfl⟩
  · intro h
    obtain ⟨rfl, hok, hhash⟩ := h
    exact ⟨true, hok, by rw [if_pos rfl, hhash]⟩

theorem tipOf_eq_some_iff_check : verifier.tipOf core codec payload = some tip ↔
    verifier.checkPayload core codec payload = .returned (.ok (.ok (some tip))) := by
  unfold tipOf
  split
  · next r hr => rw [hr]; simp
  · next hnot =>
    simp only [reduceCtorEq, false_iff]
    intro h
    exact hnot _ h

/-- A tip comes from a payload exactly when the payload carries its block, the proof of the block
verifies and the tip's state hash is the one computed from the block. -/
theorem tipOf_eq_some :
    verifier.tipOf core codec payload = some tip ↔
      blockFromGossipPayload codec payload = .returned (.ok tip.block) ∧
        verifier.verifyBlock core tip.block = .returned true ∧
        core.tryHash tip.block.header = .ok tip.stateHash := by
  rw [tipOf_eq_some_iff_check]
  unfold checkPayload
  rw [Outcome.bind_eq_returned]
  constructor
  · intro h
    obtain ⟨r, hr, h⟩ := h
    cases r with
    | error e => simp at h
    | ok block =>
      obtain ⟨verified, hverified, h⟩ := Outcome.bind_eq_returned.mp h
      simp only [Outcome.returned.injEq, Except.ok.injEq] at h
      rw [h, verifyTip_some] at hverified
      obtain ⟨rfl, hok, hhash⟩ := hverified
      exact ⟨hr, hok, hhash⟩
  · intro h
    obtain ⟨hr, hok, hhash⟩ := h
    have hverified := verifyTip_some.mpr ⟨rfl, hok, hhash⟩
    refine ⟨.ok tip.block, hr, ?_⟩
    rw [Outcome.bind_eq_returned]
    exact ⟨_, hverified, rfl⟩

theorem tag_of_isRejected (h : verifier.isRejected core codec payload = true) :
    payload[8]? = some 0 := by
  unfold isRejected at h
  split at h
  · next hcheck =>
    unfold checkPayload at hcheck
    obtain ⟨r, hr, hcheck⟩ := Outcome.bind_eq_returned.mp hcheck
    cases r with
    | error e => simp at hcheck
    | ok block => exact tag_of_blockFromGossipPayload hr
  · simp at h

theorem tag_of_tipOf (h : verifier.tipOf core codec payload = some tip) : payload[8]? = some 0 :=
  tag_of_blockFromGossipPayload (tipOf_eq_some.mp h).1

end Verifier
end MinaVerify
