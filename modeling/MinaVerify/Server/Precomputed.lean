import MinaVerify.Block

/-! # Precomputed blocks

`crates/mina-verify/src/precomputed.rs` and `ingest.rs`: a header is read from the JSON of a
precomputed block, its proof is checked, and the facts an indexer stores are taken from it. The JSON,
base64 and binprot decoders are third-party and may fail with any text or panic. -/
namespace MinaVerify
set_option autoImplicit false

variable {T : Types}

/-- `VerifierError`, as far as checking a block raises it. -/
inductive VerifierError where
  | invalidIndexJson (text : String)
  | proofInvalid
  | blockDecode (text : String)
  deriving DecidableEq, Repr

def VerifierError.display : VerifierError → String
  | .invalidIndexJson e => "invalid verifier-index JSON: " ++ e
  | .proofInvalid => "block proof did not verify"
  | .blockDecode e => "could not decode block: " ++ e

/-- The decoders a precomputed block goes through, each with the text of its error, and the text of
ledger hashes. -/
structure Codecs (T : Types) where
  /-- `serde_json::Value`. -/
  Value : Type
  /-- `serde_json::from_str`. -/
  fromStr : String → Outcome (Except String Value)
  /-- `Value::get` with a field name. -/
  get : Value → String → Option Value
  /-- `serde_json::from_value` for the protocol state. -/
  protocolState : Value → Outcome (Except String (ProtocolState T))
  /-- `serde_json::from_value` for a string. -/
  string : Value → Outcome (Except String String)
  /-- URL-safe base64. -/
  base64 : String → Outcome (Except String (List UInt8))
  /-- `MinaBaseProofStableV2::binprot_read`. -/
  proof : List UInt8 → Outcome (Except String T.Proof)
  /-- `LedgerHash::to_string`. -/
  ledgerHashToString : T.LedgerHash → String

def invalid {α : Type} (x : Outcome (Except String α)) : Outcome (Except VerifierError α) :=
  x.bind fun
    | .ok a => .returned (.ok a)
    | .error e => .returned (.error (.invalidIndexJson e))

def headerFromPrecomputed (codecs : Codecs T) (json : String) :
    Outcome (Except VerifierError (BlockHeader T)) :=
  (invalid (codecs.fromStr json)).bindOk fun v =>
  let data := (codecs.get v "data").getD v
  let field (name : String) : Outcome (Except VerifierError codecs.Value) :=
    match codecs.get data name with
    | some value => .returned (.ok value)
    | none => .returned (.error (.invalidIndexJson ("precomputed block missing `" ++ name ++ "`")))
  (field "protocol_state").bindOk fun v =>
  (invalid (codecs.protocolState v)).bindOk fun protocolState =>
  (field "protocol_state_proof").bindOk fun v =>
  (invalid (codecs.string v)).bindOk fun proofB64 =>
  (invalid (codecs.base64 proofB64)).bindOk fun proofBytes =>
  (invalid (codecs.proof proofBytes)).bindOk fun proof =>
  -- the fields that take no part in verification are filled with placeholders
  .returned (.ok
    { deltaBlockChainProof := (protocolState.previousStateHash, [])
      currentProtocolVersion := ⟨0, 0, 0⟩
      protocolState := protocolState
      protocolStateProof := proof
      proposedProtocolVersionOpt := none })

theorem headerFromPrecomputed_congr (codecs : Codecs T) {json json' : String}
    (h : codecs.fromStr json = codecs.fromStr json') :
    headerFromPrecomputed codecs json = headerFromPrecomputed codecs json' := by
  unfold headerFromPrecomputed
  rw [h]

/-! ### Errors -/

/-- The only errors are those of `invalid`. -/
def InvalidOnly {α : Type} (x : Outcome (Except VerifierError α)) : Prop :=
  ∀ e, x = .returned (.error e) → ∃ text, e = .invalidIndexJson text

theorem invalidOnly_invalid {α : Type} (x : Outcome (Except String α)) : InvalidOnly (invalid x) := by
  intro e h
  obtain ⟨r, _, h⟩ := Outcome.bind_eq_returned.mp h
  cases r with
  | ok a => simp at h
  | error text =>
    rw [Outcome.returned.injEq, Except.error.injEq] at h
    exact ⟨text, h.symm⟩

theorem InvalidOnly.bindOk {α β : Type} {x : Outcome (Except VerifierError α)}
    {f : α → Outcome (Except VerifierError β)} (hx : InvalidOnly x) (hf : ∀ a, InvalidOnly (f a)) :
    InvalidOnly (x.bindOk f) := by
  intro e h
  obtain h | ⟨a, _, h⟩ := Outcome.bindOk_eq_error.mp h
  · exact hx e h
  · exact hf a e h

theorem invalidOnly_headerFromPrecomputed (codecs : Codecs T) (json : String) :
    InvalidOnly (headerFromPrecomputed codecs json) := by
  have hfield : ∀ (value : Option codecs.Value) (text : String),
      InvalidOnly (match value with
        | some value => .returned (.ok value)
        | none => .returned (.error (.invalidIndexJson text))) := by
    intro value text e h
    cases value with
    | some value => simp at h
    | none =>
      rw [Outcome.returned.injEq, Except.error.injEq] at h
      exact ⟨text, h.symm⟩
  unfold headerFromPrecomputed
  apply (invalidOnly_invalid _).bindOk
  intro v
  apply (hfield _ _).bindOk
  intro v
  apply (invalidOnly_invalid _).bindOk
  intro protocolState
  apply (hfield _ _).bindOk
  intro v
  apply (invalidOnly_invalid _).bindOk
  intro proofB64
  apply (invalidOnly_invalid _).bindOk
  intro proofBytes
  apply (invalidOnly_invalid _).bindOk
  intro proof e h
  simp at h

structure VerifiedBlock (T : Types) where
  height : UInt32
  stateHash : T.StateHash
  previousStateHash : T.StateHash
  stagedLedgerHash : T.LedgerHash

def VerifiedBlock.fromHeader (core : Core T) (h : BlockHeader T) :
    Except VerifierError (VerifiedBlock T) :=
  match core.tryHash h with
  | .ok stateHash => .ok
    { height := h.protocolState.body.consensusState.blockchainLength
      stateHash := stateHash
      previousStateHash := h.protocolState.previousStateHash
      stagedLedgerHash := h.protocolState.body.blockchainState.stagedLedgerHash }
  | .error e => .error (.blockDecode e)

namespace Verifier
variable (core : Core T) (codecs : Codecs T) (verifier : Verifier T)

def verifyAndExtract (header : BlockHeader T) : Outcome (Except VerifierError (VerifiedBlock T)) :=
  (verifier.verifyHeader core header).bind fun ok =>
    .returned (if ok then VerifiedBlock.fromHeader core header else .error .proofInvalid)

def verifyPrecomputedAndExtract (json : String) :
    Outcome (Except VerifierError (VerifiedBlock T)) :=
  (headerFromPrecomputed codecs json).bindOk (verifier.verifyAndExtract core)

variable {core codecs verifier}

theorem fromHeader_ok {h : BlockHeader T} {vb : VerifiedBlock T} :
    VerifiedBlock.fromHeader core h = .ok vb ↔ ∃ stateHash, core.tryHash h = .ok stateHash ∧
      vb = ⟨h.protocolState.body.consensusState.blockchainLength, stateHash,
        h.protocolState.previousStateHash, h.protocolState.body.blockchainState.stagedLedgerHash⟩ := by
  unfold VerifiedBlock.fromHeader
  cases core.tryHash h with
  | ok stateHash => simp [eq_comm]
  | error e => simp

theorem verifyAndExtract_ok {header : BlockHeader T} {vb : VerifiedBlock T} :
    verifier.verifyAndExtract core header = .returned (.ok vb) ↔
      verifier.verifyHeader core header = .returned true ∧
        VerifiedBlock.fromHeader core header = .ok vb := by
  unfold verifyAndExtract
  rw [Outcome.bind_eq_returned]
  constructor
  · intro h
    obtain ⟨ok, hok, h⟩ := h
    cases ok with
    | true => exact ⟨hok, by simpa using h⟩
    | false => simp at h
  · intro h
    exact ⟨true, h.1, by rw [if_pos rfl, h.2]⟩

theorem verifyPrecomputedAndExtract_ok {json : String} {vb : VerifiedBlock T} :
    verifier.verifyPrecomputedAndExtract core codecs json = .returned (.ok vb) ↔
      ∃ header, headerFromPrecomputed codecs json = .returned (.ok header) ∧
        verifier.verifyHeader core header = .returned true ∧
        VerifiedBlock.fromHeader core header = .ok vb := by
  unfold verifyPrecomputedAndExtract
  rw [Outcome.bindOk_eq_ok]
  apply exists_congr
  intro header
  rw [verifyAndExtract_ok]

/-- The JSON does not decode to a header; or its proof verifies, and there is no state hash. -/
def Undecodable (core : Core T) (codecs : Codecs T) (verifier : Verifier T) (json : String) : Prop :=
  (∃ e, headerFromPrecomputed codecs json = .returned (.error e)) ∨
    ∃ header e, headerFromPrecomputed codecs json = .returned (.ok header) ∧
      verifier.verifyHeader core header = .returned true ∧ core.tryHash header = .error e

theorem verifyAndExtract_error {header : BlockHeader T} {e : VerifierError} (hproof : e ≠ .proofInvalid) :
    verifier.verifyAndExtract core header = .returned (.error e) ↔
      verifier.verifyHeader core header = .returned true ∧
        ∃ text, core.tryHash header = .error text ∧ e = .blockDecode text := by
  unfold verifyAndExtract VerifiedBlock.fromHeader
  rw [Outcome.bind_eq_returned]
  constructor
  · intro h
    obtain ⟨ok, hok, h⟩ := h
    cases ok with
    | false =>
      simp only [Bool.false_eq_true, if_false, Outcome.returned.injEq, Except.error.injEq] at h
      exact absurd h.symm hproof
    | true =>
      rw [if_pos rfl] at h
      cases hhash : core.tryHash header with
      | ok stateHash => simp [hhash] at h
      | error text =>
        simp only [hhash, Outcome.returned.injEq, Except.error.injEq] at h
        exact ⟨hok, text, rfl, h.symm⟩
  · intro h
    obtain ⟨hok, text, hhash, rfl⟩ := h
    exact ⟨true, hok, by rw [if_pos rfl, hhash]⟩

theorem verifyAndExtract_proofInvalid {header : BlockHeader T} :
    verifier.verifyAndExtract core header = .returned (.error .proofInvalid) ↔
      verifier.verifyHeader core header = .returned false := by
  rw [verifyAndExtract, Outcome.bind_eq_returned]
  constructor
  · rintro ⟨ok, hok, h⟩
    cases ok with
    | false => exact hok
    | true =>
      rw [if_pos rfl, VerifiedBlock.fromHeader] at h
      cases hhash : core.tryHash header with
      | ok stateHash => simp [hhash] at h
      | error text => simp [hhash] at h
  · intro h
    exact ⟨false, h, rfl⟩

theorem verifyPrecomputedAndExtract_proofInvalid {json : String} :
    verifier.verifyPrecomputedAndExtract core codecs json = .returned (.error .proofInvalid) ↔
      ∃ header, headerFromPrecomputed codecs json = .returned (.ok header) ∧
        verifier.verifyHeader core header = .returned false := by
  rw [verifyPrecomputedAndExtract, Outcome.bindOk_eq_error]
  constructor
  · rintro (h | ⟨header, hheader, h⟩)
    · obtain ⟨text, h⟩ := invalidOnly_headerFromPrecomputed codecs json _ h
      nomatch h
    · exact ⟨header, hheader, verifyAndExtract_proofInvalid.mp h⟩
  · rintro ⟨header, hheader, h⟩
    exact Or.inr ⟨header, hheader, verifyAndExtract_proofInvalid.mpr h⟩

theorem undecodable_iff {json : String} :
    Undecodable core codecs verifier json ↔ ∃ e, e ≠ .proofInvalid ∧
      verifier.verifyPrecomputedAndExtract core codecs json = .returned (.error e) := by
  unfold verifyPrecomputedAndExtract
  constructor
  · intro h
    obtain ⟨e, h⟩ | ⟨header, text, h, hok, hhash⟩ := h
    · obtain ⟨text, rfl⟩ := invalidOnly_headerFromPrecomputed codecs json e h
      exact ⟨_, by simp, Outcome.bindOk_eq_error.mpr (Or.inl h)⟩
    · have hextract := (verifyAndExtract_error (by simp)).mpr ⟨hok, text, hhash, rfl⟩
      exact ⟨_, by simp, Outcome.bindOk_eq_error.mpr (Or.inr ⟨header, h, hextract⟩)⟩
  · intro h
    obtain ⟨e, hproof, h⟩ := h
    obtain h | ⟨header, h, hextract⟩ := Outcome.bindOk_eq_error.mp h
    · exact Or.inl ⟨e, h⟩
    · obtain ⟨hok, text, hhash, _⟩ := (verifyAndExtract_error hproof).mp hextract
      exact Or.inr ⟨header, text, h, hok, hhash⟩

end Verifier
end MinaVerify
