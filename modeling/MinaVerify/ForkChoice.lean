import Mathlib.Data.Nat.Notation
import MinaVerify.Block

/-! # Fork choice over verified tips

`crates/mina-verify/src/fork_choice.rs`. `consensus_take` is `mina-core`'s and stays a parameter;
this module is what the crate builds on it: the verified tip, the comparison of two tips, and the
selection of one tip among several.
-/
namespace MinaVerify
set_option autoImplicit false

variable {T : Types}

structure VerifiedTip (T : Types) where
  block : Block T
  stateHash : T.StateHash

namespace VerifiedTip

def consensusState (tip : VerifiedTip T) : ConsensusState T :=
  tip.block.header.protocolState.body.consensusState

def previousStateHash (tip : VerifiedTip T) : T.StateHash :=
  tip.block.header.protocolState.previousStateHash

def height (tip : VerifiedTip T) : UInt32 := tip.consensusState.blockchainLength

end VerifiedTip

/-- `Verifier::verify_tip`: `none` when the proof does not verify, an error when the block has a
malformed field. -/
def Verifier.verifyTip (core : Core T) (verifier : Verifier T) (block : Block T) :
    Outcome (Except String (Option (VerifiedTip T))) :=
  (verifier.verifyBlock core block).bind fun ok =>
    .returned <|
      if ok then
        match core.tryHash block.header with
        | .ok stateHash => .ok (some ⟨block, stateHash⟩)
        | .error e => .error e
      else .ok none

def isShortRangeFork (core : Core T) (a b : VerifiedTip T) : Bool :=
  core.isShortRangeFork a.consensusState b.consensusState

def prefersCandidate (core : Core T) (tip candidate : VerifiedTip T) : Bool :=
  core.consensusTake tip.consensusState candidate.consensusState tip.stateHash candidate.stateHash

inductive ForkRange where
  | short
  | long
  deriving DecidableEq, Repr

inductive TipComparison where
  | same
  | diverged (canonicalIsB : Bool) (range : ForkRange)
  deriving DecidableEq, Repr

def compareTips [DecidableEq T.StateHash] (core : Core T) (a b : VerifiedTip T) : TipComparison :=
  if a.stateHash = b.stateHash then .same
  else
    let range := if isShortRangeFork core a b then ForkRange.short else ForkRange.long
    .diverged (prefersCandidate core a b) range

/-- The body of the loop of `select_canonical`; both indices are in range there. -/
def challenge (core : Core T) (tips : List (VerifiedTip T)) (best i : ℕ) : ℕ :=
  match tips[best]?, tips[i]? with
  | some tip, some candidate => if prefersCandidate core tip candidate then i else best
  | _, _ => best

def selectCanonical (core : Core T) (tips : List (VerifiedTip T)) : Option ℕ :=
  if tips.isEmpty then none
  else some ((List.range' 1 (tips.length - 1)).foldl (challenge core tips) 0)

/-! ## A concrete chain

State hashes are their own text, the longer chain wins and equal lengths are decided by the hash, as
`consensus_take` does on short forks without VRF information. -/

namespace Sample

abbrev types : Types where
  StateHash := String
  LedgerHash := String
  ConsensusRest := Unit
  Proof := Unit
  VerifierIndex := Unit

def consensusTake (tip candidate : ConsensusState types) (tipHash candidateHash : String) : Bool :=
  if tip.blockchainLength = candidate.blockchainLength then decide (tipHash < candidateHash)
  else decide (tip.blockchainLength < candidate.blockchainLength)

def minaCore : Core types where
  stateHashToString := id
  tryHash := fun h => .ok h.protocolState.previousStateHash
  verifyBlockProof := fun _ _ => .returned true
  consensusTake := consensusTake
  isShortRangeFork := fun _ _ => true

def tip (hash prev : String) (height : UInt32) : VerifiedTip types where
  block :=
    { header :=
        { deltaBlockChainProof := (prev, [])
          currentProtocolVersion := ⟨0, 0, 0⟩
          protocolState := ⟨prev, ⟨⟨"ledger"⟩, ⟨height, ()⟩⟩⟩
          protocolStateProof := ()
          proposedProtocolVersionOpt := none } }
  stateHash := hash

end Sample
end MinaVerify
