import MinaVerify.Foundations.Outcome

/-! # Blocks and the verifier

The part of `mina-p2p-messages`' block type that the crates read, and the verifier of
`crates/mina-verify/src/lib.rs` over it. Types whose inside is never looked at are fields of `Types`;
the functions of the third-party crates that the code calls are fields of `Core`.
-/
namespace MinaVerify
set_option autoImplicit false

/-- The opaque types: hashes, the consensus fields only `consensus_take` reads, the SNARK proof and
the verification key. -/
structure Types where
  StateHash : Type
  LedgerHash : Type
  ConsensusRest : Type
  Proof : Type
  VerifierIndex : Type

variable {T : Types}

/-- `ConsensusProofOfStakeDataConsensusStateValueStableV2`. -/
structure ConsensusState (T : Types) where
  blockchainLength : UInt32
  rest : T.ConsensusRest

/-- `blockchain_state`, down to `staged_ledger_hash.non_snark.ledger_hash`. -/
structure BlockchainState (T : Types) where
  stagedLedgerHash : T.LedgerHash

structure ProtocolStateBody (T : Types) where
  blockchainState : BlockchainState T
  consensusState : ConsensusState T

structure ProtocolState (T : Types) where
  previousStateHash : T.StateHash
  body : ProtocolStateBody T

/-- `ProtocolVersionStableV2`. -/
structure ProtocolVersion where
  transaction : UInt64
  network : UInt64
  patch : UInt64
  deriving DecidableEq, Repr

/-- `MinaBlockHeaderStableV2`. -/
structure BlockHeader (T : Types) where
  deltaBlockChainProof : T.StateHash × List T.StateHash
  currentProtocolVersion : ProtocolVersion
  protocolState : ProtocolState T
  protocolStateProof : T.Proof
  proposedProtocolVersionOpt : Option ProtocolVersion

/-- `MinaBlockBlockStableV2`; nothing here reads the block's body. -/
structure Block (T : Types) where
  header : BlockHeader T

/-- What the crates call of `mina-core`, `mina-tree` and `mina-p2p-messages` on blocks. -/
structure Core (T : Types) where
  /-- `StateHash::to_string`, the base58check text. -/
  stateHashToString : T.StateHash → String
  /-- `BlockHeader::try_hash`; the error text is that of the invalid field element. -/
  tryHash : BlockHeader T → Except String T.StateHash
  /-- `verify_block` of `mina-tree`. -/
  verifyBlockProof : BlockHeader T → T.VerifierIndex → Outcome Bool
  /-- `consensus_take(tip, candidate, tip_hash, candidate_hash)`. -/
  consensusTake : ConsensusState T → ConsensusState T → T.StateHash → T.StateHash → Bool
  isShortRangeFork : ConsensusState T → ConsensusState T → Bool

structure Verifier (T : Types) where
  network : String
  index : T.VerifierIndex

namespace Verifier

/-- `verify_header`: the proof check, which may trip an assertion on a malformed proof. -/
def verifyHeader (core : Core T) (verifier : Verifier T) (header : BlockHeader T) : Outcome Bool :=
  core.verifyBlockProof header verifier.index

def verifyBlock (core : Core T) (verifier : Verifier T) (block : Block T) : Outcome Bool :=
  verifier.verifyHeader core block.header

end Verifier
end MinaVerify
