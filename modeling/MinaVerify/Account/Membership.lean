import MinaVerify.Account.Soundness

/-! # Inclusion proofs of any shape

`verify_account_inclusion` checks neither the length of a path nor the position it speaks of. Both are
in the fold: the height is hashed into every node, and the sides taken spell the position. So an
accepted path is one of the ledger's depth, and its account is the one at the position it spells. -/
namespace MinaVerify
set_option autoImplicit false

variable {T : Types} {L : LedgerTypes} {tree : MinaTree T L} {depth : ℕ}

theorem verifyAccountInclusion_iff [DecidableEq L.Fp] {block : Block T} {root : L.Fp}
    (hroot : ledgerRoot tree block = some root) {account : L.Account}
    {merklePath : List (MerklePath L)} :
    verifyAccountInclusion tree block account merklePath = true ↔
      impliedRoot tree account merklePath = root := by
  rw [verifyAccountInclusion, hroot]
  exact decide_eq_true_iff

/-- **What an inclusion proof proves.** -/
theorem inclusion_membership [DecidableEq L.Fp]
    (hnode : ∀ h l r h' l' r', tree.hashNode h l r = tree.hashNode h' l' r' →
      h = h' ∧ l = l' ∧ r = r')
    (hapart : ∀ h l r account, tree.hashNode h l r ≠ tree.accountHash account)
    (haccount : Function.Injective tree.accountHash) (accounts : Fin (2 ^ depth) → L.Account)
    (empty : L.Fp) {block : Block T}
    (hroot : ledgerRoot tree block = some (Ledger.root tree empty fun i => some (accounts i))) :
    (∀ account merklePath, verifyAccountInclusion tree block account merklePath = true →
      merklePath.length = depth ∧
      ∃ i : Fin (2 ^ depth), (∀ h step, merklePath[h]? = some step →
          (i.val.testBit h = true ↔ step.isRight = true)) ∧ account = accounts i) ∧
    ∀ i : Fin (2 ^ depth), verifyAccountInclusion tree block (accounts i)
      (Ledger.merklePath tree empty (fun i => some (accounts i)) i) = true := by
  have hfilled : ∀ i : Fin (2 ^ depth),
      Ledger.account (fun i => some (accounts i)) i = some (accounts i) :=
    fun i => Ledger.account_of_lt _ i.isLt
  constructor
  · intro account merklePath h
    rw [verifyAccountInclusion_iff hroot] at h
    have hlen : merklePath.length = depth := by
      have hleaf := Ledger.leafHash_of_account tree empty _ (hfilled ⟨0, Nat.two_pow_pos depth⟩)
      rw [impliedRoot_eq_fold] at h
      refine Merkle.length_of_fold tree.hashNode _ ?_ (fun h l r => hapart h l r account) ?_ h
      · exact fun h l r h' l' r' he => (hnode h l r h' l' r' he).1
      · intro h l r
        rw [hleaf]
        exact hapart h l r _
    have hlt : Merkle.leafIndex merklePath < 2 ^ depth := hlen ▸ Merkle.leafIndex_lt merklePath
    refine ⟨hlen, ⟨Merkle.leafIndex merklePath, hlt⟩, ?_, ?_⟩
    · intro h step hstep
      rw [Merkle.follows_leafIndex merklePath h step hstep]
    · apply haccount
      rw [← Ledger.leafHash_of_account tree empty _ (hfilled _)]
      exact Ledger.accountHash_of_impliedRoot tree empty _
        (fun h _ _ _ _ he => (hnode h _ _ h _ _ he).2) hlt hlen (Merkle.follows_leafIndex _) h
  · intro i
    rw [verifyAccountInclusion_iff hroot]
    exact Ledger.impliedRoot_merklePath tree empty _ i.isLt (hfilled i)

namespace SymbolicLedger

/-- A block that commits to the root as its staged ledger. -/
def blockOf (root : Digest) : Block types where
  header :=
    { deltaBlockChainProof := ((), [])
      currentProtocolVersion := ⟨0, 0, 0⟩
      protocolState := ⟨(), ⟨⟨root⟩, ⟨1, ()⟩⟩⟩
      protocolStateProof := ()
      proposedProtocolVersionOpt := none }

end SymbolicLedger

open SymbolicLedger in
/-- The sibling on the right: the account is the one at index 0. -/
theorem inclusion_membership_leaf_zero :
    verifyAccountInclusion termTree (blockOf (.node 0 (.account 10) (.account 11))) 10
        [.left (.account 11)] = true ∧
      ∃ i, i.val.testBit 0 = false ∧ 10 = twoAccounts i := by
  have hnode : ∀ h l r h' l' r', termTree.hashNode h l r = termTree.hashNode h' l' r' →
      h = h' ∧ l = l' ∧ r = r' := by
    intro h l r h' l' r' he
    simpa [termTree] using he
  have hapart : ∀ h l r account, termTree.hashNode h l r ≠ termTree.accountHash account := by
    intro h l r account he
    simp [termTree] at he
  have hroot : ledgerRoot termTree (blockOf (.node 0 (.account 10) (.account 11))) =
      some (Ledger.root termTree .empty fun i => some (twoAccounts i)) := by
    decide +kernel
  have hpath : verifyAccountInclusion termTree (blockOf (.node 0 (.account 10) (.account 11))) 10
      [.left (.account 11)] = true := by decide +kernel
  obtain ⟨_, i, hbits, hi⟩ := (inclusion_membership hnode hapart accountHash_injective
    twoAccounts .empty hroot).1 10 [.left (.account 11)] hpath
  refine ⟨hpath, i, ?_, hi⟩
  have hbit := hbits 0 (.left (.account 11)) rfl
  simpa [Merkle.Step.isRight] using hbit

end MinaVerify
