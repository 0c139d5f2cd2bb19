import MinaVerify.Account.Completeness

/-! # Indices past the end of the ledger

A read takes its directions from the low bits of the index, one for each level, and never compares the
index with the size of the ledger. So two indices that agree modulo that size are read alike, answer
for answer, and an index past the end reads the leaf it wraps round to. -/
namespace MinaVerify
set_option autoImplicit false

variable {T : Types} {L : LedgerTypes} {tree : MinaTree T L} {index index' : UInt64} {depth : ℕ}

/-! ## Indices that are read alike -/

theorem goesRight_congr (hd : depth ≤ 64) (h : index.toNat % 2 ^ depth = index'.toNat % 2 ^ depth)
    {level : ℕ} (hlevel : level < depth) :
    goesRight index depth level = goesRight index' depth level := by
  have hbit : ∀ i : ℕ, i.testBit (depth - 1 - level) = (i % 2 ^ depth).testBit (depth - 1 - level) := by
    intro i
    have hlt : depth - 1 - level < depth := by omega
    rw [Nat.testBit_mod_two_pow, decide_eq_true hlt, Bool.true_and]
  rw [goesRight_eq_testBit hd hlevel, goesRight_eq_testBit hd hlevel, hbit, h, ← hbit]

theorem rootToLeaf_congr (hd : depth ≤ 64)
    (h : index.toNat % 2 ^ depth = index'.toNat % 2 ^ depth) {level : ℕ}
    (answers : List (SyncAnswer T L)) (hlen : level + answers.length ≤ depth) :
    rootToLeaf tree index depth level answers = rootToLeaf tree index' depth level answers := by
  induction answers generalizing level with
  | nil => rfl
  | cons answer answers ih =>
    rw [List.length_cons] at hlen
    have hright := goesRight_congr hd h (by omega : level < depth)
    have hstep : siblingAt tree index depth level answer = siblingAt tree index' depth level answer := by
      cases answer with
      | childHashesAre left right => simp only [siblingAt, hright]
      | contentsAre accounts => rfl
      | numAccounts count contentsRoot => rfl
    rw [rootToLeaf, rootToLeaf, hstep, ih (by omega)]

theorem verifyAccountAtRoot_congr [DecidableEq L.Fp] (hd : depth ≤ 64)
    (h : index.toNat % 2 ^ depth = index'.toNat % 2 ^ depth) (root : T.LedgerHash)
    (answers : List (SyncAnswer T L)) :
    verifyAccountAtRoot tree root index depth answers =
      verifyAccountAtRoot tree root index' depth answers := by
  have hpath : accountWithPath tree index depth answers =
      accountWithPath tree index' depth answers := by
    unfold accountWithPath
    rw [rootToLeaf_congr hd h (answers.take depth) (by simp)]
  unfold verifyAccountAtRoot
  rw [hpath]

/-! ## The leaf an index wraps round to -/

/-- The index of the leaf that is read. -/
def wrapped (index : UInt64) (depth : ℕ) : UInt64 := UInt64.ofNat (index.toNat % 2 ^ depth)

theorem toNat_wrapped (index : UInt64) (depth : ℕ) :
    (wrapped index depth).toNat = index.toNat % 2 ^ depth := by
  apply UInt64.toNat_ofNat_of_lt'
  exact (Nat.mod_le _ _).trans_lt index.toNat_lt

theorem wrapped_mod (index : UInt64) (depth : ℕ) :
    index.toNat % 2 ^ depth = (wrapped index depth).toNat % 2 ^ depth := by
  rw [toNat_wrapped, Nat.mod_mod]

section Ledger
variable [DecidableEq L.Fp] (accounts : Fin (2 ^ depth) → L.Account) (empty : L.Fp)
  {root : T.LedgerHash}
  (hroot : tree.toField root = some (Ledger.root tree empty fun i => some (accounts i)))

/-- The leaf of the ledger that a read at the index is about. -/
def leafOf (index : UInt64) (depth : ℕ) : Fin (2 ^ depth) :=
  ⟨index.toNat % 2 ^ depth, Nat.mod_lt _ (Nat.two_pow_pos depth)⟩

include hroot in
theorem exists_answers (conv : Conversions tree) (hd : depth ≤ 64) (index : UInt64) :
    ∃ answers, verifyAccountAtRoot tree root index depth answers =
      .ok (accounts (leafOf index depth)) := by
  have hlt : (wrapped index depth).toNat < 2 ^ depth := by
    rw [toNat_wrapped]
    exact Nat.mod_lt _ (Nat.two_pow_pos depth)
  have hleaf : (⟨(wrapped index depth).toNat, hlt⟩ : Fin (2 ^ depth)) = leafOf index depth :=
    Fin.ext (toNat_wrapped index depth)
  refine ⟨honestAnswers conv empty (fun i => some (accounts i)) (wrapped index depth)
    (accounts (leafOf index depth)), ?_⟩
  rw [verifyAccountAtRoot_congr hd (wrapped_mod index depth)]
  exact verifyAccountAtRoot_honest conv empty _ hd hlt (by rw [hleaf]) hroot

include hroot in
theorem account_of_verified (hnode : ∀ height, Function.Injective2 (tree.hashNode height))
    (haccount : Function.Injective tree.accountHash) (hd : depth ≤ 64)
    {answers : List (SyncAnswer T L)} {account : L.Account}
    (h : verifyAccountAtRoot tree root index depth answers = .ok account) :
    account = accounts (leafOf index depth) := by
  have hlt : (wrapped index depth).toNat < 2 ^ depth := by
    rw [toNat_wrapped]
    exact Nat.mod_lt _ (Nat.two_pow_pos depth)
  rw [verifyAccountAtRoot_congr hd (wrapped_mod index depth)] at h
  have hhash := leafHash_of_verified hnode hd _ empty hroot hlt h
  rw [Ledger.leafHash_of_account tree empty _ (Ledger.account_of_lt _ hlt)] at hhash
  rw [haccount hhash]
  congr 1
  exact Fin.ext (toNat_wrapped index depth)

end Ledger

/-- **When a verified read is bound to its index.** Some answers are accepted at every index, so an
accepted index is one of the ledger's only if it is asked for as such; and two reads at different
indices always tell two accounts apart exactly when the indices differ modulo the size. -/
theorem verified_read_bound_iff [DecidableEq L.Fp] (conv : Conversions tree)
    (hnode : ∀ height, Function.Injective2 (tree.hashNode height))
    (haccount : Function.Injective tree.accountHash) (hd : depth ≤ 63)
    (accounts : Fin (2 ^ depth) → L.Account) (empty : L.Fp) {root : T.LedgerHash}
    (hroot : tree.toField root = some (Ledger.root tree empty fun i => some (accounts i)))
    (index : UInt64) :
    ((∀ answers account, verifyAccountAtRoot tree root index depth answers = .ok account →
        index.toNat < 2 ^ depth) ↔ index.toNat < 2 ^ depth) ∧
    (Function.Injective accounts → ∀ index', index ≠ index' →
      ((∀ answers answers' account account',
          verifyAccountAtRoot tree root index depth answers = .ok account →
          verifyAccountAtRoot tree root index' depth answers' = .ok account' → account ≠ account') ↔
        index.toNat % 2 ^ depth ≠ index'.toNat % 2 ^ depth)) := by
  have hread := exists_answers accounts empty hroot conv (by omega : depth ≤ 64)
  constructor
  · constructor
    · intro h
      obtain ⟨answers, hok⟩ := hread index
      exact h answers _ hok
    · intro hlt _ _ _
      exact hlt
  · intro hdistinct index' _
    constructor
    · intro h hmod
      obtain ⟨answers, hok⟩ := hread index
      have hok' : verifyAccountAtRoot tree root index depth answers =
          verifyAccountAtRoot tree root index' depth answers :=
        verifyAccountAtRoot_congr (by omega) hmod root answers
      exact h answers answers _ _ hok (hok'.symm.trans hok) rfl
    · intro hmod answers answers' account account' hok hok' he
      rw [account_of_verified accounts empty hroot hnode haccount (by omega) hok,
        account_of_verified accounts empty hroot hnode haccount (by omega) hok'] at he
      exact hmod (congrArg Fin.val (hdistinct he))

open SymbolicLedger in
/-- In a ledger of two accounts the answers for leaf 1 are accepted at index 3 too. -/
theorem verified_read_aliased :
    ¬ (∀ answers account, verifyAccountAtRoot termTree (.node 0 (.account 10) (.account 11)) 3 1
        answers = .ok account → (3 : UInt64).toNat < 2 ^ 1) ∧
    ¬ (∀ answers answers' account account',
        verifyAccountAtRoot termTree (.node 0 (.account 10) (.account 11)) 1 1 answers =
          .ok account →
        verifyAccountAtRoot termTree (.node 0 (.account 10) (.account 11)) 3 1 answers' =
          .ok account' → account ≠ account') := by
  have hone : verifyAccountAtRoot termTree (.node 0 (.account 10) (.account 11)) 1 1
      [.childHashesAre (.account 10) (.account 11), .contentsAre [11]] = .ok 11 := by
    decide +kernel
  have hthree : verifyAccountAtRoot termTree (.node 0 (.account 10) (.account 11)) 3 1
      [.childHashesAre (.account 10) (.account 11), .contentsAre [11]] = .ok 11 := by
    decide +kernel
  constructor
  · intro h
    exact absurd (h _ _ hthree) (by decide)
  · intro h
    exact h _ _ _ _ hone hthree rfl

open SymbolicLedger in
theorem verified_read_bound_leaf_one :
    (∀ answers account, verifyAccountAtRoot termTree (.node 0 (.account 10) (.account 11)) 1 1
      answers = .ok account → (1 : UInt64).toNat < 2 ^ 1) ∧
    ∀ answers answers' account account',
      verifyAccountAtRoot termTree (.node 0 (.account 10) (.account 11)) 1 1 answers =
        .ok account →
      verifyAccountAtRoot termTree (.node 0 (.account 10) (.account 11)) 2 1 answers' =
        .ok account' → account ≠ account' := by
  have hroot : termTree.toField (.node 0 (.account 10) (.account 11)) =
      some (Ledger.root termTree .empty fun i => some (twoAccounts i)) := by
    decide +kernel
  obtain ⟨hrange, hpair⟩ := verified_read_bound_iff conversions hashNode_injective
    accountHash_injective (by omega : 1 ≤ 63) _ .empty hroot 1
  have hdistinct : ∀ i j, twoAccounts i = twoAccounts j → i = j := by decide
  exact ⟨hrange.mpr (by decide), (hpair hdistinct 2 (by decide)).mpr (by decide)⟩

end MinaVerify
