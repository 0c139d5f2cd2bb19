import Mathlib.Data.Fin.VecNotation
import MinaVerify.Account.Read

/-! # What an accepted read proves

The peer chooses every answer, but not the directions of the path: these are bits of the index that
was asked for, the top one first in the answers and the lowest one first in the path. With them fixed,
folding to the root pins the account. -/
namespace MinaVerify
set_option autoImplicit false

variable {T : Types} {L : LedgerTypes} {tree : MinaTree T L} {index : UInt64} {depth : ℕ}

theorem toNat_shiftRight {n : ℕ} (hn : n < 64) (index : UInt64) :
    (index >>> UInt64.ofNat n).toNat = index.toNat / 2 ^ n := by
  have hlt : n < 2 ^ 64 := by omega
  rw [UInt64.toNat_shiftRight, UInt64.toNat_ofNat_of_lt' hlt, Nat.mod_eq_of_lt hn,
    Nat.shiftRight_eq_div_pow]

theorem goesRight_eq_testBit (hd : depth ≤ 64) {level : ℕ} (hlevel : level < depth) :
    goesRight index depth level = index.toNat.testBit (depth - 1 - level) := by
  have hamount : depth - level - 1 = depth - 1 - level := by omega
  have hiff : (index >>> UInt64.ofNat (depth - level - 1)) &&& 1 = 1 ↔
      index.toNat / 2 ^ (depth - 1 - level) % 2 = 1 := by
    rw [← UInt64.toNat_inj, UInt64.toNat_and, toNat_shiftRight (by omega), hamount]
    exact Nat.and_one_is_mod _ ▸ Iff.rfl
  rw [goesRight, Nat.testBit_eq_decide_div_mod_eq, Bool.eq_iff_iff, beq_iff_eq, decide_eq_true_iff]
  exact hiff

/-! ## Assembly -/

theorem siblingAt_isRight {level : ℕ} {answer : SyncAnswer T L} {step : MerklePath L}
    (h : siblingAt tree index depth level answer = .ok step) :
    step.isRight = goesRight index depth level := by
  unfold siblingAt hashToFp at h
  split at h
  · split_ifs at h with hright <;> split at h <;>
      simp only [Except.map, Except.ok.injEq, reduceCtorEq] at h
    · rw [← h, hright]
      rfl
    · rw [← h, Bool.eq_false_iff.mpr hright]
      rfl
  · simp at h

theorem rootToLeaf_ok {level : ℕ} {answers : List (SyncAnswer T L)} {steps : List (MerklePath L)}
    (h : rootToLeaf tree index depth level answers = .ok steps) :
    steps.length = answers.length ∧
      ∀ k step, steps[k]? = some step → step.isRight = goesRight index depth (level + k) := by
  induction answers generalizing level steps with
  | nil =>
    simp only [rootToLeaf, Except.ok.injEq] at h
    subst h
    simp
  | cons answer answers ih =>
    simp only [rootToLeaf] at h
    split at h
    · simp at h
    · next first hfirst =>
      split at h
      · simp at h
      · next rest hrest =>
        rw [Except.ok.injEq] at h
        subst h
        obtain ⟨hlen, hdir⟩ := ih hrest
        refine ⟨by simp [hlen], ?_⟩
        intro k step hk
        cases k with
        | zero =>
          simp only [List.getElem?_cons_zero, Option.some.injEq] at hk
          exact hk ▸ siblingAt_isRight hfirst
        | succ k =>
          rw [List.getElem?_cons_succ] at hk
          rw [hdir k step hk, Nat.add_assoc, Nat.add_comm 1 k]

theorem accountWithPath_ok {answers : List (SyncAnswer T L)} {account : L.Account}
    {path : List (MerklePath L)} (h : accountWithPath tree index depth answers = .ok (account, path)) :
    ∃ steps, answers.length = depth + 1 ∧
      rootToLeaf tree index depth 0 (answers.take depth) = .ok steps ∧
      leafAccount tree answers[depth]? = .ok account ∧ path = steps.reverse := by
  unfold accountWithPath at h
  split_ifs at h with hlen
  split at h
  · simp at h
  · next steps hsteps =>
    split at h
    · simp at h
    · next account' haccount =>
      simp only [Except.ok.injEq, Prod.mk.injEq] at h
      obtain ⟨rfl, rfl⟩ := h
      exact ⟨steps, not_not.mp hlen, hsteps, haccount, rfl⟩

/-- The path of any read that assembles has the shape of the index. -/
theorem accountWithPath_follows (hd : depth ≤ 64) {answers : List (SyncAnswer T L)}
    {account : L.Account} {path : List (MerklePath L)}
    (h : accountWithPath tree index depth answers = .ok (account, path)) :
    path.length = depth ∧ Merkle.Follows index.toNat path := by
  obtain ⟨steps, hlen, hsteps, _, rfl⟩ := accountWithPath_ok h
  obtain ⟨hcount, hdir⟩ := rootToLeaf_ok hsteps
  have hdepth : steps.length = depth := by
    rw [hcount, List.length_take, hlen]
    omega
  refine ⟨by rw [List.length_reverse, hdepth], ?_⟩
  intro k step hk
  have hlt : k < depth := by
    have := (List.getElem?_eq_some_iff.mp hk).1
    rwa [List.length_reverse, hdepth] at this
  rw [List.getElem?_reverse (by omega), hdepth] at hk
  rw [hdir _ step hk, Nat.zero_add, goesRight_eq_testBit hd (by omega)]
  congr 1
  omega

theorem verifyAccountAtRoot_ok [DecidableEq L.Fp] {root : T.LedgerHash}
    {answers : List (SyncAnswer T L)} {account : L.Account} :
    verifyAccountAtRoot tree root index depth answers = .ok account ↔
      ∃ path rootFp, accountWithPath tree index depth answers = .ok (account, path) ∧
        tree.toField root = some rootFp ∧ impliedRoot tree account path = rootFp := by
  unfold verifyAccountAtRoot
  constructor
  · intro h
    split at h
    · simp at h
    · next account' path hpath =>
      split at h
      · simp at h
      · next rootFp hroot =>
        split_ifs at h with hfold
        rw [Except.ok.injEq] at h
        subst h
        exact ⟨path, rootFp, hpath, hroot, hfold⟩
  · rintro ⟨path, rootFp, hpath, hroot, hfold⟩
    simp only [hpath, hroot, if_pos hfold]

/-- What a read accepts has the hash of the leaf that was asked for. -/
theorem leafHash_of_verified [DecidableEq L.Fp]
    (hnode : ∀ height, Function.Injective2 (tree.hashNode height)) (hd : depth ≤ 64)
    (ledger : Ledger L depth) (empty : L.Fp) {root : T.LedgerHash}
    (hroot : tree.toField root = some (ledger.root tree empty)) (hindex : index.toNat < 2 ^ depth)
    {answers : List (SyncAnswer T L)} {account : L.Account}
    (h : verifyAccountAtRoot tree root index depth answers = .ok account) :
    tree.accountHash account = ledger.leafHash tree empty index.toNat := by
  obtain ⟨path, rootFp, hpath, hfp, hfold⟩ := verifyAccountAtRoot_ok.mp h
  rw [hroot, Option.some.injEq] at hfp
  obtain ⟨hlen, hfollows⟩ := accountWithPath_follows hd hpath
  exact Ledger.accountHash_of_impliedRoot tree empty ledger hnode hindex hlen hfollows
    (hfold.trans hfp.symm)

/-- **An accepted account is the account of the leaf that was asked for**, whatever the peer
answered. -/
theorem verifyAccountAtRoot_sound [DecidableEq L.Fp]
    (hnode : ∀ height, Function.Injective2 (tree.hashNode height))
    (haccount : Function.Injective tree.accountHash) (hd : depth ≤ 64)
    (accounts : Fin (2 ^ depth) → L.Account) (empty : L.Fp) {root : T.LedgerHash}
    (hroot : tree.toField root = some (Ledger.root tree empty fun i => some (accounts i)))
    (hindex : index.toNat < 2 ^ depth) (answers : List (SyncAnswer T L)) {account : L.Account}
    (h : verifyAccountAtRoot tree root index depth answers = .ok account) :
    account = accounts ⟨index.toNat, hindex⟩ := by
  have hhash := leafHash_of_verified hnode hd _ empty hroot hindex h
  rw [Ledger.leafHash_of_account tree empty _ (Ledger.account_of_lt _ hindex)] at hhash
  exact haccount hhash

/-! ## A symbolic ledger

Hashes are terms, accounts are their balances, an address is its own list of directions. -/

namespace SymbolicLedger

inductive Digest where
  | account (balance : ℕ)
  | node (height : ℕ) (left right : Digest)
  | empty
  deriving DecidableEq

abbrev types : Types where
  StateHash := Unit
  LedgerHash := Digest
  ConsensusRest := Unit
  Proof := Unit
  VerifierIndex := Unit

abbrev ledgerTypes : LedgerTypes where
  Fp := Digest
  Account := ℕ
  WireAccount := ℕ
  Address := List Bool

def termTree : MinaTree types ledgerTypes where
  toField := some
  hashNode := .node
  accountHash := .account
  decodeAccount := some
  addressFromIndex := fun index level => Merkle.address level index.toNat

theorem hashNode_injective (height : ℕ) : Function.Injective2 (termTree.hashNode height) := by
  intro left left' right right' h
  simpa [termTree] using h

theorem accountHash_injective : Function.Injective termTree.accountHash := by
  intro a b h
  simpa [termTree] using h

def twoAccounts : Fin (2 ^ 1) → ledgerTypes.Account := ![10, 11]

end SymbolicLedger

open SymbolicLedger in
/-- The peer serves leaf 1 of a ledger with balances 10 and 11, with a spare account in its answer. -/
theorem verifyAccountAtRoot_sound_leaf_one :
    verifyAccountAtRoot termTree (.node 0 (.account 10) (.account 11)) 1 1
        [.childHashesAre (.account 10) (.account 11), .contentsAre [11, 12]] = .ok 11 ∧
      11 = (![10, 11] : Fin 2 → ℕ) 1 := by
  have hread : verifyAccountAtRoot termTree (.node 0 (.account 10) (.account 11)) 1 1
      [.childHashesAre (.account 10) (.account 11), .contentsAre [11, 12]] = .ok 11 := by
    decide +kernel
  exact ⟨hread, verifyAccountAtRoot_sound hashNode_injective accountHash_injective (by omega)
    (![10, 11] : Fin 2 → ℕ) .empty (by decide +kernel) (by decide) _ hread⟩

end MinaVerify
