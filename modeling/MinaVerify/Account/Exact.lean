import MinaVerify.Account.Completeness

/-! # What a peer may change unnoticed

`verify_account_at_root` reads of each child-hash answer the child beside the path, and of the contents the
first account. It accepts exactly the answers in which these are the ledger's own: the siblings the root
commits to, and an account with the hash of the leaf. The child on the path and the accounts after the
first are never looked at, so answers that differ there are accepted as well. -/
namespace MinaVerify
set_option autoImplicit false

variable {T : Types} {L : LedgerTypes} {tree : MinaTree T L} {index : UInt64} {depth : ℕ}

/-! ## Each answer on its own -/

/-- The child hash beside the path. -/
def offPath (index : UInt64) (depth level : ℕ) (left right : T.LedgerHash) : T.LedgerHash :=
  if goesRight index depth level then left else right

theorem siblingAt_ok {level : ℕ} {answer : SyncAnswer T L} {step : MerklePath L} :
    siblingAt tree index depth level answer = .ok step ↔
      ∃ left right fp, answer = .childHashesAre left right ∧
        tree.toField (offPath index depth level left right) = some fp ∧
        step = if goesRight index depth level then .right fp else .left fp := by
  unfold siblingAt offPath hashToFp
  cases answer with
  | childHashesAre left right =>
    cases goesRight index depth level with
    | true =>
      cases hfp : tree.toField left with
      | none => simp [Except.map, hfp]
      | some fp => simp [Except.map, hfp, eq_comm]
    | false =>
      cases hfp : tree.toField right with
      | none => simp [Except.map, hfp]
      | some fp => simp [Except.map, hfp, eq_comm]
  | contentsAre accounts => simp
  | numAccounts count contentsRoot => simp

theorem leafAccount_ok {answer : Option (SyncAnswer T L)} {account : L.Account} :
    leafAccount tree answer = .ok account ↔
      ∃ wire rest, answer = some (.contentsAre (wire :: rest)) ∧ tree.decodeAccount wire = some account := by
  unfold leafAccount
  split
  · next wire rest =>
    cases hwire : tree.decodeAccount wire with
    | none => simp [hwire]
    | some decoded => simp [hwire]
  · next hnot =>
    simp only [reduceCtorEq, false_iff]
    rintro ⟨wire, rest, rfl, _⟩
    exact hnot wire rest rfl

theorem rootToLeaf_eq_ok {level : ℕ} {answers : List (SyncAnswer T L)} {steps : List (MerklePath L)} :
    rootToLeaf tree index depth level answers = .ok steps ↔
      steps.length = answers.length ∧ ∀ k answer step, answers[k]? = some answer → steps[k]? = some step →
        siblingAt tree index depth (level + k) answer = .ok step := by
  induction answers generalizing level steps with
  | nil =>
    rw [rootToLeaf, Except.ok.injEq]
    constructor
    · rintro rfl
      simp
    · rintro ⟨hlen, _⟩
      exact (List.length_eq_zero_iff.mp hlen).symm
  | cons answer answers ih =>
    constructor
    · intro h
      simp only [rootToLeaf] at h
      split at h
      · simp at h
      · next first hfirst =>
        split at h
        · simp at h
        · next rest hrest =>
          obtain rfl := Except.ok.inj h
          obtain ⟨hlen, hall⟩ := ih.mp hrest
          refine ⟨by simp [hlen], ?_⟩
          intro k answer' step hk hs
          cases k with
          | zero =>
            simp only [List.getElem?_cons_zero, Option.some.injEq] at hk hs
            rw [← hk, ← hs]
            exact hfirst
          | succ k =>
            rw [List.getElem?_cons_succ] at hk hs
            rw [← Nat.succ_add_eq_add_succ]
            exact hall k answer' step hk hs
    · rintro ⟨hlen, hall⟩
      cases steps with
      | nil => simp at hlen
      | cons first rest =>
        have hfirst := hall 0 answer first rfl rfl
        have hrest : rootToLeaf tree index depth (level + 1) answers = .ok rest := by
          refine ih.mpr ⟨by simpa using hlen, ?_⟩
          intro k answer' step hk hs
          have := hall (k + 1) answer' step (by simpa using hk) (by simpa using hs)
          rwa [← Nat.succ_add_eq_add_succ] at this
        rw [Nat.add_zero] at hfirst
        simp only [rootToLeaf, hfirst, hrest]

theorem accountWithPath_eq_ok {answers : List (SyncAnswer T L)} {account : L.Account}
    {path : List (MerklePath L)} :
    accountWithPath tree index depth answers = .ok (account, path) ↔
      answers.length = depth + 1 ∧
      rootToLeaf tree index depth 0 (answers.take depth) = .ok path.reverse ∧
      leafAccount tree answers[depth]? = .ok account := by
  constructor
  · intro h
    obtain ⟨steps, hlen, hsteps, hleaf, rfl⟩ := accountWithPath_ok h
    exact ⟨hlen, by rwa [List.reverse_reverse], hleaf⟩
  · rintro ⟨hlen, hsteps, hleaf⟩
    unfold accountWithPath
    rw [if_neg (by simp [hlen]), hsteps]
    simp only [hleaf, List.reverse_reverse]

/-! ## All answers -/

section Ledger
variable (tree) (empty : L.Fp) (ledger : Ledger L depth)

/-- The hash beside the path to a leaf, a number of levels below the root. -/
def Ledger.siblingHash (i level : ℕ) : L.Fp :=
  ledger.nodeHash tree empty (depth - 1 - level) (Merkle.siblingPosition (i / 2 ^ (depth - 1 - level)))

/-- The answers give the ledger's own sibling at every level, and a first account with the hash of the
leaf. -/
structure Binds (index : UInt64) (answers : List (SyncAnswer T L)) (account : L.Account) : Prop where
  count : answers.length = depth + 1
  siblings : ∀ level < depth, ∃ left right, answers[level]? = some (.childHashesAre left right) ∧
    tree.toField (offPath index depth level left right) =
      some (ledger.siblingHash tree empty index.toNat level)
  leaf : ∃ wire rest, answers[depth]? = some (.contentsAre (wire :: rest)) ∧
    tree.decodeAccount wire = some account
  hash : tree.accountHash account = ledger.leafHash tree empty index.toNat

variable {tree empty ledger}

theorem reverse_merklePath (i : ℕ) : (ledger.merklePath tree empty i).reverse =
    (List.range depth).map fun level =>
      Merkle.stepAt tree.hashNode (ledger.leafHash tree empty) i (depth - 1 - level) := by
  rw [← reverse_stepAt, List.reverse_reverse]

/-- The siblings that assemble to the leaf's own path are the ledger's, level by level. -/
theorem rootToLeaf_merklePath (hd : depth ≤ 64) {answers : List (SyncAnswer T L)}
    (hlen : answers.length = depth + 1) :
    rootToLeaf tree index depth 0 (answers.take depth) =
        .ok (ledger.merklePath tree empty index.toNat).reverse ↔
      ∀ level < depth, ∃ left right, answers[level]? = some (.childHashesAre left right) ∧
        tree.toField (offPath index depth level left right) =
          some (ledger.siblingHash tree empty index.toNat level) := by
  have hstep : ∀ level < depth, ∀ answer,
      siblingAt tree index depth level answer = .ok (Merkle.stepAt tree.hashNode
          (ledger.leafHash tree empty) index.toNat (depth - 1 - level)) ↔
        ∃ left right, answer = .childHashesAre left right ∧
          tree.toField (offPath index depth level left right) =
            some (ledger.siblingHash tree empty index.toNat level) := by
    intro level hlevel answer
    rw [siblingAt_ok, Merkle.stepAt, goesRight_eq_testBit hd hlevel]
    refine exists_congr fun left => exists_congr fun right => ?_
    cases index.toNat.testBit (depth - 1 - level) with
    | true => simp [Ledger.siblingHash, Ledger.nodeHash, eq_comm]
    | false => simp [Ledger.siblingHash, Ledger.nodeHash, eq_comm]
  have htake : (answers.take depth).length = depth := by
    rw [List.length_take, hlen]
    omega
  rw [rootToLeaf_eq_ok, reverse_merklePath, List.length_map, List.length_range, htake]
  simp only [Nat.zero_add, true_and]
  constructor
  · intro h level hlevel
    obtain ⟨answer, hanswer⟩ : ∃ answer, answers[level]? = some answer :=
      ⟨_, List.getElem?_eq_getElem (by omega)⟩
    obtain ⟨left, right, rfl, hfp⟩ := (hstep level hlevel answer).mp
      (h level answer _ (by rw [List.getElem?_take_of_lt hlevel, hanswer]) (by simp [hlevel]))
    exact ⟨left, right, hanswer, hfp⟩
  · intro h k answer step hk hs
    have hlt : k < depth := by
      have := (List.getElem?_eq_some_iff.mp hk).1
      omega
    rw [List.getElem?_take_of_lt hlt] at hk
    rw [List.getElem?_map, List.getElem?_range hlt, Option.map_some, Option.some.injEq] at hs
    obtain ⟨left, right, hanswer, hfp⟩ := h k hlt
    rw [hk, Option.some.injEq] at hanswer
    rw [← hs]
    exact (hstep k hlt answer).mpr ⟨left, right, hanswer, hfp⟩

end Ledger

/-- **Which answers are accepted.** Whatever a peer sends in answer to the plan of a leaf, the read returns
an account exactly when the answers carry the ledger's own sibling at every level and first of their
contents an account with the hash of the leaf. -/
theorem read_accepts_iff [DecidableEq L.Fp]
    (hnode : ∀ height, Function.Injective2 (tree.hashNode height)) (hd : depth ≤ 64)
    (ledger : Ledger L depth) (empty : L.Fp) {root : T.LedgerHash}
    (hroot : tree.toField root = some (ledger.root tree empty)) (hindex : index.toNat < 2 ^ depth)
    (answers : List (SyncAnswer T L)) (account : L.Account) :
    verifyAccountAtRoot tree root index depth answers = .ok account ↔
      Binds tree empty ledger index answers account := by
  constructor
  · intro h
    have hhash := leafHash_of_verified hnode hd ledger empty hroot hindex h
    obtain ⟨path, rootFp, hpath, hfp, hfold⟩ := verifyAccountAtRoot_ok.mp h
    rw [hroot, Option.some.injEq] at hfp
    obtain ⟨hlen, hfollows⟩ := accountWithPath_follows hd hpath
    obtain ⟨hcount, hsteps, hleaf⟩ := accountWithPath_eq_ok.mp hpath
    have hown : path = ledger.merklePath tree empty index.toNat := by
      have htop : Merkle.fold tree.hashNode (tree.accountHash account) path =
          Merkle.nodeHash tree.hashNode (ledger.leafHash tree empty) path.length
            (index.toNat / 2 ^ path.length) := by
        rw [← impliedRoot_eq_fold, hfold, ← hfp, hlen, Nat.div_eq_of_lt hindex]
        rfl
      have hup := Merkle.path_of_fold tree.hashNode (ledger.leafHash tree empty) hnode hfollows htop
      rwa [hlen] at hup
    rw [hown] at hsteps
    exact ⟨hcount, (rootToLeaf_merklePath hd hcount).mp hsteps, leafAccount_ok.mp hleaf, hhash⟩
  · intro h
    have hsteps := (rootToLeaf_merklePath hd h.count).mpr h.siblings
    refine verifyAccountAtRoot_ok.mpr ⟨_, _, accountWithPath_eq_ok.mpr
      ⟨h.count, hsteps, leafAccount_ok.mpr h.leaf⟩, hroot, ?_⟩
    rw [impliedRoot_eq_fold, h.hash, Ledger.merklePath, Merkle.fold_pathOf, Nat.div_eq_of_lt hindex]
    rfl

open SymbolicLedger in
/-- The child on the path is a lie and the contents have a second account: leaf 2 is accepted still. -/
theorem read_accepts_lie_on_path :
    verifyAccountAtRoot termTree (.node 1 (.node 0 (.account 10) (.account 11))
        (.node 0 (.account 12) .empty)) 2 2
      [.childHashesAre (.node 0 (.account 10) (.account 11)) .empty,
        .childHashesAre (.account 99) .empty, .contentsAre [12, 99]] = .ok 12 := by
  rw [read_accepts_iff hashNode_injective (by omega) threeAccounts .empty (by decide +kernel) (by decide)]
  refine ⟨rfl, ?_, ⟨12, [99], rfl, rfl⟩, rfl⟩
  intro level hlevel
  match level, hlevel with
  | 0, _ => exact ⟨_, _, rfl, by decide +kernel⟩
  | 1, _ => exact ⟨_, _, rfl, by decide +kernel⟩

end MinaVerify
