import MinaVerify.Account.Soundness

/-! # What an honest peer is granted

A peer that holds the ledger and answers the query plan of an index from it is accepted, and the path
assembled from its answers is the leaf's own. The plan names nodes by the top bits of the index, the
assembly picks siblings by single bits, the fold numbers heights from the leaf: the three agree at
every level. -/
namespace MinaVerify
set_option autoImplicit false

variable {T : Types} {L : LedgerTypes} {tree : MinaTree T L} {index : UInt64} {depth : ℕ}

/-- How an address is read and how hashes and accounts are written, with what makes them the inverse
of what the client does: `Address::from_index(i, n)` is the `n`-bit path of `i`, highest bit first,
and what is written reads back. -/
structure Conversions (tree : MinaTree T L) where
  bits : L.Address → List Bool
  ledgerHash : L.Fp → T.LedgerHash
  wireAccount : L.Account → L.WireAccount
  bits_fromIndex : ∀ index level, index.toNat < 2 ^ level →
    bits (tree.addressFromIndex index level) = Merkle.address level index.toNat
  toField_ledgerHash : ∀ fp, tree.toField (ledgerHash fp) = some fp
  decode_wireAccount : ∀ account, tree.decodeAccount (wireAccount account) = some account

/-- The peer of the crate's tests: the child hashes of the addressed node, the filled accounts under
it in leaf order, and no answer to the one query a read does not make. -/
def serve (conv : Conversions tree) (empty : L.Fp) (ledger : Ledger L depth) :
    SyncQuery L → Option (SyncAnswer T L)
  | .whatChildHashes addr =>
    let node := conv.bits addr
    let height := depth - node.length - 1
    let left := ledger.nodeHash tree empty height (2 * Merkle.position node)
    let right := ledger.nodeHash tree empty height (2 * Merkle.position node + 1)
    some (.childHashesAre (conv.ledgerHash left) (conv.ledgerHash right))
  | .whatContents addr =>
    let node := conv.bits addr
    let span := 2 ^ (depth - node.length)
    let base := Merkle.position node * span
    let accounts := (List.range span).filterMap fun k => ledger.account (base + k)
    some (.contentsAre (accounts.map conv.wireAccount))
  | .numAccounts => none

section Plan
variable (conv : Conversions tree) (empty : L.Fp) (ledger : Ledger L depth)

def childHashesAt (index : UInt64) (level : ℕ) : SyncAnswer T L :=
  .childHashesAre
    (conv.ledgerHash (ledger.nodeHash tree empty (depth - level - 1)
      (2 * (index.toNat / 2 ^ (depth - level)))))
    (conv.ledgerHash (ledger.nodeHash tree empty (depth - level - 1)
      (2 * (index.toNat / 2 ^ (depth - level)) + 1)))

theorem bits_nodeAddr (hd : depth ≤ 63) (hindex : index.toNat < 2 ^ depth) {level : ℕ}
    (hlevel : level ≤ depth) :
    conv.bits (nodeAddr tree index depth level) =
        Merkle.address level (index.toNat / 2 ^ (depth - level)) ∧
      index.toNat / 2 ^ (depth - level) < 2 ^ level := by
  have hshift := toNat_shiftRight (n := depth - level) (by omega) index
  have hlt : index.toNat / 2 ^ (depth - level) < 2 ^ level := by
    rw [Nat.div_lt_iff_lt_mul (Nat.two_pow_pos _), ← pow_add]
    rwa [show level + (depth - level) = depth by omega]
  refine ⟨?_, hlt⟩
  rw [nodeAddr, conv.bits_fromIndex _ _ (by rw [hshift]; exact hlt), hshift]

theorem serve_childHashes (hd : depth ≤ 63) (hindex : index.toNat < 2 ^ depth) {level : ℕ}
    (hlevel : level < depth) :
    serve conv empty ledger (.whatChildHashes (nodeAddr tree index depth level)) =
      some (childHashesAt conv empty ledger index level) := by
  obtain ⟨hbits, hlt⟩ := bits_nodeAddr conv hd hindex (le_of_lt hlevel)
  simp only [serve, hbits, Merkle.length_address, Merkle.position_address hlt]
  rfl

theorem serve_leaf (hindex : index.toNat < 2 ^ depth) {account : L.Account}
    (hleaf : ledger ⟨index.toNat, hindex⟩ = some account) :
    serve conv empty ledger (.whatContents (tree.addressFromIndex index depth)) =
      some (.contentsAre [conv.wireAccount account]) := by
  have haccount : ledger.account index.toNat = some account := by
    rw [Ledger.account_of_lt ledger hindex, hleaf]
  simp [serve, conv.bits_fromIndex index depth hindex, Merkle.position_address hindex, haccount]

theorem siblingAt_childHashes (hd : depth ≤ 64) {level : ℕ} (hlevel : level < depth) :
    siblingAt tree index depth level (childHashesAt conv empty ledger index level) =
      .ok (Merkle.stepAt tree.hashNode (ledger.leafHash tree empty) index.toNat
        (depth - 1 - level)) := by
  have hheight : depth - level - 1 = depth - 1 - level := by omega
  have hparent : depth - level = depth - 1 - level + 1 := by omega
  rw [Merkle.stepAt, Merkle.siblingPosition_above]
  simp only [siblingAt, childHashesAt, hashToFp, conv.toField_ledgerHash, Except.map,
    goesRight_eq_testBit hd hlevel, hheight, ← hparent]
  cases index.toNat.testBit (depth - 1 - level) with
  | true => rfl
  | false => rfl

theorem rootToLeaf_childHashes (index : UInt64) (hd : depth ≤ 64) (n level : ℕ) (hn : level + n ≤ depth) :
    rootToLeaf tree index depth level
        ((List.range' level n).map (childHashesAt conv empty ledger index)) =
      .ok ((List.range' level n).map fun l =>
        Merkle.stepAt tree.hashNode (ledger.leafHash tree empty) index.toNat (depth - 1 - l)) := by
  induction n generalizing level with
  | zero => rfl
  | succ n ih =>
    rw [List.range'_succ, List.map_cons, rootToLeaf,
      siblingAt_childHashes conv empty ledger hd (by omega)]
    simp only [ih (level + 1) (by omega), List.map_cons]

/-- Root to leaf, reversed, is leaf to root. -/
theorem reverse_stepAt (i : ℕ) :
    ((List.range depth).map fun level => Merkle.stepAt tree.hashNode (ledger.leafHash tree empty) i
      (depth - 1 - level)).reverse = ledger.merklePath tree empty i := by
  apply List.ext_getElem (by simp [Ledger.merklePath, Merkle.pathOf])
  intro k hk _
  rw [List.length_reverse, List.length_map, List.length_range] at hk
  simp only [Ledger.merklePath, Merkle.pathOf, List.getElem_reverse, List.getElem_map,
    List.getElem_range, List.length_map, List.length_range]
  congr 1
  omega

/-- What an honest peer answers to the plan of an index whose leaf holds the account. -/
def honestAnswers (index : UInt64) (account : L.Account) : List (SyncAnswer T L) :=
  (List.range depth).map (childHashesAt conv empty ledger index) ++
    [.contentsAre [conv.wireAccount account]]

theorem serve_plan (hd : depth ≤ 63) (hindex : index.toNat < 2 ^ depth) {account : L.Account}
    (hleaf : ledger ⟨index.toNat, hindex⟩ = some account) :
    (syncLedgerQueries tree index depth).map (serve conv empty ledger) =
      (honestAnswers conv empty ledger index account).map some := by
  rw [syncLedgerQueries, honestAnswers, List.map_append, List.map_append, List.map_map, List.map_map,
    List.map_singleton, List.map_singleton, serve_leaf conv empty ledger hindex hleaf]
  congr 1
  apply List.map_congr_left
  intro level hlevel
  exact serve_childHashes conv empty ledger hd hindex (List.mem_range.mp hlevel)

theorem accountWithPath_honest (hd : depth ≤ 64) (index : UInt64) (account : L.Account) :
    accountWithPath tree index depth (honestAnswers conv empty ledger index account) =
      .ok (account, ledger.merklePath tree empty index.toNat) := by
  have hsteps := rootToLeaf_childHashes conv empty ledger index hd depth 0 (by omega)
  rw [← List.range_eq_range'] at hsteps
  have hlen : ((List.range depth).map (childHashesAt conv empty ledger index)).length = depth := by
    simp
  unfold accountWithPath honestAnswers
  rw [if_neg (by simp), List.take_left' hlen, hsteps,
    List.getElem?_append_right (by omega), hlen, Nat.sub_self]
  simp only [List.getElem?_cons_zero, leafAccount, conv.decode_wireAccount, reverse_stepAt]

theorem verifyAccountAtRoot_honest [DecidableEq L.Fp] (hd : depth ≤ 64)
    (hindex : index.toNat < 2 ^ depth) {account : L.Account}
    (hleaf : ledger ⟨index.toNat, hindex⟩ = some account) {root : T.LedgerHash}
    (hroot : tree.toField root = some (ledger.root tree empty)) :
    verifyAccountAtRoot tree root index depth (honestAnswers conv empty ledger index account) =
      .ok account := by
  have haccount : ledger.account index.toNat = some account := by
    rw [Ledger.account_of_lt ledger hindex, hleaf]
  exact verifyAccountAtRoot_ok.mpr ⟨_, _, accountWithPath_honest conv empty ledger hd index account,
    hroot, Ledger.impliedRoot_merklePath tree empty ledger hindex haccount⟩

end Plan

/-- **Honest answers to the plan are assembled to the leaf's account and path, and accepted.** -/
theorem account_read_complete [DecidableEq L.Fp] (conv : Conversions tree) (empty : L.Fp)
    (hd : depth ≤ 63) (ledger : Ledger L depth) (hindex : index.toNat < 2 ^ depth)
    {account : L.Account} (hleaf : ledger ⟨index.toNat, hindex⟩ = some account) :
    ∃ answers, (syncLedgerQueries tree index depth).map (serve conv empty ledger) =
        answers.map some ∧
      accountWithPath tree index depth answers =
        .ok (account, ledger.merklePath tree empty index.toNat) ∧
      ∀ root, tree.toField root = some (ledger.root tree empty) →
        verifyAccountAtRoot tree root index depth answers = .ok account := by
  refine ⟨honestAnswers conv empty ledger index account, ?_, ?_, ?_⟩
  · exact serve_plan conv empty ledger hd hindex hleaf
  · exact accountWithPath_honest conv empty ledger (by omega) index account
  · intro root hroot
    exact verifyAccountAtRoot_honest conv empty ledger (by omega) hindex hleaf hroot

def SymbolicLedger.conversions : Conversions SymbolicLedger.termTree where
  bits := id
  ledgerHash := id
  wireAccount := id
  bits_fromIndex := fun _ _ _ => rfl
  toField_ledgerHash := fun _ => rfl
  decode_wireAccount := fun _ => rfl

def SymbolicLedger.threeAccounts : Ledger SymbolicLedger.ledgerTypes 2 :=
  ![some 10, some 11, some 12, none]

open SymbolicLedger in
/-- Leaf 2 of a ledger of depth 2 whose last leaf is empty. -/
theorem account_read_complete_leaf_two :
    ∃ answers, (syncLedgerQueries termTree 2 2).map
        (serve conversions .empty threeAccounts) =
          answers.map some ∧
      accountWithPath termTree 2 2 answers =
        .ok (12, [.left .empty, .right (.node 0 (.account 10) (.account 11))]) ∧
      verifyAccountAtRoot termTree (.node 1 (.node 0 (.account 10) (.account 11))
        (.node 0 (.account 12) .empty)) 2 2 answers = .ok 12 := by
  have hindex : (2 : UInt64).toNat < 2 ^ 2 := by decide
  have hleaf : threeAccounts ⟨(2 : UInt64).toNat, hindex⟩ = some 12 := rfl
  obtain ⟨answers, hserve, hpath, hverify⟩ :=
    account_read_complete conversions .empty (by omega) threeAccounts hindex hleaf
  exact ⟨answers, hserve, hpath, hverify _ (by decide +kernel)⟩

end MinaVerify
