import Mathlib.Data.List.Basic
import MinaVerify.Account.Completeness

/-! # Sweeping the ledger

`sweep_base_index`, `ledger_sweep_queries` and `pubkey_index_pairs` of
`crates/mina-verify/src/account_read.rs`: the contents of the subtrees of 32 leaves between a start
and the number of accounts, and the leaf index of every public key in them. The start is rounded down
and the end rounded up to a subtree; an honest peer sends only the filled leaves of the last one, and
the indices count on from the base, so the pairs are those of the leaves in between. -/
namespace MinaVerify
set_option autoImplicit false

variable {T : Types} {L : LedgerTypes} {tree : MinaTree T L} {depth : ℕ}

/-! ## The sweep -/

def contentsSubtreeHeight : ℕ := 5

def sweepBaseIndex (startIndex : UInt64) : UInt64 :=
  (startIndex >>> UInt64.ofNat contentsSubtreeHeight) <<< UInt64.ofNat contentsSubtreeHeight

/-- `u64::div_ceil`. -/
def divCeil (a b : UInt64) : UInt64 := if a % b > 0 then a / b + 1 else a / b

/-- One `What_contents` for each subtree of the range, for a depth of at least the subtree height. -/
def ledgerSweepQueries (tree : MinaTree T L) (startIndex numAccounts : UInt64) (depth : ℕ) :
    List (SyncQuery L) :=
  let subtreeDepth := depth - contentsSubtreeHeight
  let first := startIndex >>> UInt64.ofNat contentsSubtreeHeight
  let last := divCeil numAccounts (1 <<< UInt64.ofNat contentsSubtreeHeight)
  (List.range' first.toNat (last.toNat - first.toNat)).map fun s =>
    .whatContents (tree.addressFromIndex (UInt64.ofNat s) subtreeDepth)

/-- The inner loop of `pubkey_index_pairs`, from the `j`-th account of a batch on; `address` is
`public_key.into_address()`. -/
def batchPairs (tree : MinaTree T L) (address : L.Account → String) (subtreeBase : UInt64) :
    ℕ → List L.WireAccount → Except AccountReadError (List (String × UInt64))
  | _, [] => .ok []
  | j, a :: accounts =>
    match tree.decodeAccount a with
    | none => .error .badAccount
    | some account =>
      match batchPairs tree address subtreeBase (j + 1) accounts with
      | .error e => .error e
      | .ok pairs => .ok ((address account, subtreeBase + UInt64.ofNat j) :: pairs)

/-- The outer loop, from the `s`-th answer on. -/
def answerPairs (tree : MinaTree T L) (address : L.Account → String) (baseIndex : UInt64) :
    ℕ → List (SyncAnswer T L) → Except AccountReadError (List (String × UInt64))
  | _, [] => .ok []
  | s, .contentsAre accounts :: answers =>
    let batch := 1 <<< UInt64.ofNat contentsSubtreeHeight
    match batchPairs tree address (baseIndex + UInt64.ofNat s * batch) 0 accounts with
    | .error e => .error e
    | .ok pairs =>
      match answerPairs tree address baseIndex (s + 1) answers with
      | .error e => .error e
      | .ok rest => .ok (pairs ++ rest)
  | _, _ :: _ => .error .notContents

def pubkeyIndexPairs (tree : MinaTree T L) (address : L.Account → String)
    (answers : List (SyncAnswer T L)) (baseIndex : UInt64) (_depth : ℕ) :
    Except AccountReadError (List (String × UInt64)) :=
  answerPairs tree address baseIndex 0 answers

/-! ## Rounding to subtrees -/

theorem toNat_sweepFirst (startIndex : UInt64) :
    (startIndex >>> UInt64.ofNat contentsSubtreeHeight).toNat = startIndex.toNat / 32 := by
  rw [toNat_shiftRight (by decide)]
  rfl

theorem toNat_sweepBaseIndex (startIndex : UInt64) :
    (sweepBaseIndex startIndex).toNat = 32 * (startIndex.toNat / 32) := by
  have hlt := startIndex.toNat_lt
  have hamount : (UInt64.ofNat contentsSubtreeHeight).toNat % 64 = 5 := by decide
  rw [sweepBaseIndex, UInt64.toNat_shiftLeft, toNat_sweepFirst, hamount, Nat.shiftLeft_eq,
    Nat.mod_eq_of_lt (by omega)]
  omega

theorem sweepBaseIndex_eq (startIndex : UInt64) :
    sweepBaseIndex startIndex = UInt64.ofNat (32 * (startIndex.toNat / 32)) := by
  rw [← toNat_sweepBaseIndex, UInt64.ofNat_toNat]

theorem toNat_sweepLast (numAccounts : UInt64) :
    (divCeil numAccounts (1 <<< UInt64.ofNat contentsSubtreeHeight)).toNat =
      (numAccounts.toNat + 31) / 32 := by
  have hbatch : (1 <<< UInt64.ofNat contentsSubtreeHeight : UInt64) = 32 := by decide
  have hlt := numAccounts.toNat_lt
  have hmod : numAccounts % 32 > 0 ↔ 0 < numAccounts.toNat % 32 := by
    rw [gt_iff_lt, UInt64.lt_iff_toNat_lt, UInt64.toNat_mod]
    rfl
  have hdiv : (numAccounts / 32).toNat = numAccounts.toNat / 32 := UInt64.toNat_div _ _
  rw [hbatch, divCeil]
  split_ifs with hrest
  · rw [hmod] at hrest
    rw [UInt64.toNat_add, hdiv]
    have hone : (1 : UInt64).toNat = 1 := rfl
    rw [hone, Nat.mod_eq_of_lt (by omega)]
    omega
  · rw [hmod] at hrest
    rw [hdiv]
    omega

/-! ## Ledgers filled from the left -/

/-- The accounts fill exactly the leaves before the `n`-th. -/
def FilledTo (accounts : ℕ → L.Account) (n : ℕ) (ledger : Ledger L depth) : Prop :=
  ∀ i, ledger.account i = if i < n then some (accounts i) else none

theorem FilledTo.le {accounts : ℕ → L.Account} {n : ℕ} {ledger : Ledger L depth}
    (h : FilledTo accounts n ledger) : n ≤ 2 ^ depth := by
  by_contra hlt
  have hpast := h (2 ^ depth)
  rw [if_pos (by omega), Ledger.account, dif_neg (lt_irrefl _)] at hpast
  simp at hpast

theorem filterMap_filled {α : Type} (f : ℕ → α) (n base m : ℕ) :
    ((List.range m).filterMap fun k => if base + k < n then some (f (base + k)) else none) =
      (List.range' base (min m (n - base))).map f := by
  induction m with
  | zero => simp
  | succ m ih =>
    rw [List.range_succ, List.filterMap_append, ih]
    by_cases hm : base + m < n
    · have hmin : min (m + 1) (n - base) = min m (n - base) + 1 := by omega
      have hlast : base + 1 * min m (n - base) = base + m := by omega
      rw [hmin, List.range'_concat, hlast]
      simp [hm]
    · have hmin : min (m + 1) (n - base) = min m (n - base) := by omega
      simp [hm, hmin]

section Honest
variable (conv : Conversions tree) (empty : L.Fp) (address : L.Account → String)
  {accounts : ℕ → L.Account} {n : ℕ} {ledger : Ledger L depth}

/-- The accounts of the `s`-th subtree that are there. -/
def subtreeContents (accounts : ℕ → L.Account) (n s : ℕ) : List L.Account :=
  (List.range' (32 * s) (min 32 (n - 32 * s))).map accounts

theorem serve_subtree (hfill : FilledTo accounts n ledger) (h5 : 5 ≤ depth) (hd : depth ≤ 63) {s : ℕ}
    (hs : s < (n + 31) / 32) :
    serve conv empty ledger
        (.whatContents (tree.addressFromIndex (UInt64.ofNat s) (depth - contentsSubtreeHeight))) =
      some (.contentsAre ((subtreeContents accounts n s).map conv.wireAccount)) := by
  have hle := hfill.le
  have hpow : 2 ^ depth = 2 ^ (depth - 5) * 32 := by
    rw [show (32 : ℕ) = 2 ^ 5 from rfl, ← pow_add, Nat.sub_add_cancel h5]
  have hbound : 2 ^ (depth - 5) ≤ 2 ^ 58 := Nat.pow_le_pow_right (by omega) (by omega)
  have hlt : s < 2 ^ (depth - 5) := by omega
  have hnat : (UInt64.ofNat s).toNat = s :=
    UInt64.toNat_ofNat_of_lt' (by simp only [UInt64.size]; omega)
  have hbits : conv.bits (tree.addressFromIndex (UInt64.ofNat s) (depth - contentsSubtreeHeight)) =
      Merkle.address (depth - 5) s := by
    rw [conv.bits_fromIndex _ _ (by rw [hnat]; exact hlt), hnat]
    rfl
  have hspan : 2 ^ (depth - (depth - 5)) = 32 := by
    rw [Nat.sub_sub_self h5]
    rfl
  simp only [serve, hbits, Merkle.length_address, hspan, Merkle.position_address hlt, hfill _,
    Nat.mul_comm s 32, filterMap_filled accounts n (32 * s) 32, subtreeContents]

/-! ## The pairs -/

/-- The public key of leaf `i` with its index. -/
def leafPair (address : L.Account → String) (accounts : ℕ → L.Account) (i : ℕ) : String × UInt64 :=
  (address (accounts i), UInt64.ofNat i)

theorem batchPairs_honest (accounts : ℕ → L.Account) (base j m : ℕ) :
    batchPairs tree address (UInt64.ofNat base) j
        (((List.range' (base + j) m).map accounts).map conv.wireAccount) =
      .ok ((List.range' (base + j) m).map (leafPair address accounts)) := by
  induction m generalizing j with
  | zero => rfl
  | succ m ih =>
    rw [List.range'_succ, List.map_cons, List.map_cons, batchPairs]
    simp only [conv.decode_wireAccount]
    rw [Nat.add_assoc, ih (j + 1), List.map_cons, leafPair, UInt64.ofNat_add]

theorem range_join (n k m : ℕ) :
    List.range' (32 * k) (min 32 (n - 32 * k)) ++
        List.range' (32 * (k + 1)) (min (32 * m) (n - 32 * (k + 1))) =
      List.range' (32 * k) (min (32 * (m + 1)) (n - 32 * k)) := by
  by_cases hlast : n ≤ 32 * (k + 1)
  · have hnone : min (32 * m) (n - 32 * (k + 1)) = 0 := by omega
    have hshort : min 32 (n - 32 * k) = min (32 * (m + 1)) (n - 32 * k) := by omega
    rw [hnone, hshort, List.range'_zero, List.append_nil]
  · have hfull : min 32 (n - 32 * k) = 32 := by omega
    have hsum : min (32 * (m + 1)) (n - 32 * k) = 32 + min (32 * m) (n - 32 * (k + 1)) := by omega
    rw [hfull, hsum, ← List.range'_append_1, Nat.mul_add, Nat.mul_one]

/-- The batches of consecutive subtrees join up; only the last filled one is short. -/
theorem answerPairs_honest (accounts : ℕ → L.Account) (n base s m : ℕ) :
    answerPairs tree address (UInt64.ofNat (32 * base)) s
        ((List.range' (base + s) m).map fun k =>
          .contentsAre ((subtreeContents accounts n k).map conv.wireAccount)) =
      .ok ((List.range' (32 * (base + s)) (min (32 * m) (n - 32 * (base + s)))).map
        (leafPair address accounts)) := by
  induction m generalizing s with
  | zero => simp [answerPairs]
  | succ m ih =>
    have hbase : UInt64.ofNat (32 * base) + UInt64.ofNat s * 1 <<< UInt64.ofNat contentsSubtreeHeight =
        UInt64.ofNat (32 * (base + s)) := by
      have hbatch : (1 <<< UInt64.ofNat contentsSubtreeHeight : UInt64) = UInt64.ofNat 32 := by decide
      rw [hbatch, ← UInt64.ofNat_mul, ← UInt64.ofNat_add]
      congr 1
      omega
    have hfirst := batchPairs_honest conv address accounts (32 * (base + s)) 0
      (min 32 (n - 32 * (base + s)))
    rw [Nat.add_zero] at hfirst
    have hrest := ih (s + 1)
    rw [← Nat.add_assoc] at hrest
    rw [List.range'_succ, List.map_cons, answerPairs]
    simp only [hbase, hrest]
    rw [subtreeContents, hfirst]
    simp only [← List.map_append, range_join]

/-- Every query of the sweep is answered, and the answers are parsed to the pairs. -/
def Sweeps (conv : Conversions tree) (empty : L.Fp) (address : L.Account → String)
    (ledger : Ledger L depth) (start n : UInt64) (pairs : List (String × UInt64)) : Prop :=
  ∃ answers, (ledgerSweepQueries tree start n depth).map (serve conv empty ledger) =
      answers.map some ∧
    pubkeyIndexPairs tree address answers (sweepBaseIndex start) depth = .ok pairs

/-- The pairs of the leaves from `base` on. -/
def leafPairs (address : L.Account → String) (accounts : ℕ → L.Account) (base n : ℕ) :
    List (String × UInt64) :=
  (List.range' base (n - base)).map (leafPair address accounts)

theorem sweeps_iff (h5 : 5 ≤ depth) (hd : depth ≤ 63) {n : UInt64}
    (hfill : FilledTo accounts n.toNat ledger) (start : UInt64) (pairs : List (String × UInt64)) :
    Sweeps conv empty address ledger start n pairs ↔
      pairs = leafPairs address accounts (sweepBaseIndex start).toNat n.toNat := by
  let first := start.toNat / 32
  let count := (n.toNat + 31) / 32 - first
  have hserved : (ledgerSweepQueries tree start n depth).map (serve conv empty ledger) =
      ((List.range' first count).map fun k =>
        .contentsAre ((subtreeContents accounts n.toNat k).map conv.wireAccount)).map some := by
    rw [ledgerSweepQueries, toNat_sweepFirst, toNat_sweepLast, List.map_map, List.map_map]
    apply List.map_congr_left
    intro s hs
    rw [List.mem_range'_1] at hs
    exact serve_subtree conv empty hfill h5 hd (by omega)
  have hpairs : pubkeyIndexPairs tree address ((List.range' first count).map fun k =>
        .contentsAre ((subtreeContents accounts n.toNat k).map conv.wireAccount))
        (sweepBaseIndex start) depth =
      .ok (leafPairs address accounts (sweepBaseIndex start).toNat n.toNat) := by
    have hparse := answerPairs_honest conv address accounts n.toNat first 0 count
    have hend : min (32 * count) (n.toNat - 32 * first) = n.toNat - 32 * first := by omega
    rw [Nat.add_zero, hend] at hparse
    rw [pubkeyIndexPairs, leafPairs, toNat_sweepBaseIndex, sweepBaseIndex_eq]
    exact hparse
  constructor
  · intro h
    obtain ⟨answers, hanswers, hok⟩ := h
    rw [hserved] at hanswers
    have heq := List.map_injective_iff.mpr (Option.some_injective _) hanswers
    rw [← heq, hpairs, Except.ok.injEq] at hok
    exact hok.symm
  · intro h
    exact ⟨_, hserved, by rw [hpairs, h]⟩

end Honest

/-- **A sweep is exact.** Served honestly, it gives the pairs of the leaves from its base to the last
account, each once and in order; so the pairs of a ledger and of the tail appended to it are those of
the grown ledger. -/
theorem sweep_exact (conv : Conversions tree) (empty : L.Fp) (address : L.Account → String)
    (h5 : 5 ≤ depth) (hd : depth ≤ 63) (accounts : ℕ → L.Account) :
    (∀ (start n : UInt64) (ledger : Ledger L depth), FilledTo accounts n.toNat ledger →
      ∀ pairs, Sweeps conv empty address ledger start n pairs ↔
        pairs = leafPairs address accounts (sweepBaseIndex start).toNat n.toNat) ∧
    (∀ (n₁ n₂ : UInt64) (ledger₁ ledger₂ : Ledger L depth), n₁ ≤ n₂ →
      FilledTo accounts n₁.toNat ledger₁ → FilledTo accounts n₂.toNat ledger₂ →
      ∀ full₁ tail full₂, Sweeps conv empty address ledger₁ 0 n₁ full₁ →
        Sweeps conv empty address ledger₂ n₁ n₂ tail →
        Sweeps conv empty address ledger₂ 0 n₂ full₂ →
        ∀ pair, pair ∈ full₂ ↔ pair ∈ full₁ ∨ pair ∈ tail) := by
  constructor
  · intro start n ledger hfill pairs
    exact sweeps_iff conv empty address h5 hd hfill start pairs
  · intro n₁ n₂ ledger₁ ledger₂ hgrown hfill₁ hfill₂ full₁ tail full₂ hfull₁ htail hfull₂ pair
    have hle := UInt64.le_iff_toNat_le.mp hgrown
    have hzero : (sweepBaseIndex 0).toNat = 0 := by decide
    have hbase := toNat_sweepBaseIndex n₁
    rw [sweeps_iff conv empty address h5 hd hfill₁, hzero] at hfull₁
    rw [sweeps_iff conv empty address h5 hd hfill₂, hbase] at htail
    rw [sweeps_iff conv empty address h5 hd hfill₂, hzero] at hfull₂
    simp only [hfull₁, htail, hfull₂, leafPairs, List.mem_map, List.mem_range'_1]
    constructor
    · intro h
      obtain ⟨i, hi, hpair⟩ := h
      by_cases hold : i < n₁.toNat
      · exact Or.inl ⟨i, by omega, hpair⟩
      · exact Or.inr ⟨i, by omega, hpair⟩
    · intro h
      obtain ⟨i, hi, hpair⟩ | ⟨i, hi, hpair⟩ := h
      · exact ⟨i, by omega, hpair⟩
      · exact ⟨i, by omega, hpair⟩

namespace SymbolicLedger

/-- Three accounts on the first leaves of a ledger of depth 5. -/
def sweptLedger : Ledger ledgerTypes 5 := fun i => if i.val < 3 then some (10 + i.val) else none

theorem sweptLedger_filled : FilledTo (fun i => 10 + i) (3 : UInt64).toNat sweptLedger := by
  intro i
  have hthree : (3 : UInt64).toNat = 3 := rfl
  rw [Ledger.account, hthree]
  split_ifs with hi hlt
  · simp [sweptLedger, hlt]
  · simp [sweptLedger, hlt]
  · omega
  · rfl

end SymbolicLedger

open SymbolicLedger in
/-- A start inside the only subtree is rounded down to its first leaf. -/
theorem sweep_exact_rounded :
    Sweeps conversions .empty (fun _ => "B62") sweptLedger 2 3
      [("B62", 0), ("B62", 1), ("B62", 2)] := by
  rw [(sweep_exact conversions .empty (fun _ => "B62") (by omega : 5 ≤ 5) (by omega)
    (fun i => 10 + i)).1 2 3 sweptLedger sweptLedger_filled]
  decide

end MinaVerify
