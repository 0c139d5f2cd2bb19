import MinaVerify.Account.Aliasing
import MinaVerify.Account.Sweep

/-! # Reading accounts by their keys

The index of an account is looked up in a map from keys to leaves that sweeps of the ledger build: the first
over all of it, each later one from where the last ended, while the ledger grows and the accounts in it
change, but for their keys and leaves. The documentation of `pubkey_index_pairs` calls the map a hint, since
every read proves its leaf. Here is what the two give together: over honest sweeps, exactly the accounts of
the ledger are read, each under its own key; and whatever the map holds, nothing is read that is not in the
ledger. -/
namespace MinaVerify
set_option autoImplicit false

variable {T : Types} {L : LedgerTypes} {tree : MinaTree T L} {depth : ℕ}

/-- The pairs known after some sweeps of a growing ledger, with the number of accounts at the last. The
accounts may differ from sweep to sweep; the key of a leaf does not. -/
inductive Swept (conv : Conversions tree) (empty : L.Fp) (address : L.Account → String)
    (keys : ℕ → String) (depth : ℕ) : UInt64 → List (String × UInt64) → Prop where
  | start : Swept conv empty address keys depth 0 []
  | sweep {n n' : UInt64} {known pairs : List (String × UInt64)} {accounts : ℕ → L.Account}
      {ledger : Ledger L depth} :
      Swept conv empty address keys depth n known → n ≤ n' → FilledTo accounts n'.toNat ledger →
      (∀ i < n'.toNat, address (accounts i) = keys i) →
      Sweeps conv empty address ledger n n' pairs →
      Swept conv empty address keys depth n' (known ++ pairs)

section Known
variable {conv : Conversions tree} {empty : L.Fp} {address : L.Account → String} {keys : ℕ → String}
  {n : UInt64} {known : List (String × UInt64)}

/-- The pairs known are those of all leaves, whatever the steps the ledger grew in. -/
theorem Swept.mem_known (h5 : 5 ≤ depth) (hd : depth ≤ 63)
    (h : Swept conv empty address keys depth n known) (pair : String × UInt64) :
    pair ∈ known ↔ ∃ i < n.toNat, pair = (keys i, UInt64.ofNat i) := by
  induction h with
  | start => simp
  | @sweep n n' known pairs accounts ledger _ hgrown hfill hkeys hsweeps ih =>
    have hle := UInt64.le_iff_toNat_le.mp hgrown
    have hbase := toNat_sweepBaseIndex n
    rw [sweeps_iff conv empty address h5 hd hfill, hbase] at hsweeps
    rw [List.mem_append, ih, hsweeps, leafPairs, List.mem_map]
    constructor
    · rintro (⟨i, hi, hpair⟩ | ⟨i, hi, hpair⟩)
      · exact ⟨i, by omega, hpair⟩
      · rw [List.mem_range'_1] at hi
        refine ⟨i, by omega, ?_⟩
        rw [← hpair, leafPair, hkeys i (by omega)]
    · rintro ⟨i, hi, rfl⟩
      by_cases hold : i < n.toNat
      · exact Or.inl ⟨i, hold, rfl⟩
      · refine Or.inr ⟨i, ?_, ?_⟩
        · rw [List.mem_range'_1]
          omega
        · rw [leafPair, hkeys i hi]

end Known

/-- Whatever the index and the answers, an accepted account is one of the ledger, or has the hash of an empty
leaf. -/
theorem account_of_read [DecidableEq L.Fp]
    (hnode : ∀ height, Function.Injective2 (tree.hashNode height))
    (haccount : Function.Injective tree.accountHash) (empty : L.Fp) (hd : depth ≤ 64)
    (ledger : Ledger L depth) {root : T.LedgerHash}
    (hroot : tree.toField root = some (ledger.root tree empty)) {index : UInt64}
    {answers : List (SyncAnswer T L)} {account : L.Account}
    (h : verifyAccountAtRoot tree root index depth answers = .ok account) :
    ledger.account (index.toNat % 2 ^ depth) = some account ∨
      (ledger.account (index.toNat % 2 ^ depth) = none ∧ tree.accountHash account = empty) := by
  have hlt : (wrapped index depth).toNat < 2 ^ depth := by
    rw [toNat_wrapped]
    exact Nat.mod_lt _ (Nat.two_pow_pos depth)
  rw [verifyAccountAtRoot_congr hd (wrapped_mod index depth)] at h
  have hhash := leafHash_of_verified hnode hd ledger empty hroot hlt h
  rw [toNat_wrapped, Ledger.leafHash] at hhash
  cases hleaf : ledger.account (index.toNat % 2 ^ depth) with
  | some account' =>
    rw [hleaf] at hhash
    exact Or.inl (by rw [haccount hhash])
  | none =>
    rw [hleaf] at hhash
    exact Or.inr ⟨rfl, hhash⟩

/-- **Reading by key is exact.** After any number of honest sweeps of a ledger that grows, with the last at
its present size: every account of the ledger is known under its key at its leaf, and honest answers to the
plan for that leaf are accepted; an account accepted for an index known under a key, from any peer, is the
one at that leaf, and it has that key. And for no index and no answers at all is an account accepted that is
not in the ledger, but one with the hash of an empty leaf. -/
theorem keyed_reads [DecidableEq L.Fp]
    (hnode : ∀ height, Function.Injective2 (tree.hashNode height))
    (haccount : Function.Injective tree.accountHash) (conv : Conversions tree) (empty : L.Fp)
    (address : L.Account → String) (keys : ℕ → String) (h5 : 5 ≤ depth) (hd : depth ≤ 63) {n : UInt64}
    {known : List (String × UInt64)} (hswept : Swept conv empty address keys depth n known)
    {accounts : ℕ → L.Account} {ledger : Ledger L depth} (hfill : FilledTo accounts n.toNat ledger)
    (hkeys : ∀ i < n.toNat, address (accounts i) = keys i) {root : T.LedgerHash}
    (hroot : tree.toField root = some (ledger.root tree empty)) :
    (∀ i account, ledger.account i = some account →
      (address account, UInt64.ofNat i) ∈ known ∧
      ∃ answers, (syncLedgerQueries tree (UInt64.ofNat i) depth).map (serve conv empty ledger) =
          answers.map some ∧
        verifyAccountAtRoot tree root (UInt64.ofNat i) depth answers = .ok account) ∧
    (∀ key index, (key, index) ∈ known → ∀ answers account,
      verifyAccountAtRoot tree root index depth answers = .ok account →
        ledger.account index.toNat = some account ∧ address account = key) ∧
    (∀ index answers account, verifyAccountAtRoot tree root index depth answers = .ok account →
      (∃ i, ledger.account i = some account) ∨ tree.accountHash account = empty) := by
  have hsize : ∀ i < n.toNat, i < 2 ^ depth ∧ (UInt64.ofNat i).toNat = i := by
    intro i hi
    have hle := hfill.le
    exact ⟨by omega, UInt64.toNat_ofNat_of_lt' (hi.trans n.toNat_lt)⟩
  have hfilled : ∀ i account, ledger.account i = some account → i < n.toNat ∧ account = accounts i := by
    intro i account h
    rw [hfill i] at h
    split_ifs at h with hi
    exact ⟨hi, (Option.some.inj h).symm⟩
  refine ⟨?_, ?_, ?_⟩
  · intro i account h
    obtain ⟨hi, rfl⟩ := hfilled i account h
    obtain ⟨hlt, hindex⟩ := hsize i hi
    refine ⟨(hswept.mem_known h5 hd _).mpr ⟨i, hi, by rw [hkeys i hi]⟩, ?_⟩
    have hlt' : (UInt64.ofNat i).toNat < 2 ^ depth := by rwa [hindex]
    have hleaf : ledger ⟨(UInt64.ofNat i).toNat, hlt'⟩ = some (accounts i) := by
      rw [← Ledger.account_of_lt ledger hlt', hindex, h]
    exact ⟨_, serve_plan conv empty ledger hd hlt' hleaf,
      verifyAccountAtRoot_honest conv empty ledger (by omega) hlt' hleaf hroot⟩
  · intro key index hknown answers account hread
    obtain ⟨i, hi, hpair⟩ := (hswept.mem_known h5 hd _).mp hknown
    obtain ⟨rfl, rfl⟩ := Prod.mk.inj hpair
    obtain ⟨hlt, hindex⟩ := hsize i hi
    have hleaf : ledger.account i = some (accounts i) := by rw [hfill i, if_pos hi]
    obtain h | ⟨h, _⟩ := account_of_read hnode haccount empty (by omega) ledger hroot hread
    · rw [hindex, Nat.mod_eq_of_lt hlt] at h
      rw [hindex]
      refine ⟨h, ?_⟩
      rw [(hfilled i account h).2, hkeys i hi]
    · rw [hindex, Nat.mod_eq_of_lt hlt, hleaf] at h
      nomatch h
  · intro index answers account hread
    obtain h | ⟨_, h⟩ := account_of_read hnode haccount empty (by omega) ledger hroot hread
    · exact Or.inl ⟨_, h⟩
    · exact Or.inr h

namespace SymbolicLedger

/-- The first account has a key of its own. -/
def addressOf (balance : ℕ) : String := if balance = 10 then "B62a" else "B62b"

def keyOf (index : ℕ) : String := if index = 0 then "B62a" else "B62b"

theorem addressOf_eq_keyOf (index : ℕ) : addressOf (10 + index) = keyOf index := by
  simp [addressOf, keyOf]

/-- The ledger when it had the first account only. -/
def firstLedger : Ledger ledgerTypes 5 := fun i => if i.val < 1 then some (10 + i.val) else none

theorem firstLedger_filled : FilledTo (fun i => 10 + i) (1 : UInt64).toNat firstLedger := by
  intro i
  have hone : (1 : UInt64).toNat = 1 := rfl
  rw [Ledger.account, hone]
  split_ifs with hi hlt
  · simp [firstLedger, hlt]
  · simp [firstLedger, hlt]
  · omega
  · rfl

/-- Swept with one account in it, and again with three. -/
theorem swept_twice : Swept conversions .empty addressOf keyOf 5 3
    ([] ++ [("B62a", 0)] ++ [("B62a", 0), ("B62b", 1), ("B62b", 2)]) := by
  have hfirst : Sweeps conversions .empty addressOf firstLedger 0 1 [("B62a", 0)] := by
    rw [sweeps_iff conversions .empty addressOf (by omega) (by omega) firstLedger_filled]
    decide
  have hsecond : Sweeps conversions .empty addressOf sweptLedger 1 3
      [("B62a", 0), ("B62b", 1), ("B62b", 2)] := by
    rw [sweeps_iff conversions .empty addressOf (by omega) (by omega) sweptLedger_filled]
    decide
  have hone := Swept.start.sweep (by decide) firstLedger_filled
    (fun i _ => addressOf_eq_keyOf i) hfirst
  exact hone.sweep (by decide) sweptLedger_filled (fun i _ => addressOf_eq_keyOf i) hsecond

end SymbolicLedger

open SymbolicLedger in
/-- Served honestly, the account of the third leaf is read; whoever serves, no other is read there. -/
theorem keyed_reads_third_account :
    (∃ answers, verifyAccountAtRoot termTree (sweptLedger.root termTree .empty) 2 5 answers = .ok 12) ∧
      ∀ answers account, verifyAccountAtRoot termTree (sweptLedger.root termTree .empty) 2 5 answers =
        .ok account → sweptLedger.account 2 = some account ∧ addressOf account = "B62b" := by
  obtain ⟨hserved, hread, _⟩ := keyed_reads hashNode_injective accountHash_injective conversions .empty
    addressOf keyOf (by omega) (by omega) swept_twice sweptLedger_filled
    (fun i _ => addressOf_eq_keyOf i) rfl
  obtain ⟨_, answers, _, haccepted⟩ := hserved 2 12 (sweptLedger_filled 2)
  exact ⟨⟨answers, haccepted⟩, hread "B62b" 2 (by decide)⟩

end MinaVerify
