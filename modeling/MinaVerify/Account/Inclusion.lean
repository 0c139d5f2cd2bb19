import MinaVerify.Block
import MinaVerify.Foundations.Merkle

/-! # Trustless account reads

`crates/mina-verify/src/account.rs`: the ledger root a block commits to, the fold of an account and
its Merkle path to the root it implies, and the comparison of the two. Field elements, accounts and
the two hash functions are `mina-tree`'s and stay parameters. -/
namespace MinaVerify
set_option autoImplicit false

/-- `Fp`, the ledger account, its binprot form and the Merkle address of the sync-ledger RPC. -/
structure LedgerTypes where
  Fp : Type
  Account : Type
  WireAccount : Type
  Address : Type

variable {T : Types} {L : LedgerTypes}

/-- What the crates call of `mina-tree` and `mina-p2p-messages` on ledgers. -/
structure MinaTree (T : Types) (L : LedgerTypes) where
  /-- `LedgerHash::to_field::<Fp>`, without the error it is mapped from. -/
  toField : T.LedgerHash → Option L.Fp
  /-- `V2::hash_node(height, left, right)`. -/
  hashNode : ℕ → L.Fp → L.Fp → L.Fp
  /-- `Account::hash`. -/
  accountHash : L.Account → L.Fp
  /-- `Account::try_from`. -/
  decodeAccount : L.WireAccount → Option L.Account
  /-- `Address::from_index(AccountIndex(index), length).into()`. -/
  addressFromIndex : UInt64 → ℕ → L.Address

/-- `MerklePath`: `Left` holds the right sibling, `Right` the left one. -/
abbrev MerklePath (L : LedgerTypes) := Merkle.Step L.Fp

def ledgerRoot (tree : MinaTree T L) (block : Block T) : Option L.Fp :=
  tree.toField block.header.protocolState.body.blockchainState.stagedLedgerHash

def impliedRoot (tree : MinaTree T L) (account : L.Account) (merklePath : List (MerklePath L)) :
    L.Fp :=
  merklePath.zipIdx.foldl
    (fun accum step =>
      match step.1 with
      | .left right => tree.hashNode step.2 accum right
      | .right left => tree.hashNode step.2 left accum)
    (tree.accountHash account)

def verifyAccountInclusion [DecidableEq L.Fp] (tree : MinaTree T L) (block : Block T)
    (account : L.Account) (merklePath : List (MerklePath L)) : Bool :=
  match ledgerRoot tree block with
  | some root => decide (impliedRoot tree account merklePath = root)
  | none => false

theorem impliedRoot_eq_fold (tree : MinaTree T L) (account : L.Account)
    (merklePath : List (MerklePath L)) :
    impliedRoot tree account merklePath =
      Merkle.fold tree.hashNode (tree.accountHash account) merklePath := by
  unfold impliedRoot Merkle.fold
  congr 1
  funext accum step
  cases step.1 <;> rfl

/-! ## Ledgers -/

/-- A ledger of a given depth: each leaf holds an account or is empty. -/
abbrev Ledger (L : LedgerTypes) (depth : ℕ) := Fin (2 ^ depth) → Option L.Account

namespace Ledger
variable {depth : ℕ} (tree : MinaTree T L) (empty : L.Fp) (ledger : Ledger L depth)

def account (i : ℕ) : Option L.Account := if h : i < 2 ^ depth then ledger ⟨i, h⟩ else none

def leafHash (i : ℕ) : L.Fp :=
  match ledger.account i with
  | some account => tree.accountHash account
  | none => empty

/-- The hash of the node at a height and a position; height 0 joins two leaves to height 1. -/
def nodeHash (height position : ℕ) : L.Fp :=
  Merkle.nodeHash tree.hashNode (ledger.leafHash tree empty) height position

def root : L.Fp := ledger.nodeHash tree empty depth 0

def merklePath (i : ℕ) : List (MerklePath L) :=
  Merkle.pathOf tree.hashNode (ledger.leafHash tree empty) depth i

theorem account_of_lt {i : ℕ} (h : i < 2 ^ depth) : ledger.account i = ledger ⟨i, h⟩ := by
  rw [account, dif_pos h]

theorem leafHash_of_account {i : ℕ} {account : L.Account} (h : ledger.account i = some account) :
    ledger.leafHash tree empty i = tree.accountHash account := by
  rw [leafHash, h]

theorem impliedRoot_merklePath {i : ℕ} (hi : i < 2 ^ depth) {account : L.Account}
    (h : ledger.account i = some account) :
    impliedRoot tree account (ledger.merklePath tree empty i) = ledger.root tree empty := by
  rw [impliedRoot_eq_fold, ← ledger.leafHash_of_account tree empty h, merklePath,
    Merkle.fold_pathOf, Nat.div_eq_of_lt hi]
  rfl

theorem accountHash_of_impliedRoot (hnode : ∀ h, Function.Injective2 (tree.hashNode h)) {i : ℕ}
    (hi : i < 2 ^ depth) {account : L.Account} {path : List (MerklePath L)}
    (hlen : path.length = depth) (hpath : Merkle.Follows i path)
    (h : impliedRoot tree account path = ledger.root tree empty) :
    tree.accountHash account = ledger.leafHash tree empty i := by
  apply Merkle.leaf_of_fold tree.hashNode _ hnode hpath
  rw [← impliedRoot_eq_fold, h, hlen, Nat.div_eq_of_lt hi]
  rfl

end Ledger
end MinaVerify
