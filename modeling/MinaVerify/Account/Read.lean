import MinaVerify.Account.Inclusion

/-! # Reading an account from sync-ledger answers

`crates/mina-verify/src/account_read.rs`: the queries for one account, the account and path their
answers are assembled to, and the check against a root. Shifts are those of a 64-bit index, which
take their amount modulo 64. -/
namespace MinaVerify
set_option autoImplicit false

variable {T : Types} {L : LedgerTypes}

/-- `MinaLedgerSyncLedgerQueryStableV1`. -/
inductive SyncQuery (L : LedgerTypes) where
  | whatChildHashes (addr : L.Address)
  | whatContents (addr : L.Address)
  | numAccounts

/-- `MinaLedgerSyncLedgerAnswerStableV2`. -/
inductive SyncAnswer (T : Types) (L : LedgerTypes) where
  | childHashesAre (left right : T.LedgerHash)
  | contentsAre (accounts : List L.WireAccount)
  | numAccounts (count : ℤ) (contentsRoot : T.LedgerHash)

inductive AccountReadError where
  | answerCountMismatch (expected got : ℕ)
  | notChildHashes (level : ℕ)
  | notContents
  | badHash
  | badAccount
  | notIncluded
  deriving DecidableEq, Repr

def nodeAddr (tree : MinaTree T L) (index : UInt64) (depth level : ℕ) : L.Address :=
  tree.addressFromIndex (index >>> UInt64.ofNat (depth - level)) level

def syncLedgerQueries (tree : MinaTree T L) (index : UInt64) (depth : ℕ) : List (SyncQuery L) :=
  (List.range depth).map (fun level => .whatChildHashes (nodeAddr tree index depth level)) ++
    [.whatContents (tree.addressFromIndex index depth)]

def hashToFp (tree : MinaTree T L) (h : T.LedgerHash) : Except AccountReadError L.Fp :=
  match tree.toField h with
  | some fp => .ok fp
  | none => .error .badHash

def goesRight (index : UInt64) (depth level : ℕ) : Bool :=
  (index >>> UInt64.ofNat (depth - level - 1)) &&& 1 == 1

/-- The body of the loop over the child-hash answers: the off-path child is the sibling. -/
def siblingAt (tree : MinaTree T L) (index : UInt64) (depth level : ℕ) (answer : SyncAnswer T L) :
    Except AccountReadError (MerklePath L) :=
  match answer with
  | .childHashesAre left right =>
    if goesRight index depth level then (hashToFp tree left).map .right
    else (hashToFp tree right).map .left
  | _ => .error (.notChildHashes level)

/-- The loop itself, from a level on; the first error ends it. -/
def rootToLeaf (tree : MinaTree T L) (index : UInt64) (depth : ℕ) :
    ℕ → List (SyncAnswer T L) → Except AccountReadError (List (MerklePath L))
  | _, [] => .ok []
  | level, answer :: answers =>
    match siblingAt tree index depth level answer with
    | .error e => .error e
    | .ok step =>
      match rootToLeaf tree index depth (level + 1) answers with
      | .error e => .error e
      | .ok steps => .ok (step :: steps)

def leafAccount (tree : MinaTree T L) (answer : Option (SyncAnswer T L)) :
    Except AccountReadError L.Account :=
  match answer with
  | some (.contentsAre (account :: _)) =>
    match tree.decodeAccount account with
    | some account => .ok account
    | none => .error .badAccount
  | _ => .error .notContents

def accountWithPath (tree : MinaTree T L) (index : UInt64) (depth : ℕ)
    (answers : List (SyncAnswer T L)) : Except AccountReadError (L.Account × List (MerklePath L)) :=
  if answers.length ≠ depth + 1 then .error (.answerCountMismatch (depth + 1) answers.length)
  else
    match rootToLeaf tree index depth 0 (answers.take depth) with
    | .error e => .error e
    | .ok rootToLeaf =>
      match leafAccount tree answers[depth]? with
      | .error e => .error e
      | .ok account => .ok (account, rootToLeaf.reverse)

def verifyAccountAtRoot [DecidableEq L.Fp] (tree : MinaTree T L) (root : T.LedgerHash)
    (index : UInt64) (depth : ℕ) (answers : List (SyncAnswer T L)) :
    Except AccountReadError L.Account :=
  match accountWithPath tree index depth answers with
  | .error e => .error e
  | .ok (account, path) =>
    match tree.toField root with
    | none => .error .badHash
    | some rootFp =>
      if impliedRoot tree account path = rootFp then .ok account else .error .notIncluded

end MinaVerify
