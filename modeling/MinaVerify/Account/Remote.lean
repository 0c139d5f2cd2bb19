import MinaVerify.Account.Exact
import MinaVerify.Rpc.Batch

/-! # Reading an account from a peer

The whole read, as the documentation of `fetch_sync_ledger_answers` has it: the plan of
`sync_ledger_queries` is sent over one connection and the answers go to `verify_account_at_root`. The bytes
come from a peer that is not trusted. A peer that answers from the ledger is accepted, whatever else it
sends in between; and from no peer is another account accepted than the one at the leaf. -/
namespace MinaVerify
set_option autoImplicit false
open Framing

variable {T : Types} {L : LedgerTypes} {tree : MinaTree T L} {index : UInt64} {depth : ℕ}
  {codec : HeaderCodec}

/-- The method `answer_sync_ledger_query`: the request that a query against a ledger hash makes. -/
abbrev LedgerRpc (T : Types) (L : LedgerTypes) :=
  T.LedgerHash → SyncQuery L → Request (Except String (SyncAnswer T L))

/-- The frames of a peer that gives the answers in order, from an id on, among whatever else it sends: before
an answer stands no other response with its id. -/
inductive Answering (request : LedgerRpc T L) (root : T.LedgerHash) :
    UInt64 → List (SyncAnswer T L) → List (PeerFrame codec) → Prop where
  | done (id : UInt64) (frames : List (PeerFrame codec)) : Answering request root id [] frames
  | noise {id : UInt64} {answer : SyncAnswer T L} {answers : List (SyncAnswer T L)} {f : PeerFrame codec}
      {frames : List (PeerFrame codec)} :
      f.header ≠ .response id → Answering request root id (answer :: answers) frames →
      Answering request root id (answer :: answers) (f :: frames)
  | answer {id : UInt64} {answer : SyncAnswer T L} {answers : List (SyncAnswer T L)} {f : PeerFrame codec}
      {frames : List (PeerFrame codec)} :
      f.header = .response id →
      (∀ query, (request root query).answer f.payload = .ok (.ok answer)) →
      Answering request root (id + 1) answers frames →
      Answering request root id (answer :: answers) (f :: frames)

/-- What such a peer sends serves any queries, one for each answer. -/
theorem Answering.serves {request : LedgerRpc T L} {root : T.LedgerHash} {id : UInt64}
    {answers : List (SyncAnswer T L)} {frames : List (PeerFrame codec)}
    (h : Answering request root id answers frames) {queries : List (SyncQuery L)}
    (hlen : queries.length = answers.length) :
    ∃ rest, Serves id (queries.map (request root)) answers frames rest := by
  induction h generalizing queries with
  | done id frames =>
    rw [List.length_eq_zero_iff.mp hlen]
    exact ⟨frames, .done id frames⟩
  | noise hf _ ih =>
    obtain ⟨query, queries, rfl⟩ := List.exists_cons_of_length_eq_add_one hlen
    obtain ⟨rest, hrest⟩ := ih hlen
    exact ⟨rest, .skip hf hrest⟩
  | answer hf hanswer _ ih =>
    obtain ⟨query, queries, rfl⟩ := List.exists_cons_of_length_eq_add_one hlen
    obtain ⟨rest, hrest⟩ := ih (by simpa using hlen)
    exact ⟨rest, .answer hf (hanswer query) hrest⟩

theorem open_ok {stream : Stream} {conn : RpcConn} (h : RpcConn.open codec stream = .ok conn) :
    conn.nextId = queryId ∧ conn.stream.source = stream.source ∧
      conn.stream.faults = stream.faults.drop 1 := by
  unfold RpcConn.open at h
  cases hfaults : stream.faults with
  | nil =>
    simp only [Stream.write, hfaults, Except.ok.injEq] at h
    rw [← h]
    exact ⟨rfl, rfl, rfl⟩
  | cons fault faults =>
    cases fault with
    | some failure => simp [Stream.write, hfaults] at h
    | none =>
      simp only [Stream.write, hfaults, Except.ok.injEq] at h
      rw [← h]
      exact ⟨rfl, rfl, by simp⟩

/-- **A remote read is complete and sound.** Over a stream whose writes succeed, a peer that answers the plan
of a filled leaf from the ledger, with any other frames in between, is read and its account accepted. And
of any answers at all, whatever the stream they came over, an account that is accepted is the one at the
leaf. -/
theorem remote_read [DecidableEq L.Fp]
    (hnode : ∀ height, Function.Injective2 (tree.hashNode height))
    (haccount : Function.Injective tree.accountHash) (conv : Conversions tree) (empty : L.Fp)
    (hd : depth ≤ 63) (ledger : Ledger L depth) (hindex : index.toNat < 2 ^ depth) {account : L.Account}
    (hleaf : ledger ⟨index.toNat, hindex⟩ = some account) {root : T.LedgerHash}
    (hroot : tree.toField root = some (ledger.root tree empty)) (request : LedgerRpc T L)
    {stream : Stream} {conn : RpcConn} (hopen : RpcConn.open codec stream = .ok conn) :
    (∀ (frames : List (PeerFrame codec)) answers, stream.source.incoming = bytesOf frames →
      (∀ fault ∈ stream.faults, fault = none) →
      (syncLedgerQueries tree index depth).map (serve conv empty ledger) = answers.map some →
      Answering request root queryId answers frames →
      ∃ conn', conn.fetchSyncLedgerAnswers codec
          ((syncLedgerQueries tree index depth).map (request root)) = .returned (.ok answers, conn') ∧
        verifyAccountAtRoot tree root index depth answers = .ok account) ∧
    ∀ answers account', verifyAccountAtRoot tree root index depth answers = .ok account' →
      account' = account := by
  obtain ⟨hid, hsource, hfaults⟩ := open_ok hopen
  constructor
  · intro frames answers hframes hwrites hserve hanswering
    have hhonest : answers = honestAnswers conv empty ledger index account := by
      rw [serve_plan conv empty ledger hd hindex hleaf] at hserve
      exact (List.map_injective_iff.mpr (Option.some_injective _) hserve).symm
    have hlen : (syncLedgerQueries tree index depth).length = answers.length := by
      have := congrArg List.length hserve
      simpa using this
    obtain ⟨rest, hrest⟩ := hanswering.serves hlen
    have hin : conn.stream.source.incoming = bytesOf frames := by rw [hsource, hframes]
    have hw : ∀ n, Writable conn.stream.faults n := by
      intro n fault hfault
      rw [hfaults] at hfault
      exact hwrites fault (List.mem_of_mem_drop (List.mem_of_mem_take hfault))
    rw [← hid] at hrest
    refine ⟨_, fetch_of_serves hin (hw _) hrest, ?_⟩
    rw [hhonest]
    exact verifyAccountAtRoot_honest conv empty ledger (by omega) hindex hleaf hroot
  · intro answers account' hread
    have hhash := leafHash_of_verified hnode (by omega) ledger empty hroot hindex hread
    rw [Ledger.leafHash_of_account tree empty ledger
      (by rw [Ledger.account_of_lt ledger hindex, hleaf])] at hhash
    exact haccount hhash

namespace SampleRead
open SymbolicLedger SampleWire

/-- Payload 1 carries the child hashes of the root of `threeAccounts`, 2 those of its right child, and 3 the
account at leaf 2. -/
def request : LedgerRpc types ledgerTypes := fun _ _ =>
  { name := [115]
    version := 1
    payload := []
    decode := fun payload =>
      if payload = [1] then
        .ok (some (.ok (.childHashesAre (.node 0 (.account 10) (.account 11))
          (.node 0 (.account 12) .empty))))
      else if payload = [2] then .ok (some (.ok (.childHashesAre (.account 12) .empty)))
      else if payload = [3] then .ok (some (.ok (.contentsAre [12])))
      else .error "unexpected end of input" }

def respond (id : UInt64) (payload : UInt8) : PeerFrame markedCodec where
  header := .response id
  payload := [payload]
  fits := by
    rw [length_response]
    decide

/-- The answers to the three queries, with handshakes and a stale response between them. -/
def frames : List (PeerFrame markedCodec) :=
  [handshake, respond 1 1, respond 1 3, respond 2 2, handshake, respond 3 3]

end SampleRead

open SampleRead SymbolicLedger SampleWire in
/-- Leaf 2 of `threeAccounts` is read over the connection. -/
theorem remote_read_leaf_two :
    ∃ answers conn', (connOf frames).fetchSyncLedgerAnswers markedCodec
        ((syncLedgerQueries termTree 2 2).map (request (.node 1 (.node 0 (.account 10) (.account 11))
          (.node 0 (.account 12) .empty)))) = .returned (.ok answers, conn') ∧
      verifyAccountAtRoot termTree (.node 1 (.node 0 (.account 10) (.account 11))
        (.node 0 (.account 12) .empty)) 2 2 answers = .ok 12 := by
  have hindex : (2 : UInt64).toNat < 2 ^ 2 := by decide
  have hleaf : threeAccounts ⟨(2 : UInt64).toNat, hindex⟩ = some 12 := rfl
  have hroot : termTree.toField (.node 1 (.node 0 (.account 10) (.account 11))
      (.node 0 (.account 12) .empty)) = some (threeAccounts.root termTree .empty) := by decide +kernel
  obtain ⟨hcomplete, _⟩ := remote_read hashNode_injective accountHash_injective conversions .empty
    (by omega) threeAccounts hindex hleaf hroot request (open_streamOf frames)
  obtain ⟨conn', hfetch, hread⟩ := hcomplete frames
    [.childHashesAre (.node 0 (.account 10) (.account 11)) (.node 0 (.account 12) .empty),
      .childHashesAre (.account 12) .empty, .contentsAre [12]] rfl (by simp [streamOf]) (by rfl) (by
    refine .noise (by decide) (.answer rfl (fun _ => rfl) (.noise (by decide) ?_))
    exact .answer rfl (fun _ => rfl) (.noise (by decide) (.answer rfl (fun _ => rfl) (.done _ _))))
  exact ⟨_, conn', hfetch, hread⟩

end MinaVerify
