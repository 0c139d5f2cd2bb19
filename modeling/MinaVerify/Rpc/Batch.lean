import MinaVerify.Rpc.Answers

/-! # When a batch succeeds

`fetch_sync_ledger_answers` sends a query, reads to its response and sends the next. On a stream of whole
frames it succeeds exactly when no write fails and the responses to its ids stand on the stream in the
order of the queries, each with an answer; what stands between them may be anything else. It has then sent
one frame for each query and stands right after the last response. -/
namespace MinaVerify
set_option autoImplicit false
open Framing

variable {codec : HeaderCodec} {A : Type}

/-- The frames hold the answers in the order of the queries, from an id on; before a response may stand
whatever is not a response to the query that waits. The last frames are those left over. -/
inductive Serves :
    UInt64 → List (Request (Except String A)) → List A → List (PeerFrame codec) →
      List (PeerFrame codec) → Prop where
  | done (id : UInt64) (frames : List (PeerFrame codec)) : Serves id [] [] frames frames
  | skip {id : UInt64} {query : Request (Except String A)} {queries : List (Request (Except String A))}
      {answers : List A} {f : PeerFrame codec} {frames rest : List (PeerFrame codec)} :
      f.header ≠ .response id → Serves id (query :: queries) answers frames rest →
      Serves id (query :: queries) answers (f :: frames) rest
  | answer {id : UInt64} {query : Request (Except String A)} {queries : List (Request (Except String A))}
      {answer : A} {answers : List A} {f : PeerFrame codec} {frames rest : List (PeerFrame codec)} :
      f.header = .response id → query.answer f.payload = .ok (.ok answer) →
      Serves (id + 1) queries answers frames rest →
      Serves id (query :: queries) (answer :: answers) (f :: frames) rest

/-- The queries as they are sent, from an id on. -/
def sentBy (codec : HeaderCodec) : UInt64 → List (Request (Except String A)) → List UInt8
  | _, [] => []
  | id, query :: queries => queryBytes codec query id ++ sentBy codec (id + 1) queries

/-- None of the next writes fails. -/
def Writable (faults : List (Option (ℕ × String))) (n : ℕ) : Prop := ∀ fault ∈ faults.take n, fault = none

/-- The connection after the queries have been sent, with the frames that are left. -/
def RpcConn.after (codec : HeaderCodec) (conn : RpcConn) (queries : List (Request (Except String A)))
    (rest : List (PeerFrame codec)) : RpcConn where
  stream :=
    { source := ⟨bytesOf rest, conn.stream.source.ended⟩
      sent := conn.stream.sent ++ sentBy codec conn.nextId queries
      faults := conn.stream.faults.drop queries.length }
  nextId := conn.nextId + UInt64.ofNat queries.length

/-! ## One query -/

theorem serves_cons {id : UInt64} {query : Request (Except String A)}
    {queries : List (Request (Except String A))} {answers : List A}
    {frames rest : List (PeerFrame codec)} (ended : Option String) :
    Serves id (query :: queries) answers frames rest ↔
      ∃ answer answers' next, answers = answer :: answers' ∧
        readFrames query id ended frames = .returned (.ok (.ok answer), next) ∧
        Serves (id + 1) queries answers' next rest := by
  induction frames with
  | nil =>
    constructor
    · intro h
      nomatch h
    · rintro ⟨_, _, _, _, hread, _⟩
      cases ended <;> simp [readFrames] at hread
  | cons f frames ih =>
    by_cases hf : f.header = .response id
    · rw [readFrames, if_pos hf]
      constructor
      · intro h
        cases h with
        | skip hnot _ => exact absurd hf hnot
        | answer _ hanswer hrest => exact ⟨_, _, _, rfl, by rw [hanswer], hrest⟩
      · rintro ⟨answer, answers', next, rfl, hread, hrest⟩
        simp only [Outcome.returned.injEq, Prod.mk.injEq] at hread
        obtain ⟨hanswer, rfl⟩ := hread
        exact .answer hf hanswer hrest
    · rw [readFrames, if_neg hf, ← ih]
      constructor
      · intro h
        cases h with
        | skip _ hrest => exact hrest
        | answer hyes _ _ => exact absurd hyes hf
      · exact .skip hf

section Call
variable {conn : RpcConn} {frames : List (PeerFrame codec)} {query : Request (Except String A)}

theorem call_of_fault (hframes : conn.stream.source.incoming = bytesOf frames) {n : ℕ} {e : String}
    {faults : List (Option (ℕ × String))} (hfaults : conn.stream.faults = some (n, e) :: faults) :
    ∃ conn', conn.call codec query = .returned (.error e, conn') := by
  rw [call_eq hframes]
  simp only [Stream.write, hfaults]
  exact ⟨_, rfl⟩

theorem call_of_writable (hframes : conn.stream.source.incoming = bytesOf frames)
    (hw : Writable conn.stream.faults 1) :
    conn.call codec query =
      (readFrames query conn.nextId conn.stream.source.ended frames).bind fun r =>
        .returned (r.1, conn.after codec [query] r.2) := by
  rw [call_eq hframes]
  cases hfaults : conn.stream.faults with
  | nil => simp [Stream.write, hfaults, RpcConn.after, sentBy]
  | cons fault faults =>
    have hnone : fault = none := hw fault (by simp [hfaults])
    simp [Stream.write, hfaults, hnone, RpcConn.after, sentBy]

end Call

theorem writable_succ {faults : List (Option (ℕ × String))} {n : ℕ} :
    Writable faults (n + 1) ↔ Writable faults 1 ∧ Writable (faults.drop 1) n := by
  unfold Writable
  cases faults with
  | nil => simp
  | cons fault faults => simp

/-! ## The batch -/

theorem fetch_cons {conn : RpcConn} {query : Request (Except String A)}
    {queries : List (Request (Except String A))} {answers : List A} {conn' : RpcConn} :
    conn.fetchSyncLedgerAnswers codec (query :: queries) = .returned (.ok answers, conn') ↔
      ∃ answer answers' next, answers = answer :: answers' ∧
        conn.call codec query = .returned (.ok (.ok answer), next) ∧
        next.fetchSyncLedgerAnswers codec queries = .returned (.ok answers', conn') := by
  rw [RpcConn.fetchSyncLedgerAnswers, Outcome.bind_eq_returned]
  constructor
  · rintro ⟨⟨r, next⟩, hcall, h⟩
    cases r with
    | error e => simp at h
    | ok response =>
      cases response with
      | error e => simp at h
      | ok answer =>
        obtain ⟨⟨more, conn₂⟩, hmore, h⟩ := Outcome.bind_eq_returned.mp h
        simp only [Outcome.returned.injEq, Prod.mk.injEq] at h
        obtain ⟨hmap, rfl⟩ := h
        cases more with
        | error e => simp [Except.map] at hmap
        | ok answers' =>
          simp only [Except.map, Except.ok.injEq] at hmap
          exact ⟨answer, answers', next, hmap.symm, hcall, hmore⟩
  · rintro ⟨answer, answers', next, rfl, hcall, hmore⟩
    refine ⟨_, hcall, ?_⟩
    simp only [hmore, Outcome.bind_returned, Except.map]

/-- After the first call the connection is the one after its query. -/
theorem after_after (conn : RpcConn) (query : Request (Except String A))
    (queries : List (Request (Except String A))) (next rest : List (PeerFrame codec)) :
    (conn.after codec [query] next).after codec queries rest = conn.after codec (query :: queries) rest := by
  simp only [RpcConn.after, sentBy, List.append_nil, List.append_assoc, List.length_cons,
    List.length_nil, List.drop_drop, RpcConn.mk.injEq, Stream.mk.injEq, true_and]
  exact ⟨⟨rfl, by rw [Nat.add_comm]⟩, add_one_add_ofNat conn.nextId queries.length⟩

theorem after_nil {conn : RpcConn} {frames : List (PeerFrame codec)}
    (hframes : conn.stream.source.incoming = bytesOf frames) :
    conn.after codec ([] : List (Request (Except String A))) frames = conn := by
  simp [RpcConn.after, sentBy, ← hframes]

/-- Frames that serve the queries are read to the answers. -/
theorem fetch_of_serves {conn : RpcConn} {frames rest : List (PeerFrame codec)}
    (hframes : conn.stream.source.incoming = bytesOf frames)
    {queries : List (Request (Except String A))} {answers : List A}
    (hw : Writable conn.stream.faults queries.length)
    (hserves : Serves conn.nextId queries answers frames rest) :
    conn.fetchSyncLedgerAnswers codec queries = .returned (.ok answers, conn.after codec queries rest) := by
  induction queries generalizing conn frames answers with
  | nil =>
    cases hserves with
    | done => rw [after_nil hframes, RpcConn.fetchSyncLedgerAnswers]
  | cons query queries ih =>
    rw [List.length_cons, writable_succ] at hw
    obtain ⟨answer, answers', next, rfl, hread, hrest⟩ :=
      (serves_cons conn.stream.source.ended).mp hserves
    have hin : (conn.after codec [query] next).stream.source.incoming = bytesOf next := rfl
    have hmore := ih hin hw.2 (by simpa [RpcConn.after] using hrest)
    rw [after_after] at hmore
    refine fetch_cons.mpr ⟨answer, answers', _, rfl, ?_, hmore⟩
    rw [call_of_writable hframes hw.1, hread, Outcome.bind_returned]

theorem writable_of_call {conn : RpcConn} {frames : List (PeerFrame codec)}
    (hframes : conn.stream.source.incoming = bytesOf frames) {query : Request (Except String A)}
    {response : Except String A} {next : RpcConn}
    (hcall : conn.call codec query = .returned (.ok response, next)) : Writable conn.stream.faults 1 := by
  intro fault hfault
  cases hfaults : conn.stream.faults with
  | nil => simp [hfaults] at hfault
  | cons first faults =>
    have hfirst : fault = first := by simpa [hfaults] using hfault
    rw [hfirst]
    cases first with
    | none => rfl
    | some failure =>
      obtain ⟨conn₁, hfail⟩ := call_of_fault hframes hfaults
      rw [hcall] at hfail
      simp at hfail

/-- Answers come from frames that serve them. -/
theorem serves_of_fetch {conn conn' : RpcConn} {frames : List (PeerFrame codec)}
    (hframes : conn.stream.source.incoming = bytesOf frames)
    {queries : List (Request (Except String A))} {answers : List A}
    (h : conn.fetchSyncLedgerAnswers codec queries = .returned (.ok answers, conn')) :
    Writable conn.stream.faults queries.length ∧
      ∃ rest, Serves conn.nextId queries answers frames rest ∧ conn' = conn.after codec queries rest := by
  induction queries generalizing conn frames answers with
  | nil =>
    simp only [RpcConn.fetchSyncLedgerAnswers, Outcome.returned.injEq, Prod.mk.injEq,
      Except.ok.injEq] at h
    obtain ⟨rfl, rfl⟩ := h
    exact ⟨by simp [Writable], frames, .done _ _, (after_nil hframes).symm⟩
  | cons query queries ih =>
    obtain ⟨answer, answers', next, rfl, hcall, hmore⟩ := fetch_cons.mp h
    have hw := writable_of_call hframes hcall
    rw [call_of_writable hframes hw, Outcome.bind_eq_returned] at hcall
    obtain ⟨⟨r, rest₁⟩, hread, hnext⟩ := hcall
    simp only [Outcome.returned.injEq, Prod.mk.injEq] at hnext
    obtain ⟨rfl, rfl⟩ := hnext
    have hin : (conn.after codec [query] rest₁).stream.source.incoming = bytesOf rest₁ := rfl
    obtain ⟨hwrest, rest, hserves, rfl⟩ := ih hin hmore
    refine ⟨writable_succ.mpr ⟨hw, hwrest⟩, rest, ?_, after_after conn query queries rest₁ rest⟩
    exact (serves_cons conn.stream.source.ended).mpr ⟨answer, answers', rest₁, rfl, hread, by
      simpa [RpcConn.after] using hserves⟩

/-- **When a batch succeeds, and what it leaves.** The batch loop, over an open stream of whole frames and
before the deadline, returns the answers exactly when its writes succeed and the frames serve them; it has
then sent the queries in order, each with the next id, and left the frames behind the last response. -/
theorem batch_exact (conn : RpcConn) (frames : List (PeerFrame codec))
    (hframes : conn.stream.source.incoming = bytesOf frames)
    (queries : List (Request (Except String A))) (answers : List A) (conn' : RpcConn) :
    conn.fetchSyncLedgerAnswers codec queries = .returned (.ok answers, conn') ↔
      Writable conn.stream.faults queries.length ∧
        ∃ rest, Serves conn.nextId queries answers frames rest ∧ conn' = conn.after codec queries rest := by
  constructor
  · exact serves_of_fetch hframes
  · rintro ⟨hw, rest, hserves, rfl⟩
    exact fetch_of_serves hframes hw hserves

open SampleWire in
/-- Two queries on a stream with a handshake, a stale response, both answers and one more frame. -/
theorem batch_exact_two_queries :
    (connOf [handshake, reply 9, reply 1, reply 9, reply 2, handshake]).fetchSyncLedgerAnswers markedCodec
        [byteQuery, byteQuery] =
      .returned (.ok [0, 0], (connOf []).after markedCodec [byteQuery, byteQuery] [handshake]) := by
  refine (batch_exact _ [handshake, reply 9, reply 1, reply 9, reply 2, handshake] rfl
    [byteQuery, byteQuery] [0, 0] _).mpr ⟨by simp [Writable, connOf], [handshake], ?_, rfl⟩
  refine .skip (by decide) (.skip (by decide) (.answer rfl rfl ?_))
  exact .skip (by decide) (.answer rfl rfl (.done _ _))

end MinaVerify
