import MinaVerify.Rpc.Sync

/-! # Answers to queries

The documented behaviour of a connection: a call skips handshakes, heartbeats, queries and responses
to others, stops right after its own response, and the next call has a larger id. Runs behave so exactly
as long as the 64-bit counter does not wrap and the call that happens to have the handshake's id does
not take a handshake for its response. A batch matches its answers by id in any case. -/
namespace MinaVerify
set_option autoImplicit false
open Framing

variable {codec : HeaderCodec} {R : Type}

/-- The handshake a peer sends: a response with the reserved id and the payload 1. -/
def PeerFrame.IsHandshake (f : PeerFrame codec) : Prop :=
  f.header = .response handshakeId ∧ f.payload = [1]

def Skippable (id : UInt64) (f : PeerFrame codec) : Prop :=
  f.IsHandshake ∨ f.header ≠ .response id

/-- What is documented of a call that finds the given frames on the stream: it does not panic; it
waits for ever only on a peer that falls silent without answering; and when it returns, the next id is
larger and the stream stands right after its own response, after the last frame of a closed stream, or
where it was when the query could not be written. -/
def Documented (frames : List (PeerFrame codec)) (conn : RpcConn) (request : Request R) : Prop :=
  (∀ message, conn.call codec request ≠ .panicked message) ∧
  (conn.call codec request = .diverged →
    conn.stream.source.ended = none ∧ ∀ f ∈ frames, Skippable conn.nextId f) ∧
  ∀ result conn', conn.call codec request = .returned (result, conn') →
    conn.nextId.toNat < conn'.nextId.toNat ∧
    ∃ rest, conn'.stream.source.incoming = bytesOf rest ∧
      ((∃ e, (conn.stream.write (queryBytes codec request conn.nextId)).1 = .error e ∧
          result = .error e ∧ rest = frames) ∨
        (∃ skipped f, frames = skipped ++ f :: rest ∧ (∀ g ∈ skipped, Skippable conn.nextId g) ∧
          f.header = .response conn.nextId ∧ ¬ f.IsHandshake ∧
          result = request.answer f.payload) ∨
        (rest = [] ∧ (∀ g ∈ frames, Skippable conn.nextId g) ∧
          ∃ e, conn.stream.source.ended = some e ∧ result = .error e))

/-- The call ends: its query cannot be written, the peer ends the stream, or it sends a response. -/
def Ends (frames : List (PeerFrame codec)) (conn : RpcConn) (request : Request R) : Prop :=
  (conn.stream.write (queryBytes codec request conn.nextId)).1 = .ok () →
    conn.stream.source.ended = none → ∃ f ∈ frames, f.header = .response conn.nextId

/-- The query is written and its first response, with the given frames behind it, is a handshake. -/
def MeetsHandshake (frames rest : List (PeerFrame codec)) (conn : RpcConn) (request : Request R) :
    Prop :=
  (conn.stream.write (queryBytes codec request conn.nextId)).1 = .ok () ∧
  ∃ skipped f, frames = skipped ++ f :: rest ∧ (∀ g ∈ skipped, g.header ≠ .response conn.nextId) ∧
    f.header = .response conn.nextId ∧ f.IsHandshake

/-- The counter does not wrap in a call that ends, and no handshake is taken for its response, unless it
is the last frame of a closed stream and its payload decodes to the error of the end. -/
def Unconfused (frames : List (PeerFrame codec)) (conn : RpcConn) (request : Request R) : Prop :=
  (Ends frames conn request → conn.nextId.toNat + 1 < 2 ^ 64) ∧
  ∀ rest, MeetsHandshake frames rest conn request →
    rest = [] ∧ ∃ e, conn.stream.source.ended = some e ∧ request.answer [1] = .error e

section Call
variable {request : Request R} {conn conn' : RpcConn} {frames : List (PeerFrame codec)}

theorem call_ne_panicked (hframes : conn.stream.source.incoming = bytesOf frames) (message : String) :
    conn.call codec request ≠ .panicked message := by
  rw [call_eq hframes]
  split
  · simp
  · rw [ne_eq, Outcome.bind_eq_panicked]
    simp [readFrames_ne_panicked]

theorem call_eq_diverged (hframes : conn.stream.source.incoming = bytesOf frames) :
    conn.call codec request = .diverged ↔ ¬ Ends frames conn request := by
  rw [call_eq hframes, Ends]
  cases hw : conn.stream.write (queryBytes codec request conn.nextId) with
  | mk written stream =>
    cases written with
    | error e => simp
    | ok _ => simp [Outcome.bind_eq_diverged, readFrames_eq_diverged]

theorem call_of_response {skipped rest : List (PeerFrame codec)} {f : PeerFrame codec}
    (hframes : conn.stream.source.incoming = bytesOf (skipped ++ f :: rest))
    (hwrite : (conn.stream.write (queryBytes codec request conn.nextId)).1 = .ok ())
    (hskip : ∀ g ∈ skipped, g.header ≠ .response conn.nextId)
    (hf : f.header = .response conn.nextId) :
    ∃ conn', conn.call codec request = .returned (request.answer f.payload, conn') ∧
      conn'.stream.source.incoming = bytesOf rest := by
  rw [call_eq hframes, readFrames_response hskip hf]
  cases hw : conn.stream.write (queryBytes codec request conn.nextId) with
  | mk written stream =>
    rw [hw] at hwrite
    simp only at hwrite
    subst hwrite
    exact ⟨_, rfl, rfl⟩

theorem toNat_add_one {id : UInt64} (h : id.toNat + 1 < 2 ^ 64) :
    (id + 1).toNat = id.toNat + 1 := by
  rw [UInt64.toNat_add]
  exact Nat.mod_eq_of_lt h

theorem add_one_add_ofNat (id : UInt64) (k : ℕ) :
    id + 1 + UInt64.ofNat k = id + UInt64.ofNat (k + 1) := by
  rw [UInt64.ofNat_add, UInt64.add_assoc, UInt64.add_comm (UInt64.ofNat k)]
  rfl

theorem documented_of_unconfused (hframes : conn.stream.source.incoming = bytesOf frames)
    (h : Unconfused frames conn request) : Documented frames conn request := by
  refine ⟨call_ne_panicked hframes, ?_, ?_⟩
  · intro hdiv
    rw [call_eq_diverged hframes, Ends] at hdiv
    push Not at hdiv
    obtain ⟨_, hend, hall⟩ := hdiv
    exact ⟨hend, fun f hf => Or.inr (hall f hf)⟩
  · intro result conn' hcall
    have hends : Ends frames conn request := by
      by_contra hnot
      rw [(call_eq_diverged hframes).mpr hnot] at hcall
      simp at hcall
    obtain ⟨hid, _, hcases⟩ := call_cases hframes hcall
    refine ⟨by rw [hid, toNat_add_one (h.1 hends)]; omega, ?_⟩
    obtain ⟨e, hwrite, hres, hin⟩ | ⟨hwrite, rest, hread, hin⟩ := hcases
    · exact ⟨frames, hin, Or.inl ⟨e, hwrite, hres, rfl⟩⟩
    · refine ⟨rest, hin, Or.inr ?_⟩
      obtain ⟨skipped, f, rfl, hskip, hf, hres⟩ | ⟨hrest, hall, hend⟩ :=
        readFrames_returned hread
      · have hskippable : ∀ g ∈ skipped, Skippable conn.nextId g := fun g hg => Or.inr (hskip g hg)
        by_cases hhandshake : f.IsHandshake
        · -- the handshake, last on the stream, gives the error of its end
          obtain ⟨rfl, e, hend, hanswer⟩ := h.2 rest ⟨hwrite, skipped, f, rfl, hskip, hf, hhandshake⟩
          refine Or.inr ⟨rfl, ?_, e, hend, by rw [hres, hhandshake.2, hanswer]⟩
          rw [List.forall_mem_append, List.forall_mem_singleton]
          exact ⟨hskippable, Or.inl hhandshake⟩
        · exact Or.inl ⟨skipped, f, rfl, hskippable, hf, hhandshake, hres⟩
      · exact Or.inr ⟨hrest, fun g hg => Or.inr (hall g hg), hend⟩

theorem unconfused_of_documented (hframes : conn.stream.source.incoming = bytesOf frames)
    (h : Documented frames conn request) : Unconfused frames conn request := by
  obtain ⟨hpanic, _, hreturns⟩ := h
  constructor
  · intro hends
    cases hcall : conn.call codec request with
    | returned r =>
      have hlt := (hreturns r.1 r.2 hcall).1
      rw [(call_cases hframes hcall).1, UInt64.toNat_add] at hlt
      have hmax := conn.nextId.toNat_lt
      have hone : (1 : UInt64).toNat = 1 := rfl
      omega
    | panicked message => exact absurd hcall (hpanic message)
    | diverged => exact absurd hends ((call_eq_diverged hframes).mp hcall)
  · rintro rest ⟨hwrite, skipped, f, rfl, hskip, hf, hhandshake⟩
    obtain ⟨conn', hcall, hin⟩ := call_of_response hframes hwrite hskip hf
    have hsuffix : rest <:+ skipped ++ f :: rest :=
      (List.suffix_cons f rest).trans (List.suffix_append skipped _)
    obtain ⟨_, left, hleft, hcases⟩ := hreturns _ _ hcall
    obtain ⟨e, herror, _⟩ | ⟨skipped', f', hsplit, _, _, hnot, _⟩ | ⟨rfl, _, e, hend, hanswer⟩ := hcases
    · rw [hwrite] at herror
      simp at herror
    · -- the frames left are the same, so the frame before them is
      have hsuffix' : left <:+ skipped ++ f :: rest := by
        rw [hsplit]
        exact (List.suffix_cons f' left).trans (List.suffix_append skipped' _)
      have hsame : left = rest := suffix_eq_of_bytes hsuffix' hsuffix (hleft.symm.trans hin)
      rw [hsame, List.append_cons, List.append_cons skipped', List.append_left_inj] at hsplit
      have hframe := (List.append_inj' hsplit rfl).2
      rw [List.singleton_inj] at hframe
      exact absurd (hframe ▸ hhandshake) hnot
    · rw [hhandshake.2] at hanswer
      exact ⟨suffix_eq_of_bytes hsuffix List.nil_suffix (hin.symm.trans hleft), e, hend, hanswer⟩

end Call

/-! ## Runs of calls -/

/-- Before every call of a run, whichever frames are left, a property of them, the connection and the
request. -/
def BeforeCalls (frames : List (PeerFrame codec)) (conn : RpcConn) (requests : List (Request R))
    (P : List (PeerFrame codec) → RpcConn → Request R → Prop) : Prop :=
  ∀ pre request, pre ++ [request] <+: requests → ∀ results conn',
    conn.run codec pre = .returned (results, conn') →
      ∀ rest, rest <:+ frames → conn'.stream.source.incoming = bytesOf rest → P rest conn' request

/-- Every call of a run starts at a frame boundary and behaves as documented on the frames left. -/
def InSync (frames : List (PeerFrame codec)) (conn : RpcConn) (requests : List (Request R)) : Prop :=
  ∀ pre request, pre ++ [request] <+: requests → ∀ results conn',
    conn.run codec pre = .returned (results, conn') →
      ∃ rest, rest <:+ frames ∧ conn'.stream.source.incoming = bytesOf rest ∧
        Documented rest conn' request

theorem run_boundary {requests : List (Request R)} {conn conn' : RpcConn}
    {frames : List (PeerFrame codec)} {results : List (Except String R)}
    (hframes : conn.stream.source.incoming = bytesOf frames)
    (h : conn.run codec requests = .returned (results, conn')) :
    (∃ rest, rest <:+ frames ∧ conn'.stream.source.incoming = bytesOf rest) ∧
      conn'.nextId = conn.nextId + UInt64.ofNat requests.length := by
  induction requests generalizing conn conn' frames results with
  | nil =>
    simp only [RpcConn.run, Outcome.returned.injEq, Prod.mk.injEq] at h
    obtain ⟨_, rfl⟩ := h
    exact ⟨⟨frames, List.suffix_rfl, hframes⟩, by simp⟩
  | cons request requests ih =>
    obtain ⟨⟨result, conn₁⟩, hcall, h⟩ := Outcome.bind_eq_returned.mp h
    obtain ⟨⟨results₁, conn₂⟩, hrun, h⟩ := Outcome.bind_eq_returned.mp h
    simp only [Outcome.returned.injEq, Prod.mk.injEq] at h
    obtain ⟨_, rfl⟩ := h
    obtain ⟨rest₁, hsuf₁, hin₁⟩ := call_suffix hframes hcall
    obtain ⟨⟨rest, hsuf, hin⟩, hid⟩ := ih hin₁ hrun
    refine ⟨⟨rest, hsuf.trans hsuf₁, hin⟩, ?_⟩
    rw [hid, (call_cases hframes hcall).1, List.length_cons, add_one_add_ofNat]

theorem inSync_iff {requests : List (Request R)} {conn : RpcConn} {frames : List (PeerFrame codec)}
    (hframes : conn.stream.source.incoming = bytesOf frames) :
    InSync frames conn requests ↔ BeforeCalls frames conn requests Unconfused := by
  constructor
  · intro h pre request hpre results conn' hrun rest hsuf hin
    obtain ⟨rest', hsuf', hin', hdoc⟩ := h pre request hpre results conn' hrun
    obtain rfl := suffix_eq_of_bytes hsuf hsuf' (hin.symm.trans hin')
    exact unconfused_of_documented hin hdoc
  · intro h pre request hpre results conn' hrun
    obtain ⟨⟨rest, hsuf, hin⟩, _⟩ := run_boundary hframes hrun
    exact ⟨rest, hsuf, hin, documented_of_unconfused hin (h pre request hpre results conn' hrun rest
      hsuf hin)⟩

theorem unconfused_of_length {requests : List (Request R)} {conn : RpcConn}
    {frames : List (PeerFrame codec)} (hframes : conn.stream.source.incoming = bytesOf frames)
    (hid : conn.nextId = queryId) (hlen : requests.length < handshakeId.toNat) :
    BeforeCalls frames conn requests Unconfused := by
  intro pre request hpre results conn' hrun rest _ _
  have hpos := hpre.length_le
  rw [List.length_append, List.length_singleton] at hpos
  have hmax : handshakeId.toNat = 4411474 := by decide
  have hone : queryId.toNat = 1 := by decide
  have hsize : pre.length < UInt64.size := by simp only [UInt64.size]; omega
  have hnat : conn'.nextId.toNat = 1 + pre.length := by
    rw [(run_boundary hframes hrun).2, hid, UInt64.toNat_add, UInt64.toNat_ofNat_of_lt' hsize, hone]
    exact Nat.mod_eq_of_lt (by omega)
  refine ⟨fun _ => by omega, ?_⟩
  rintro rest ⟨_, _, _, _, _, hf, hhandshake⟩
  rw [hhandshake.1, MessageHeader.response.injEq] at hf
  rw [← hf] at hnat
  omega

/-! ## Batches -/

/-- One response of the stream for each query, in order, with the query's id and answer. -/
def Matched {A : Type} (id : UInt64) (queries : List (Request (Except String A))) (answers : List A)
    (used : List (PeerFrame codec)) : Prop :=
  used.length = queries.length ∧ answers.length = queries.length ∧
  ∀ (k : ℕ) (query : Request (Except String A)) (f : PeerFrame codec) (answer : A),
    queries[k]? = some query → used[k]? = some f → answers[k]? = some answer →
    f.header = .response (id + UInt64.ofNat k) ∧ query.answer f.payload = .ok (.ok answer)

theorem Matched.cons {A : Type} {id : UInt64} {queries : List (Request (Except String A))}
    {answers : List A} {used : List (PeerFrame codec)} (h : Matched (id + 1) queries answers used)
    {query : Request (Except String A)} {f : PeerFrame codec} {answer : A}
    (hf : f.header = .response id) (hanswer : query.answer f.payload = .ok (.ok answer)) :
    Matched id (query :: queries) (answer :: answers) (f :: used) := by
  refine ⟨by simp [h.1], by simp [h.2.1], ?_⟩
  intro k q g a hq hg ha
  cases k with
  | zero =>
    simp only [List.getElem?_cons_zero, Option.some.injEq] at hq hg ha
    subst hq hg ha
    exact ⟨by rw [hf]; simp, hanswer⟩
  | succ k =>
    simp only [List.getElem?_cons_succ] at hq hg ha
    obtain ⟨hheader, hans⟩ := h.2.2 k q g a hq hg ha
    refine ⟨?_, hans⟩
    rw [hheader, add_one_add_ofNat]

theorem fetch_matched {A : Type} {queries : List (Request (Except String A))} {conn conn' : RpcConn}
    {frames : List (PeerFrame codec)} {answers : List A}
    (hframes : conn.stream.source.incoming = bytesOf frames)
    (h : conn.fetchSyncLedgerAnswers codec queries = .returned (.ok answers, conn')) :
    ∃ used, used.Sublist frames ∧ Matched conn.nextId queries answers used := by
  induction queries generalizing conn conn' frames answers with
  | nil =>
    simp only [RpcConn.fetchSyncLedgerAnswers, Outcome.returned.injEq, Prod.mk.injEq,
      Except.ok.injEq] at h
    exact ⟨[], List.nil_sublist frames, rfl, by simp [← h.1], by simp⟩
  | cons query queries ih =>
    obtain ⟨⟨result, conn₁⟩, hcall, h⟩ := Outcome.bind_eq_returned.mp h
    obtain ⟨hid, _, hcases⟩ := call_cases hframes hcall
    -- only a response with an answer in it lets the batch go on
    split at h
    · simp at h
    · simp at h
    · next answer conn₁ heq =>
      rw [Prod.mk.injEq] at heq
      obtain ⟨rfl, rfl⟩ := heq
      obtain ⟨⟨more, conn₂⟩, hmore, h⟩ := Outcome.bind_eq_returned.mp h
      simp only [Outcome.returned.injEq, Prod.mk.injEq] at h
      cases more with
      | error e => simp [Except.map] at h
      | ok answers₁ =>
        simp only [Except.map, Except.ok.injEq] at h
        obtain ⟨e, _, hres, _⟩ | ⟨_, rest, hread, hin⟩ := hcases
        · simp at hres
        · obtain ⟨skipped, f, rfl, _, hf, hres⟩ | ⟨_, _, e, _, hres⟩ := readFrames_returned hread
          · obtain ⟨used, hsub, hmatched⟩ := ih hin hmore
            refine ⟨f :: used, ?_, ?_⟩
            · exact (hsub.cons_cons f).trans (List.sublist_append_right skipped (f :: rest))
            · rw [← h.1]
              exact (hid ▸ hmatched).cons hf hres.symm
          · simp at hres

/-- **Answers are matched to their queries and the stream stays at frame boundaries.** A run of calls
on an opened connection behaves as documented exactly if no call of it is confused; and a batch that
succeeds has one answer for each query, in order, each from a response with its query's id. -/
theorem rpc_in_sync {A : Type} {stream : Stream} {conn : RpcConn} {frames : List (PeerFrame codec)}
    (hopen : RpcConn.open codec stream = .ok conn)
    (hframes : stream.source.incoming = bytesOf frames) :
    (∀ requests : List (Request R),
      InSync frames conn requests ↔ BeforeCalls frames conn requests Unconfused) ∧
    (∀ (queries : List (Request (Except String A))) answers conn',
      conn.fetchSyncLedgerAnswers codec queries = .returned (.ok answers, conn') →
        ∃ used, used.Sublist frames ∧ Matched queryId queries answers used) := by
  have hsource := write_source stream (handshakeBytes codec)
  unfold RpcConn.open at hopen
  split at hopen
  · simp at hopen
  · next written hwrite =>
    rw [hwrite] at hsource
    rw [Except.ok.injEq] at hopen
    subst hopen
    have hin : written.source.incoming = bytesOf frames := by
      simp only at hsource
      rw [hsource, hframes]
    refine ⟨fun requests => inSync_iff hin, ?_⟩
    intro queries answers conn' h
    exact fetch_matched hin h

/-! ## The call with the handshake's id

A header is a tag byte and its fields; each byte of a name is marked, a version is counted out, an id
is eight bytes. -/

namespace SampleWire

def writeName : List UInt8 → List UInt8
  | [] => [0]
  | b :: name => 1 :: b :: writeName name

def readName : List UInt8 → Option (List UInt8 × List UInt8)
  | [] => none
  | [_] => none
  | mark :: b :: bytes =>
    if mark = 0 then some ([], b :: bytes) else (readName bytes).map fun r => (b :: r.1, r.2)

def writeVersion (version : ℕ) : List UInt8 := List.replicate version 1 ++ [0]

def readVersion : List UInt8 → Option (ℕ × List UInt8)
  | [] => none
  | mark :: bytes => if mark = 0 then some (0, bytes) else (readVersion bytes).map fun r => (r.1 + 1, r.2)

def writeId (id : UInt64) : List UInt8 := toLeBytes 8 id.toNat

def readId (bytes : List UInt8) : UInt64 × List UInt8 :=
  (UInt64.ofNat (fromLeBytes (bytes.take 8)), bytes.drop 8)

theorem readName_write (name : List UInt8) (b : UInt8) (rest : List UInt8) :
    readName (writeName name ++ b :: rest) = some (name, b :: rest) := by
  induction name with
  | nil => simp [writeName, readName]
  | cons c name ih => simp [writeName, readName, ih]

theorem readVersion_write (version : ℕ) (rest : List UInt8) :
    readVersion (writeVersion version ++ rest) = some (version, rest) := by
  induction version with
  | zero => simp [writeVersion, readVersion]
  | succ version ih =>
    rw [writeVersion, List.append_assoc, List.singleton_append] at ih
    simp [writeVersion, List.replicate_succ, readVersion, ih]

theorem readId_write (id : UInt64) (rest : List UInt8) : readId (writeId id ++ rest) = (id, rest) := by
  have hlt : id.toNat < 256 ^ 8 := id.toNat_lt
  simp [readId, writeId, fromLeBytes_toLeBytes hlt]

def write : MessageHeader → List UInt8
  | .heartbeat => [0]
  | .query tag version id => 1 :: (writeName tag ++ (writeVersion version ++ writeId id))
  | .response id => 2 :: writeId id

def read : List UInt8 → Except String (MessageHeader × List UInt8)
  | [] => .error "end of input"
  | tag :: bytes =>
    if tag = 0 then .ok (.heartbeat, bytes)
    else if tag = 1 then
      match readName bytes with
      | none => .error "bad name"
      | some (name, bytes) =>
        match readVersion bytes with
        | none => .error "bad version"
        | some (version, bytes) => .ok (.query name version (readId bytes).1, (readId bytes).2)
    else .ok (.response (readId bytes).1, (readId bytes).2)

def markedCodec : HeaderCodec where
  write := write
  read := read
  read_write := by
    intro header rest
    cases header with
    | heartbeat => simp [write, read]
    | response id => simp [write, read, readId_write]
    | query tag version id =>
      obtain ⟨b, bytes, hb⟩ : ∃ b bytes, writeVersion version = b :: bytes :=
        List.exists_cons_of_length_pos (by simp [writeVersion])
      have hname : readName (writeName tag ++ (writeVersion version ++ (writeId id ++ rest))) =
          some (tag, writeVersion version ++ (writeId id ++ rest)) := by
        rw [hb, List.cons_append, readName_write]
      simp [write, read, hname, readVersion_write, readId_write]

def request : Request (List UInt8) where
  name := [115]
  version := 1
  payload := []
  decode := fun payload => .ok (some payload)

theorem length_response (id : UInt64) (b : UInt8) :
    (markedCodec.write (.response id) ++ [b]).length = 10 := by
  simp [markedCodec, write, writeId]

def reply (id : UInt64) : PeerFrame markedCodec where
  header := .response id
  payload := [0]
  fits := by
    rw [length_response]
    decide

def handshake : PeerFrame markedCodec where
  header := .response handshakeId
  payload := [1]
  fits := by
    rw [length_response]
    decide

def replies : ℕ → UInt64 → List (PeerFrame markedCodec)
  | 0, _ => []
  | n + 1, id => reply id :: replies n (id + 1)

end SampleWire

theorem call_next (request : Request R) {conn : RpcConn} {f : PeerFrame codec}
    {rest : List (PeerFrame codec)} (hfaults : conn.stream.faults = [])
    (hframes : conn.stream.source.incoming = bytesOf (f :: rest))
    (hf : f.header = .response conn.nextId) :
    ∃ conn', conn.call codec request = .returned (request.answer f.payload, conn') ∧
      conn'.stream.source.incoming = bytesOf rest ∧ conn'.nextId = conn.nextId + 1 ∧
      conn'.stream.faults = [] := by
  refine ⟨⟨⟨⟨bytesOf rest, conn.stream.source.ended⟩,
    conn.stream.sent ++ queryBytes codec request conn.nextId, []⟩, conn.nextId + 1⟩,
    ?_, rfl, rfl, rfl⟩
  rw [call_eq hframes]
  simp only [Stream.write, hfaults, readFrames, if_pos hf, Outcome.bind_returned]

open SampleWire in
theorem run_replies (n : ℕ) (conn : RpcConn) (tail : List (PeerFrame markedCodec))
    (hfaults : conn.stream.faults = [])
    (hframes : conn.stream.source.incoming = bytesOf (replies n conn.nextId ++ tail)) :
    ∃ results conn', conn.run markedCodec (List.replicate n request) =
        .returned (results, conn') ∧ conn'.stream.source.incoming = bytesOf tail ∧
      conn'.nextId = conn.nextId + UInt64.ofNat n ∧ conn'.stream.faults = [] := by
  induction n generalizing conn with
  | zero => exact ⟨[], conn, rfl, hframes, by simp, hfaults⟩
  | succ n ih =>
    rw [replies, List.cons_append] at hframes
    obtain ⟨conn₁, hcall, hin, hid, hf₁⟩ := call_next request hfaults hframes rfl
    obtain ⟨results, conn', hrun, hin', hid', hf'⟩ := ih conn₁ hf₁ (hid ▸ hin)
    refine ⟨request.answer (reply conn.nextId).payload :: results, conn', ?_, hin', ?_, hf'⟩
    · rw [List.replicate_succ, RpcConn.run, hcall, Outcome.bind_returned, hrun, Outcome.bind_returned]
    · rw [hid', hid, add_one_add_ofNat]

namespace SampleWire

/-- A peer that answers `n` calls at once, repeats its handshake, and answers once more. -/
def lateHandshake (n : ℕ) : List (PeerFrame markedCodec) :=
  replies n queryId ++ [handshake, reply handshakeId]

def streamOf (frames : List (PeerFrame markedCodec)) : Stream := ⟨⟨bytesOf frames, none⟩, [], []⟩

def connOf (frames : List (PeerFrame markedCodec)) : RpcConn :=
  ⟨⟨⟨bytesOf frames, none⟩, handshakeBytes markedCodec, []⟩, queryId⟩

theorem open_streamOf (frames : List (PeerFrame markedCodec)) :
    RpcConn.open markedCodec (streamOf frames) = .ok (connOf frames) := rfl

theorem not_inSync_lateHandshake {n : ℕ} (hn : queryId + UInt64.ofNat n = handshakeId) :
    ¬ InSync (lateHandshake n) (connOf (lateHandshake n)) (List.replicate (n + 1) request) := by
  intro h
  obtain ⟨results, conn', hrun, hin, hid, hfaults⟩ := run_replies n (connOf (lateHandshake n))
    [handshake, reply handshakeId] rfl rfl
  have hid' : conn'.nextId = handshakeId := hid.trans hn
  have hcalls := (inSync_iff rfl).mp h (List.replicate n request) request
    (by rw [← List.replicate_succ']) results conn' hrun [handshake, reply handshakeId]
    (List.suffix_append _ _) hin
  -- the response to the call would be left on the stream
  have hmeets : MeetsHandshake [handshake, reply handshakeId] [reply handshakeId] conn' request := by
    refine ⟨by simp [Stream.write, hfaults], [], handshake, rfl, by simp, ?_, rfl, rfl⟩
    rw [hid']
    rfl
  simpa using (hcalls.2 _ hmeets).1

end SampleWire

open SampleWire in
/-- After 4411473 calls, all answered, the next one has the id of the handshake. -/
theorem not_inSync_call_4411474 :
    RpcConn.open markedCodec (streamOf (lateHandshake 4411473)) =
        .ok (connOf (lateHandshake 4411473)) ∧
      ¬ InSync (lateHandshake 4411473) (connOf (lateHandshake 4411473))
        (List.replicate (4411473 + 1) request) :=
  ⟨open_streamOf _, not_inSync_lateHandshake (by decide)⟩

def SampleWire.byteQuery : Request (Except String UInt8) where
  name := [115]
  version := 1
  payload := []
  decode := fun payload => .ok (payload.head?.map .ok)

open SampleWire in
/-- Two calls on a stream with a handshake, a stale response and both answers. -/
theorem rpc_in_sync_two_calls :
    InSync [handshake, reply 9, reply 1, reply 2]
        (connOf [handshake, reply 9, reply 1, reply 2]) [request, request] ∧
      ∃ conn' used, (connOf [handshake, reply 9, reply 1, reply 2]).fetchSyncLedgerAnswers
          markedCodec [byteQuery, byteQuery] = .returned (.ok [0, 0], conn') ∧
        used.Sublist [handshake, reply 9, reply 1, reply 2] ∧
        Matched queryId [byteQuery, byteQuery] [0, 0] used := by
  obtain ⟨hsync, hbatch⟩ := rpc_in_sync (R := List UInt8) (A := UInt8)
    (open_streamOf [handshake, reply 9, reply 1, reply 2]) rfl
  refine ⟨(hsync _).mpr (unconfused_of_length rfl rfl (by decide)), ?_⟩
  obtain ⟨⟨result, conn'⟩, hfetch, hresult⟩ := Outcome.exists_of_holds
    (x := (connOf [handshake, reply 9, reply 1, reply 2]).fetchSyncLedgerAnswers
      markedCodec [byteQuery, byteQuery])
    (p := fun r : Except String (List UInt8) × RpcConn =>
      match r.1 with
      | .ok answers => decide (answers = [0, 0])
      | .error _ => false) (by decide +kernel)
  cases result with
  | error e => simp at hresult
  | ok answers =>
    have hanswers : answers = [0, 0] := of_decide_eq_true hresult
    subst hanswers
    obtain ⟨used, hsub, hmatched⟩ := hbatch _ _ _ hfetch
    exact ⟨conn', used, hfetch, hsub, hmatched⟩

end MinaVerify
