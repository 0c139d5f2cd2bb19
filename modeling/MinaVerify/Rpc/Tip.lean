import MinaVerify.Block
import MinaVerify.Rpc.Batch
import MinaVerify.Rpc.Handler
import MinaVerify.Rpc.Lengths

/-! # The best tip of a peer

`rpc_best_tip` of `crates/mina-verify-capture/src/rpc.rs`: one query over a fresh stream. The bytes are
those of a peer that is not trusted, so what the query returns is said of any bytes: a block comes out
exactly when they bring the read loop to a response with its id, and a panic exactly when they bring it to a
length no buffer can have. -/
namespace MinaVerify
set_option autoImplicit false
open Framing

variable {codec : HeaderCodec} {R : Type} {T : Types}

/-- The bytes of the peer bring a call to a response: the next frame is the response, with the payload; or
the next frame is whole, has the header of something else, and the bytes behind it do. -/
inductive ResponseAhead (codec : HeaderCodec) (id : UInt64) : List UInt8 → List UInt8 → Prop where
  | here {lenBuf body rest payload : List UInt8} (hlen : lenBuf.length = 8)
      (hbody : fromLeBytes lenBuf = body.length) (hfits : body.length ≤ isizeMax)
      (hread : codec.read body = .ok (.response id, payload)) :
      ResponseAhead codec id (lenBuf ++ (body ++ rest)) payload
  | skipped {lenBuf body rest cursor payload : List UInt8} {header : MessageHeader}
      (hlen : lenBuf.length = 8) (hbody : fromLeBytes lenBuf = body.length)
      (hfits : body.length ≤ isizeMax) (hread : codec.read body = .ok (header, cursor))
      (hother : header ≠ .response id) (hrest : ResponseAhead codec id rest payload) :
      ResponseAhead codec id (lenBuf ++ (body ++ rest)) payload

/-- A peer that sends whole frames, among them a response to the call, brings it there. -/
theorem ResponseAhead.of_frames {id : UInt64} {skipped rest : List (PeerFrame codec)} {f : PeerFrame codec}
    (hskipped : ∀ g ∈ skipped, g.header ≠ .response id) (hf : f.header = .response id) :
    ResponseAhead codec id (bytesOf (skipped ++ f :: rest)) f.payload := by
  have hlen : ∀ g : PeerFrame codec,
      fromLeBytes (toLeBytes 8 (codec.write g.header ++ g.payload).length) =
        (codec.write g.header ++ g.payload).length := by
    intro g
    have hmax : isizeMax < 256 ^ 8 := by decide
    exact fromLeBytes_toLeBytes (lt_of_le_of_lt g.fits hmax)
  induction skipped with
  | nil =>
    rw [List.nil_append, bytesOf_cons, frame, frameBody, List.append_assoc]
    refine .here (length_toLeBytes 8 _) (hlen f) f.fits ?_
    rw [codec.read_write, hf]
  | cons g skipped ih =>
    rw [List.forall_mem_cons] at hskipped
    rw [List.cons_append, bytesOf_cons, frame, frameBody, List.append_assoc]
    exact .skipped (length_toLeBytes 8 _) (hlen g) g.fits (codec.read_write _ _) hskipped.1 (ih hskipped.2)

/-! ## The rounds of the read loop -/

section Rounds
variable {request : Request R} {id : UInt64} {s : Source} {r : R}

theorem readStep_eq_ok {s' : Source} :
    readStep codec request id s = .inr (.returned (.ok r, s')) ↔
      ∃ body payload, readBody isizeMax s = .returned (.ok body, s') ∧
        codec.read body = .ok (.response id, payload) ∧ request.answer payload = .ok r := by
  unfold readStep
  constructor
  · intro h
    split at h
    · simp at h
    · simp at h
    · simp at h
    · next body s₁ hbody =>
      split at h
      · simp at h
      · next header payload hread =>
        split_ifs at h with hown
        simp only [Sum.inr.injEq, Outcome.returned.injEq, Prod.mk.injEq] at h
        exact ⟨body, payload, h.2 ▸ hbody, hown ▸ hread, h.1⟩
  · intro h
    obtain ⟨body, payload, hbody, hread, hanswer⟩ := h
    simp only [hbody, hread, hanswer, if_true]

theorem responseAhead_of_returned {s' : Source} {n : ℕ}
    (h : Loop.iterate (readStep codec request id) n s = some (.returned (.ok r, s'))) :
    ∃ payload, ResponseAhead codec id s.incoming payload ∧ request.answer payload = .ok r := by
  induction n generalizing s with
  | zero => simp [Loop.iterate] at h
  | succ n ih =>
    cases hstep : readStep codec request id s with
    | inl s₁ =>
      rw [Loop.iterate_inl hstep] at h
      obtain ⟨body, header, cursor, hbody, hread, hother⟩ := readStep_eq_inl.mp hstep
      obtain ⟨lenBuf, rfl, hlen, heq, hfits⟩ := readBody_eq_ok.mp hbody
      obtain ⟨payload, hahead, hanswer⟩ := ih h
      exact ⟨payload, .skipped hlen heq hfits hread hother hahead, hanswer⟩
    | inr result =>
      rw [Loop.iterate_inr hstep, Option.some.injEq] at h
      obtain ⟨body, payload, hbody, hread, hanswer⟩ := readStep_eq_ok.mp (h ▸ hstep)
      obtain ⟨lenBuf, rfl, hlen, heq, hfits⟩ := readBody_eq_ok.mp hbody
      exact ⟨payload, .here hlen heq hfits hread, hanswer⟩

theorem returned_of_responseAhead {bytes payload : List UInt8} (h : ResponseAhead codec id bytes payload)
    (hanswer : request.answer payload = .ok r) (ended : Option String) :
    ∃ n s', Loop.iterate (readStep codec request id) n ⟨bytes, ended⟩ = some (.returned (.ok r, s')) := by
  induction h with
  | @here lenBuf body rest payload hlen hbody hfits hread =>
    refine ⟨1, ⟨rest, ended⟩, Loop.iterate_inr ?_ 0⟩
    rw [readStep_eq_ok]
    refine ⟨body, payload, ?_, hread, hanswer⟩
    rw [readBody_eq_ok]
    exact ⟨lenBuf, rfl, hlen, hbody, hfits⟩
  | @skipped lenBuf body rest cursor payload header hlen hbody hfits hread hother _ ih =>
    obtain ⟨n, s', hn⟩ := ih hanswer
    have hstep : readStep codec request id ⟨lenBuf ++ (body ++ rest), ended⟩ = .inl ⟨rest, ended⟩ := by
      rw [readStep_eq_inl]
      refine ⟨body, header, cursor, ?_, hread, hother⟩
      rw [readBody_eq_ok]
      exact ⟨lenBuf, rfl, hlen, hbody, hfits⟩
    exact ⟨n + 1, s', by rw [Loop.iterate_inl hstep, hn]⟩

end Rounds

/-! ## One call -/

/-- A call returns a response exactly when its query is written and the bytes bring it to one. -/
theorem call_eq_ok {conn : RpcConn} {request : Request R} {r : R} :
    (∃ conn', conn.call codec request = .returned (.ok r, conn')) ↔
      (conn.stream.write (queryBytes codec request conn.nextId)).1 = .ok () ∧
        ∃ payload, ResponseAhead codec conn.nextId conn.stream.source.incoming payload ∧
          request.answer payload = .ok r := by
  have hsource := write_source conn.stream (queryBytes codec request conn.nextId)
  cases hw : conn.stream.write (queryBytes codec request conn.nextId) with
  | mk written stream =>
    rw [hw] at hsource
    simp only at hsource
    cases written with
    | error e => simp [RpcConn.call, hw]
    | ok _ =>
      obtain ⟨result, hresult⟩ := readStep_ends codec request conn.nextId stream.source
      simp only [RpcConn.call, hw, hresult, true_and]
      rw [← hsource]
      constructor
      · rintro ⟨conn', h⟩
        obtain ⟨⟨r', s'⟩, hr, h⟩ := Outcome.bind_eq_returned.mp h
        rw [Outcome.returned.injEq, Prod.mk.injEq] at h
        have hr' : r' = .ok r := h.1
        rw [hr, hr'] at hresult
        exact responseAhead_of_returned hresult
      · rintro ⟨payload, hahead, hanswer⟩
        obtain ⟨n, s', hn⟩ := returned_of_responseAhead hahead hanswer stream.source.ended
        rw [Loop.iterate_unique hresult hn]
        exact ⟨_, rfl⟩

/-! ## The best tip -/

/-- The response to `get_best_tip`, of which only the block is read. -/
structure BestTip (T : Types) where
  data : Block T

def rpcBestTip (codec : HeaderCodec) (getBestTip : Request (Option (BestTip T))) (stream : Stream) :
    Outcome (Except String (Block T)) :=
  match RpcConn.open codec stream with
  | .error e => .returned (.error e)
  | .ok conn => (conn.call codec getBestTip).bind fun
    | (.error e, _) => .returned (.error e)
    | (.ok none, _) => .returned (.error "peer has no best tip")
    | (.ok (some tip), _) => .returned (.ok tip.data)

section Tip
variable {getBestTip : Request (Option (BestTip T))} {stream : Stream}

theorem write_eq_ok (stream : Stream) (bytes : List UInt8) :
    (stream.write bytes).1 = .ok () ↔ Writable stream.faults 1 := by
  cases hfaults : stream.faults with
  | nil => simp [Stream.write, hfaults, Writable]
  | cons fault faults =>
    cases fault with
    | none => simp [Stream.write, hfaults, Writable]
    | some failure => simp [Stream.write, hfaults, Writable]

theorem write_faults (stream : Stream) (bytes : List UInt8) :
    (stream.write bytes).2.faults = stream.faults.drop 1 := by
  cases hfaults : stream.faults with
  | nil => simp [Stream.write, hfaults]
  | cons fault faults =>
    cases fault with
    | none => simp [Stream.write, hfaults]
    | some failure => simp [Stream.write, hfaults]

/-- The connection after the handshake, if it could be written. -/
def shaken (codec : HeaderCodec) (stream : Stream) : RpcConn :=
  ⟨(stream.write (handshakeBytes codec)).2, queryId⟩

theorem open_eq_ok {conn : RpcConn} :
    RpcConn.open codec stream = .ok conn ↔ Writable stream.faults 1 ∧ conn = shaken codec stream := by
  rw [← write_eq_ok stream (handshakeBytes codec), RpcConn.open, shaken]
  cases hw : stream.write (handshakeBytes codec) with
  | mk written stream' =>
    cases written with
    | error e => simp
    | ok _ => simp [eq_comm]

theorem shaken_incoming (codec : HeaderCodec) (stream : Stream) :
    (shaken codec stream).stream.source.incoming = stream.source.incoming := by
  rw [shaken, write_source]

/-- The call is made exactly when neither of the two writes fails. -/
theorem writable_two (codec : HeaderCodec) (request : Request R) (stream : Stream) :
    Writable stream.faults 2 ↔ Writable stream.faults 1 ∧
      ((shaken codec stream).stream.write
        (queryBytes codec request (shaken codec stream).nextId)).1 = .ok () := by
  rw [writable_succ, write_eq_ok, shaken, write_faults]

/-- The block that the result of the call carries. -/
def tipBlock : Except String (Option (BestTip T)) × RpcConn → Outcome (Except String (Block T))
  | (.error e, _) => .returned (.error e)
  | (.ok none, _) => .returned (.error "peer has no best tip")
  | (.ok (some tip), _) => .returned (.ok tip.data)

theorem rpcBestTip_eq (hw : Writable stream.faults 1) :
    rpcBestTip codec getBestTip stream = ((shaken codec stream).call codec getBestTip).bind tipBlock := by
  rw [rpcBestTip, open_eq_ok.mpr ⟨hw, rfl⟩]
  rfl

theorem rpcBestTip_of_fault (codec : HeaderCodec) (getBestTip : Request (Option (BestTip T)))
    (hw : ¬ Writable stream.faults 1) : ∃ e, rpcBestTip codec getBestTip stream = .returned (.error e) := by
  rw [rpcBestTip]
  cases hopen : RpcConn.open codec stream with
  | error e => exact ⟨e, rfl⟩
  | ok conn => exact absurd (open_eq_ok.mp hopen).1 hw

/-- **What the bytes of a peer make of the query.** A block is returned exactly when both writes succeed and
the bytes bring the loop to a response to the first id that carries it. -/
theorem rpcBestTip_eq_ok {block : Block T} :
    rpcBestTip codec getBestTip stream = .returned (.ok block) ↔ Writable stream.faults 2 ∧
      ∃ payload tip, ResponseAhead codec queryId stream.source.incoming payload ∧
        getBestTip.answer payload = .ok (some tip) ∧ tip.data = block := by
  rw [writable_two codec getBestTip stream]
  by_cases hw : Writable stream.faults 1
  · rw [rpcBestTip_eq hw, Outcome.bind_eq_returned]
    constructor
    · rintro ⟨⟨r, conn⟩, hcall, h⟩
      obtain e | _ | tip := r
      · simp [tipBlock] at h
      · simp [tipBlock] at h
      · simp only [tipBlock, Outcome.returned.injEq, Except.ok.injEq] at h
        obtain ⟨hwritten, payload, hahead, hanswer⟩ := call_eq_ok.mp ⟨conn, hcall⟩
        rw [shaken_incoming] at hahead
        exact ⟨⟨hw, hwritten⟩, payload, tip, hahead, hanswer, h⟩
    · rintro ⟨⟨_, hwritten⟩, payload, tip, hahead, hanswer, rfl⟩
      rw [← shaken_incoming codec stream] at hahead
      obtain ⟨conn, hcall⟩ := call_eq_ok.mpr ⟨hwritten, payload, hahead, hanswer⟩
      exact ⟨_, hcall, rfl⟩
  · obtain ⟨e, he⟩ := rpcBestTip_of_fault codec getBestTip hw
    simp [he, hw]

/-- It panics exactly when they bring it to a length that no buffer can have. -/
theorem rpcBestTip_panics :
    (∃ message, rpcBestTip codec getBestTip stream = .panicked message) ↔
      Writable stream.faults 2 ∧ OversizedAhead codec queryId stream.source.incoming := by
  rw [writable_two codec getBestTip stream]
  by_cases hw : Writable stream.faults 1
  · rw [rpcBestTip_eq hw, and_iff_right hw, ← shaken_incoming codec stream]
    refine Iff.trans ?_ call_eq_panicked
    apply exists_congr
    intro message
    rw [Outcome.bind_eq_panicked]
    constructor
    · rintro (h | ⟨⟨r, conn⟩, _, h⟩)
      · exact h
      · obtain e | _ | tip := r <;> simp [tipBlock] at h
    · exact Or.inl
  · obtain ⟨e, he⟩ := rpcBestTip_of_fault codec getBestTip hw
    simp [he, hw]

end Tip

end MinaVerify
