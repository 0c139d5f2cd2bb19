import MinaVerify.Rpc.Answers

/-! # Lengths a peer may claim

The read loop of `RpcConn::call` allocates what the length prefix asks for before it reads a byte of
the body, and nothing bounds the prefix: one above `isize::MAX` is a panic. The loop gets to such a
prefix at the start of the stream, or behind frames that it skips. -/
namespace MinaVerify
set_option autoImplicit false
open Framing

variable {codec : HeaderCodec} {R : Type}

/-- The bytes of the peer bring a call to a length prefix that no buffer can have: the next frame has
one, or the next frame is whole, has the header of something other than the response to this call, and
the bytes behind it do. -/
inductive OversizedAhead (codec : HeaderCodec) (id : UInt64) : List UInt8 → Prop where
  | here {lenBuf rest : List UInt8} (hlen : lenBuf.length = 8)
      (hover : isizeMax < fromLeBytes lenBuf) : OversizedAhead codec id (lenBuf ++ rest)
  | skipped {lenBuf body rest cursor : List UInt8} {header : MessageHeader}
      (hlen : lenBuf.length = 8) (hbody : fromLeBytes lenBuf = body.length)
      (hfits : body.length ≤ isizeMax) (hread : codec.read body = .ok (header, cursor))
      (hother : header ≠ .response id) (hrest : OversizedAhead codec id rest) :
      OversizedAhead codec id (lenBuf ++ (body ++ rest))

/-! ## The rounds of the read loop -/

section Rounds
variable {request : Request R} {id : UInt64} {s s' : Source}

theorem readStep_eq_inl :
    readStep codec request id s = .inl s' ↔
      ∃ body header cursor, readBody isizeMax s = .returned (.ok body, s') ∧
        codec.read body = .ok (header, cursor) ∧ header ≠ .response id := by
  unfold readStep
  constructor
  · intro h
    split at h
    · simp at h
    · simp at h
    · simp at h
    · next body s₁ hbody =>
      split at h
      · simp at h
      · next header cursor hread =>
        split_ifs at h with hother
        rw [Sum.inl.injEq] at h
        exact ⟨body, header, cursor, h ▸ hbody, hread, hother⟩
  · intro h
    obtain ⟨body, header, cursor, hbody, hread, hother⟩ := h
    simp only [hbody, hread, if_neg hother]

theorem readStep_eq_panicked {message : String} :
    readStep codec request id s = .inr (.panicked message) ↔
      readBody isizeMax s = .panicked message := by
  unfold readStep
  constructor
  · intro h
    split at h
    · next hbody =>
      rw [Sum.inr.injEq, Outcome.panicked.injEq] at h
      exact h ▸ hbody
    · simp at h
    · simp at h
    · split at h
      · simp at h
      · split_ifs at h
        simp at h
  · intro h
    simp only [h]

theorem oversizedAhead_of_panicked {message : String} {n : ℕ}
    (h : Loop.iterate (readStep codec request id) n s = some (.panicked message)) :
    OversizedAhead codec id s.incoming := by
  induction n generalizing s with
  | zero => simp [Loop.iterate] at h
  | succ n ih =>
    cases hstep : readStep codec request id s with
    | inl s' =>
      rw [Loop.iterate_inl hstep] at h
      obtain ⟨body, header, cursor, hbody, hread, hother⟩ := readStep_eq_inl.mp hstep
      obtain ⟨lenBuf, rfl, hlen, heq, hfits⟩ := readBody_eq_ok.mp hbody
      exact .skipped hlen heq hfits hread hother (ih h)
    | inr r =>
      rw [Loop.iterate_inr hstep, Option.some.injEq] at h
      obtain ⟨_, lenBuf, rest, hin, hlen, hover⟩ :=
        readBody_eq_panicked.mp (readStep_eq_panicked.mp (h ▸ hstep))
      rw [hin]
      exact .here hlen hover

theorem panicked_of_oversizedAhead {bytes : List UInt8} (h : OversizedAhead codec id bytes)
    (request : Request R) (ended : Option String) :
    ∃ n, Loop.iterate (readStep codec request id) n ⟨bytes, ended⟩ =
      some (.panicked "capacity overflow") := by
  induction h with
  | @here lenBuf rest hlen hover =>
    refine ⟨1, Loop.iterate_inr ?_ 0⟩
    rw [readStep_eq_panicked, readBody_eq_panicked]
    exact ⟨rfl, lenBuf, rest, rfl, hlen, hover⟩
  | @skipped lenBuf body rest cursor header hlen hbody hfits hread hother _ ih =>
    obtain ⟨n, hn⟩ := ih
    have hstep : readStep codec request id ⟨lenBuf ++ (body ++ rest), ended⟩ =
        .inl ⟨rest, ended⟩ := by
      rw [readStep_eq_inl]
      refine ⟨body, header, cursor, ?_, hread, hother⟩
      rw [readBody_eq_ok]
      exact ⟨lenBuf, rfl, hlen, hbody, hfits⟩
    exact ⟨n + 1, by rw [Loop.iterate_inl hstep, hn]⟩

end Rounds

/-! ## One call -/

theorem call_eq_panicked {conn : RpcConn} {request : Request R} :
    (∃ message, conn.call codec request = .panicked message) ↔
      (conn.stream.write (queryBytes codec request conn.nextId)).1 = .ok () ∧
        OversizedAhead codec conn.nextId conn.stream.source.incoming := by
  have hsource := write_source conn.stream (queryBytes codec request conn.nextId)
  cases hw : conn.stream.write (queryBytes codec request conn.nextId) with
  | mk written stream =>
    rw [hw] at hsource
    simp only at hsource
    cases written with
    | error e => simp [RpcConn.call, hw]
    | ok _ =>
      obtain ⟨r, hr⟩ := readStep_ends codec request conn.nextId stream.source
      simp only [RpcConn.call, hw, hr, true_and]
      rw [← hsource]
      constructor
      · intro h
        obtain ⟨message, h⟩ := h
        rw [Outcome.bind_eq_panicked] at h
        obtain hr' | ⟨a, _, h⟩ := h
        · exact oversizedAhead_of_panicked (hr' ▸ hr)
        · simp at h
      · intro h
        obtain ⟨n, hn⟩ := panicked_of_oversizedAhead h request stream.source.ended
        exact ⟨"capacity overflow", by rw [Loop.iterate_unique hr hn, Outcome.bind_panicked]⟩

/-- **When the bytes of a peer cannot crash the client.** A call returns or keeps reading unless its
query was written and the bytes bring it to an oversized length. -/
theorem call_survives_iff (codec : HeaderCodec) (conn : RpcConn) (request : Request R) :
    ((∃ result conn', conn.call codec request = .returned (result, conn')) ∨
      conn.call codec request = .diverged) ↔
    ¬ ((conn.stream.write (queryBytes codec request conn.nextId)).1 = .ok () ∧
      OversizedAhead codec conn.nextId conn.stream.source.incoming) := by
  rw [← call_eq_panicked]
  cases conn.call codec request with
  | returned r => simpa using ⟨r.1, r.2, rfl⟩
  | panicked message => simp
  | diverged => simp

namespace SampleWire

/-- A connection whose peer claims 2^64 - 1 bytes. -/
def oversizedConn : RpcConn :=
  ⟨⟨⟨List.replicate 8 255, none⟩, handshakeBytes markedCodec, []⟩, queryId⟩

end SampleWire

open SampleWire in
theorem not_survives_oversized :
    ¬ ((∃ result conn', oversizedConn.call markedCodec request = .returned (result, conn')) ∨
      oversizedConn.call markedCodec request = .diverged) := by
  obtain ⟨message, h⟩ := Outcome.exists_of_panics
    (x := oversizedConn.call markedCodec request) (by decide +kernel)
  simp [h]

end MinaVerify
