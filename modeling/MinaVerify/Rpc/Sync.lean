import Mathlib.Data.List.Infix
import MinaVerify.Rpc.Conn

/-! # Calls and frames

On a stream of whole frames a call reads frames, not bytes: it drops what is not a response with its
own id and returns the payload of the first that is. So every call, also one that fails, leaves the
stream at a frame boundary, and a batch gets one answer for each query, by id and in order.

What the call takes for its own is decided by the id alone. Ids count up from one, and the id of the
handshake is among the numbers they pass. -/
namespace MinaVerify
set_option autoImplicit false
open Framing

variable {codec : HeaderCodec} {R : Type}

/-! ## Frames of the peer -/

/-- A message of the peer; with its header it fits a `Vec<u8>`. -/
structure PeerFrame (codec : HeaderCodec) where
  header : MessageHeader
  payload : List UInt8
  fits : (codec.write header ++ payload).length ≤ isizeMax

def bytesOf (frames : List (PeerFrame codec)) : List UInt8 :=
  frames.flatMap fun f => frame codec f.header f.payload

@[simp] theorem bytesOf_nil : bytesOf ([] : List (PeerFrame codec)) = [] := rfl
theorem bytesOf_cons (f : PeerFrame codec) (frames : List (PeerFrame codec)) :
    bytesOf (f :: frames) = frame codec f.header f.payload ++ bytesOf frames := rfl

theorem length_bytesOf (frames : List (PeerFrame codec)) :
    8 * frames.length ≤ (bytesOf frames).length := by
  induction frames with
  | nil => simp
  | cons f frames ih =>
    rw [bytesOf_cons, frame, frameBody]
    simp only [List.length_cons, List.length_append, length_toLeBytes]
    omega

theorem suffix_eq_of_bytes {frames r r' : List (PeerFrame codec)} (h : r <:+ frames)
    (h' : r' <:+ frames) (hbytes : bytesOf r = bytesOf r') : r = r' := by
  have hnil : ∀ {a b : List (PeerFrame codec)}, a <:+ b → bytesOf a = bytesOf b → a = b := by
    rintro a b ⟨pre, rfl⟩ hab
    have hlen := congrArg List.length hab
    have hpre := length_bytesOf pre
    simp only [bytesOf, List.flatMap_append, List.length_append] at hlen hpre
    rw [List.length_eq_zero_iff.mp (by omega : pre.length = 0), List.nil_append]
  rcases List.suffix_or_suffix_of_suffix h h' with hr | hr
  · exact hnil hr hbytes
  · exact (hnil hr hbytes.symm).symm

/-! ## The read loop, frame by frame -/

def readFrames (request : Request R) (id : UInt64) (ended : Option String) :
    List (PeerFrame codec) → Outcome (Except String R × List (PeerFrame codec))
  | [] =>
    match ended with
    | some e => .returned (.error e, [])
    | none => .diverged
  | f :: frames =>
    if f.header = .response id then .returned (request.answer f.payload, frames)
    else readFrames request id ended frames

section Read
variable {request : Request R} {id : UInt64} {ended : Option String}
  {frames rest : List (PeerFrame codec)}

theorem readStep_frame (request : Request R) (id : UInt64) (ended : Option String)
    (f : PeerFrame codec) (bytes : List UInt8) :
    readStep codec request id ⟨frame codec f.header f.payload ++ bytes, ended⟩ =
      if f.header = .response id then
        .inr (.returned (request.answer f.payload, ⟨bytes, ended⟩))
      else .inl ⟨bytes, ended⟩ := by
  unfold readStep
  rw [frame, readBody_frameBody (by decide) f.fits]
  simp only [codec.read_write]

/-- The loop over bytes does what the loop over frames does. -/
theorem iterate_readStep {n : ℕ} (hn : frames.length < n) :
    Loop.iterate (readStep codec request id) n ⟨bytesOf frames, ended⟩ =
      some ((readFrames request id ended frames).bind fun r =>
        .returned (r.1, ⟨bytesOf r.2, ended⟩)) := by
  induction frames generalizing n with
  | nil =>
    obtain ⟨n, rfl⟩ : ∃ k, n = k + 1 := ⟨n - 1, by simp only [List.length_nil] at hn; omega⟩
    refine Loop.iterate_inr ?_ n
    unfold readStep
    rw [bytesOf_nil, readBody_nil]
    cases ended with
    | some e => simp [readFrames]
    | none => simp [readFrames]
  | cons f frames ih =>
    obtain ⟨n, rfl⟩ : ∃ k, n = k + 1 := ⟨n - 1, by omega⟩
    rw [List.length_cons] at hn
    have hstep := readStep_frame request id ended f (bytesOf frames)
    rw [bytesOf_cons]
    by_cases hf : f.header = .response id
    · rw [if_pos hf] at hstep
      rw [Loop.iterate_inr hstep n, readFrames, if_pos hf, Outcome.bind_returned]
    · rw [if_neg hf] at hstep
      rw [Loop.iterate_inl hstep n, readFrames, if_neg hf]
      exact ih (by omega)

theorem readFrames_ne_panicked (message : String) :
    readFrames request id ended frames ≠ .panicked message := by
  induction frames with
  | nil => cases ended <;> simp [readFrames]
  | cons f frames ih =>
    rw [readFrames]
    split_ifs
    · simp
    · exact ih

theorem readFrames_eq_diverged :
    readFrames request id ended frames = .diverged ↔
      ended = none ∧ ∀ f ∈ frames, f.header ≠ .response id := by
  induction frames with
  | nil => cases ended <;> simp [readFrames]
  | cons f frames ih =>
    rw [readFrames]
    split_ifs with hf
    · simp [hf]
    · rw [ih, List.forall_mem_cons]
      exact ⟨fun h => ⟨h.1, hf, h.2⟩, fun h => ⟨h.1, h.2.2⟩⟩

theorem readFrames_response {skipped : List (PeerFrame codec)} {f : PeerFrame codec}
    (hskip : ∀ g ∈ skipped, g.header ≠ .response id) (hf : f.header = .response id) :
    readFrames request id ended (skipped ++ f :: rest) =
      .returned (request.answer f.payload, rest) := by
  induction skipped with
  | nil => rw [List.nil_append, readFrames, if_pos hf]
  | cons g skipped ih =>
    rw [List.forall_mem_cons] at hskip
    rw [List.cons_append, readFrames, if_neg hskip.1]
    exact ih hskip.2

theorem readFrames_returned {result : Except String R}
    (h : readFrames request id ended frames = .returned (result, rest)) :
    (∃ skipped f, frames = skipped ++ f :: rest ∧ (∀ g ∈ skipped, g.header ≠ .response id) ∧
      f.header = .response id ∧ result = request.answer f.payload) ∨
    (rest = [] ∧ (∀ f ∈ frames, f.header ≠ .response id) ∧
      ∃ e, ended = some e ∧ result = .error e) := by
  induction frames with
  | nil =>
    right
    cases ended with
    | some e =>
      simp only [readFrames, Outcome.returned.injEq, Prod.mk.injEq] at h
      exact ⟨h.2.symm, by simp, e, rfl, h.1.symm⟩
    | none => simp [readFrames] at h
  | cons f frames ih =>
    rw [readFrames] at h
    split_ifs at h with hf
    · simp only [Outcome.returned.injEq, Prod.mk.injEq] at h
      exact Or.inl ⟨[], f, by simp [h.2], by simp, hf, h.1.symm⟩
    · obtain ⟨skipped, g, rfl, hskip, hg, hres⟩ | ⟨hrest, hall, hend⟩ := ih h
      · refine Or.inl ⟨f :: skipped, g, rfl, ?_, hg, hres⟩
        simp only [List.mem_cons, forall_eq_or_imp]
        exact ⟨hf, hskip⟩
      · refine Or.inr ⟨hrest, ?_, hend⟩
        simp only [List.mem_cons, forall_eq_or_imp]
        exact ⟨hf, hall⟩

theorem readFrames_suffix {result : Except String R}
    (h : readFrames request id ended frames = .returned (result, rest)) : rest <:+ frames := by
  obtain ⟨skipped, f, rfl, _⟩ | ⟨rfl, _⟩ := readFrames_returned h
  · exact (List.suffix_cons f rest).trans (List.suffix_append skipped (f :: rest))
  · exact List.nil_suffix

end Read

/-! ## One call -/

section Call
variable {request : Request R} {conn conn' : RpcConn} {frames : List (PeerFrame codec)}
  {result : Except String R}

theorem call_eq (hframes : conn.stream.source.incoming = bytesOf frames) :
    conn.call codec request =
      match conn.stream.write (queryBytes codec request conn.nextId) with
      | (.error e, stream) => .returned (.error e, ⟨stream, conn.nextId + 1⟩)
      | (.ok _, stream) =>
        (readFrames request conn.nextId conn.stream.source.ended frames).bind fun r =>
          .returned (r.1, ⟨{ stream with source := ⟨bytesOf r.2, conn.stream.source.ended⟩ },
            conn.nextId + 1⟩) := by
  have hsource := write_source conn.stream (queryBytes codec request conn.nextId)
  have hlen := length_bytesOf frames
  cases hw : conn.stream.write (queryBytes codec request conn.nextId) with
  | mk written stream =>
    rw [hw] at hsource
    simp only at hsource
    cases written with
    | error e => simp only [RpcConn.call, hw]
    | ok _ =>
      have hsrc : stream.source = ⟨bytesOf frames, conn.stream.source.ended⟩ := by
        rw [hsource, ← hframes]
      simp only [RpcConn.call, hw, hsrc]
      rw [iterate_readStep (by omega)]
      cases readFrames request conn.nextId conn.stream.source.ended frames <;> rfl

theorem call_cases (hframes : conn.stream.source.incoming = bytesOf frames)
    (h : conn.call codec request = .returned (result, conn')) :
    conn'.nextId = conn.nextId + 1 ∧ conn'.stream.source.ended = conn.stream.source.ended ∧
    ((∃ e, (conn.stream.write (queryBytes codec request conn.nextId)).1 = .error e ∧
        result = .error e ∧ conn'.stream.source.incoming = bytesOf frames) ∨
      ((conn.stream.write (queryBytes codec request conn.nextId)).1 = .ok () ∧
        ∃ rest, readFrames request conn.nextId conn.stream.source.ended frames =
          .returned (result, rest) ∧ conn'.stream.source.incoming = bytesOf rest)) := by
  have hsource := write_source conn.stream (queryBytes codec request conn.nextId)
  rw [call_eq hframes] at h
  cases hw : conn.stream.write (queryBytes codec request conn.nextId) with
  | mk written stream =>
    rw [hw] at h hsource
    cases written with
    | error e =>
      simp only [Outcome.returned.injEq, Prod.mk.injEq] at h
      obtain ⟨rfl, rfl⟩ := h
      simp only at hsource
      exact ⟨rfl, by rw [hsource], Or.inl ⟨e, rfl, rfl, by rw [hsource, hframes]⟩⟩
    | ok _ =>
      obtain ⟨⟨r, rest⟩, hread, h⟩ := Outcome.bind_eq_returned.mp h
      simp only [Outcome.returned.injEq, Prod.mk.injEq] at h
      obtain ⟨rfl, rfl⟩ := h
      exact ⟨rfl, rfl, Or.inr ⟨rfl, rest, hread, rfl⟩⟩

theorem call_suffix (hframes : conn.stream.source.incoming = bytesOf frames)
    (h : conn.call codec request = .returned (result, conn')) :
    ∃ rest, rest <:+ frames ∧ conn'.stream.source.incoming = bytesOf rest := by
  obtain ⟨_, _, _, hin⟩ | ⟨_, rest, hread, hin⟩ := (call_cases hframes h).2.2
  · exact ⟨frames, List.suffix_rfl, hin⟩
  · exact ⟨rest, readFrames_suffix hread, hin⟩

end Call

end MinaVerify
