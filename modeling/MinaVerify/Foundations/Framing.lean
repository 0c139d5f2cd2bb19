import Mathlib.Algebra.Order.Group.Nat
import Mathlib.Tactic.Ring
import MinaVerify.Foundations.Outcome

/-! # Length-prefixed frames on a byte stream

Little-endian lengths, a source of bytes that is read in exact amounts, and the frame: eight bytes of
length, then the body. Reading the length and then that many bytes takes exactly one frame off a
stream of frames. -/
namespace MinaVerify.Framing
set_option autoImplicit false

/-! ## Little-endian bytes -/

def toLeBytes : ℕ → ℕ → List UInt8
  | 0, _ => []
  | k + 1, n => UInt8.ofNat n :: toLeBytes k (n / 256)

def fromLeBytes : List UInt8 → ℕ
  | [] => 0
  | b :: bytes => b.toNat + 256 * fromLeBytes bytes

@[simp] theorem length_toLeBytes (k n : ℕ) : (toLeBytes k n).length = k := by
  induction k generalizing n with
  | zero => rfl
  | succ k ih => simp [toLeBytes, ih]

theorem fromLeBytes_toLeBytes {k n : ℕ} (h : n < 256 ^ k) : fromLeBytes (toLeBytes k n) = n := by
  induction k generalizing n with
  | zero =>
    rw [pow_zero, Nat.lt_one_iff] at h
    simp [toLeBytes, fromLeBytes, h]
  | succ k ih =>
    have hdiv : n / 256 < 256 ^ k := by
      rw [pow_succ] at h
      omega
    have hlow : (UInt8.ofNat n).toNat = n % 256 := by simp
    rw [toLeBytes, fromLeBytes, ih hdiv, hlow]
    omega

/-! ## Sources -/

/-- The bytes a peer has sent and not yet been read, and what comes after them: the error of a closed
stream, or silence. -/
structure Source where
  incoming : List UInt8
  ended : Option String
  deriving DecidableEq, Repr

/-- Read `n` bytes; a closed stream with fewer is drained and reports its error, a silent one is
waited on for ever. -/
def Source.readExact (n : ℕ) (s : Source) : Outcome (Except String (List UInt8) × Source) :=
  if n ≤ s.incoming.length then
    .returned (.ok (s.incoming.take n), { s with incoming := s.incoming.drop n })
  else
    match s.ended with
    | some e => .returned (.error e, { s with incoming := [] })
    | none => .diverged

theorem readExact_append (bytes rest : List UInt8) (ended : Option String) {n : ℕ}
    (hn : n = bytes.length) :
    Source.readExact n ⟨bytes ++ rest, ended⟩ = .returned (.ok bytes, ⟨rest, ended⟩) := by
  subst hn
  simp [Source.readExact]

theorem readExact_eq_ok {n : ℕ} {s s' : Source} {bytes : List UInt8} :
    s.readExact n = .returned (.ok bytes, s') ↔
      s = ⟨bytes ++ s'.incoming, s'.ended⟩ ∧ bytes.length = n := by
  constructor
  · intro h
    unfold Source.readExact at h
    split_ifs at h with hn
    · simp only [Outcome.returned.injEq, Prod.mk.injEq, Except.ok.injEq] at h
      obtain ⟨rfl, rfl⟩ := h
      simp [hn]
    · split at h
      · simp at h
      · simp at h
  · intro h
    obtain ⟨rfl, hlen⟩ := h
    exact readExact_append bytes s'.incoming s'.ended hlen.symm

theorem readExact_ne_panicked (n : ℕ) (s : Source) (message : String) :
    s.readExact n ≠ .panicked message := by
  unfold Source.readExact
  split_ifs
  · simp
  · split
    · simp
    · simp

/-! ## Frames -/

def frameBody (body : List UInt8) : List UInt8 := toLeBytes 8 body.length ++ body

/-- One frame, read by length and then by body; a length no buffer can have is a panic. -/
def readBody (limit : ℕ) (s : Source) : Outcome (Except String (List UInt8) × Source) :=
  (s.readExact 8).bind fun
    | (.error e, s) => .returned (.error e, s)
    | (.ok lenBuf, s) =>
      if limit < fromLeBytes lenBuf then .panicked "capacity overflow"
      else s.readExact (fromLeBytes lenBuf)

theorem readBody_eq_ok {limit : ℕ} {s s' : Source} {body : List UInt8} :
    readBody limit s = .returned (.ok body, s') ↔
      ∃ lenBuf, s = ⟨lenBuf ++ (body ++ s'.incoming), s'.ended⟩ ∧ lenBuf.length = 8 ∧
        fromLeBytes lenBuf = body.length ∧ body.length ≤ limit := by
  constructor
  · intro h
    obtain ⟨⟨r, s₁⟩, h1, h⟩ := Outcome.bind_eq_returned.mp h
    cases r with
    | error e => simp at h
    | ok lenBuf =>
      simp only at h
      split_ifs at h with hlimit
      obtain ⟨rfl, hbody⟩ := readExact_eq_ok.mp h
      obtain ⟨rfl, hlen⟩ := readExact_eq_ok.mp h1
      exact ⟨lenBuf, rfl, hlen, hbody.symm, by omega⟩
  · intro h
    obtain ⟨lenBuf, rfl, hlen, hbody, hlimit⟩ := h
    rw [readBody, readExact_append lenBuf (body ++ s'.incoming) s'.ended hlen.symm]
    simp only [Outcome.bind_returned, hbody, if_neg (Nat.not_lt.mpr hlimit)]
    exact readExact_append body s'.incoming s'.ended rfl

theorem readBody_frameBody {limit : ℕ} (hlimit : limit < 2 ^ 64) {body : List UInt8}
    (hbody : body.length ≤ limit) (rest : List UInt8) (ended : Option String) :
    readBody limit ⟨frameBody body ++ rest, ended⟩ = .returned (.ok body, ⟨rest, ended⟩) := by
  have hlen : fromLeBytes (toLeBytes 8 body.length) = body.length :=
    fromLeBytes_toLeBytes (by norm_num at hlimit ⊢; omega)
  rw [readBody_eq_ok, frameBody, List.append_assoc]
  exact ⟨toLeBytes 8 body.length, rfl, length_toLeBytes 8 _, hlen, hbody⟩

theorem readBody_eq_panicked {limit : ℕ} {s : Source} {message : String} :
    readBody limit s = .panicked message ↔
      message = "capacity overflow" ∧ ∃ lenBuf rest, s.incoming = lenBuf ++ rest ∧
        lenBuf.length = 8 ∧ limit < fromLeBytes lenBuf := by
  rw [readBody, Outcome.bind_eq_panicked]
  constructor
  · intro h
    obtain h | ⟨⟨r, s₁⟩, h1, h⟩ := h
    · exact absurd h (readExact_ne_panicked 8 s message)
    · cases r with
      | error e => simp at h
      | ok lenBuf =>
        simp only at h
        obtain ⟨rfl, hlen⟩ := readExact_eq_ok.mp h1
        split_ifs at h with hlimit
        · rw [Outcome.panicked.injEq] at h
          exact ⟨h.symm, lenBuf, s₁.incoming, rfl, hlen, hlimit⟩
        · exact absurd h (readExact_ne_panicked _ s₁ message)
  · intro h
    obtain ⟨rfl, lenBuf, rest, hin, hlen, hlimit⟩ := h
    refine Or.inr ⟨(.ok lenBuf, ⟨rest, s.ended⟩), ?_, by simp [hlimit]⟩
    rw [readExact_eq_ok]
    exact ⟨by rw [← hin], hlen⟩

theorem readBody_nil (limit : ℕ) (ended : Option String) :
    readBody limit ⟨[], ended⟩ =
      match ended with
      | some e => .returned (.error e, ⟨[], ended⟩)
      | none => .diverged := by
  cases ended with
  | some e => simp [readBody, Source.readExact]
  | none => simp [readBody, Source.readExact]

theorem readBody_length {limit : ℕ} {s s' : Source} {body : List UInt8}
    (h : readBody limit s = .returned (.ok body, s')) :
    s'.incoming.length + 8 ≤ s.incoming.length := by
  obtain ⟨lenBuf, rfl, hlen, _, _⟩ := readBody_eq_ok.mp h
  simp only [List.length_append]
  omega

end MinaVerify.Framing
