import Mathlib.Logic.Basic

/-! # How a call ends

A call of a Rust function returns a value, panics with a message, or runs forever. `Outcome` keeps
the three apart: a panic is what `catch_unwind` can intercept, and a loop that never ends is not
confused with one that returned.
-/
namespace MinaVerify
set_option autoImplicit false

inductive Outcome (α : Type) where
  | returned (value : α)
  | panicked (message : String)
  | diverged
  deriving DecidableEq, Repr

namespace Outcome
variable {α β : Type}

def bind (x : Outcome α) (f : α → Outcome β) : Outcome β :=
  match x with
  | returned a => f a
  | panicked message => panicked message
  | diverged => diverged

@[simp] theorem bind_returned (a : α) (f : α → Outcome β) : (returned a).bind f = f a := rfl
@[simp] theorem bind_panicked (message : String) (f : α → Outcome β) :
    (panicked message : Outcome α).bind f = panicked message := rfl
@[simp] theorem bind_diverged (f : α → Outcome β) : (diverged : Outcome α).bind f = diverged := rfl

theorem bind_eq_returned {x : Outcome α} {f : α → Outcome β} {b : β} :
    x.bind f = returned b ↔ ∃ a, x = returned a ∧ f a = returned b := by
  cases x with
  | returned a => simp
  | panicked message => simp
  | diverged => simp

theorem bind_eq_panicked {x : Outcome α} {f : α → Outcome β} {message : String} :
    x.bind f = panicked message ↔
      x = panicked message ∨ ∃ a, x = returned a ∧ f a = panicked message := by
  cases x with
  | returned a => simp
  | panicked message' => simp
  | diverged => simp

theorem bind_eq_diverged {x : Outcome α} {f : α → Outcome β} :
    x.bind f = diverged ↔ x = diverged ∨ ∃ a, x = returned a ∧ f a = diverged := by
  cases x with
  | returned a => simp
  | panicked message => simp
  | diverged => simp

/-- `expect`: a missing value is a panic with the given message. -/
def expect (message : String) : Option α → Outcome α
  | some a => returned a
  | none => panicked message

@[simp] theorem expect_some (message : String) (a : α) :
    expect message (some a) = returned a := rfl
@[simp] theorem expect_none (message : String) :
    expect message (none : Option α) = panicked message := rfl

/-- `?`: an error of the first call is the result of the whole. -/
def bindOk {ε : Type} (x : Outcome (Except ε α)) (f : α → Outcome (Except ε β)) :
    Outcome (Except ε β) :=
  x.bind fun
    | .ok a => f a
    | .error e => returned (.error e)

theorem bindOk_eq_ok {ε : Type} {x : Outcome (Except ε α)} {f : α → Outcome (Except ε β)} {b : β} :
    x.bindOk f = returned (.ok b) ↔ ∃ a, x = returned (.ok a) ∧ f a = returned (.ok b) := by
  unfold bindOk
  rw [bind_eq_returned]
  constructor
  · rintro ⟨r, rfl, h⟩
    cases r with
    | ok a => exact ⟨a, rfl, h⟩
    | error e => simp at h
  · rintro ⟨a, rfl, h⟩
    exact ⟨.ok a, rfl, h⟩

theorem bindOk_eq_error {ε : Type} {x : Outcome (Except ε α)} {f : α → Outcome (Except ε β)} {e : ε} :
    x.bindOk f = returned (.error e) ↔
      x = returned (.error e) ∨ ∃ a, x = returned (.ok a) ∧ f a = returned (.error e) := by
  unfold bindOk
  rw [bind_eq_returned]
  constructor
  · intro h
    obtain ⟨r, rfl, h⟩ := h
    cases r with
    | ok a => exact Or.inr ⟨a, rfl, h⟩
    | error e' =>
      rw [returned.injEq, Except.error.injEq] at h
      exact Or.inl (by rw [h])
  · intro h
    obtain rfl | ⟨a, rfl, h⟩ := h
    · exact ⟨.error e, rfl, rfl⟩
    · exact ⟨.ok a, rfl, h⟩

/-- `catch_unwind`: a panic becomes a value. -/
def catchUnwind : Outcome α → Outcome (Option α)
  | returned a => returned (some a)
  | panicked _ => returned none
  | diverged => diverged

theorem catchUnwind_ne_panicked (x : Outcome α) (message : String) :
    x.catchUnwind ≠ panicked message := by
  cases x <;> simp [catchUnwind]

theorem catchUnwind_eq_returned {x : Outcome α} {guarded : Option α} :
    x.catchUnwind = returned guarded ↔
      (∃ a, x = returned a ∧ guarded = some a) ∨ (∃ message, x = panicked message ∧ guarded = none) := by
  cases x with
  | returned a => simp [catchUnwind, eq_comm]
  | panicked message => simp [catchUnwind, eq_comm]
  | diverged => simp [catchUnwind]

theorem catchUnwind_eq_diverged {x : Outcome α} : x.catchUnwind = diverged ↔ x = diverged := by
  cases x <;> simp [catchUnwind]

def holds (p : α → Bool) : Outcome α → Bool
  | returned a => p a
  | _ => false

theorem exists_of_holds {p : α → Bool} {x : Outcome α} (h : x.holds p = true) :
    ∃ a, x = returned a ∧ p a = true := by
  cases x with
  | returned a => exact ⟨a, rfl, h⟩
  | panicked message => simp [holds] at h
  | diverged => simp [holds] at h

def panics : Outcome α → Bool
  | panicked _ => true
  | _ => false

theorem exists_of_panics {x : Outcome α} (h : x.panics = true) :
    ∃ message, x = panicked message := by
  cases x with
  | returned a => simp [panics] at h
  | panicked message => exact ⟨message, rfl⟩
  | diverged => simp [panics] at h

end Outcome
end MinaVerify
