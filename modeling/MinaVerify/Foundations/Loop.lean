import Mathlib.Data.Finset.Card
import Mathlib.Order.Interval.Finset.Nat
import Mathlib.Order.WellFounded

/-! # Loops whose termination is not syntactic

`iterate step n s` runs a loop body at most `n` times; `none` is a loop that has not ended by then.
Four facts are used about it: a result does not depend on the fuel, loops that go in step have the same
result, a variant makes the loop end, and a loop over a finite set of states that has not ended after
one round per state never ends. The last one makes a fuel computed from the state exact rather than
merely generous.
-/
namespace MinaVerify.Loop
set_option autoImplicit false

variable {σ ρ : Type}

/-- One round of the body either goes round again or leaves the loop with a result. -/
def iterate (step : σ → σ ⊕ ρ) : ℕ → σ → Option ρ
  | 0, _ => none
  | n + 1, s =>
    match step s with
    | .inl s' => iterate step n s'
    | .inr r => some r

variable {step : σ → σ ⊕ ρ}

theorem iterate_inl {s s' : σ} (h : step s = .inl s') (n : ℕ) :
    iterate step (n + 1) s = iterate step n s' := by
  simp [iterate, h]

theorem iterate_inr {s : σ} {r : ρ} (h : step s = .inr r) (n : ℕ) :
    iterate step (n + 1) s = some r := by
  simp [iterate, h]

/-! ## Fuel -/

theorem iterate_more_fuel {n : ℕ} {s : σ} {r : ρ} (h : iterate step n s = some r) (k : ℕ) :
    iterate step (n + k) s = some r := by
  induction n generalizing s with
  | zero => simp [iterate] at h
  | succ n ih =>
    rw [Nat.add_right_comm]
    cases hs : step s with
    | inl s' =>
      rw [iterate_inl hs] at h ⊢
      exact ih h
    | inr r' =>
      rw [iterate_inr hs] at h ⊢
      exact h

theorem iterate_mono {n m : ℕ} {s : σ} {r : ρ} (h : iterate step n s = some r) (hnm : n ≤ m) :
    iterate step m s = some r := by
  obtain ⟨k, rfl⟩ := Nat.exists_eq_add_of_le hnm
  exact iterate_more_fuel h k

theorem iterate_unique {n m : ℕ} {s : σ} {r r' : ρ} (h : iterate step n s = some r)
    (h' : iterate step m s = some r') : r = r' := by
  have hn := iterate_mono h (Nat.le_max_left n m)
  have hm := iterate_mono h' (Nat.le_max_right n m)
  exact Option.some.inj (hn.symm.trans hm)

/-! ## Two loops in step -/

/-- A loop whose rounds are those of another, state for state, has its result. -/
theorem iterate_map {σ' ρ' : Type} {step' : σ' → σ' ⊕ ρ'} (f : σ → σ') (g : ρ → ρ')
    (hstep : ∀ s, step' (f s) = (step s).map f g) (n : ℕ) (s : σ) :
    iterate step' n (f s) = (iterate step n s).map g := by
  induction n generalizing s with
  | zero => rfl
  | succ n ih =>
    have hs' := hstep s
    cases hs : step s with
    | inl t =>
      rw [hs, Sum.map_inl] at hs'
      rw [iterate_inl hs, iterate_inl hs', ih t]
    | inr r =>
      rw [hs, Sum.map_inr] at hs'
      rw [iterate_inr hs, iterate_inr hs', Option.map_some]

/-! ## Partial correctness and termination -/

theorem iterate_inv (P : σ → Prop) (Q : ρ → Prop)
    (hstep : ∀ s s', P s → step s = .inl s' → P s')
    (hexit : ∀ s r, P s → step s = .inr r → Q r)
    {n : ℕ} {s : σ} {r : ρ} (hs : P s) (h : iterate step n s = some r) : Q r := by
  induction n generalizing s with
  | zero => simp [iterate] at h
  | succ n ih =>
    cases hst : step s with
    | inl s' =>
      rw [iterate_inl hst] at h
      exact ih (hstep s s' hs hst) h
    | inr r' =>
      rw [iterate_inr hst, Option.some.injEq] at h
      exact h ▸ hexit s r' hs hst

/-- The variant rule: a measure that every further round lowers bounds the rounds. -/
theorem iterate_ends (μ : σ → ℕ) (hμ : ∀ s s', step s = .inl s' → μ s' < μ s) (s : σ) :
    ∃ r, iterate step (μ s + 1) s = some r := by
  induction hm : μ s using Nat.strong_induction_on generalizing s with
  | _ m ih =>
    cases hst : step s with
    | inl s' =>
      have hlt := hμ s s' hst
      obtain ⟨r, hr⟩ := ih (μ s') (hm ▸ hlt) s' rfl
      exact ⟨r, by rw [iterate_inl hst, iterate_mono hr (by omega)]⟩
    | inr r => exact ⟨r, iterate_inr hst m⟩

/-! ## Finitely many states -/

/-- `Ends step n s`: the loop from `s` ends in the `n`-th round and not before. -/
def Ends (step : σ → σ ⊕ ρ) (n : ℕ) (s : σ) : Prop :=
  (∃ r, iterate step n s = some r) ∧ ∀ m < n, iterate step m s = none

theorem Ends.unique {n m : ℕ} {s : σ} (hn : Ends step n s) (hm : Ends step m s) : n = m := by
  rcases Nat.lt_trichotomy n m with h | h | h
  · obtain ⟨r, hr⟩ := hn.1
    simp [hm.2 n h] at hr
  · exact h
  · obtain ⟨r, hr⟩ := hm.1
    simp [hn.2 m h] at hr

theorem exists_ends {n : ℕ} {s : σ} {r : ρ} (h : iterate step n s = some r) :
    ∃ m ≤ n, Ends step m s := by
  classical
  have hex : ∃ m, (iterate step m s).isSome := ⟨n, by simp [h]⟩
  refine ⟨Nat.find hex, Nat.find_min' hex (by simp [h]), ?_, ?_⟩
  · exact Option.isSome_iff_exists.mp (Nat.find_spec hex)
  · intro m hm
    simpa using Nat.find_min hex hm

theorem Ends.next {n : ℕ} {s : σ} (h : Ends step (n + 2) s) :
    ∃ s', step s = .inl s' ∧ Ends step (n + 1) s' := by
  obtain ⟨⟨r, hr⟩, hmin⟩ := h
  cases hst : step s with
  | inr r' =>
    have h1 := hmin 1 (by omega)
    simp [iterate_inr hst] at h1
  | inl s' =>
    refine ⟨s', rfl, ⟨r, by rw [← iterate_inl hst, hr]⟩, ?_⟩
    intro m hm
    rw [← iterate_inl hst]
    exact hmin (m + 1) (by omega)

/-- Every number of rounds from two up to the loop's own is the exact number of rounds of some
state that goes round again. -/
theorem Ends.through {S : Finset σ} (hS : ∀ s s', step s = .inl s' → s ∈ S) :
    ∀ {n : ℕ} {s : σ}, Ends step n s → ∀ m, 2 ≤ m → m ≤ n → ∃ t ∈ S, Ends step m t
  | 0, _, _, m, h2, hm => by omega
  | 1, _, _, m, h2, hm => by omega
  | n + 2, s, h, m, h2, hm => by
      obtain ⟨s', hst, hs'⟩ := h.next
      by_cases hmn : m = n + 2
      · exact ⟨s, hS s s' hst, hmn ▸ h⟩
      · exact Ends.through hS hs' m h2 (by omega)

/-- A loop that goes round again only in states of `S`, and ends, ends within `S.card + 1` rounds:
distinct numbers of remaining rounds belong to distinct states. -/
theorem Ends.le_card {S : Finset σ} (hS : ∀ s s', step s = .inl s' → s ∈ S) {n : ℕ} {s : σ}
    (h : Ends step n s) : n ≤ S.card + 1 := by
  classical
  have hex : ∀ m ∈ Finset.Icc 2 n, ∃ t ∈ S, Ends step m t := by
    intro m hm
    obtain ⟨h2, hmn⟩ := Finset.mem_Icc.mp hm
    exact h.through hS m h2 hmn
  have : Nonempty σ := ⟨s⟩
  choose! f hf hends using hex
  have hcard : (Finset.Icc 2 n).card ≤ S.card := by
    apply Finset.card_le_card_of_injOn f hf
    intro a ha b hb hab
    exact (hends a ha).unique (hab ▸ hends b hb)
  rw [Nat.card_Icc] at hcard
  omega

theorem iterate_card {S : Finset σ} (hS : ∀ s s', step s = .inl s' → s ∈ S) {N : ℕ}
    (hN : S.card + 1 ≤ N) {n : ℕ} {s : σ} {r : ρ} (h : iterate step n s = some r) :
    iterate step N s = some r := by
  obtain ⟨m, _, hm⟩ := exists_ends h
  obtain ⟨r', hr'⟩ := hm.1
  rw [iterate_unique h hr']
  exact iterate_mono hr' ((hm.le_card hS).trans hN)

theorem iterate_card_none {S : Finset σ} (hS : ∀ s s', step s = .inl s' → s ∈ S) {N : ℕ}
    (hN : S.card + 1 ≤ N) {s : σ} : iterate step N s = none ↔ ∀ n, iterate step n s = none := by
  constructor
  · intro h n
    cases hn : iterate step n s with
    | none => rfl
    | some r => simp [iterate_card hS hN hn] at h
  · intro h
    exact h N

end MinaVerify.Loop
