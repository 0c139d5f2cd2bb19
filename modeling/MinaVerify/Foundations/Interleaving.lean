import Mathlib.Data.Finset.Card
import Mathlib.Data.Fintype.Defs
import Mathlib.Data.List.Induction
import Mathlib.Logic.Function.Basic

/-! # Threads on one shared state

Each thread has a state of its own and takes atomic steps on it and on a state all threads share. A
schedule is the list of the threads whose turn it is, so every interleaving is a schedule. What a
step keeps holds after every schedule whose steps all meet the condition the step needs; and threads
that run out of steps can be finished in any order, one of them last. -/
namespace MinaVerify.Interleaving
set_option autoImplicit false

variable {ι σ τ : Type} [DecidableEq ι]

structure Config (ι σ τ : Type) where
  shared : σ
  threads : ι → τ

def step (act : ι → σ × τ → σ × τ) (i : ι) (c : Config ι σ τ) : Config ι σ τ :=
  let next := act i (c.shared, c.threads i)
  ⟨next.1, Function.update c.threads i next.2⟩

def run (act : ι → σ × τ → σ × τ) (schedule : List ι) (c : Config ι σ τ) : Config ι σ τ :=
  schedule.foldl (fun c i => step act i c) c

section Run
variable {act : ι → σ × τ → σ × τ} {c : Config ι σ τ}

@[simp] theorem run_nil : run act [] c = c := rfl
@[simp] theorem run_cons (i : ι) (schedule : List ι) :
    run act (i :: schedule) c = run act schedule (step act i c) := rfl

theorem run_append (schedule schedule' : List ι) :
    run act (schedule ++ schedule') c = run act schedule' (run act schedule c) := List.foldl_append

theorem run_snoc (schedule : List ι) (i : ι) :
    run act (schedule ++ [i]) c = step act i (run act schedule c) := run_append schedule [i]

theorem step_threads_self (i : ι) :
    (step act i c).threads i = (act i (c.shared, c.threads i)).2 := by
  simp [step]

theorem step_threads_other {i j : ι} (h : j ≠ i) : (step act i c).threads j = c.threads j := by
  simp [step, h]

theorem run_threads_other {schedule : List ι} {j : ι} (h : j ∉ schedule) :
    (run act schedule c).threads j = c.threads j := by
  induction schedule generalizing c with
  | nil => rfl
  | cons i schedule ih =>
    rw [List.mem_cons, not_or] at h
    rw [run_cons, ih h.2, step_threads_other h.1]

end Run

/-! ## Invariants of guarded schedules -/

/-- Every step of the schedule is taken in a state that meets the condition on it. -/
def Guarded (act : ι → σ × τ → σ × τ) (G : Config ι σ τ → ι → Prop) (schedule : List ι)
    (c : Config ι σ τ) : Prop :=
  ∀ pre i, pre ++ [i] <+: schedule → G (run act pre c) i

section Guarded
variable {act : ι → σ × τ → σ × τ} {G : Config ι σ τ → ι → Prop} {c : Config ι σ τ}

theorem Guarded.of_snoc {schedule : List ι} {i : ι} (h : Guarded act G (schedule ++ [i]) c) :
    Guarded act G schedule c ∧ G (run act schedule c) i := by
  constructor
  · intro pre j hpre
    exact h pre j (hpre.trans (List.prefix_append schedule [i]))
  · exact h schedule i (List.prefix_refl _)

theorem Guarded.run_inv (P : Config ι σ τ → Prop)
    (hstep : ∀ c i, P c → G c i → P (step act i c)) (hc : P c) {schedule : List ι}
    (h : Guarded act G schedule c) : P (run act schedule c) := by
  induction schedule using List.reverseRecOn with
  | nil => exact hc
  | append_singleton schedule i ih =>
    obtain ⟨hinit, hlast⟩ := h.of_snoc
    rw [run_snoc]
    exact hstep _ i (ih hinit) hlast

theorem run_inv (P : Config ι σ τ → Prop) (hstep : ∀ c i, P c → P (step act i c)) (hc : P c)
    (schedule : List ι) : P (run act schedule c) := by
  induction schedule using List.reverseRecOn with
  | nil => exact hc
  | append_singleton schedule i ih =>
    rw [run_snoc]
    exact hstep _ i ih

end Guarded

/-! ## Finishing threads -/

section Finish
variable {act : ι → σ × τ → σ × τ} {done : τ → Prop} (μ : τ → ℕ)

/-- A thread that is not done and whose steps lower a measure is done after some turns of its own. -/
theorem exists_finish (hμ : ∀ i s t, ¬ done t → μ (act i (s, t)).2 < μ t) (i : ι)
    (c : Config ι σ τ) :
    ∃ n, done ((run act (List.replicate n i) c).threads i) := by
  induction hm : μ (c.threads i) using Nat.strong_induction_on generalizing c with
  | _ m ih =>
    by_cases hdone : done (c.threads i)
    · exact ⟨0, hdone⟩
    · have hlt := hμ i c.shared (c.threads i) hdone
      obtain ⟨n, hn⟩ := ih (μ ((step act i c).threads i)) (by rw [step_threads_self]; omega)
        (step act i c) rfl
      exact ⟨n + 1, by rwa [List.replicate_succ, run_cons]⟩

theorem exists_finish_list (hμ : ∀ i s t, ¬ done t → μ (act i (s, t)).2 < μ t) (l : List ι)
    (hl : l.Nodup) (c : Config ι σ τ) :
    ∃ schedule ⊆ l, ∀ i ∈ l, done ((run act schedule c).threads i) := by
  induction l generalizing c with
  | nil => exact ⟨[], List.Subset.refl _, by simp⟩
  | cons i l ih =>
    rw [List.nodup_cons] at hl
    obtain ⟨n, hn⟩ := exists_finish μ hμ i c
    obtain ⟨schedule, hsub, hdone⟩ := ih hl.2 (run act (List.replicate n i) c)
    refine ⟨List.replicate n i ++ schedule, ?_, ?_⟩
    · intro j hj
      rcases List.mem_append.mp hj with hj | hj
      · simp [List.eq_of_mem_replicate hj]
      · exact List.mem_cons_of_mem i (hsub hj)
    · intro j hj
      rw [run_append]
      rcases List.mem_cons.mp hj with rfl | hj
      · rw [run_threads_other (fun hin => hl.1 (hsub hin))]
        exact hn
      · exact hdone j hj

/-- All threads but one can be finished without a turn of that one. -/
theorem exists_finish_others [Fintype ι] (hμ : ∀ i s t, ¬ done t → μ (act i (s, t)).2 < μ t) (w : ι)
    (c : Config ι σ τ) :
    ∃ schedule, w ∉ schedule ∧ ∀ i ≠ w, done ((run act schedule c).threads i) := by
  obtain ⟨schedule, hsub, hdone⟩ := exists_finish_list μ hμ ((Finset.univ.erase w).toList)
    (Finset.nodup_toList _) c
  refine ⟨schedule, ?_, ?_⟩
  · intro hw
    simpa using hsub hw
  · intro i hi
    exact hdone i (by simp [hi])

end Finish
end MinaVerify.Interleaving
