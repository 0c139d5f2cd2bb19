import Mathlib.Data.Fintype.Basic
import MinaVerify.Process.ForNetwork

/-! # The panic hook of the process

A hook that was taken is in one place: with the process, or with the call that took it. A call that
takes the hook while no other call holds one puts back what the process had. A call that takes it
while another holds one takes the default or the silent hook, or leaves that to the other: whichever
of the two holds the wrong hook may be the last to put its own back, and the first hook is lost. -/
namespace MinaVerify
set_option autoImplicit false
open Interleaving

variable {T : Types} {H ι : Type} [DecidableEq ι]

/-- However the calls are interleaved, once all have returned the hook is the one from before. -/
def HookKept (calls : Calls T ι) (p : Process H) : Prop :=
  ∀ schedule, (∀ i, ((run (forNetwork calls) schedule (started T ι p)).threads i).isReturned = true) →
    (run (forNetwork calls) schedule (started T ι p)).shared.hook = p.hook

/-- No call takes the hook while another is between its `take_hook` and its `set_hook(prev)`. -/
def Alone (c : Config ι (Process H) (Call T H)) (i : ι) : Prop :=
  (∃ network, c.threads i = .takeHook network) → ∀ j, (c.threads j).held = none

/-! ## Calls that do not overlap -/

/-- The first hook is with the process and no call holds one, or one call holds it and no other any. -/
def Intact (hook : Hook H) (c : Config ι (Process H) (Call T H)) : Prop :=
  ((∀ j, (c.threads j).held = none) ∧ c.shared.hook = hook) ∨
    ∃ i, (c.threads i).held = some hook ∧ ∀ j, j ≠ i → (c.threads j).held = none

section Step
variable {calls : Calls T ι} {c : Config ι (Process H) (Call T H)} {hook : Hook H} {i : ι}

/-- What a step of call `i` does to the hooks; what the other calls hold stays. -/
theorem step_hooks (calls : Calls T ι) (c : Config ι (Process H) (Call T H)) (i : ι) :
    (∀ j, j ≠ i → ((step (forNetwork calls) i c).threads j).held = (c.threads j).held) ∧
    (((c.threads i).held = none ∧ ((step (forNetwork calls) i c).threads i).held = none ∧
        (step (forNetwork calls) i c).shared.hook = c.shared.hook) ∨
      ((∃ network, c.threads i = .takeHook network) ∧
        ((step (forNetwork calls) i c).threads i).held = some c.shared.hook ∧
        (step (forNetwork calls) i c).shared.hook = .default) ∨
      (∃ prev, (c.threads i).held = some prev ∧
        ((step (forNetwork calls) i c).threads i).held = some prev ∧
        ((step (forNetwork calls) i c).shared.hook = .silent ∨
          (step (forNetwork calls) i c).shared.hook = c.shared.hook)) ∨
      (∃ prev, (c.threads i).held = some prev ∧
        ((step (forNetwork calls) i c).threads i).isReturned = true ∧
        (step (forNetwork calls) i c).shared.hook = prev)) := by
  refine ⟨fun j hj => by rw [step_threads_other hj], ?_⟩
  rw [step_threads_self]
  obtain ⟨hnone, _, hhook, hheld⟩ | htake | hinside | hback :=
    forNetwork_cases calls i c.shared (c.threads i)
  · exact Or.inl ⟨hnone, hheld, hhook⟩
  · exact Or.inr (Or.inl ⟨htake.1, htake.2.2, htake.2.1⟩)
  · exact Or.inr (Or.inr (Or.inl hinside))
  · exact Or.inr (Or.inr (Or.inr hback))

theorem Intact.step (h : Intact hook c) (halone : Alone c i) :
    Intact hook (step (forNetwork calls) i c) := by
  obtain ⟨hother, hcases⟩ := step_hooks calls c i
  -- a call that holds a hook is the one call that does
  have hinside : ∀ prev, (c.threads i).held = some prev →
      prev = hook ∧ ∀ j, j ≠ i → (c.threads j).held = none := by
    intro prev hprev
    obtain ⟨hnone, _⟩ | ⟨k, hk, hrest⟩ := h
    · simp [hnone i] at hprev
    · by_cases hik : i = k
      · subst hik
        rw [hprev, Option.some.injEq] at hk
        exact ⟨hk, hrest⟩
      · simp [hrest i hik] at hprev
  obtain ⟨hnone, hnone', hhook⟩ | ⟨htake, hheld, _⟩ | ⟨prev, hprev, hheld, _⟩ |
      ⟨prev, hprev, hret, hhook⟩ := hcases
  · obtain ⟨hall, hcell⟩ | ⟨k, hk, hrest⟩ := h
    · refine Or.inl ⟨?_, hhook.trans hcell⟩
      intro j
      by_cases hj : j = i
      · rw [hj, hnone']
      · rw [hother j hj, hall j]
    · have hki : k ≠ i := by
        rintro rfl
        simp [hnone] at hk
      refine Or.inr ⟨k, by rw [hother k hki, hk], ?_⟩
      intro j hjk
      by_cases hj : j = i
      · rw [hj, hnone']
      · rw [hother j hj, hrest j hjk]
  · have hall := halone htake
    obtain ⟨_, hcell⟩ | ⟨k, hk, _⟩ := h
    · refine Or.inr ⟨i, by rw [hheld, hcell], ?_⟩
      intro j hj
      rw [hother j hj, hall j]
    · simp [hall k] at hk
  · obtain ⟨rfl, hrest⟩ := hinside prev hprev
    refine Or.inr ⟨i, hheld, ?_⟩
    intro j hj
    rw [hother j hj, hrest j hj]
  · obtain ⟨rfl, hrest⟩ := hinside prev hprev
    refine Or.inl ⟨?_, hhook⟩
    intro j
    by_cases hj : j = i
    · rw [hj, Call.held_of_isReturned hret]
    · rw [hother j hj, hrest j hj]

/-! ## Calls that overlap -/

/-- The hook is in at most one place. -/
def InOnePlace (hook : Hook H) (c : Config ι (Process H) (Call T H)) : Prop :=
  (c.shared.hook = hook → ∀ j, (c.threads j).held ≠ some hook) ∧
    ∀ j k, (c.threads j).held = some hook → (c.threads k).held = some hook → j = k

/-- A call that holds the hook after a step held it before, or took it from the process. -/
theorem held_of_step {j : ι} (hj : ((step (forNetwork calls) i c).threads j).held = some hook) :
    (c.threads j).held = some hook ∨
      (j = i ∧ c.shared.hook = hook ∧ (step (forNetwork calls) i c).shared.hook = .default) := by
  obtain ⟨hother, hcases⟩ := step_hooks calls c i
  by_cases hji : j = i
  · subst hji
    obtain ⟨_, hheld, _⟩ | ⟨_, hheld, hhook⟩ | ⟨prev, hprev, hheld, _⟩ | ⟨prev, _, hret, _⟩ := hcases
    · simp [hheld] at hj
    · rw [hheld, Option.some.injEq] at hj
      exact Or.inr ⟨rfl, hj, hhook⟩
    · rw [hheld] at hj
      exact Or.inl (hprev.trans hj)
    · simp [Call.held_of_isReturned hret] at hj
  · rw [hother j hji] at hj
    exact Or.inl hj

theorem InOnePlace.step (h : InOnePlace hook c) (hdefault : hook ≠ .default)
    (hsilent : hook ≠ .silent) (i : ι) : InOnePlace hook (step (forNetwork calls) i c) := by
  obtain ⟨hcell, hone⟩ := h
  obtain ⟨_, hcases⟩ := step_hooks calls c i
  constructor
  · intro he j hj
    obtain hold | ⟨_, _, hhook⟩ := held_of_step hj
    · obtain ⟨_, _, hhook⟩ | ⟨_, _, hhook⟩ | ⟨_, _, _, hhook | hhook⟩ | ⟨prev, hprev, hret, hhook⟩ :=
        hcases
      · exact hcell (hhook.symm.trans he) j hold
      · exact hdefault (he.symm.trans hhook)
      · exact hsilent (he.symm.trans hhook)
      · exact hcell (hhook.symm.trans he) j hold
      · -- the call that put the hook back is the one that held it
        have hji : j = i := hone j i hold (by rw [hprev, ← hhook, he])
        subst hji
        simp [Call.held_of_isReturned hret] at hj
    · exact hdefault (he.symm.trans hhook)
  · intro j k hj hk
    obtain hj | ⟨hji, hj, _⟩ := held_of_step hj
    · obtain hk | ⟨_, hk, _⟩ := held_of_step hk
      · exact hone j k hj hk
      · exact absurd hj (hcell hk j)
    · obtain hk | ⟨hki, _, _⟩ := held_of_step hk
      · exact absurd hk (hcell hj k)
      · rw [hji, hki]

omit [DecidableEq ι] in
theorem InOnePlace.exists_other (h : InOnePlace hook c) {j k : ι} (hjk : j ≠ k) {prev prev' : Hook H}
    (hj : (c.threads j).held = some prev) (hk : (c.threads k).held = some prev') :
    ∃ w other, (c.threads w).held = some other ∧ other ≠ hook := by
  by_cases hprev : prev = hook
  · refine ⟨k, prev', hk, ?_⟩
    intro hprev'
    exact hjk (h.2 j k (hprev ▸ hj) (hprev' ▸ hk))
  · exact ⟨j, prev, hj, hprev⟩

end Step

theorem run_returned {calls : Calls T ι} {w : ι} {c : Config ι (Process H) (Call T H)}
    (hret : (c.threads w).isReturned = true) (n : ℕ) :
    run (forNetwork calls) (List.replicate n w) c = c := by
  have hstep : step (forNetwork calls) w c = c := by
    rw [step, forNetwork_returned calls w c.shared hret, Function.update_eq_self]
  induction n with
  | zero => rfl
  | succ n ih => rw [List.replicate_succ, run_cons, hstep, ih]

/-- A call that holds a hook, left alone until it returns, installs that hook. -/
theorem run_alone_hook {calls : Calls T ι} {w : ι} {prev : Hook H} {n : ℕ}
    {c : Config ι (Process H) (Call T H)} (hheld : (c.threads w).held = some prev)
    (hret : ((run (forNetwork calls) (List.replicate n w) c).threads w).isReturned = true) :
    (run (forNetwork calls) (List.replicate n w) c).shared.hook = prev := by
  induction n generalizing c with
  | zero =>
    rw [List.replicate_zero, run_nil] at hret
    simp [Call.held_of_isReturned hret] at hheld
  | succ n ih =>
    rw [List.replicate_succ, run_cons] at hret ⊢
    obtain ⟨hnone, _⟩ | ⟨⟨network, htake⟩, _⟩ | ⟨prev', hprev, hheld', _⟩ |
        ⟨prev', hprev, hret', hhook⟩ := (step_hooks calls c w).2
    · simp [hnone] at hheld
    · simp [htake, Call.held] at hheld
    · rw [hheld, Option.some.injEq] at hprev
      exact ih (hprev ▸ hheld') hret
    · rw [hheld, Option.some.injEq] at hprev
      rw [run_returned hret', hhook, hprev]

/-- A call that holds a hook may be the last to return. -/
theorem exists_lost [Fintype ι] (calls : Calls T ι) {c : Config ι (Process H) (Call T H)}
    (pre : List ι) {w : ι} {prev : Hook H}
    (hheld : ((run (forNetwork calls) pre c).threads w).held = some prev) :
    ∃ rest, (∀ i, ((run (forNetwork calls) (pre ++ rest) c).threads i).isReturned = true) ∧
      (run (forNetwork calls) (pre ++ rest) c).shared.hook = prev := by
  have hμ : ∀ i (p : Process H) (t : Call T H), ¬ t.isReturned = true →
      (forNetwork calls i (p, t)).2.remaining < t.remaining :=
    fun i p t ht => forNetwork_remaining calls i p t ht
  obtain ⟨others, hw, hdone⟩ :=
    exists_finish_others Call.remaining hμ w (run (forNetwork calls) pre c)
  rw [← Interleaving.run_append] at hdone
  have hheld' : ((run (forNetwork calls) (pre ++ others) c).threads w).held = some prev := by
    rw [Interleaving.run_append, run_threads_other hw, hheld]
  obtain ⟨n, hn⟩ := exists_finish Call.remaining hμ w (run (forNetwork calls) (pre ++ others) c)
  refine ⟨others ++ List.replicate n w, ?_, ?_⟩
  · intro i
    rw [← List.append_assoc, Interleaving.run_append]
    by_cases hi : i = w
    · rw [hi, hn]
    · rw [run_threads_other (fun hin => hi (List.eq_of_mem_replicate hin)), hdone i hi]
  · rw [← List.append_assoc, Interleaving.run_append]
    exact run_alone_hook hheld' hn

/-- Without overlap the first hook is installed whenever no call holds one. -/
theorem hook_of_guarded {calls : Calls T ι} {p : Process H} {schedule : List ι}
    (hguard : Guarded (forNetwork calls) Alone schedule (started T ι p))
    (hnone : ∀ i, ((run (forNetwork calls) schedule (started T ι p)).threads i).held = none) :
    (run (forNetwork calls) schedule (started T ι p)).shared.hook = p.hook := by
  have hstart : Intact p.hook (started T ι p) := Or.inl ⟨fun _ => rfl, rfl⟩
  obtain ⟨_, hhook⟩ | ⟨i, hi, _⟩ :=
    hguard.run_inv (Intact p.hook) (fun _ _ hc halone => hc.step halone) hstart
  · exact hhook
  · simp [hnone i] at hi

/-- As soon as two calls overlap, they can be finished so that a hook of the program's own is lost. -/
theorem lost_of_not_guarded [Fintype ι] {calls : Calls T ι} {p : Process H} {schedule : List ι}
    (hover : ¬ Guarded (forNetwork calls) Alone schedule (started T ι p))
    (hdefault : p.hook ≠ .default) (hsilent : p.hook ≠ .silent) :
    ∃ pre rest, pre <+: schedule ∧
      (∀ i, ((run (forNetwork calls) (pre ++ rest) (started T ι p)).threads i).isReturned = true) ∧
      (run (forNetwork calls) (pre ++ rest) (started T ι p)).shared.hook ≠ p.hook := by
  unfold Guarded Alone at hover
  push Not at hover
  obtain ⟨pre, i, hpre, ⟨network, htake⟩, j, hj⟩ := hover
  have hstart : InOnePlace p.hook (started T ι p) := by
    simp [InOnePlace, started, Call.held]
  have hstep : ∀ (c : Config ι (Process H) (Call T H)) k, InOnePlace p.hook c →
      InOnePlace p.hook (step (forNetwork calls) k c) := fun _ k hc => hc.step hdefault hsilent k
  have hone := run_inv (InOnePlace p.hook) hstep hstart (pre ++ [i])
  have hji : j ≠ i := by
    rintro rfl
    simp [htake, Call.held] at hj
  -- after the step both calls hold a hook, and only one of them can hold the first
  obtain ⟨prev, hprev⟩ := Option.ne_none_iff_exists'.mp hj
  have hheldj : ((run (forNetwork calls) (pre ++ [i]) (started T ι p)).threads j).held = some prev := by
    rw [Interleaving.run_snoc, step_threads_other hji, hprev]
  have hheldi : ((run (forNetwork calls) (pre ++ [i]) (started T ι p)).threads i).held =
      some (run (forNetwork calls) pre (started T ι p)).shared.hook := by
    rw [Interleaving.run_snoc, step_threads_self, htake]
    rfl
  obtain ⟨w, other, hw, hne⟩ := hone.exists_other hji hheldj hheldi
  obtain ⟨rest, hdone, hhook⟩ := exists_lost calls (pre ++ [i]) hw
  exact ⟨pre ++ [i], rest, hpre, hdone, hhook ▸ hne⟩

/-! ## Which processes keep their hook -/

section Devnet
variable {calls : Calls T ι} {c : Config ι (Process H) (Call T H)} {i : ι}

/-- The first two steps of a call, in a process that has no configuration or the devnet one. -/
theorem run_configure (hnetwork : calls.network i = "devnet")
    (hconfig : c.shared.config.getD "devnet" = "devnet") (hstart : c.threads i = .start) :
    run (forNetwork calls) [i, i] c =
      ⟨⟨some "devnet", c.shared.hook⟩, Function.update c.threads i (.takeHook "devnet")⟩ := by
  have hfirst : step (forNetwork calls) i c = ⟨⟨some "devnet", c.shared.hook⟩,
      Function.update c.threads i (.configured c.shared.config.isSome)⟩ := by
    simp [step, hstart, forNetwork, hnetwork, hconfig, supportedNetworks]
  rw [run_cons, run_cons, run_nil, hfirst]
  simp [step, forNetwork, hnetwork]

/-- Another call takes the hook while call `i` holds one. -/
theorem exists_lost_of_ne [Fintype ι] (hdevnet : ∀ i, calls.network i = "devnet") {p : Process H}
    (hconfig : p.config.getD "devnet" = "devnet") {i j : ι} (hij : j ≠ i) :
    ∃ schedule,
      (∀ k, ((run (forNetwork calls) schedule (started T ι p)).threads k).isReturned = true) ∧
      (run (forNetwork calls) schedule (started T ι p)).shared.hook ≠ p.hook := by
  have hopen : run (forNetwork calls) [i, i] (started T ι p) =
      ⟨⟨some "devnet", p.hook⟩, Function.update (fun _ => .start) i (.takeHook "devnet")⟩ :=
    run_configure (hdevnet i) hconfig rfl
  -- `i` goes on while its turns last, then `j` takes what the process has
  have hlost : ∀ (mine : List ι) (hook : Hook H), hook ≠ p.hook →
      (∃ t, run (forNetwork calls) mine (started T ι p) =
        ⟨⟨some "devnet", hook⟩, Function.update (fun _ => .start) i t⟩) →
      ∃ schedule,
        (∀ k, ((run (forNetwork calls) schedule (started T ι p)).threads k).isReturned = true) ∧
        (run (forNetwork calls) schedule (started T ι p)).shared.hook ≠ p.hook := by
    intro mine hook hne hmine
    obtain ⟨t, ht⟩ := hmine
    have htaken : ((run (forNetwork calls) (mine ++ [j, j] ++ [j]) (started T ι p)).threads j).held =
        some hook := by
      rw [Interleaving.run_snoc, Interleaving.run_append, ht,
        run_configure (hdevnet j) rfl (by simp [hij]), step_threads_self]
      simp [forNetwork, Call.held]
    obtain ⟨rest, hdone, hhook⟩ := exists_lost calls (mine ++ [j, j] ++ [j]) htaken
    exact ⟨mine ++ [j, j] ++ [j] ++ rest, hdone, hhook ▸ hne⟩
  by_cases hdefault : p.hook = .default
  · refine hlost ([i, i] ++ [i] ++ [i]) .silent (by simp [hdefault]) ⟨.make "devnet" p.hook, ?_⟩
    rw [Interleaving.run_snoc, Interleaving.run_snoc, hopen]
    simp [step, forNetwork]
  · refine hlost ([i, i] ++ [i]) .default (Ne.symm hdefault) ⟨.setSilent "devnet" p.hook, ?_⟩
    rw [Interleaving.run_snoc, hopen]
    simp [step, forNetwork]

/-- In a process configured for another network no call gets as far as the hook. -/
def Refused (active : String) (hook : Hook H) (c : Config ι (Process H) (Call T H)) : Prop :=
  c.shared = ⟨some active, hook⟩ ∧
    ∀ i, c.threads i = .start ∨ c.threads i = .configured true ∨ (c.threads i).isReturned = true

theorem Refused.step (hdevnet : ∀ i, calls.network i = "devnet") {active : String}
    (hactive : active ≠ "devnet") {hook : Hook H} (h : Refused active hook c) (i : ι) :
    Refused active hook (step (forNetwork calls) i c) := by
  obtain ⟨hshared, hthreads⟩ := h
  have hnext : (forNetwork calls i (c.shared, c.threads i)).1 = ⟨some active, hook⟩ ∧
      ((forNetwork calls i (c.shared, c.threads i)).2 = .configured true ∨
        (forNetwork calls i (c.shared, c.threads i)).2.isReturned = true) := by
    obtain ht | ht | ht := hthreads i
    · simp [ht, hshared, forNetwork, hdevnet, supportedNetworks]
    · simp [ht, hshared, forNetwork, hdevnet, hactive, Call.isReturned]
    · rw [forNetwork_returned calls i c.shared ht]
      exact ⟨hshared, Or.inr ht⟩
  refine ⟨hnext.1, ?_⟩
  intro j
  by_cases hj : j = i
  · rw [hj, step_threads_self]
    exact Or.inr hnext.2
  · rw [step_threads_other hj]
    exact hthreads j

end Devnet

/-- Calls that do not overlap keep the hook, and every interleaving keeps it exactly when there are no
two calls to overlap or the process is configured for another network. -/
theorem panicHook_kept [Fintype ι] (calls : Calls T ι) (p : Process H)
    (hdevnet : ∀ i, calls.network i = "devnet") :
    (∀ schedule, Guarded (forNetwork calls) Alone schedule (started T ι p) →
      (∀ i, ((run (forNetwork calls) schedule (started T ι p)).threads i).isReturned = true) →
      (run (forNetwork calls) schedule (started T ι p)).shared.hook = p.hook) ∧
    (HookKept calls p ↔ Subsingleton ι ∨ ∃ active, p.config = some active ∧ active ≠ "devnet") := by
  have hguarded : ∀ schedule, Guarded (forNetwork calls) Alone schedule (started T ι p) →
      (∀ i, ((run (forNetwork calls) schedule (started T ι p)).threads i).isReturned = true) →
      (run (forNetwork calls) schedule (started T ι p)).shared.hook = p.hook :=
    fun schedule hguard hret => hook_of_guarded hguard (fun i => Call.held_of_isReturned (hret i))
  refine ⟨hguarded, ?_, ?_⟩
  · intro hkept
    by_contra hnot
    push Not at hnot
    obtain ⟨hmany, hconfig⟩ := hnot
    obtain ⟨j, i, hji⟩ := hmany
    have hactive : p.config.getD "devnet" = "devnet" := by
      cases hp : p.config with
      | none => rfl
      | some active => exact hconfig active hp
    obtain ⟨schedule, hret, hne⟩ := exists_lost_of_ne hdevnet hactive hji
    exact hne (hkept schedule hret)
  · intro hcond schedule hret
    obtain hone | ⟨active, hconfig, hactive⟩ := hcond
    · apply hguarded schedule _ hret
      intro pre i _ htake j
      obtain ⟨network, htake⟩ := htake
      rw [Subsingleton.elim j i, htake]
      rfl
    · have hstart : Refused active p.hook (started T ι p) :=
        ⟨by rw [← hconfig]; rfl, fun _ => Or.inl rfl⟩
      obtain ⟨hshared, _⟩ := run_inv (Refused active p.hook)
        (fun _ i hc => hc.step hdevnet hactive i) hstart schedule
      rw [hshared]

namespace TwoThreads

abbrev types : Types where
  StateHash := Unit
  LedgerHash := Unit
  ConsensusRest := Unit
  Proof := Unit
  VerifierIndex := Unit

/-- Two threads that build a devnet verifier. -/
def devnetCalls : Calls types (Fin 2) where
  network := fun _ => "devnet"
  make := fun _ => some ()
  mainnetIndex := .ok ()

/-- A process that has installed a hook. -/
def hooked : Process Unit := ⟨none, .custom ()⟩

end TwoThreads

/-- Both take the hook, and the one that got the default hook is the last to put its own back. -/
theorem not_hookKept_two_threads : ¬ HookKept TwoThreads.devnetCalls TwoThreads.hooked := by
  intro h
  have hlast := h [0, 0, 1, 1, 0, 1, 0, 0, 0, 1, 1, 1] (by decide)
  exact absurd hlast (by decide)

theorem panicHook_kept_two_threads :
    ¬ HookKept TwoThreads.devnetCalls ⟨none, Hook.custom ()⟩ ∧
      HookKept TwoThreads.devnetCalls ⟨some "mainnet", Hook.custom ()⟩ := by
  constructor
  · rw [(panicHook_kept TwoThreads.devnetCalls ⟨none, Hook.custom ()⟩ (fun _ => rfl)).2]
    rw [not_or]
    exact ⟨not_subsingleton_iff_nontrivial.mpr inferInstance, by simp⟩
  · rw [(panicHook_kept TwoThreads.devnetCalls ⟨some "mainnet", Hook.custom ()⟩ (fun _ => rfl)).2]
    exact Or.inr ⟨"mainnet", rfl, by decide⟩

end MinaVerify
