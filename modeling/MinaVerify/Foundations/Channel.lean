import Mathlib.Data.List.Infix
import MinaVerify.Foundations.Interleaving
import MinaVerify.Foundations.Outcome

/-! # A producer, a channel and a consumer

Two threads of one program. The producer sends items over an unbounded channel; when it stops it drops
its end and waits for the other thread. The consumer builds a state, then takes the items one at a
time; it ends when the channel is empty and the producer has dropped its end, or with a panic, and then
what is still sent is lost without an error.

Whatever the order of the steps, the consumer is where taking a prefix of the items in the order sent
leads, and a consumer that ended without a panic has taken them all. -/
namespace MinaVerify.Channel
set_option autoImplicit false
open Interleaving

variable {α π ω : Type}

inductive Side where
  | producer
  | consumer
  deriving DecidableEq, Repr

/-- What was sent and not yet received, and whether the two ends are still there. -/
structure Shared (α : Type) where
  queue : List α
  sender : Bool
  receiver : Bool
  deriving DecidableEq, Repr

/-- What a producer does next: wait for its environment, go on and perhaps send an item, or stop. -/
inductive Turn (π α : Type) where
  | wait
  | go (item : Option α) (next : π)
  | stop

/-- Where a thread is; the first three are the producer's. -/
inductive Party (π ω : Type) where
  | producing (p : π)
  | joining
  | joined
  | starting
  | consuming (w : ω)
  | stuck
  | dead (message : String)
  | drained (w : ω)

namespace Party

def isJoined : Party π ω → Bool
  | .joined => true
  | _ => false

theorem isJoined_iff {t : Party π ω} : t.isJoined = true ↔ t = .joined := by
  cases t <;> simp [isJoined]

/-- What a consumer that takes items, or has taken all, has made of them. -/
def state : Party π ω → Option ω
  | .consuming w => some w
  | .drained w => some w
  | _ => none

theorem state_eq_some {t : Party π ω} {w : ω} :
    t.state = some w ↔ t = .consuming w ∨ t = .drained w := by
  cases t <;> simp [state]

end Party

structure Program (α π ω : Type) where
  turn : π → Turn π α
  init : Outcome ω
  process : ω → α → Outcome ω

namespace Shared

/-- An item sent to a receiver that is gone is lost. -/
def send (item : Option α) (ch : Shared α) : Shared α :=
  if ch.receiver then { ch with queue := ch.queue ++ item.toList } else ch

/-- How a step of the consumer ends; a panic drops the receiver. -/
def settle (ch : Shared α) : Outcome ω → Shared α × Party π ω
  | .returned w => (ch, .consuming w)
  | .panicked message => ({ ch with receiver := false }, .dead message)
  | .diverged => (ch, .stuck)

end Shared

/-- The producer about to run, the consumer about to build its state. -/
def start (p : π) : Config Side (Shared α) (Party π ω) where
  shared := ⟨[], true, true⟩
  threads
    | .producer => .producing p
    | .consumer => .starting

namespace Program
variable (prog : Program α π ω)

def act (_ : Side) : Shared α × Party π ω → Shared α × Party π ω
  | (ch, .producing p) =>
    match prog.turn p with
    | .wait => (ch, .producing p)
    | .go item p => (ch.send item, .producing p)
    | .stop => ({ ch with sender := false }, .joining)
  | (ch, .joining) => if ch.receiver then (ch, .joining) else (ch, .joined)
  | (ch, .starting) => ch.settle prog.init
  | (ch, .consuming w) =>
    match ch.queue with
    | item :: queue => Shared.settle { ch with queue := queue } (prog.process w item)
    | [] => if ch.sender then (ch, .consuming w) else ({ ch with receiver := false }, .drained w)
  | (ch, t) => (ch, t)

/-! ## The two threads one after the other -/

/-- The producer has come from `p₀` to the state and has sent the items. -/
inductive Emits (p₀ : π) : List α → π → Prop where
  | start : Emits p₀ [] p₀
  | go {sent : List α} {p p' : π} {item : Option α} :
      Emits p₀ sent p → prog.turn p = .go item p' → Emits p₀ (sent ++ item.toList) p'

/-- The consumer takes the items one after another. -/
def consume (items : List α) : Outcome ω :=
  items.foldl (fun r item => r.bind fun w => prog.process w item) prog.init

theorem consume_snoc (items : List α) (item : α) :
    prog.consume (items ++ [item]) = (prog.consume items).bind fun w => prog.process w item := by
  simp [consume]

/-! ## Any interleaving -/

/-- What the channel and the producer say about the items sent. -/
def ProducerAt (p₀ : π) (sent : List α) (ch : Shared α) : Party π ω → Prop
  | .producing p => ch.sender = true ∧ prog.Emits p₀ sent p
  | .joining => ch.sender = false ∧ ∃ p, prog.Emits p₀ sent p ∧ prog.turn p = .stop
  | .joined => ch.sender = false ∧ ch.receiver = false ∧
      ∃ p, prog.Emits p₀ sent p ∧ prog.turn p = .stop
  | _ => False

/-- What the channel and the consumer say about them: it took a prefix, and the rest is in the channel
as long as the consumer is there. -/
def ConsumerAt (sent : List α) (ch : Shared α) : Party π ω → Prop
  | .starting => ch.receiver = true ∧ sent = ch.queue
  | .consuming w => ch.receiver = true ∧
      ∃ taken, sent = taken ++ ch.queue ∧ prog.consume taken = .returned w
  | .stuck => ch.receiver = true ∧ ∃ taken, sent = taken ++ ch.queue ∧ prog.consume taken = .diverged
  | .dead message => ch.receiver = false ∧
      ∃ taken, taken <+: sent ∧ prog.consume taken = .panicked message
  | .drained w => ch.receiver = false ∧ ch.sender = false ∧ prog.consume sent = .returned w
  | _ => False

def Faithful (p₀ : π) (c : Config Side (Shared α) (Party π ω)) : Prop :=
  ∃ sent, prog.ProducerAt p₀ sent c.shared (c.threads .producer) ∧
    prog.ConsumerAt sent c.shared (c.threads .consumer)

variable {prog} {p₀ : π} {c : Config Side (Shared α) (Party π ω)} {ch : Shared α} {sent : List α}

theorem faithful_start (p₀ : π) : prog.Faithful p₀ (start p₀) :=
  ⟨[], ⟨rfl, .start⟩, rfl, rfl⟩

theorem consumerAt_send {t : Party π ω} (h : prog.ConsumerAt sent ch t) (hsender : ch.sender = true)
    (item : Option α) : prog.ConsumerAt (sent ++ item.toList) (ch.send item) t := by
  unfold Shared.send
  cases t with
  | starting =>
    obtain ⟨hrec, rfl⟩ := h
    rw [if_pos hrec]
    exact ⟨hrec, rfl⟩
  | consuming w =>
    obtain ⟨hrec, taken, rfl, hw⟩ := h
    rw [if_pos hrec]
    exact ⟨hrec, taken, by simp, hw⟩
  | stuck =>
    obtain ⟨hrec, taken, rfl, hw⟩ := h
    rw [if_pos hrec]
    exact ⟨hrec, taken, by simp, hw⟩
  | dead message =>
    obtain ⟨hrec, taken, hpre, hw⟩ := h
    rw [if_neg (by simp [hrec])]
    exact ⟨hrec, taken, hpre.trans (List.prefix_append _ _), hw⟩
  | drained w => simp [h.2.1] at hsender
  | producing p => exact h.elim
  | joining => exact h.elim
  | joined => exact h.elim

theorem consumerAt_drop {t : Party π ω} (h : prog.ConsumerAt sent ch t) :
    prog.ConsumerAt sent { ch with sender := false } t := by
  cases t with
  | drained w => exact ⟨h.1, rfl, h.2.2⟩
  | starting => exact h
  | consuming w => exact h
  | stuck => exact h
  | dead message => exact h
  | producing p => exact h.elim
  | joining => exact h.elim
  | joined => exact h.elim

theorem producerAt_queue {t : Party π ω} (h : prog.ProducerAt p₀ sent ch t) (queue : List α) :
    prog.ProducerAt p₀ sent { ch with queue := queue } t := by
  cases t with
  | producing p => exact h
  | joining => exact h
  | joined => exact h
  | _ => exact h.elim

theorem producerAt_leave {t : Party π ω} (h : prog.ProducerAt p₀ sent ch t) :
    prog.ProducerAt p₀ sent { ch with receiver := false } t := by
  cases t with
  | producing p => exact h
  | joining => exact h
  | joined => exact ⟨h.1, rfl, h.2.2⟩
  | _ => exact h.elim

/-- The consumer's part of a step that took one more item, or none before its first. -/
theorem consumerAt_settle (taken : List α) {r : Outcome ω} (hrec : ch.receiver = true)
    (hsent : sent = taken ++ ch.queue) (hr : prog.consume taken = r) :
    prog.ConsumerAt sent (ch.settle (π := π) r).1 (ch.settle r).2 := by
  cases r with
  | returned w => exact ⟨hrec, taken, hsent, hr⟩
  | panicked message => exact ⟨rfl, taken, hsent ▸ List.prefix_append _ _, hr⟩
  | diverged => exact ⟨hrec, taken, hsent, hr⟩

theorem producerAt_settle {t : Party π ω} (h : prog.ProducerAt p₀ sent ch t) (r : Outcome ω) :
    prog.ProducerAt p₀ sent (ch.settle (π := π) r).1 t := by
  cases r with
  | returned w => exact h
  | panicked message => exact producerAt_leave h
  | diverged => exact h

theorem Faithful.step_producer (h : prog.Faithful p₀ c) :
    prog.Faithful p₀ (step prog.act .producer c) := by
  obtain ⟨sent, hp, hc⟩ := h
  have hother : (step prog.act .producer c).threads .consumer = c.threads .consumer :=
    step_threads_other (by simp)
  cases ht : c.threads .producer with
  | producing p =>
    rw [ht] at hp
    cases hturn : prog.turn p with
    | wait =>
      refine ⟨sent, ?_, ?_⟩
      · rw [step_threads_self, ht]
        simpa [step, act, ht, hturn] using hp
      · rw [hother]
        simpa [step, act, ht, hturn] using hc
    | go item p' =>
      refine ⟨sent ++ item.toList, ?_, ?_⟩
      · rw [step_threads_self, ht]
        simp only [step, act, ht, hturn, Shared.send]
        refine ⟨?_, hp.2.go hturn⟩
        split_ifs
        · exact hp.1
        · exact hp.1
      · rw [hother]
        simpa [step, act, ht, hturn] using consumerAt_send hc hp.1 item
    | stop =>
      refine ⟨sent, ?_, ?_⟩
      · rw [step_threads_self, ht]
        simpa [step, act, ht, hturn, ProducerAt] using ⟨p, hp.2, hturn⟩
      · rw [hother]
        simpa [step, act, ht, hturn] using consumerAt_drop hc
  | joining =>
    rw [ht] at hp
    cases hrec : c.shared.receiver with
    | true =>
      refine ⟨sent, ?_, ?_⟩
      · rw [step_threads_self, ht]
        simpa [step, act, ht, hrec] using hp
      · rw [hother]
        simpa [step, act, ht, hrec] using hc
    | false =>
      refine ⟨sent, ?_, ?_⟩
      · rw [step_threads_self, ht]
        simpa [step, act, ht, hrec, ProducerAt] using hp
      · rw [hother]
        simpa [step, act, ht, hrec] using hc
  | joined =>
    rw [ht] at hp
    refine ⟨sent, ?_, ?_⟩
    · rw [step_threads_self, ht]
      simpa [step, act, ht] using hp
    · rw [hother]
      simpa [step, act, ht] using hc
  | _ =>
    rw [ht] at hp
    exact hp.elim

theorem Faithful.step_consumer (h : prog.Faithful p₀ c) :
    prog.Faithful p₀ (step prog.act .consumer c) := by
  obtain ⟨sent, hp, hc⟩ := h
  have hother : (step prog.act .consumer c).threads .producer = c.threads .producer :=
    step_threads_other (by simp)
  refine ⟨sent, ?_⟩
  rw [hother, step_threads_self]
  cases ht : c.threads .consumer with
  | starting =>
    rw [ht] at hc
    simp only [step, act, ht]
    exact ⟨producerAt_settle hp _, consumerAt_settle [] hc.1 hc.2 rfl⟩
  | consuming w =>
    rw [ht] at hc
    obtain ⟨hrec, taken, hsent, hw⟩ := hc
    cases hq : c.shared.queue with
    | cons item queue =>
      simp only [step, act, ht, hq]
      refine ⟨producerAt_settle (producerAt_queue hp queue) _, ?_⟩
      refine consumerAt_settle (taken ++ [item]) hrec (by simp [hsent, hq]) ?_
      rw [consume_snoc, hw, Outcome.bind_returned]
    | nil =>
      rw [hq, List.append_nil] at hsent
      cases hsender : c.shared.sender with
      | true =>
        simp only [step, act, ht, hq, hsender, if_true]
        exact ⟨hp, hrec, taken, by simp [hsent, hq], hw⟩
      | false =>
        have hleave := producerAt_leave hp
        simp only [hq, hsender] at hleave
        simp only [step, act, ht, hq, hsender, Bool.false_eq_true, if_false]
        exact ⟨hleave, rfl, rfl, hsent ▸ hw⟩
  | stuck =>
    rw [ht] at hc
    simp only [step, act, ht]
    exact ⟨hp, hc⟩
  | dead message =>
    rw [ht] at hc
    simp only [step, act, ht]
    exact ⟨hp, hc⟩
  | drained w =>
    rw [ht] at hc
    simp only [step, act, ht]
    exact ⟨hp, hc⟩
  | _ =>
    rw [ht] at hc
    exact hc.elim

/-- After every schedule the two threads are where they would be one after the other. -/
theorem run_faithful (prog : Program α π ω) (p₀ : π) (schedule : List Side) :
    prog.Faithful p₀ (run prog.act schedule (start p₀)) := by
  refine run_inv (prog.Faithful p₀) ?_ (faithful_start p₀) schedule
  intro c i h
  cases i with
  | producer => exact h.step_producer
  | consumer => exact h.step_consumer

/-! ## Progress -/

/-- The producer comes to its end without waiting for its environment. -/
inductive Stops (prog : Program α π ω) : π → Prop where
  | stop {p : π} : prog.turn p = .stop → Stops prog p
  | go {p p' : π} {item : Option α} : prog.turn p = .go item p' → Stops prog p' → Stops prog p

theorem Emits.stops {p : π} (h : prog.Emits p₀ sent p) (h0 : prog.Stops p₀) : prog.Stops p := by
  induction h with
  | start => exact h0
  | go _ hturn ih =>
    cases ih with
    | stop hstop => simp [hturn] at hstop
    | go hgo hnext =>
      rw [hturn, Turn.go.injEq] at hgo
      exact hgo.2 ▸ hnext

theorem exists_joining {p : π} (hstops : prog.Stops p) {c : Config Side (Shared α) (Party π ω)}
    (hc : c.threads .producer = .producing p) :
    ∃ schedule, (run prog.act schedule c).threads .producer = .joining := by
  induction hstops generalizing c with
  | stop hturn =>
    refine ⟨[.producer], ?_⟩
    rw [run_cons, run_nil, step_threads_self, hc]
    simp [act, hturn]
  | go hturn _ ih =>
    obtain ⟨schedule, hs⟩ := @ih (step prog.act .producer c) (by
      rw [step_threads_self, hc]
      simp [act, hturn])
    exact ⟨.producer :: schedule, by rwa [run_cons]⟩

/-- The turns the consumer needs once no more items come. -/
def remaining (c : Config Side (Shared α) (Party π ω)) : ℕ :=
  match c.threads .consumer with
  | .starting => c.shared.queue.length + 2
  | .consuming _ => c.shared.queue.length + 1
  | _ => 0

theorem remaining_settle {c : Config Side (Shared α) (Party π ω)} (ch : Shared α) {r : Outcome ω}
    (hshared : c.shared = (ch.settle (π := π) r).1) (hthread : c.threads .consumer = (ch.settle r).2) :
    remaining c ≤ ch.queue.length + 1 := by
  unfold remaining
  rw [hthread, hshared]
  cases r with
  | returned w => simp [Shared.settle]
  | panicked message => simp [Shared.settle]
  | diverged => simp [Shared.settle]

/-- With the sender gone, a consumer whose items all end leaves after finitely many turns. -/
theorem exists_left (h : prog.Faithful p₀ c) (hjoining : c.threads .producer = .joining)
    (hends : ∀ sent p, prog.Emits p₀ sent p → ∀ taken, taken <+: sent →
      prog.consume taken ≠ .diverged) :
    ∃ schedule, (run prog.act schedule c).threads .producer = .joining ∧
      (run prog.act schedule c).shared.receiver = false := by
  induction hm : remaining c using Nat.strong_induction_on generalizing c with
  | _ m ih =>
    have hnext : (step prog.act .consumer c).threads .producer = .joining := by
      rw [step_threads_other (by simp), hjoining]
    -- one turn of the consumer, and the rest by induction
    have hagain : remaining (step prog.act .consumer c) < m →
        ∃ schedule, (run prog.act schedule c).threads .producer = .joining ∧
          (run prog.act schedule c).shared.receiver = false := by
      intro hlt
      obtain ⟨schedule, hs⟩ := ih _ hlt h.step_consumer hnext rfl
      exact ⟨.consumer :: schedule, by rwa [run_cons]⟩
    obtain ⟨sent, hp, hc⟩ := h
    rw [hjoining] at hp
    obtain ⟨hsender, p, hemits, _⟩ := hp
    unfold remaining at hm
    cases ht : c.threads .consumer with
    | starting =>
      apply hagain
      have hle := remaining_settle (c := step prog.act .consumer c) c.shared (r := prog.init)
        (by simp [step, act, ht]) (by rw [step_threads_self, ht]; rfl)
      simp only [ht] at hm
      omega
    | consuming w =>
      cases hq : c.shared.queue with
      | cons item queue =>
        apply hagain
        have hle := remaining_settle (c := step prog.act .consumer c)
          { c.shared with queue := queue } (r := prog.process w item)
          (by simp [step, act, ht, hq]) (by rw [step_threads_self, ht]; simp [act, hq])
        simp only [ht, hq, List.length_cons] at hm hle
        omega
      | nil =>
        refine ⟨[.consumer], hnext, ?_⟩
        simp [step, act, ht, hq, hsender]
    | stuck =>
      rw [ht] at hc
      obtain ⟨_, taken, hsent, hdiv⟩ := hc
      exact absurd hdiv (hends sent p hemits taken (hsent ▸ List.prefix_append _ _))
    | dead message =>
      rw [ht] at hc
      exact ⟨[], hjoining, hc.1⟩
    | drained w =>
      rw [ht] at hc
      exact ⟨[], hjoining, hc.1⟩
    | _ =>
      rw [ht] at hc
      exact hc.elim

/-- No schedule runs the two threads into a deadlock: whatever has happened, they can be brought to
their end. -/
theorem exists_joined (schedule : List Side) (hstops : prog.Stops p₀)
    (hends : ∀ sent p, prog.Emits p₀ sent p → ∀ taken, taken <+: sent →
      prog.consume taken ≠ .diverged) :
    ∃ schedule', (run prog.act (schedule ++ schedule') (start p₀)).threads .producer = .joined := by
  have hjoining : ∃ schedule₁,
      (run prog.act (schedule ++ schedule₁) (start p₀)).threads .producer = .joining ∨
      (run prog.act (schedule ++ schedule₁) (start p₀)).threads .producer = .joined := by
    obtain ⟨sent, hp, _⟩ := run_faithful prog p₀ schedule
    cases ht : (run prog.act schedule (start p₀)).threads .producer with
    | producing p =>
      rw [ht] at hp
      obtain ⟨schedule₁, hs⟩ := exists_joining (hp.2.stops hstops) ht
      exact ⟨schedule₁, Or.inl (by rwa [run_append])⟩
    | joining => exact ⟨[], Or.inl (by rwa [List.append_nil])⟩
    | joined => exact ⟨[], Or.inr (by rwa [List.append_nil])⟩
    | _ =>
      rw [ht] at hp
      exact hp.elim
  obtain ⟨schedule₁, hs | hs⟩ := hjoining
  · obtain ⟨schedule₂, hstill, hleft⟩ := exists_left (run_faithful prog p₀ (schedule ++ schedule₁)) hs hends
    rw [← run_append] at hstill hleft
    refine ⟨schedule₁ ++ schedule₂ ++ [.producer], ?_⟩
    rw [← List.append_assoc, ← List.append_assoc, run_snoc, step_threads_self, hstill]
    simp only [act, hleft, Bool.false_eq_true, if_false]
  · exact ⟨schedule₁, hs⟩

end Program
end MinaVerify.Channel
