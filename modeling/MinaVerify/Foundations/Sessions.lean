import Mathlib.Data.Finset.Image
import Mathlib.Data.Finset.Card
import Mathlib.Data.List.Induction

/-! # Keys with several sessions

Sessions are opened and closed, each under a key, and a key may hold several at a time. A set of keys
that takes a key in when a session of it opens and gives it up when one closes is not the set of the
keys with an open session: it misses those that lost one session, kept another and opened none since.
It misses no others, and it holds no key too many, so its size is right exactly when there are none. -/
namespace MinaVerify.Sessions
set_option autoImplicit false

variable {κ ι : Type} [DecidableEq κ] [DecidableEq ι]

inductive Event (κ ι : Type) where
  | opened (key : κ) (session : ι)
  | closed (key : κ) (session : ι)
  deriving DecidableEq, Repr

def Event.opens (key : κ) : Event κ ι → Prop
  | .opened k _ => k = key
  | .closed _ _ => False

def Event.closes (key : κ) : Event κ ι → Prop
  | .opened _ _ => False
  | .closed k _ => k = key

/-! ## What a log leaves open -/

def record (sessions : Finset (κ × ι)) : Event κ ι → Finset (κ × ι)
  | .opened key session => insert (key, session) sessions
  | .closed key session => sessions.erase (key, session)

def openSessions (log : List (Event κ ι)) : Finset (κ × ι) := log.foldl record ∅

/-- The keys with at least one open session. -/
def holders (log : List (Event κ ι)) : Finset κ := (openSessions log).image Prod.fst

/-- Every session is opened once, and closed only while it is open. -/
inductive Emitted : List (Event κ ι) → Prop where
  | nil : Emitted []
  | opened {log : List (Event κ ι)} {key : κ} {session : ι} (h : Emitted log)
      (hnew : ∀ k, .opened k session ∉ log) : Emitted (log ++ [.opened key session])
  | closed {log : List (Event κ ι)} {key : κ} {session : ι} (h : Emitted log)
      (hopen : (key, session) ∈ openSessions log) : Emitted (log ++ [.closed key session])

/-! ## The set of keys -/

def keep (keys : Finset κ) : Event κ ι → Finset κ
  | .opened key _ => insert key keys
  | .closed key _ => keys.erase key

def tracked (log : List (Event κ ι)) : Finset κ := log.foldl keep ∅

/-- A session of the key was closed, and none has been opened since. -/
def Dropped (log : List (Event κ ι)) (key : κ) : Prop :=
  ∃ pre e post, log = pre ++ e :: post ∧ e.closes key ∧ ∀ e' ∈ post, ¬ e'.opens key

section Snoc
variable (log : List (Event κ ι)) (e : Event κ ι) {key : κ}

theorem openSessions_snoc : openSessions (log ++ [e]) = record (openSessions log) e := by
  rw [openSessions, List.foldl_append]
  rfl

omit [DecidableEq ι] in
theorem tracked_snoc : tracked (log ++ [e]) = keep (tracked log) e := by
  rw [tracked, List.foldl_append]
  rfl

omit [DecidableEq κ] [DecidableEq ι] in
theorem dropped_snoc :
    Dropped (log ++ [e]) key ↔ e.closes key ∨ (Dropped log key ∧ ¬ e.opens key) := by
  constructor
  · intro h
    obtain ⟨pre, x, post, heq, hx, hpost⟩ := h
    obtain rfl | ⟨post, y, rfl⟩ := List.eq_nil_or_concat post
    · obtain ⟨_, rfl⟩ := List.append_singleton_inj.mp heq
      exact Or.inl hx
    · rw [List.concat_eq_append, ← List.cons_append, ← List.append_assoc] at heq
      obtain ⟨rfl, rfl⟩ := List.append_singleton_inj.mp heq
      refine Or.inr ⟨⟨pre, x, post, rfl, hx, ?_⟩, hpost e (by simp)⟩
      intro e' he'
      exact hpost e' (by simp [he'])
  · intro h
    obtain hlast | ⟨⟨pre, x, post, rfl, hx, hpost⟩, hopens⟩ := h
    · exact ⟨log, e, [], rfl, hlast, by simp⟩
    · refine ⟨pre, x, post ++ [e], by simp, hx, ?_⟩
      intro e' he'
      obtain hold | hlast := List.mem_append.mp he'
      · exact hpost e' hold
      · rwa [List.mem_singleton.mp hlast]

end Snoc

/-! ## How they differ -/

omit [DecidableEq ι] in
theorem mem_tracked {log : List (Event κ ι)} {key : κ} :
    key ∈ tracked log ↔ (∃ e ∈ log, e.opens key) ∧ ¬ Dropped log key := by
  induction log using List.reverseRecOn with
  | nil => simp [tracked]
  | append_singleton log e ih =>
    rw [tracked_snoc, dropped_snoc]
    cases e with
    | opened k session =>
      by_cases hk : k = key
      · simp [keep, Event.opens, Event.closes, hk]
      · simp [keep, Event.opens, Event.closes, hk, Ne.symm hk, ih, or_and_right, exists_or]
    | closed k session =>
      by_cases hk : k = key
      · simp [keep, Event.closes, hk]
      · simp [keep, Event.opens, Event.closes, hk, Ne.symm hk, ih, or_and_right, exists_or]

theorem mem_holders {log : List (Event κ ι)} {key : κ} :
    key ∈ holders log ↔ ∃ session, (key, session) ∈ openSessions log := by
  simp [holders]

theorem opened_of_holder {log : List (Event κ ι)} {key : κ} (h : key ∈ holders log) :
    ∃ e ∈ log, e.opens key := by
  rw [mem_holders] at h
  obtain ⟨session, h⟩ := h
  refine ⟨.opened key session, ?_, rfl⟩
  induction log using List.reverseRecOn with
  | nil => simp [openSessions] at h
  | append_singleton log e ih =>
    rw [openSessions_snoc] at h
    rw [List.mem_append, List.mem_singleton]
    cases e with
    | opened k s =>
      obtain heq | hold := Finset.mem_insert.mp h
      · rw [Prod.mk.injEq] at heq
        rw [heq.1, heq.2]
        exact Or.inr rfl
      · exact Or.inl (ih hold)
    | closed k s => exact Or.inl (ih (Finset.mem_of_mem_erase h))

theorem tracked_subset_holders (log : List (Event κ ι)) : tracked log ⊆ holders log := by
  induction log using List.reverseRecOn with
  | nil => simp [tracked]
  | append_singleton log e ih =>
    intro key h
    rw [tracked_snoc] at h
    rw [mem_holders, openSessions_snoc]
    cases e with
    | opened k s =>
      obtain rfl | hold := Finset.mem_insert.mp h
      · exact ⟨s, Finset.mem_insert_self _ _⟩
      · obtain ⟨session, hs⟩ := mem_holders.mp (ih hold)
        exact ⟨session, Finset.mem_insert_of_mem hs⟩
    | closed k s =>
      obtain ⟨hne, hold⟩ := Finset.mem_erase.mp h
      obtain ⟨session, hs⟩ := mem_holders.mp (ih hold)
      exact ⟨session, Finset.mem_erase.mpr ⟨by simp [hne], hs⟩⟩

theorem card_tracked_iff (log : List (Event κ ι)) :
    (tracked log).card = (holders log).card ↔ ∀ key ∈ holders log, ¬ Dropped log key := by
  have hsub := tracked_subset_holders log
  constructor
  · intro h key hkey
    rw [← Finset.eq_of_subset_of_card_le hsub h.ge] at hkey
    exact (mem_tracked.mp hkey).2
  · intro h
    congr 1
    apply hsub.antisymm
    intro key hkey
    exact mem_tracked.mpr ⟨opened_of_holder hkey, h key hkey⟩

end MinaVerify.Sessions
