import Mathlib.Data.List.DropRight
import Mathlib.Data.List.Nodup

/-! # Bounded queues with a pinned entry

A queue of bounded length takes a new entry at the back and gives one up at the front, except that a
pinned entry found at the front goes to the back and the entry behind it leaves. Which entry is pinned
may change after every insertion, but only to the new one. Such a queue is not first-in first-out, yet
it holds all but one of its places for the latest insertions. -/
namespace MinaVerify.PinnedQueue
set_option autoImplicit false

variable {α : Type*}

inductive Push (capacity : ℕ) (pinned : α → Prop) (x : α) : List α → List α → Prop
  | room {queue : List α} (h : queue.length < capacity) : Push capacity pinned x queue (queue ++ [x])
  | drop {q : α} {rest : List α} (hfull : (q :: rest).length = capacity) (hq : ¬ pinned q) :
      Push capacity pinned x (q :: rest) (rest ++ [x])
  | rotate {b q : α} {rest : List α} (hfull : (b :: q :: rest).length = capacity) (hb : pinned b) :
      Push capacity pinned x (b :: q :: rest) (rest ++ [x, b])

/-- The queue against the log of all insertions: its last entries, or all but one of them with one
rotated entry `z` in between. In the second case an entry ahead of `z` is pinned only if it is the one
right before `z`, so `z` leaves before any later insertion does. -/
inductive Aged (capacity : ℕ) (pinned : α → Prop) (log queue : List α) : Prop
  | fifo (hsuf : queue <:+ log) (hlen : queue.length = min log.length capacity)
  | rotated (pre suf : List α) (z : α) (hqueue : queue = pre ++ z :: suf) (hsuf : pre ++ suf <:+ log)
      (hlen : (pre ++ suf).length + 1 = capacity)
      (hpin : ∀ b ∈ queue, pinned b → b = z ∨ b ∈ suf ∨ pre.getLast? = some b)

theorem suffix_snoc {l l' : List α} (h : l <:+ l') (x : α) : l ++ [x] <:+ l' ++ [x] := by
  obtain ⟨pre, rfl⟩ := h
  exact ⟨pre, by simp⟩

section Push
variable {capacity : ℕ} {pinned pinned' : α → Prop} {x : α} {log queue queue' : List α}

/-- The queue right after a rotation: everything but the rotated entry `b` is a late insertion, and
what is pinned is `b` or the new entry. -/
theorem aged_of_rotate {rest : List α} {b : α} (hsuf : rest <:+ log)
    (hlen : rest.length + 2 = capacity)
    (hpin : ∀ a ∈ rest ++ [x, b], pinned' a → a = x ∨ a = b) :
    Aged capacity pinned' (log ++ [x]) (rest ++ [x, b]) := by
  refine .rotated (rest ++ [x]) [] b (by simp) ?_ ?_ ?_
  · rw [List.append_nil]
    exact suffix_snoc hsuf x
  · simp only [List.append_nil, List.length_append, List.length_singleton]
    omega
  · intro a ha hpa
    obtain rfl | rfl := hpin a ha hpa
    · right; right
      simp
    · exact Or.inl rfl

theorem Aged.room (h : Aged capacity pinned log queue) (hroom : queue.length < capacity) :
    Aged capacity pinned' (log ++ [x]) (queue ++ [x]) := by
  cases h with
  | fifo hsuf hlen =>
    apply Aged.fifo (suffix_snoc hsuf x)
    simp only [List.length_append, List.length_singleton]
    omega
  | rotated pre suf z hqueue hsuf hlen _ =>
    -- a queue with a rotated entry is full
    have := congrArg List.length hqueue
    simp only [List.length_append, List.length_cons] at this hlen
    omega

theorem Aged.drop {q : α} {rest : List α} (h : Aged capacity pinned log (q :: rest))
    (hfull : (q :: rest).length = capacity) (hq : ¬ pinned q)
    (hpin : ∀ b ∈ rest ++ [x], pinned' b → b = x ∨ (b ∈ q :: rest ∧ pinned b)) :
    Aged capacity pinned' (log ++ [x]) (rest ++ [x]) := by
  cases h with
  | fifo hsuf hlen =>
    have hlog := hsuf.length_le
    apply Aged.fifo (suffix_snoc ((List.suffix_cons q rest).trans hsuf) x)
    simp only [List.length_append, List.length_cons, List.length_nil] at *
    omega
  | rotated pre suf z hqueue hsuf hlen hold =>
    cases pre with
    | nil =>
      -- the rotated entry itself leaves
      rw [List.nil_append, List.cons.injEq] at hqueue
      obtain ⟨rfl, rfl⟩ := hqueue
      have hlog := hsuf.length_le
      apply Aged.fifo (suffix_snoc hsuf x)
      simp only [List.nil_append, List.length_append, List.length_cons, List.length_nil] at *
      omega
    | cons p pre =>
      rw [List.cons_append, List.cons.injEq] at hqueue
      obtain ⟨rfl, rfl⟩ := hqueue
      refine .rotated pre (suf ++ [x]) z (by simp) ?_ ?_ ?_
      · rw [← List.append_assoc]
        exact suffix_snoc ((List.suffix_cons q (pre ++ suf)).trans hsuf) x
      · simp only [List.cons_append, List.length_append, List.length_cons,
          List.length_nil] at hlen ⊢
        omega
      · intro b hb hpb
        obtain rfl | ⟨hbq, hpb⟩ := hpin b hb hpb
        · simp
        · obtain hz | hs | hl := hold b hbq hpb
          · exact Or.inl hz
          · simp [hs]
          · right; right
            cases pre with
            | nil =>
              simp only [List.getLast?_singleton, Option.some.injEq] at hl
              exact absurd (hl ▸ hpb) hq
            | cons p' pre => simpa using hl

/-- Behind a pinned front and the entry after it, the queue is the last insertions. -/
theorem Aged.suffix_of_pinned {b q : α} {rest : List α} (h : Aged capacity pinned log (b :: q :: rest))
    (hnodup : (b :: q :: rest).Nodup) (hb : pinned b) : rest <:+ log := by
  cases h with
  | fifo hsuf hlen =>
    have hrest : rest <:+ b :: q :: rest := ⟨[b, q], rfl⟩
    exact hrest.trans hsuf
  | rotated pre suf z hqueue hsuf hlen hold =>
    cases pre with
    | nil =>
      rw [List.nil_append, List.cons.injEq] at hqueue
      obtain ⟨rfl, rfl⟩ := hqueue
      rw [List.nil_append] at hsuf
      exact (List.suffix_cons q rest).trans hsuf
    | cons p pre =>
      rw [List.cons_append, List.cons.injEq] at hqueue
      obtain ⟨rfl, hqueue⟩ := hqueue
      rw [hqueue, List.nodup_cons] at hnodup
      -- a pinned front ahead of the rotated entry is the one right before it
      have hpre : pre = [] := by
        obtain hz | hs | hl := hold b (by simp) hb
        · exact absurd (by simp [hz]) hnodup.1
        · exact absurd (by simp [hs]) hnodup.1
        · cases pre with
          | nil => rfl
          | cons p' pre =>
            rw [List.getLast?_cons_cons] at hl
            exact absurd (List.mem_append_left _ (List.mem_of_getLast? hl)) hnodup.1
      subst hpre
      rw [List.nil_append, List.cons.injEq] at hqueue
      obtain ⟨rfl, rfl⟩ := hqueue
      exact (List.suffix_cons b rest).trans hsuf

theorem Push.aged (h : Push capacity pinned x queue queue') (hnodup : queue.Nodup)
    (hone : ∀ a ∈ queue, ∀ b ∈ queue, pinned a → pinned b → a = b)
    (hpin : ∀ b ∈ queue', pinned' b → b = x ∨ (b ∈ queue ∧ pinned b))
    (haged : Aged capacity pinned log queue) : Aged capacity pinned' (log ++ [x]) queue' := by
  cases h with
  | room hroom => exact haged.room hroom
  | drop hfull hq => exact haged.drop hfull hq hpin
  | @rotate b q rest hfull hb =>
    apply aged_of_rotate (haged.suffix_of_pinned hnodup hb) (by simpa using hfull)
    intro a ha hpa
    obtain hx | ⟨haq, hpa⟩ := hpin a ha hpa
    · exact Or.inl hx
    · exact Or.inr (hone a haq b (by simp) hpa hb)

end Push

theorem Aged.recent {capacity : ℕ} {pinned : α → Prop} {log queue : List α}
    (h : Aged capacity pinned log queue) : log.rtake (capacity - 1) ⊆ queue := by
  have hrtake : log.rtake (capacity - 1) <:+ log := List.drop_suffix _ _
  have hlen' : (log.rtake (capacity - 1)).length = log.length - (log.length - (capacity - 1)) :=
    List.length_drop
  cases h with
  | fifo hsuf hlen =>
    exact (List.suffix_of_suffix_length_le hrtake hsuf (by omega)).subset
  | rotated pre suf z hqueue hsuf hlen _ =>
    have hsub := (List.suffix_of_suffix_length_le hrtake hsuf (by omega)).subset
    intro a ha
    rw [hqueue]
    rcases List.mem_append.mp (hsub ha) with hp | hs
    · simp [hp]
    · simp [hs]

theorem Aged.map {β : Type*} (f : α → β) {capacity : ℕ} {pinned : α → Prop} {pinned' : β → Prop}
    {log queue : List α} (h : Aged capacity pinned log queue)
    (hpin : ∀ b ∈ queue, pinned' (f b) → pinned b) :
    Aged capacity pinned' (log.map f) (queue.map f) := by
  cases h with
  | fifo hsuf hlen => exact .fifo (hsuf.map f) (by simpa using hlen)
  | rotated pre suf z hqueue hsuf hlen hold =>
    refine .rotated (pre.map f) (suf.map f) (f z) (by simp [hqueue]) ?_ (by simpa using hlen) ?_
    · rw [← List.map_append]
      exact hsuf.map f
    · intro b' hb' hpb'
      obtain ⟨b, hb, rfl⟩ := List.mem_map.mp hb'
      obtain hz | hs | hl := hold b hb (hpin b hb hpb')
      · exact Or.inl (by rw [hz])
      · exact Or.inr (Or.inl (List.mem_map_of_mem hs))
      · exact Or.inr (Or.inr (by rw [List.getLast?_map, hl, Option.map_some]))

/-! ## Ages -/

section Age
variable [DecidableEq α] {log s : List α} {a z : α}

/-- The number of insertions since the last one of an entry. -/
def age (log : List α) (a : α) : ℕ := log.reverse.idxOf a

theorem age_snoc_self (log : List α) (a : α) : age (log ++ [a]) a = 0 := by
  simp [age]

theorem age_snoc_ne (log : List α) (h : a ≠ z) : age (log ++ [z]) a = age log a + 1 := by
  rw [age, List.reverse_append, List.reverse_singleton, List.singleton_append,
    List.idxOf_cons_ne _ h.symm, age]

theorem age_of_mem (hsuf : s <:+ log) (ha : a ∈ s) : age log a = s.reverse.idxOf a := by
  obtain ⟨pre, rfl⟩ := hsuf
  rw [age, List.reverse_append, List.idxOf_append_of_mem (List.mem_reverse.mpr ha)]

/-- The later an entry stands in a suffix of the log, the younger it is. -/
theorem pairwise_age (hsuf : s <:+ log) (hnodup : s.Nodup) :
    s.Pairwise fun a b => age log b < age log a := by
  have hpos : s.reverse.Pairwise fun a b => s.reverse.idxOf a < s.reverse.idxOf b := by
    rw [List.pairwise_iff_getElem]
    intro i j hi hj hij
    have hrev := List.nodup_reverse.mpr hnodup
    rwa [hrev.idxOf_getElem i hi, hrev.idxOf_getElem j hj]
  rw [List.pairwise_reverse] at hpos
  refine hpos.imp_of_mem ?_
  intro a b ha hb hlt
  rwa [age_of_mem hsuf ha, age_of_mem hsuf hb]

theorem age_lt_of_not_mem (hsuf : s <:+ log) (ha : a ∈ s) (hz : z ∉ s) : age log a < age log z := by
  have hyoung : age log a < s.length := by
    rw [age_of_mem hsuf ha, ← List.length_reverse]
    exact List.idxOf_lt_length_of_mem (List.mem_reverse.mpr ha)
  have hold : s.length ≤ age log z := by
    obtain ⟨pre, rfl⟩ := hsuf
    rw [age, List.reverse_append,
      List.idxOf_append_of_notMem (fun h => hz (List.mem_reverse.mp h)), List.length_reverse]
    omega
  omega

/-- Without the pinned entry, a queue whose first entry is the oldest is in the order of its
insertions: a rotated entry is older than all others, so it is the first or it is not there. -/
theorem Aged.sorted_of_head {capacity : ℕ} {pinned : α → Prop} [DecidablePred pinned]
    {queue rest : List α} {k : α} (h : Aged capacity pinned log queue) (hnodup : queue.Nodup)
    (hk : queue.filter (fun a => ¬ pinned a) = k :: rest)
    (hhead : ∀ a ∈ rest, age log a < age log k) :
    (queue.filter fun a => ¬ pinned a).Pairwise fun a b => age log b < age log a := by
  cases h with
  | fifo hsuf _ => exact (pairwise_age hsuf hnodup).filter _
  | rotated pre suf z hqueue hsuf _ _ =>
    subst hqueue
    have hz : z ∉ pre ++ suf := by
      rw [List.nodup_middle, List.nodup_cons] at hnodup
      exact hnodup.1
    have hsorted := pairwise_age hsuf (hnodup.sublist (by simp))
    by_cases hpz : pinned z
    · have hdrop : (pre ++ z :: suf).filter (fun a => ¬ pinned a) =
          (pre ++ suf).filter (fun a => ¬ pinned a) := by
        simp [List.filter_append, hpz]
      rw [hdrop]
      exact hsorted.filter _
    · have hsplit : (pre ++ z :: suf).filter (fun a => ¬ pinned a) =
          pre.filter (fun a => ¬ pinned a) ++ z :: suf.filter (fun a => ¬ pinned a) := by
        simp [List.filter_append, hpz]
      rw [hsplit] at hk ⊢
      cases hpre : pre.filter (fun a => ¬ pinned a) with
      | nil =>
        rw [hpre, List.nil_append] at hk
        rw [List.nil_append, List.pairwise_cons]
        rw [List.cons.injEq] at hk
        obtain ⟨rfl, rfl⟩ := hk
        exact ⟨hhead, ((List.pairwise_append.mp hsorted).2.1).filter _⟩
      | cons p ps =>
        rw [hpre, List.cons_append, List.cons.injEq] at hk
        obtain ⟨rfl, rfl⟩ := hk
        have hp : p ∈ pre ++ suf := by
          have hmem : p ∈ pre.filter (fun a => ¬ pinned a) := hpre ▸ List.mem_cons_self
          exact List.mem_append_left _ (List.mem_of_mem_filter hmem)
        have hyoung := age_lt_of_not_mem hsuf hp hz
        have hold := hhead z (by simp)
        omega

end Age
end MinaVerify.PinnedQueue
