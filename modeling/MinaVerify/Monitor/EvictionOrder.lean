import MinaVerify.Monitor.Size

/-! # Which block is evicted

The comment on the eviction loop says "the oldest entry that isn't the current best". The loop takes
the first entry of the queue that is not the best, and the place in the queue is the age of a block
only until the best is rotated: it goes behind blocks that were inserted after it, and stays there when
another block becomes the best. -/
namespace MinaVerify
set_option autoImplicit false
open PinnedQueue

variable {T : Types} {core : Core T}

/-! ## Statements -/

/-- At every insertion of the run of `tips`, a property of the insertions before it, of the monitor and
of the tip. -/
def AtInsertions (core : Core T) (capacity : ℕ) (tips : List (VerifiedTip T))
    (P : List (VerifiedTip T) → ChainMonitor T → VerifiedTip T → Prop) : Prop :=
  ∀ pre tip, pre ++ [tip] <+: tips → ∀ m outs,
    (ChainMonitor.new capacity).run core pre = .returned (m, outs) →
      core.key tip ∉ m.nodes → P (inserted pre outs) m tip

/-- The keys inserted, that of the tip included. -/
def keysWith (core : Core T) (log : List (VerifiedTip T)) (tip : VerifiedTip T) : List String :=
  log.map core.key ++ [core.key tip]

/-- A block that leaves when the tip is inserted is not the best, and its last insertion is earlier
than that of every other block in the window that is not the best. -/
def EvictsOldest (core : Core T) (log : List (VerifiedTip T)) (m : ChainMonitor T)
    (tip : VerifiedTip T) : Prop :=
  ∀ k ∈ m.nodes.insert (core.key tip) (core.node tip), k ∉ windowAfter core m tip →
    m.best ≠ some k ∧
    ∀ k' ∈ m.nodes.insert (core.key tip) (core.node tip), k' ≠ k → m.best ≠ some k' →
      age (keysWith core log tip) k' < age (keysWith core log tip) k

def others (m : ChainMonitor T) : List String := m.order.filter fun k => ¬ m.best = some k

/-- In a full window, the blocks other than the best stand in the queue in the order of their
insertion. A run breaks this by rotating its best behind younger blocks and then replacing it: the
former best keeps its place among the others, until the blocks that it stands behind are evicted. -/
def QueueInOrder (core : Core T) (log : List (VerifiedTip T)) (m : ChainMonitor T) : Prop :=
  m.len = m.capacity →
    (others m).Pairwise fun a b => age (log.map core.key) b < age (log.map core.key) a

/-! ## One insertion -/

section Insert
variable {m : ChainMonitor T} {tip : VerifiedTip T} {log : List (VerifiedTip T)}

/-- A full window gives up the first entry of the queue that is not the best, the tip's own if there is
no other. -/
theorem insert_evicts (hm : WellFormed core m) (hkey : core.key tip ∉ m.nodes)
    (hfull : m.len = m.capacity) :
    ∃ k rest, ((m.order ++ [core.key tip]).filter fun k => ¬ m.best = some k) = k :: rest ∧
      windowAfter core m tip = (m.nodes.insert (core.key tip) (core.node tip)).erase k := by
  obtain ⟨hroom, _⟩ | ⟨k, rest, _, hcons, hbest, hins⟩ |
      ⟨b, k, rest, rest', _, hcons, hbest, hne, hrest, hins⟩ :=
    insert_cases hm hkey (core.node tip)
  · omega
  · refine ⟨k, (rest ++ [core.key tip]).filter fun k => ¬ m.best = some k, ?_, ?_⟩
    · rw [hcons, List.cons_append, List.filter_cons_of_pos (by simpa using hbest)]
    · rw [windowAfter, hins]
      rfl
  · have hk : m.best ≠ some k := by
      rw [hbest]
      simp [hne.symm]
    refine ⟨k, rest'.filter fun k => ¬ m.best = some k, ?_, ?_⟩
    · rw [hcons, List.cons_append, List.filter_cons_of_neg (by simpa using hbest), hrest,
        List.filter_cons_of_pos (by simpa using hk)]
    · rw [windowAfter, hins]
      rfl

theorem evictsOldest_iff_head (hm : WellFormed core m) (hkey : core.key tip ∉ m.nodes) {k : String}
    {rest : List String}
    (hqueue : ((m.order ++ [core.key tip]).filter fun k => ¬ m.best = some k) = k :: rest)
    (hwindow : windowAfter core m tip = (m.nodes.insert (core.key tip) (core.node tip)).erase k) :
    EvictsOldest core log m tip ↔
      ∀ a ∈ rest, age (keysWith core log tip) a < age (keysWith core log tip) k := by
  have hnodup : (k :: rest).Nodup := hqueue ▸ (hm.nodup_append hkey).filter _
  have hmem : ∀ a, a ∈ k :: rest ↔
      a ∈ m.nodes.insert (core.key tip) (core.node tip) ∧ m.best ≠ some a := by
    intro a
    rw [← hqueue, List.mem_filter, hm.mem_append (core.key tip) (core.node tip), decide_eq_true_iff]
  have hk := (hmem k).mp (by simp)
  rw [List.nodup_cons] at hnodup
  constructor
  · intro h a ha
    have hleaves : k ∉ windowAfter core m tip := by simp [hwindow]
    have ha' := (hmem a).mp (by simp [ha])
    exact (h k hk.1 hleaves).2 a ha'.1 (fun he => hnodup.1 (he ▸ ha)) ha'.2
  · intro h x hx hgone
    have hxk : x = k := by
      by_contra hne
      exact hgone (by rw [hwindow, AList.mem_erase]; exact ⟨hne, hx⟩)
    subst hxk
    refine ⟨hk.2, ?_⟩
    intro a ha hne hbest
    obtain he | hrest := List.mem_cons.mp ((hmem a).mpr ⟨ha, hbest⟩)
    · exact absurd he hne
    · exact h a hrest

theorem WellFormed.ne_of_mem_others (hm : WellFormed core m) (hkey : core.key tip ∉ m.nodes)
    {a : String} (ha : a ∈ others m) : a ≠ core.key tip := by
  intro he
  exact hkey (he ▸ (hm.mem_order a).mp (List.mem_of_mem_filter ha))

/-- What the eviction of a full window comes to, in terms of the queue before it: the tip itself is the
youngest. -/
theorem evictsOldest_full (hm : WellFormed core m) (hkey : core.key tip ∉ m.nodes)
    (hfull : m.len = m.capacity) :
    EvictsOldest core log m tip ↔
      ∀ k rest, others m = k :: rest →
        ∀ a ∈ rest, age (log.map core.key) a < age (log.map core.key) k := by
  obtain ⟨k, rest, hqueue, hwindow⟩ := insert_evicts hm hkey hfull
  rw [evictsOldest_iff_head hm hkey hqueue hwindow]
  rw [List.filter_append] at hqueue
  have hshift : ∀ a ∈ others m,
      age (keysWith core log tip) a = age (log.map core.key) a + 1 := by
    intro a ha
    exact age_snoc_ne _ (hm.ne_of_mem_others hkey ha)
  have hnew : age (keysWith core log tip) (core.key tip) = 0 := age_snoc_self _ _
  cases hothers : others m with
  | nil =>
    -- only the tip is left to evict
    have hlast : [core.key tip].filter (fun k => ¬ m.best = some k) = k :: rest := by
      rw [← hqueue]
      unfold others at hothers
      rw [hothers, List.nil_append]
    have hrest : rest = [] := by
      have hle := List.length_filter_le (fun k => decide (¬ m.best = some k)) [core.key tip]
      rw [hlast] at hle
      simpa using hle
    simp [hrest]
  | cons f fs =>
    have hsplit : f = k ∧ fs ++ [core.key tip].filter (fun k => ¬ m.best = some k) = rest := by
      unfold others at hothers
      rw [hothers, List.cons_append, List.cons.injEq] at hqueue
      exact hqueue
    obtain ⟨rfl, rfl⟩ := hsplit
    have hf := hshift f (by simp [hothers])
    constructor
    · intro h k' rest' heq a ha
      rw [List.cons.injEq] at heq
      obtain ⟨rfl, rfl⟩ := heq
      have hlt := h a (by simp [ha])
      rw [hshift a (by simp [hothers, ha])] at hlt
      omega
    · intro h a ha
      obtain hold | hlast := List.mem_append.mp ha
      · have hlt := h f fs rfl a hold
        rw [hshift a (by simp [hothers, hold])]
        omega
      · rw [List.mem_singleton.mp (List.mem_of_mem_filter hlast), hnew]
        omega

end Insert

/-! ## Runs -/

/-- In every window of a run, the others are in the order of their insertion as soon as the first of
them is the oldest. -/
theorem run_others_sorted {capacity : ℕ} {tips : List (VerifiedTip T)} {m : ChainMonitor T}
    {outs : List (Ingest T.StateHash)}
    (hrun : (ChainMonitor.new capacity).run core tips = .returned (m, outs))
    (hhead : ∀ k rest, others m = k :: rest → ∀ a ∈ rest,
      age ((inserted tips outs).map core.key) a < age ((inserted tips outs).map core.key) k) :
    (others m).Pairwise fun a b =>
      age ((inserted tips outs).map core.key) b < age ((inserted tips outs).map core.key) a := by
  obtain ⟨hm, hcap⟩ := run_wellFormed hrun
  cases hothers : others m with
  | nil => exact List.Pairwise.nil
  | cons k rest =>
    by_cases h2 : 2 ≤ capacity
    · obtain ⟨queue, hq, haged⟩ := (run_retained h2 hrun).aged
      have hkeys : Aged m.capacity (fun k => m.best = some k) ((inserted tips outs).map core.key)
          m.order := by
        rw [hq.order]
        exact haged.map core.key (fun _ _ hp => hp)
      rw [← hothers]
      exact hkeys.sorted_of_head hm.nodup hothers (hhead k rest hothers)
    · -- the window has one place
      have hlen := List.length_filter_le (fun k => decide (¬ m.best = some k)) m.order
      have hone := hm.length_order ▸ hm.len_le
      unfold others at hothers
      rw [hothers, List.length_cons] at hlen
      have hrest : rest.length = 0 := by omega
      rw [List.length_eq_zero_iff.mp hrest]
      exact List.pairwise_singleton _ _

/-- **Eviction takes the oldest block that is not the best exactly in runs that keep the queue in
order.** -/
theorem evicts_oldest_iff (core : Core T) (capacity : ℕ) (tips : List (VerifiedTip T)) :
    AtInsertions core capacity tips (EvictsOldest core) ↔
      AtInsertions core capacity tips (fun log m _ => QueueInOrder core log m) := by
  have hstep : ∀ pre tip m outs, (ChainMonitor.new capacity).run core pre = .returned (m, outs) →
      core.key tip ∉ m.nodes → (EvictsOldest core (inserted pre outs) m tip ↔
        QueueInOrder core (inserted pre outs) m) := by
    intro pre tip m outs hrun hkey
    obtain ⟨hm, _⟩ := run_wellFormed hrun
    by_cases hfull : m.len = m.capacity
    · rw [evictsOldest_full hm hkey hfull]
      constructor
      · intro h _
        exact run_others_sorted hrun h
      · intro h k rest hothers
        have hsorted := h hfull
        rw [hothers, List.pairwise_cons] at hsorted
        exact hsorted.1
    · -- there is room: nothing leaves
      constructor
      · intro _ h
        exact absurd h hfull
      · intro _ k hk hgone
        obtain ⟨_, hins⟩ | ⟨_, _, hcap, _⟩ := insert_spec hm hkey (core.node tip)
        · rw [windowAfter, hins] at hgone
          exact absurd hk hgone
        · exact absurd hcap hfull
  constructor
  · intro h pre tip hpre m outs hrun hkey
    exact (hstep pre tip m outs hrun hkey).mp (h pre tip hpre m outs hrun hkey)
  · intro h pre tip hpre m outs hrun hkey
    exact (hstep pre tip m outs hrun hkey).mpr (h pre tip hpre m outs hrun hkey)

/-- Capacity three. The fourth block rotates the best `b` behind it, `w` replaces `b` as the best, and
`v` evicts `z`, which was inserted after `b`. -/
theorem not_evicts_oldest_rotated :
    ¬ AtInsertions Sample.minaCore 3
      [Sample.tip "b" "a" 2, Sample.tip "x" "o" 1, Sample.tip "y" "o" 1, Sample.tip "z" "o" 1,
        Sample.tip "w" "b" 3, Sample.tip "v" "o" 1] (EvictsOldest Sample.minaCore) := by
  intro h
  obtain ⟨⟨m, outs⟩, hrun, hm⟩ := Outcome.exists_of_holds
    (x := (ChainMonitor.new 3).run Sample.minaCore
      [Sample.tip "b" "a" 2, Sample.tip "x" "o" 1, Sample.tip "y" "o" 1, Sample.tip "z" "o" 1,
        Sample.tip "w" "b" 3])
    (p := fun r : ChainMonitor Sample.types × List (Ingest String) => decide
      (r.2 = [.genesis, .unlinked, .unlinked, .unlinked, .extend 3] ∧ r.1.best = some "w" ∧
        "v" ∉ r.1.nodes ∧ "z" ∈ r.1.nodes ∧ "b" ∈ r.1.nodes ∧
        "z" ∉ windowAfter Sample.minaCore r.1 (Sample.tip "v" "o" 1))) (by decide +kernel)
  obtain ⟨houts, hbest, hv, hz, hb, hgone⟩ := of_decide_eq_true hm
  have hstep := h _ (Sample.tip "v" "o" 1) (List.prefix_refl _) m outs hrun hv
  have hne : m.best ≠ some "b" := by
    have hw : m.best = some "w" := hbest
    simp [hw]
  have hlt := (hstep "z" (AList.mem_insert _ |>.mpr (Or.inr hz)) hgone).2 "b"
    (AList.mem_insert _ |>.mpr (Or.inr hb)) (by decide) hne
  have hlog : outs = [.genesis, .unlinked, .unlinked, .unlinked, .extend 3] := houts
  rw [hlog] at hlt
  exact absurd hlt (by decide +kernel)

end MinaVerify
