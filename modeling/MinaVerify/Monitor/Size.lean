import MinaVerify.Monitor.Retention

/-! # The size of the window

Map and queue are updated together and hold the same keys, whatever the capacity. Each insertion adds
one block and, once the window is full, gives one up; so the size is the number of insertions up to the
capacity. The eviction loops always find a block to give up: a queue longer than the capacity has a
second key, and a key is in it once. -/
namespace MinaVerify
set_option autoImplicit false

variable {T : Types} {core : Core T}

/-! ## The early exits of the eviction loop -/

/-- The `while` of `insert` gets to a round in which the inner loop leaves by one of its two early
`return`s. -/
inductive EarlyReturn (capacity : ℕ) (best : Option String) : Nodes T → List String → Prop where
  | here {nodes : Nodes T} {order : List String} (hover : capacity < nodes.keys.length)
      (hloop : (evictLoop best 0 order).2 = none) : EarlyReturn capacity best nodes order
  | later {nodes : Nodes T} {order order' : List String} {k : String}
      (hover : capacity < nodes.keys.length) (hloop : evictLoop best 0 order = (order', some k))
      (hrest : EarlyReturn capacity best (nodes.erase k) order') :
      EarlyReturn capacity best nodes order

/-- Of two different keys at the front of a queue, one is not the best. -/
theorem evictLoop_two (best : Option String) {a b : String} (hab : b ≠ a) (rest : List String) :
    ∃ k order, evictLoop best 0 (a :: b :: rest) = (order, some k) ∧ (k = a ∨ k = b) := by
  by_cases hbest : best = some a
  · exact ⟨b, rest ++ [a], by rw [hbest, evictLoop_rotate hab], Or.inr rfl⟩
  · exact ⟨a, b :: rest, evictLoop_other hbest 0 (b :: rest), Or.inl rfl⟩

section Insert
variable {m : ChainMonitor T} {key : String} {node : Node T}

theorem WellFormed.not_earlyReturn (h : WellFormed core m) (hkey : key ∉ m.nodes) :
    ¬ EarlyReturn m.capacity m.best (m.nodes.insert key node) (m.order ++ [key]) := by
  have hkeys := insert_keys_length hkey node
  have hnodup := h.nodup_append hkey
  have hpos := h.capacity_pos
  have hlen : (m.order ++ [key]).length = m.len + 1 := by simp [h.length_order]
  intro hearly
  have hfull : m.capacity < m.len + 1 := by
    cases hearly with
    | here hover _ => omega
    | later hover _ _ => omega
  -- the queue has two keys, so the inner loop gives one up, and that makes enough room
  obtain ⟨a, rest₁, hcons⟩ := List.exists_cons_of_length_pos (by omega : 0 < (m.order ++ [key]).length)
  obtain ⟨b, rest, rfl⟩ : ∃ b rest, rest₁ = b :: rest := by
    apply List.exists_cons_of_length_pos
    rw [hcons, List.length_cons] at hlen
    omega
  have hab : b ≠ a := by
    intro he
    rw [hcons, he] at hnodup
    simp at hnodup
  obtain ⟨k, order, hloop, hk⟩ := evictLoop_two m.best hab rest
  rw [hcons] at hearly
  cases hearly with
  | here _ hnone => simp [hloop] at hnone
  | @later _ _ order' k' _ hloop' hrest =>
    rw [hloop, Prod.mk.injEq, Option.some.injEq] at hloop'
    obtain ⟨rfl, rfl⟩ := hloop'
    have hmem : k ∈ m.nodes.insert key node := by
      rw [← h.mem_append key node, hcons]
      obtain rfl | rfl := hk
      · simp
      · simp
    have herase := erase_keys_length hkeys hmem
    have hle := h.len_le
    cases hrest with
    | here hover _ => omega
    | later hover _ _ => omega

end Insert

/-! ## Whole runs -/

theorem run_len {capacity : ℕ} {tips : List (VerifiedTip T)} {m : ChainMonitor T}
    {outs : List (Ingest T.StateHash)}
    (h : (ChainMonitor.new capacity).run core tips = .returned (m, outs)) :
    m.len = min (max capacity 1) (outs.countP fun out => !out.isDuplicate) := by
  have hboth := run_induction (fun _ outs m => (WellFormed core m ∧ m.capacity = max capacity 1) ∧
      m.len = min (max capacity 1) (outs.countP fun out => !out.isDuplicate))
    ⟨⟨wellFormed_new core capacity, rfl⟩, by simp [ChainMonitor.new, ChainMonitor.len]⟩ (by
      intro tips outs m tip m' out hm hing
      obtain ⟨⟨hwf, hcap⟩, hlen⟩ := hm
      refine ⟨⟨ingest_wellFormed hwf hing, by rw [ingest_capacity hing, hcap]⟩, ?_⟩
      rw [List.countP_append, List.countP_singleton]
      obtain ⟨_, rfl, rfl⟩ | ⟨hkey, hout, hm'⟩ := ingest_effect hing
      · simpa [Ingest.isDuplicate] using hlen
      · have hnew : (!out.isDuplicate) = true := by
          rw [Bool.not_eq_true', ← Bool.not_eq_true, Ingest.isDuplicate_iff]
          exact hout
        have hins : m'.len = min m.capacity (m.len + 1) := by
          obtain rfl | ⟨_, rfl⟩ := hm'
          · exact insert_len hwf hkey
          · exact insert_len hwf hkey
        rw [if_pos hnew, hins, hcap, hlen]
        omega) h
  exact hboth.2

/-- **The window after a run.** Queue and map agree, the size is exact, and neither early exit of the
eviction loop is taken when the next tip is inserted. -/
theorem window_exact {capacity : ℕ} {tips : List (VerifiedTip T)} {m : ChainMonitor T}
    {outs : List (Ingest T.StateHash)}
    (hrun : (ChainMonitor.new capacity).run core tips = .returned (m, outs)) :
    m.order.Nodup ∧ (∀ k, k ∈ m.order ↔ k ∈ m.nodes) ∧
    (∀ k n, m.nodes.lookup k = some n → core.stateHashToString n.hash = k) ∧
    m.len = min (max capacity 1) (outs.countP fun out => !out.isDuplicate) ∧
    m.len ≤ m.capacity ∧ m.capacity = max capacity 1 ∧
    ∀ tip, core.key tip ∉ m.nodes →
      ¬ EarlyReturn m.capacity m.best (m.nodes.insert (core.key tip) (core.node tip))
        (m.order ++ [core.key tip]) := by
  obtain ⟨hwf, hcap⟩ := run_wellFormed hrun
  refine ⟨hwf.nodup, hwf.mem_order, hwf.own, run_len hrun, hwf.len_le, hcap, ?_⟩
  intro tip hkey
  exact hwf.not_earlyReturn hkey

/-- A capacity of zero is one: the child of the first block becomes the best and is not kept. -/
theorem window_exact_capacity_zero :
    ∃ m outs, (ChainMonitor.new 0).run Sample.minaCore
        [Sample.tip "g" "o" 1, Sample.tip "a" "g" 2] = .returned (m, outs) ∧
      outs = [.genesis, .extend 2] ∧ m.len = 1 := by
  obtain ⟨⟨m, outs⟩, hrun, houts⟩ := Outcome.exists_of_holds
    (x := (ChainMonitor.new 0).run Sample.minaCore [Sample.tip "g" "o" 1, Sample.tip "a" "g" 2])
    (p := fun r : ChainMonitor Sample.types × List (Ingest String) =>
      decide (r.2 = [.genesis, .extend 2])) (by decide +kernel)
  have houts' : outs = [.genesis, .extend 2] := of_decide_eq_true houts
  obtain ⟨_, _, _, hlen, _⟩ := window_exact hrun
  refine ⟨m, outs, hrun, houts', ?_⟩
  rw [hlen, houts']
  rfl

end MinaVerify
