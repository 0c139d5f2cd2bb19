import MinaVerify.Monitor.Run

/-! # Capacities the constructor admits

`ChainMonitor::new` clamps its argument to one and accepts the rest. With a capacity of two or more
neither `expect` of `ingest` can fire and both the best and the block just ingested stay in the
window. At capacity one the queue is `[best, new]` when `insert` runs: the best is rotated behind the
new block, and the new block is the one evicted. -/
namespace MinaVerify
set_option autoImplicit false

variable {T : Types} {core : Core T}

/-- Along the run of `tips` on a fresh monitor, no call panics, every call leaves a best, and every
call that is not a duplicate leaves the tip and the best in the window. -/
def NeverLost (core : Core T) (capacity : ℕ) (tips : List (VerifiedTip T)) : Prop :=
  Along core capacity tips fun m tip =>
    (∀ message, m.ingest core tip ≠ .panicked message) ∧
    ∀ m' out, m.ingest core tip = .returned (m', out) →
      m'.bestHash.isSome ∧ m'.bestHeight.isSome ∧
      (out ≠ .duplicate → core.key tip ∈ m'.nodes ∧ ∃ b, m'.best = some b ∧ b ∈ m'.nodes)

section Best
variable {m : ChainMonitor T} {b : String}

theorem bestHash_isSome (hb : m.best = some b) (hmem : b ∈ m.nodes) : m.bestHash.isSome := by
  simp [ChainMonitor.bestHash, hb, AList.lookup_isSome.mpr hmem]

theorem bestHeight_isSome (hb : m.best = some b) (hmem : b ∈ m.nodes) : m.bestHeight.isSome := by
  simp [ChainMonitor.bestHeight, hb, AList.lookup_isSome.mpr hmem]

end Best

/-! ## Two or more -/

theorem ingest_key_mem {m m' : ChainMonitor T} {tip : VerifiedTip T} {out : Ingest T.StateHash}
    (hm : Anchored core m) (h : m.ingest core tip = .returned (m', out)) :
    core.key tip ∈ m'.nodes := by
  obtain ⟨hkey, rfl, _⟩ | ⟨hkey, _, rfl | ⟨_, rfl⟩⟩ := ingest_effect h
  · exact hkey
  · exact hm.insert_new_mem hkey
  · exact hm.insert_new_mem hkey

theorem neverLost_of_two_le {capacity : ℕ} (h2 : 2 ≤ capacity) (tips : List (VerifiedTip T)) :
    NeverLost core capacity tips := by
  intro pre tip _ m outs hrun
  have hm := run_anchored h2 hrun
  refine ⟨hm.ingest_ne_panicked tip, ?_⟩
  intro m' out h
  obtain ⟨b, hb⟩ := ingest_best_isSome hm h
  have hmem := (ingest_anchored hm h).best_mem b hb
  exact ⟨bestHash_isSome hb hmem, bestHeight_isSome hb hmem,
    fun _ => ⟨ingest_key_mem hm h, b, hb, hmem⟩⟩

/-! ## One block only -/

theorem run_same_key (core : Core T) (capacity : ℕ) (k : String) (tips : List (VerifiedTip T))
    (hk : ∀ t ∈ tips, core.key t = k) :
    ∃ m outs, (ChainMonitor.new capacity).run core tips = .returned (m, outs) ∧
      WellFormed core m ∧ m.capacity = max capacity 1 ∧
      (tips = [] → m = ChainMonitor.new capacity) ∧
      (tips ≠ [] → m.best = some k ∧ k ∈ m.nodes) := by
  induction tips using List.reverseRecOn with
  | nil => exact ⟨_, _, rfl, wellFormed_new core capacity, rfl, fun _ => rfl, fun h => absurd rfl h⟩
  | append_singleton tips tip ih =>
    obtain ⟨m, outs, hrun, hwf, hcap, hnil, hcons⟩ := ih (fun t ht => hk t (by simp [ht]))
    have htip : core.key tip = k := hk tip (by simp)
    by_cases hempty : tips = []
    · have hm := hnil hempty
      have hkey : core.key tip ∉ m.nodes := by simp [hm, ChainMonitor.new]
      have hins : m.ingest core tip =
          .returned ((m.insert (core.key tip) (core.node tip)).setBest (core.key tip), .genesis) := by
        unfold ChainMonitor.ingest
        simp only [insert_best, hm]
        rfl
      refine ⟨_, _, run_snoc_returned.mpr ⟨m, outs, _, hrun, hins, rfl⟩, ?_, hcap, by simp, ?_⟩
      · exact (insert_wellFormed hwf hkey rfl).setBest _
      · intro _
        refine ⟨by rw [ChainMonitor.setBest_best, htip], ?_⟩
        have hlen : m.len < m.capacity := by
          rw [hcap, hm]
          simp [ChainMonitor.len, ChainMonitor.new]
        obtain ⟨_, h⟩ | ⟨_, _, hfull, _⟩ := insert_spec hwf hkey (core.node tip)
        · rw [ChainMonitor.setBest_nodes, h, ← htip]
          simp [AList.mem_insert]
        · omega
    · obtain ⟨hbest, hmem⟩ := hcons hempty
      have hins : m.ingest core tip = .returned (m, .duplicate) := ingest_duplicate (htip ▸ hmem)
      exact ⟨m, _, run_snoc_returned.mpr ⟨m, outs, _, hrun, hins, rfl⟩, hwf, hcap, by simp,
        fun _ => ⟨hbest, hmem⟩⟩

theorem neverLost_of_same_key {capacity : ℕ} {tips : List (VerifiedTip T)}
    (hsame : ∀ t ∈ tips, ∀ u ∈ tips, core.key t = core.key u) : NeverLost core capacity tips := by
  intro pre tip hpre m outs hrun
  have hsub : ∀ t ∈ pre ++ [tip], core.key t = core.key tip := by
    intro t ht
    exact hsame t (hpre.subset ht) tip (hpre.subset (by simp))
  obtain ⟨m₁, outs₁, h1, _, _, _, hafter⟩ :=
    run_same_key core capacity (core.key tip) (pre ++ [tip]) hsub
  obtain ⟨hbest, hmem⟩ := hafter (by simp)
  obtain ⟨m₀, outs₀, out, h0, hins, _⟩ := run_snoc_returned.mp h1
  rw [hrun, Outcome.returned.injEq, Prod.mk.injEq] at h0
  obtain ⟨rfl, rfl⟩ := h0
  refine ⟨by simp [hins], ?_⟩
  intro m' out' h
  rw [hins, Outcome.returned.injEq, Prod.mk.injEq] at h
  obtain ⟨rfl, rfl⟩ := h
  exact ⟨bestHash_isSome hbest hmem, bestHeight_isSome hbest hmem,
    fun _ => ⟨hmem, _, hbest, hmem⟩⟩

theorem insert_drops_new {m : ChainMonitor T} {key b : String} {node : Node T}
    (hm : WellFormed core m) (hcap : m.capacity = 1) (hb : m.best = some b) (hmem : b ∈ m.nodes)
    (hkey : key ∉ m.nodes) : key ∉ (m.insert key node).nodes := by
  have hbo : b ∈ m.order := (hm.mem_order b).mpr hmem
  have hlen := hm.length_order
  have hle := hm.len_le
  obtain ⟨hroom, _⟩ | ⟨k, rest, hfull, hcons, hbest, _⟩ |
      ⟨b', k, rest, rest', hfull, hcons, _, _, hrest, hins⟩ := insert_cases hm hkey node
  · have hpos := List.length_pos_of_mem hbo
    omega
  · rw [hcons, List.length_cons] at hlen
    have hnil : rest = [] := List.eq_nil_of_length_eq_zero (by omega)
    rw [hcons, hnil, List.mem_singleton] at hbo
    exact absurd hb (hbo ▸ hbest)
  · rw [hcons, List.length_cons] at hlen
    have hnil : rest = [] := List.eq_nil_of_length_eq_zero (by omega)
    rw [hnil, List.nil_append, List.cons.injEq] at hrest
    rw [hins]
    simp [Evicted, ← hrest.1]

theorem ingest_lost {m : ChainMonitor T} {tip : VerifiedTip T} {b : String}
    (hm : WellFormed core m) (hcap : m.capacity = 1) (hb : m.best = some b) (hmem : b ∈ m.nodes)
    (hkey : core.key tip ∉ m.nodes) :
    m.ingest core tip = .panicked "just inserted" ∨
      ∃ m' out, m.ingest core tip = .returned (m', out) ∧ out ≠ .duplicate ∧
        core.key tip ∉ m'.nodes := by
  have hdrop : core.key tip ∉ (m.insert (core.key tip) (core.node tip)).nodes :=
    insert_drops_new hm hcap hb hmem hkey
  have hkeep : b ∈ (m.insert (core.key tip) (core.node tip)).nodes :=
    insert_keeps_best hm hkey hb hmem
  obtain ⟨n, hn⟩ := Option.isSome_iff_exists.mp (AList.lookup_isSome.mpr hkeep)
  unfold ChainMonitor.ingest
  simp only [if_neg hkey, insert_best, hb, hn, AList.lookup_eq_none.mpr hdrop, Outcome.expect_some,
    Outcome.expect_none, Outcome.bind_returned, Outcome.bind_panicked]
  by_cases hprev : core.prevKey tip = b
  · right
    rw [if_pos hprev]
    exact ⟨_, _, rfl, by simp, hdrop⟩
  · left
    rw [if_neg hprev]

theorem WellFormed.eq_of_capacity_one {m : ChainMonitor T} (hm : WellFormed core m)
    (hcap : m.capacity = 1) {k k' : String} (hk : k ∈ m.nodes) (hk' : k' ∈ m.nodes) : k = k' := by
  have hlen := hm.length_order
  have hle := hm.len_le
  have hi := (hm.mem_order k).mpr hk
  have hj := (hm.mem_order k').mpr hk'
  have hpos := List.length_pos_of_mem hi
  obtain ⟨b, hb⟩ := List.length_eq_one_iff.mp (by omega : m.order.length = 1)
  rw [hb, List.mem_singleton] at hi hj
  exact hi.trans hj.symm

theorem same_key_of_neverLost {capacity : ℕ} {tips : List (VerifiedTip T)} (hcap : capacity < 2)
    (h : NeverLost core capacity tips) : ∀ t ∈ tips, ∀ u ∈ tips, core.key t = core.key u := by
  -- every prefix carries one key: the call at which a second one arrives loses a block
  have hpre : ∀ pre, pre <+: tips → ∀ t ∈ pre, ∀ u ∈ pre, core.key t = core.key u := by
    intro pre
    induction pre using List.reverseRecOn with
    | nil => simp
    | append_singleton pre tip ih =>
      intro hp
      have hsame := ih ((List.prefix_append pre [tip]).trans hp)
      have hnew : ∀ t ∈ pre, core.key t = core.key tip := by
        intro t ht
        obtain ⟨m, outs, hrun, hwf, hmcap, _, hcons⟩ :=
          run_same_key core capacity (core.key t) pre (fun u hu => hsame u hu t ht)
        obtain ⟨hbest, hmem⟩ := hcons (List.ne_nil_of_mem ht)
        have hone : m.capacity = 1 := by omega
        by_contra hne
        have hkey : core.key tip ∉ m.nodes :=
          fun hin => hne (hwf.eq_of_capacity_one hone hmem hin)
        obtain ⟨hpanic, hret⟩ := h pre tip hp m outs hrun
        obtain hp | ⟨m', out, hr, hd, hlost⟩ := ingest_lost hwf hone hbest hmem hkey
        · exact hpanic _ hp
        · exact hlost ((hret m' out hr).2.2 hd).1
      intro t ht u hu
      rcases List.mem_append.mp ht with ht | ht <;> rcases List.mem_append.mp hu with hu | hu
      · exact hsame t ht u hu
      · exact List.mem_singleton.mp hu ▸ hnew t ht
      · exact List.mem_singleton.mp ht ▸ (hnew u hu).symm
      · rw [List.mem_singleton.mp ht, List.mem_singleton.mp hu]
  exact hpre tips (List.prefix_refl tips)

/-- **No block is lost exactly when the capacity is at least two, or only one block is ever fed.** -/
theorem neverLost_iff (core : Core T) (capacity : ℕ) (tips : List (VerifiedTip T)) :
    NeverLost core capacity tips ↔
      2 ≤ capacity ∨ ∀ t ∈ tips, ∀ u ∈ tips, core.key t = core.key u := by
  constructor
  · intro h
    rcases Nat.lt_or_ge capacity 2 with hlt | hge
    · exact Or.inr (same_key_of_neverLost hlt h)
    · exact Or.inl hge
  · rintro (h2 | hsame)
    · exact neverLost_of_two_le h2 tips
    · exact neverLost_of_same_key hsame

/-- A monitor asked for capacity 0 panics on the second block of a fork. -/
theorem not_neverLost_capacity_zero :
    ¬ NeverLost Sample.minaCore 0 [Sample.tip "a" "g" 1, Sample.tip "b" "g" 1] := by
  intro h
  obtain ⟨⟨m, outs⟩, hrun, hm⟩ := Outcome.exists_of_holds
    (x := (ChainMonitor.new 0).run Sample.minaCore [Sample.tip "a" "g" 1])
    (p := fun r => (r.1.ingest Sample.minaCore (Sample.tip "b" "g" 1)).panics) (by decide +kernel)
  obtain ⟨message, hmessage⟩ := Outcome.exists_of_panics hm
  exact (h [Sample.tip "a" "g" 1] (Sample.tip "b" "g" 1) (List.prefix_refl _) m outs hrun).1
    message hmessage

end MinaVerify
