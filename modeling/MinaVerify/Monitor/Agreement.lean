import MinaVerify.Monitor.History
import MinaVerify.Selection

/-! # The monitor against plain fork choice

The window, its eviction and the fast path on a direct child decide what is reported, not which tip is
best. Two readings of that:

* fed tips with distinct hashes, the monitor's best is the tip `select_canonical` picks, after every
  prefix (`bestHash_eq_selectCanonical`);
* when `consensus_take` orders the blocks totally, the best is the maximum of the set fed, whatever
  the order, the repetitions and the capacity (`bestHash_order_independent`).
-/
namespace MinaVerify
set_option autoImplicit false

variable {T : Types} {core : Core T}

/-! ## The best of a monitor, as a tip -/

structure BestIs (core : Core T) (m : ChainMonitor T) (w : VerifiedTip T) : Prop where
  best : m.best = some (core.key w)
  lookup : m.nodes.lookup (core.key w) = some (core.node w)

theorem BestIs.bestHash {m : ChainMonitor T} {w : VerifiedTip T} (h : BestIs core m w) :
    m.bestHash = some w.stateHash := by
  simp [ChainMonitor.bestHash, h.best, h.lookup, Core.node]

section Step
variable {m m' : ChainMonitor T} {w tip : VerifiedTip T} {out : Ingest T.StateHash}

/-- One call moves the best exactly as fork choice between the best and the tip does, provided the
fast path agrees with it. -/
theorem ingest_bestIs (hm : Anchored core m) (hw : BestIs core m w)
    (hkey : core.key tip ∉ m.nodes)
    (hchild : core.prevKey tip = core.key w → prefersCandidate core w tip = true)
    (h : m.ingest core tip = .returned (m', out)) :
    BestIs core m' (if prefersCandidate core w tip then tip else w) := by
  have hnew := hm.insert_new hkey
  have hsame : ∀ {b n}, m.best = some b → m.nodes.lookup b = some n →
      core.consensusTake n.cs tip.consensusState n.hash tip.stateHash =
        prefersCandidate core w tip := by
    intro b n hb hn
    rw [hw.best, Option.some.injEq] at hb
    rw [← hb, hw.lookup, Option.some.injEq] at hn
    rw [← hn]
    rfl
  cases hm.ingest_cases h with
  | duplicate hmem => exact absurd hmem hkey
  | genesis _ hb => simp [hw.best] at hb
  | child _ hb hprev =>
    rw [hw.best, Option.some.injEq] at hb
    rw [if_pos (hchild (hprev.trans hb.symm))]
    exact ⟨rfl, hnew⟩
  | descendant _ hb hn _ htake _ =>
    rw [hsame hb hn] at htake
    rw [if_pos htake]
    exact ⟨rfl, hnew⟩
  | reorg _ hb hn _ htake _ _ =>
    rw [hsame hb hn] at htake
    rw [if_pos htake]
    exact ⟨rfl, hnew⟩
  | loses _ hb hn _ htake _ _ =>
    rw [hsame hb hn, ← Bool.not_eq_true] at htake
    rw [if_neg htake]
    exact ⟨hw.best, hm.lookup_best_after hkey hw.best hw.lookup⟩

theorem ingest_bestIs_genesis (hm : Anchored core m) (hb : m.best = none)
    (h : m.ingest core tip = .returned (m', out)) : BestIs core m' tip := by
  rw [hm.ingest_genesis hb, Outcome.returned.injEq, Prod.mk.injEq] at h
  rw [← h.1]
  exact ⟨rfl, hm.insert_new (hm.empty hb _)⟩

end Step

theorem run_nil_best {capacity : ℕ} {m : ChainMonitor T} {outs : List (Ingest T.StateHash)}
    (h : (ChainMonitor.new capacity).run core [] = .returned (m, outs)) : m.best = none := by
  simp only [ChainMonitor.run, Outcome.returned.injEq, Prod.mk.injEq] at h
  rw [← h.1]
  rfl

theorem run_ne_nil {capacity : ℕ} {tips : List (VerifiedTip T)} {m : ChainMonitor T}
    {outs : List (Ingest T.StateHash)} {b : String}
    (h : (ChainMonitor.new capacity).run core tips = .returned (m, outs)) (hb : m.best = some b) :
    tips ≠ [] := by
  intro hnil
  rw [hnil] at h
  simp [run_nil_best h] at hb

/-! ## Distinct hashes -/

theorem FromTips.not_mem {tips : List (VerifiedTip T)} {nodes : Nodes T} {tip : VerifiedTip T}
    (hinj : Function.Injective core.stateHashToString) (h : FromTips core tips nodes)
    (hnew : ∀ t ∈ tips, t.stateHash ≠ tip.stateHash) : core.key tip ∉ nodes := by
  intro hmem
  obtain ⟨n, hn⟩ := Option.isSome_iff_exists.mp (AList.lookup_isSome.mpr hmem)
  obtain ⟨t, htips, hkey, _⟩ := h _ n hn
  exact hnew t htips (hinj hkey)

def Agrees (core : Core T) (tips : List (VerifiedTip T)) (m : ChainMonitor T) : Prop :=
  ∃ w t, selectCanonical core tips = some w ∧ tips[w]? = some t ∧ BestIs core m t

theorem run_agrees (hinj : Function.Injective core.stateHashToString) {capacity : ℕ}
    (h2 : 2 ≤ capacity) {tips : List (VerifiedTip T)}
    (hnodup : (tips.map VerifiedTip.stateHash).Nodup)
    (hchild : ∀ p ∈ tips, ∀ t ∈ tips, t.previousStateHash = p.stateHash →
      prefersCandidate core p t = true) :
    ∀ {m outs}, (ChainMonitor.new capacity).run core tips = .returned (m, outs) → tips ≠ [] →
      Agrees core tips m := by
  induction tips using List.reverseRecOn with
  | nil => exact fun _ h => absurd rfl h
  | append_singleton tips tip ih =>
    intro m outs hrun _
    obtain ⟨m₁, outs₁, out, h1, hing, _⟩ := run_snoc_returned.mp hrun
    have hm := run_anchored h2 h1
    by_cases hempty : tips = []
    · subst hempty
      exact ⟨0, tip, selectCanonical_singleton core tip, rfl,
        ingest_bestIs_genesis hm (run_nil_best h1) hing⟩
    · rw [List.map_append, List.nodup_append] at hnodup
      obtain ⟨w, t, hw, ht, hbest⟩ := ih hnodup.1
        (fun p hp t ht => hchild p (by simp [hp]) t (by simp [ht])) h1 hempty
      have htmem : t ∈ tips := List.mem_of_getElem? ht
      have hkey : core.key tip ∉ m₁.nodes := by
        apply (run_fromTips h1).not_mem hinj
        intro u hu
        exact hnodup.2.2 _ (List.mem_map_of_mem hu) _ (by simp)
      have hstep := ingest_bestIs hm hbest hkey
        (fun hp => hchild t (by simp [htmem]) tip (by simp) (hinj hp)) hing
      refine ⟨_, _, selectCanonical_snoc core hw ht tip, ?_, hstep⟩
      split_ifs
      · simp
      · rw [List.getElem?_append_left (List.getElem?_eq_some_iff.mp ht).1, ht]

theorem run_ne_panicked {capacity : ℕ} (h2 : 2 ≤ capacity) (tips : List (VerifiedTip T))
    (message : String) : (ChainMonitor.new capacity).run core tips ≠ .panicked message := by
  induction tips using List.reverseRecOn with
  | nil => simp [ChainMonitor.run]
  | append_singleton tips tip ih =>
    rw [run_snoc, ne_eq, Outcome.bind_eq_panicked]
    rintro (h | ⟨⟨m, outs⟩, h1, h⟩)
    · exact ih h
    · rw [Outcome.bind_eq_panicked] at h
      obtain h | ⟨_, _, h⟩ := h
      · exact (run_anchored h2 h1).ingest_ne_panicked tip message h
      · simp at h

/-- **The windowed monitor and plain fork choice agree after every prefix.** No call panics; a run
that returns has the tip of `select_canonical` as its best; and runs return unless the parent links of
the tips close a cycle. -/
theorem bestHash_eq_selectCanonical (hinj : Function.Injective core.stateHashToString)
    {capacity : ℕ} (h2 : 2 ≤ capacity) {tips : List (VerifiedTip T)}
    (hnodup : (tips.map VerifiedTip.stateHash).Nodup)
    (hchild : ∀ p ∈ tips, ∀ t ∈ tips, t.previousStateHash = p.stateHash →
      prefersCandidate core p t = true) :
    ∀ pre, pre ≠ [] → pre <+: tips →
      (∀ message, (ChainMonitor.new capacity).run core pre ≠ .panicked message) ∧
      (∀ m outs, (ChainMonitor.new capacity).run core pre = .returned (m, outs) →
        ∃ w t, selectCanonical core pre = some w ∧ pre[w]? = some t ∧
          m.bestHash = some t.stateHash) ∧
      (TipsAcyclic core pre →
        ∃ m outs, (ChainMonitor.new capacity).run core pre = .returned (m, outs)) := by
  intro pre hne hpre
  refine ⟨run_ne_panicked h2 pre, ?_, run_returns h2⟩
  intro m outs hrun
  have hsub := hpre.subset
  obtain ⟨w, t, hw, ht, hbest⟩ := run_agrees hinj h2
    (hnodup.sublist (hpre.sublist.map _))
    (fun p hp t ht => hchild p (hsub hp) t (hsub ht)) hrun hne
  exact ⟨w, t, hw, ht, hbest.bestHash⟩

theorem bestHash_eq_selectCanonical_evicted :
    ∃ m outs w t,
      (ChainMonitor.new 2).run Sample.minaCore
        [Sample.tip "g" "o" 1, Sample.tip "b" "g" 2, Sample.tip "a" "g" 2] = .returned (m, outs) ∧
      selectCanonical Sample.minaCore
        [Sample.tip "g" "o" 1, Sample.tip "b" "g" 2, Sample.tip "a" "g" 2] = some w ∧
      [Sample.tip "g" "o" 1, Sample.tip "b" "g" 2, Sample.tip "a" "g" 2][w]? = some t ∧
      m.bestHash = some t.stateHash := by
  have hinj : Function.Injective Sample.minaCore.stateHashToString := Function.injective_id
  have hnodup : ([Sample.tip "g" "o" 1, Sample.tip "b" "g" 2, Sample.tip "a" "g" 2].map
      VerifiedTip.stateHash).Nodup := by decide +kernel
  have hchild : ∀ p ∈ [Sample.tip "g" "o" 1, Sample.tip "b" "g" 2, Sample.tip "a" "g" 2],
      ∀ t ∈ [Sample.tip "g" "o" 1, Sample.tip "b" "g" 2, Sample.tip "a" "g" 2],
        t.previousStateHash = p.stateHash → prefersCandidate Sample.minaCore p t = true := by
    simp only [List.forall_mem_cons, List.not_mem_nil, false_implies, implies_true, and_true]
    decide +kernel
  obtain ⟨_, hagree, hret⟩ := bestHash_eq_selectCanonical hinj (by omega : 2 ≤ 2) hnodup hchild _
    (by simp) (List.prefix_refl _)
  have hcons : TipsConsistent Sample.minaCore Sample.heights
      [Sample.tip "g" "o" 1, Sample.tip "b" "g" 2, Sample.tip "a" "g" 2] := by
    decide
  obtain ⟨m, outs, hrun⟩ := hret hcons.acyclic
  obtain ⟨w, t, hw, ht, hbest⟩ := hagree m outs hrun
  exact ⟨m, outs, w, t, hrun, hw, ht, hbest⟩

/-! ## A total order on the blocks -/

/-- On these tips `consensus_take` is a strict total order of the state hashes, in which every block
is above its parent. -/
structure TotalOn (core : Core T) (tips : List (VerifiedTip T)) : Prop extends OrderedOn core tips where
  child : ∀ p ∈ tips, ∀ t ∈ tips, t.previousStateHash = p.stateHash →
    prefersCandidate core p t = true

section Total
variable {tips tips' : List (VerifiedTip T)}

theorem TotalOn.mono (h : TotalOn core tips') (hsub : tips ⊆ tips') : TotalOn core tips where
  toOrderedOn := h.toOrderedOn.mono hsub
  child := fun p hp t ht => h.child p (hsub hp) t (hsub ht)

theorem TotalOn.acyclic (hinj : Function.Injective core.stateHashToString)
    (h : TotalOn core tips) : TipsAcyclic core tips := by
  -- a tip is above every tip its links lead to
  have hup : ∀ a c, Relation.TransGen (TipLink core tips) a c →
      ∃ t ∈ tips, core.key t = a ∧ ∀ u ∈ tips, core.key u = c → prefersCandidate core u t = true := by
    intro a c hac
    induction hac with
    | single hlink =>
      obtain ⟨t, ht, hta, htc⟩ := hlink
      refine ⟨t, ht, hta, ?_⟩
      intro u hu huc
      exact h.child u hu t ht (hinj (htc.trans huc.symm))
    | tail _ hlink ih =>
      obtain ⟨t, ht, hta, habove⟩ := ih
      obtain ⟨v, hv, hvb, hvc⟩ := hlink
      refine ⟨t, ht, hta, ?_⟩
      intro u hu huc
      exact h.trans u hu v hv t ht (h.child u hu v hv (hinj (hvc.trans huc.symm))) (habove v hv hvb)
  intro a haa
  obtain ⟨t, ht, hta, habove⟩ := hup a a haa
  have htt := habove t ht hta
  rw [h.irrefl t ht t ht rfl] at htt
  exact Bool.false_ne_true htt

theorem eq_nil_of_hashes
    (hset : ∀ x, x ∈ tips.map VerifiedTip.stateHash ↔ x ∈ tips'.map VerifiedTip.stateHash)
    (hnil : tips = []) : tips' = [] := by
  rw [List.eq_nil_iff_forall_not_mem]
  intro t ht
  have hmem := (hset t.stateHash).mpr (List.mem_map_of_mem ht)
  simp [hnil] at hmem

end Total

theorem run_maximum (hinj : Function.Injective core.stateHashToString) {capacity : ℕ}
    (h2 : 2 ≤ capacity) {tips : List (VerifiedTip T)} (h : TotalOn core tips) :
    ∀ {m outs}, (ChainMonitor.new capacity).run core tips = .returned (m, outs) → tips ≠ [] →
      ∃ w, Maximum core tips w ∧ BestIs core m w := by
  induction tips using List.reverseRecOn with
  | nil => exact fun _ hne => absurd rfl hne
  | append_singleton tips tip ih =>
    intro m outs hrun _
    obtain ⟨m₁, outs₁, out, h1, hing, _⟩ := run_snoc_returned.mp hrun
    have hm := run_anchored h2 h1
    by_cases hempty : tips = []
    · subst hempty
      refine ⟨tip, ⟨by simp, ?_⟩, ingest_bestIs_genesis hm (run_nil_best h1) hing⟩
      intro t ht hne
      simp only [List.nil_append, List.mem_singleton] at ht
      exact absurd (by rw [ht]) hne
    · obtain ⟨w, hmax, hbest⟩ := ih (h.mono (List.subset_append_left _ _)) h1 hempty
      by_cases hkey : core.key tip ∈ m₁.nodes
      · -- a duplicate; its hash is that of a tip fed before
        rw [ingest_duplicate hkey, Outcome.returned.injEq, Prod.mk.injEq] at hing
        obtain ⟨n, hn⟩ := Option.isSome_iff_exists.mp (AList.lookup_isSome.mpr hkey)
        obtain ⟨s, hs, hst, _⟩ := run_fromTips h1 _ n hn
        exact ⟨w, hmax.snoc_old h.toOrderedOn hs (hinj hst), hing.1 ▸ hbest⟩
      · -- new to the window, whether or not it was there before
        have hne : tip.stateHash ≠ w.stateHash := by
          intro he
          apply hm.key_ne_best hkey hbest.best
          rw [Core.key, he, Core.key]
        have hchild : core.prevKey tip = core.key w → prefersCandidate core w tip = true :=
          fun hp => h.child w (by simp [hmax.1]) tip (by simp) (hinj hp)
        exact ⟨_, hmax.snoc h.toOrderedOn hne, ingest_bestIs hm hbest hkey hchild hing⟩

/-- **Order of delivery, repetition and window size do not decide the best.** Both runs return, with
one best: the maximum of the blocks. -/
theorem bestHash_order_independent (hinj : Function.Injective core.stateHashToString)
    {tips tips' : List (VerifiedTip T)} (h : TotalOn core (tips ++ tips'))
    (hset : ∀ x, x ∈ tips.map VerifiedTip.stateHash ↔ x ∈ tips'.map VerifiedTip.stateHash)
    {capacity capacity' : ℕ} (h2 : 2 ≤ capacity) (h2' : 2 ≤ capacity') :
    ∃ m outs m' outs',
      (ChainMonitor.new capacity).run core tips = .returned (m, outs) ∧
      (ChainMonitor.new capacity').run core tips' = .returned (m', outs') ∧
      m.bestHash = m'.bestHash ∧
      (tips ≠ [] → ∃ w, Maximum core tips w ∧ m.bestHash = some w.stateHash) := by
  have ht := h.mono (List.subset_append_left tips tips')
  have ht' := h.mono (List.subset_append_right tips tips')
  obtain ⟨m, outs, hrun⟩ := run_returns h2 (ht.acyclic hinj)
  obtain ⟨m', outs', hrun'⟩ := run_returns h2' (ht'.acyclic hinj)
  refine ⟨m, outs, m', outs', hrun, hrun', ?_⟩
  by_cases hempty : tips = []
  · have hempty' := eq_nil_of_hashes hset hempty
    subst hempty hempty'
    refine ⟨?_, fun hne => absurd rfl hne⟩
    simp [ChainMonitor.bestHash, run_nil_best hrun, run_nil_best hrun']
  · have hempty' : tips' ≠ [] :=
      fun hn => hempty (eq_nil_of_hashes (fun x => (hset x).symm) hn)
    obtain ⟨w, hmax, hbest⟩ := run_maximum hinj h2 ht hrun hempty
    obtain ⟨w', hmax', hbest'⟩ := run_maximum hinj h2' ht' hrun' hempty'
    refine ⟨?_, fun _ => ⟨w, hmax, hbest.bestHash⟩⟩
    rw [hbest.bestHash, hbest'.bestHash, hmax.unique h.toOrderedOn hmax' hset]

/-- The second run gets its blocks late, twice, and after an eviction. -/
theorem bestHash_order_independent_replay :
    ∃ m outs m' outs',
      (ChainMonitor.new 3).run Sample.minaCore
        [Sample.tip "g" "o" 1, Sample.tip "a" "g" 2, Sample.tip "b" "g" 2] = .returned (m, outs) ∧
      (ChainMonitor.new 2).run Sample.minaCore
        [Sample.tip "b" "g" 2, Sample.tip "g" "o" 1, Sample.tip "a" "g" 2, Sample.tip "g" "o" 1,
          Sample.tip "b" "g" 2] = .returned (m', outs') ∧
      m.bestHash = m'.bestHash ∧
      ([Sample.tip "g" "o" 1, Sample.tip "a" "g" 2, Sample.tip "b" "g" 2] ≠ [] →
        ∃ w, Maximum Sample.minaCore
          [Sample.tip "g" "o" 1, Sample.tip "a" "g" 2, Sample.tip "b" "g" 2] w ∧
            m.bestHash = some w.stateHash) := by
  have hinj : Function.Injective Sample.minaCore.stateHashToString := Function.injective_id
  refine bestHash_order_independent hinj
    ⟨⟨by decide +kernel, by decide +kernel, by decide +kernel⟩, by decide +kernel⟩ ?_
    (by omega) (by omega)
  intro x
  simp only [Sample.tip, List.map_cons, List.map_nil, List.mem_cons, List.not_mem_nil]
  tauto

end MinaVerify
