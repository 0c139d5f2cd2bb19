import MinaVerify.Monitor.History

/-! # How far a reorganisation rolls back

`Reorg` reports a depth that is computed from two heights, after the insertion may have evicted blocks
and the best has moved. On blocks whose heights follow their links it is the number of blocks of the
old chain above the common ancestor: the walk down from the old best stays in the window as far as the
common ancestor, and only that one may be missing, in which case there is no depth. -/
namespace MinaVerify
set_option autoImplicit false
open Links

variable {T : Types} {core : Core T} {m m' : ChainMonitor T} {tip : VerifiedTip T}

/-- What a call did that answers `Reorg`. -/
theorem Anchored.ingest_reorg (hm : Anchored core m) {fromHash : T.StateHash}
    {common : Option String} {depth : Option UInt32}
    (h : m.ingest core tip = .returned (m', .reorg fromHash common depth)) :
    m'.nodes = windowAfter core m tip ∧ core.key tip ∉ m.nodes ∧
    ∃ b n, m.best = some b ∧ m.nodes.lookup b = some n ∧ fromHash = n.hash ∧ common ≠ some b ∧
      commonAncestor (windowAfter core m tip) (core.key tip) b = .returned common ∧
      depth = (common.bind fun c => (windowAfter core m tip).lookup c).map fun c =>
        saturatingSub n.height c.height := by
  cases hm.ingest_cases h with
  | reorg hkey hb hn _ _ hcommon hwalk =>
    exact ⟨rfl, hkey, _, _, hb, hn, rfl, hcommon, hwalk, rfl⟩
  | loses _ _ _ _ _ _ hout => simp at hout

/-- Between two blocks of a window, the stored heights count the links. -/
theorem LinkConsistent.ancestorAt_iff {nodes : Nodes T} {ht : String → ℤ}
    (hc : LinkConsistent ht nodes) {b c : String} {n nc : Node T} (hn : nodes.lookup b = some n)
    (hnc : nodes.lookup c = some nc) (hreach : Reaches (parentIn nodes) b c) :
    nc.height ≤ n.height ∧
      ∀ j, ancestorAt (parentIn nodes) j b = some c ↔ j = (n.height - nc.height).toNat := by
  have htop := (hc b n hn).1
  have hbot := (hc c nc hnc).1
  obtain ⟨steps, hsteps⟩ := hreach.exists_ancestorAt
  have hdrop := hc.graded.height_of_ancestorAt hsteps
  have hle : nc.height ≤ n.height := by
    rw [UInt32.le_iff_toNat_le]
    omega
  have hcount : (n.height - nc.height).toNat = steps := by
    rw [UInt32.toNat_sub_of_le _ _ hle]
    omega
  refine ⟨hle, ?_⟩
  intro j
  constructor
  · intro hj
    have hother := hc.graded.height_of_ancestorAt hj
    omega
  · intro hj
    rw [hj, hcount, hsteps]

/-- **The depth of a reorganisation is the number of blocks rolled back.** -/
theorem reorg_depth_exact {capacity : ℕ} (h2 : 2 ≤ capacity) {ht : String → ℤ}
    {tips : List (VerifiedTip T)} {outs : List (Ingest T.StateHash)}
    (hrun : (ChainMonitor.new capacity).run core tips = .returned (m, outs))
    (hcons : TipsConsistent core ht (tips ++ [tip])) {fromHash : T.StateHash}
    {common : Option String} {depth : Option UInt32}
    (h : m.ingest core tip = .returned (m', .reorg fromHash common depth)) :
    m.bestHash = some fromHash ∧
    (depth.isSome = true ↔ ∃ c, common = some c ∧ c ∈ m'.nodes) ∧
    ∃ b n, m.best = some b ∧ m.nodes.lookup b = some n ∧
      ∀ k, depth = some k → ∃ c nc, common = some c ∧ m'.nodes.lookup c = some nc ∧
        (∀ j, ancestorAt (parentIn m'.nodes) j b = some c ↔ j = k.toNat) ∧ 1 ≤ k.toNat ∧
        nc.height ≤ n.height ∧ k = n.height - nc.height := by
  have hm := run_anchored h2 hrun
  obtain ⟨hnodes, hkey, b, n, hb, hn, hfrom, hne, hwalk, hdepth⟩ := hm.ingest_reorg h
  have hc : LinkConsistent ht (windowAfter core m tip) :=
    (run_windowAfter hrun hkey).linkConsistent hcons
  rw [hnodes]
  refine ⟨by rw [hfrom, bestHash_eq hb hn], ?_, b, n, hb, hn, ?_⟩
  · rw [hdepth, Option.isSome_map, Option.isSome_iff_exists]
    constructor
    · intro hsome
      obtain ⟨nc, hnc⟩ := hsome
      obtain ⟨c, hcommon, hlookup⟩ := Option.bind_eq_some_iff.mp hnc
      exact ⟨c, hcommon, AList.lookup_isSome.mp (by rw [hlookup]; rfl)⟩
    · intro hpresent
      obtain ⟨c, hcommon, hmem⟩ := hpresent
      obtain ⟨nc, hnc⟩ := Option.isSome_iff_exists.mp (AList.lookup_isSome.mpr hmem)
      exact ⟨nc, by rw [hcommon, Option.bind_some, hnc]⟩
  · intro k hk
    rw [hdepth, Option.map_eq_some_iff] at hk
    obtain ⟨nc, hnc, hsub⟩ := hk
    obtain ⟨c, hcommon, hlookup⟩ := Option.bind_eq_some_iff.mp hnc
    -- both ends of the walk are in the window, so both heights are stored ones
    obtain ⟨hle, hcount⟩ := hc.ancestorAt_iff (hm.lookup_best_after hkey hb hn) hlookup
      (commonAncestor_sound (hcommon ▸ hwalk)).2
    have hkeq : k = n.height - nc.height := by rw [← hsub, saturatingSub, if_pos hle]
    rw [← hkeq] at hcount
    have hpos : k.toNat ≠ 0 := by
      intro h0
      have hself := (hcount 0).mpr h0.symm
      rw [ancestorAt, Option.some.injEq] at hself
      exact hne (by rw [hcommon, hself])
    exact ⟨c, nc, hcommon, hlookup, hcount, by omega, hle, hkeq⟩

/-- Block `b` replaces `a` on their common parent. -/
theorem reorg_depth_exact_siblings :
    ∃ m outs m', (ChainMonitor.new 3).run Sample.minaCore
        [Sample.tip "g" "o" 1, Sample.tip "a" "g" 2] = .returned (m, outs) ∧
      m.ingest Sample.minaCore (Sample.tip "b" "g" 2) =
        .returned (m', .reorg "a" (some "g") (some 1)) ∧
      m.bestHash = some "a" ∧ ancestorAt (parentIn m'.nodes) 1 "a" = some "g" := by
  obtain ⟨⟨m', out⟩, hboth, hout⟩ := Outcome.exists_of_holds
    (x := ((ChainMonitor.new 3).run Sample.minaCore
      [Sample.tip "g" "o" 1, Sample.tip "a" "g" 2]).bind fun r =>
        r.1.ingest Sample.minaCore (Sample.tip "b" "g" 2))
    (p := fun r : ChainMonitor Sample.types × Ingest String =>
      decide (r.2 = .reorg "a" (some "g") (some 1))) (by decide +kernel)
  obtain ⟨⟨m, outs⟩, hrun, hing⟩ := Outcome.bind_eq_returned.mp hboth
  have hreorg : out = .reorg "a" (some "g") (some 1) := of_decide_eq_true hout
  rw [hreorg] at hing
  have hcons : TipsConsistent Sample.minaCore Sample.heights
      ([Sample.tip "g" "o" 1, Sample.tip "a" "g" 2] ++ [Sample.tip "b" "g" 2]) := by
    decide
  obtain ⟨hbest, _, b, n, hb, hn, hsteps⟩ := reorg_depth_exact (by omega) hrun hcons hing
  obtain ⟨c, nc, hc, _, hcount, _⟩ := hsteps 1 rfl
  rw [Option.some.injEq] at hc
  subst hc
  refine ⟨m, outs, m', hrun, hing, hbest, ?_⟩
  have hkey : b = "a" := by
    rw [bestHash_eq hb hn, Option.some.injEq] at hbest
    exact ((run_wellFormed hrun).1.own b n hn).symm.trans hbest
  rw [← hkey]
  exact (hcount 1).mpr rfl

end MinaVerify
