import MinaVerify.Monitor.History

/-! # Divergences outside the window

The documentation of the monitor reports a divergence whose common ancestor has left the window as
`Unlinked`. The code asks fork choice first: a winning tip is a `Reorg` whatever the walk found, and
two chains that leave the window at one absent parent count as meeting there. The two exceptions are
the only ones. -/
namespace MinaVerify
set_option autoImplicit false
open Links

variable {T : Types} {core : Core T}

def MeetInWindow (nodes : Nodes T) (a b : String) : Prop :=
  ∃ c ∈ nodes, Reaches (parentIn nodes) a c ∧ Reaches (parentIn nodes) b c

/-- The chains meet, possibly at a parent that is itself absent. -/
def Meet (nodes : Nodes T) (a b : String) : Prop :=
  ∃ c, Reaches (parentIn nodes) a c ∧ Reaches (parentIn nodes) b c

def NamesPresent (nodes : Nodes T) : Ingest T.StateHash → Prop
  | .reorg _ common _ => ∃ c ∈ nodes, common = some c
  | .fork common => ∃ c ∈ nodes, common = some c
  | _ => True

/-- What the documentation says of a tip that is not in the window of a monitor with a best. -/
def ReportsUnlinked (core : Core T) (m : ChainMonitor T) (tip : VerifiedTip T) : Prop :=
  ∀ b, m.best = some b → core.key tip ∉ m.nodes →
    (¬ MeetInWindow (windowAfter core m tip) (core.key tip) b →
      ∃ m', m.ingest core tip = .returned (m', .unlinked)) ∧
    ∀ m' out, m.ingest core tip = .returned (m', out) → NamesPresent m'.nodes out

/-- The chains meet at a block of the window; or fork choice keeps the best and they do not meet even
at an absent parent. -/
def LinkedOrLosing (core : Core T) (m : ChainMonitor T) (tip : VerifiedTip T) : Prop :=
  ∀ b n, m.best = some b → m.nodes.lookup b = some n → core.key tip ∉ m.nodes →
    MeetInWindow (windowAfter core m tip) (core.key tip) b ∨
    (core.consensusTake n.cs tip.consensusState n.hash tip.stateHash = false ∧
      ¬ Meet (windowAfter core m tip) (core.key tip) b)

section Step
variable {m : ChainMonitor T} {tip : VerifiedTip T} {b : String} {n : Node T} {ht : String → ℤ}

theorem MeetInWindow.highest_mem {nodes : Nodes T} {a : String} (hc : LinkConsistent ht nodes)
    (h : MeetInWindow nodes a b) {c : String} (hcom : HighestCommon (parentIn nodes) ht a b c) :
    c ∈ nodes := by
  obtain ⟨d, hd, had, hbd⟩ := h
  have hle := hcom.highest d had hbd
  have hcd := hc.graded.reaches_of_le hcom.left had hle
  exact present_iff.mp (hcd.present_of_present (present_iff.mpr hd))

/-- When the chains meet in the window, the walk names a block of it. -/
theorem MeetInWindow.walk_mem {nodes : Nodes T} {a : String} (hc : LinkConsistent ht nodes)
    (ha : a ∈ nodes) (hb : b ∈ nodes) (h : MeetInWindow nodes a b) {common : Option String}
    (hwalk : commonAncestor nodes a b = .returned common) : ∃ c ∈ nodes, common = some c := by
  obtain ⟨c, hfound, hcom⟩ | ⟨_, hnone⟩ := commonAncestor_spec hc ha hb
  · rw [hwalk, Outcome.returned.injEq] at hfound
    exact ⟨c, h.highest_mem hc hcom, hfound⟩
  · obtain ⟨c, _, hac, hbc⟩ := h
    exact absurd hbc (hnone c hac)

theorem walk_eq_none {nodes : Nodes T} {a : String} (hc : LinkConsistent ht nodes) (ha : a ∈ nodes)
    (hb : b ∈ nodes) : commonAncestor nodes a b = .returned none ↔ ¬ Meet nodes a b := by
  obtain ⟨c, hfound, hcom⟩ | ⟨hfound, hnone⟩ := commonAncestor_spec hc ha hb
  · rw [hfound]
    simpa using ⟨c, hcom.left, hcom.right⟩
  · rw [hfound]
    simp only [true_iff]
    intro hmeet
    obtain ⟨c, hac, hbc⟩ := hmeet
    exact hnone c hac hbc

theorem namesPresent_of (hm : Anchored core m)
    (hc : core.key tip ∉ m.nodes → LinkConsistent ht (windowAfter core m tip))
    (h : LinkedOrLosing core m tip) {m' : ChainMonitor T} {out : Ingest T.StateHash}
    (hing : m.ingest core tip = .returned (m', out)) : NamesPresent m'.nodes out := by
  have hnamed : ∀ {b common}, core.key tip ∉ m.nodes → m.best = some b →
      MeetInWindow (windowAfter core m tip) (core.key tip) b →
      commonAncestor (windowAfter core m tip) (core.key tip) b = .returned common →
      ∃ c ∈ windowAfter core m tip, common = some c := by
    intro b common hkey hb hmeet hwalk
    exact hmeet.walk_mem (hc hkey) (hm.insert_new_mem hkey) (hm.best_mem_after hkey hb) hwalk
  cases hm.ingest_cases hing with
  | duplicate _ => trivial
  | genesis _ _ => trivial
  | child _ _ _ => trivial
  | descendant _ _ _ _ _ _ => trivial
  | reorg hkey hb hn _ htake _ hwalk =>
    obtain hmeet | ⟨hkeep, _⟩ := h _ _ hb hn hkey
    · exact hnamed hkey hb hmeet hwalk
    · simp [htake] at hkeep
  | loses hkey hb hn _ _ hwalk hout =>
    obtain ⟨_, rfl⟩ | ⟨c, _, rfl, rfl⟩ | ⟨_, rfl⟩ := hout
    · trivial
    · obtain hmeet | ⟨_, hno⟩ := h _ _ hb hn hkey
      · exact hnamed hkey hb hmeet hwalk
      · exact absurd ⟨c, commonAncestor_sound hwalk⟩ hno
    · trivial

theorem reportsUnlinked_of (hm : Anchored core m)
    (hc : core.key tip ∉ m.nodes → LinkConsistent ht (windowAfter core m tip))
    (h : LinkedOrLosing core m tip) : ReportsUnlinked core m tip := by
  intro b hb hkey
  refine ⟨?_, fun m' out hing => namesPresent_of hm hc h hing⟩
  intro hno
  obtain ⟨n, hn⟩ := hm.lookup_best hb
  obtain hmeet | ⟨hkeep, hapart⟩ := h b n hb hn hkey
  · exact absurd hmeet hno
  · have hprev : core.prevKey tip ≠ b := by
      intro hprev
      exact hapart ⟨b, hm.child_reaches hkey hprev, Reaches.refl b⟩
    have hwalk := (walk_eq_none (hc hkey) (hm.insert_new_mem hkey)
      (hm.best_mem_after hkey hb)).mpr hapart
    have hing := hm.ingest_of_walk hkey hb hn hprev hwalk
    rw [hkeep, resolve_unlinked] at hing
    exact ⟨_, hing⟩

theorem linkedOrLosing_of (hm : Anchored core m)
    (hc : core.key tip ∉ m.nodes → LinkConsistent ht (windowAfter core m tip))
    (h : ReportsUnlinked core m tip) : LinkedOrLosing core m tip := by
  intro b n hb hn hkey
  by_cases hmeet : MeetInWindow (windowAfter core m tip) (core.key tip) b
  · exact Or.inl hmeet
  · right
    obtain ⟨m', hing⟩ := (h b hb hkey).1 hmeet
    cases hm.ingest_cases hing with
    | loses _ hb' hn' _ htake hwalk hout =>
      rw [hb, Option.some.injEq] at hb'
      subst hb'
      rw [hn, Option.some.injEq] at hn'
      obtain ⟨_, hout⟩ | ⟨_, _, _, hout⟩ | ⟨rfl, _⟩ := hout
      · simp at hout
      · simp at hout
      · refine ⟨hn' ▸ htake, ?_⟩
        exact (walk_eq_none (hc hkey) (hm.insert_new_mem hkey) (hm.best_mem_after hkey hb)).mp hwalk

end Step

/-- **Every run returns, and reports as documented exactly when every step of it is linked in the
window, or loses fork choice with chains that do not meet at all.** -/
theorem reportsUnlinked_iff (core : Core T) {capacity : ℕ} (h2 : 2 ≤ capacity)
    {tips : List (VerifiedTip T)} {ht : String → ℤ} (hcons : TipsConsistent core ht tips) :
    (∃ m outs, (ChainMonitor.new capacity).run core tips = .returned (m, outs)) ∧
      (Along core capacity tips (ReportsUnlinked core) ↔
        Along core capacity tips (LinkedOrLosing core)) := by
  have hwin : ∀ pre tip, pre ++ [tip] <+: tips → ∀ m outs,
      (ChainMonitor.new capacity).run core pre = .returned (m, outs) →
      core.key tip ∉ m.nodes → LinkConsistent ht (windowAfter core m tip) := by
    intro pre tip hpre m outs hrun hkey
    exact (run_windowAfter hrun hkey).linkConsistent (hcons.mono hpre.subset)
  refine ⟨run_returns h2 hcons.acyclic, ?_, ?_⟩
  · intro h pre tip hpre m outs hrun
    exact linkedOrLosing_of (run_anchored h2 hrun) (hwin pre tip hpre m outs hrun)
      (h pre tip hpre m outs hrun)
  · intro h pre tip hpre m outs hrun
    exact reportsUnlinked_of (run_anchored h2 hrun) (hwin pre tip hpre m outs hrun)
      (h pre tip hpre m outs hrun)

/-- Two blocks whose common parent was never fed meet at an absent block, and the second wins: a
`Reorg` to a block outside the window. -/
theorem not_reportsUnlinked_siblings :
    TipsConsistent Sample.minaCore Sample.heights [Sample.tip "a" "g" 2, Sample.tip "b" "g" 2] ∧
    ¬ Along Sample.minaCore 2 [Sample.tip "a" "g" 2, Sample.tip "b" "g" 2]
      (ReportsUnlinked Sample.minaCore) := by
  constructor
  · decide
  · intro h
    obtain ⟨⟨m, outs⟩, hrun, hm⟩ := Outcome.exists_of_holds
      (x := (ChainMonitor.new 2).run Sample.minaCore [Sample.tip "a" "g" 2])
      (p := fun r : ChainMonitor Sample.types × _ => decide (r.1.best = some "a" ∧
        "b" ∉ r.1.nodes ∧ (r.1.ingest Sample.minaCore (Sample.tip "b" "g" 2)).holds (fun s =>
          decide (s.2 = .reorg "a" (some "g") none ∧ "g" ∉ s.1.nodes)) = true)) (by decide +kernel)
    obtain ⟨hb, hkey, hing⟩ := of_decide_eq_true hm
    obtain ⟨⟨m', out⟩, hret, hout⟩ := Outcome.exists_of_holds hing
    obtain ⟨hreorg, habs⟩ := of_decide_eq_true hout
    have hnames := (h [Sample.tip "a" "g" 2] (Sample.tip "b" "g" 2) (List.prefix_refl _) m outs hrun
      "a" hb hkey).2 m' out hret
    simp only at hreorg
    rw [hreorg] at hnames
    obtain ⟨c, hc, hsome⟩ := hnames
    rw [Option.some.injEq] at hsome
    exact habs (hsome ▸ hc)

theorem reportsUnlinked_iff_fork :
    (∃ m outs, (ChainMonitor.new 3).run Sample.minaCore
        [Sample.tip "g" "o" 1, Sample.tip "a" "g" 2, Sample.tip "b" "g" 2] =
          .returned (m, outs)) ∧
      (Along Sample.minaCore 3 [Sample.tip "g" "o" 1, Sample.tip "a" "g" 2, Sample.tip "b" "g" 2]
          (ReportsUnlinked Sample.minaCore) ↔
        Along Sample.minaCore 3 [Sample.tip "g" "o" 1, Sample.tip "a" "g" 2, Sample.tip "b" "g" 2]
          (LinkedOrLosing Sample.minaCore)) := by
  have hcons : TipsConsistent Sample.minaCore Sample.heights
      [Sample.tip "g" "o" 1, Sample.tip "a" "g" 2, Sample.tip "b" "g" 2] := by
    decide
  exact reportsUnlinked_iff Sample.minaCore (by omega) hcons

end MinaVerify
