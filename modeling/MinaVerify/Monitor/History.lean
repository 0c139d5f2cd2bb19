import MinaVerify.Monitor.Classification

/-! # The blocks behind the window

Every node of the window is the node of a tip fed earlier, so what is known of the tips of a run is
known of every window of it: links that cannot close a cycle, and heights that follow the links. On
such tips every run returns. -/
namespace MinaVerify
set_option autoImplicit false
open Links

variable {T : Types} {core : Core T}

/-- Every node of the window is the node of one of the tips, under its key. -/
def FromTips (core : Core T) (tips : List (VerifiedTip T)) (nodes : Nodes T) : Prop :=
  ∀ k n, nodes.lookup k = some n → ∃ t ∈ tips, core.key t = k ∧ core.node t = n

def TipLink (core : Core T) (tips : List (VerifiedTip T)) (a p : String) : Prop :=
  ∃ t ∈ tips, core.key t = a ∧ core.prevKey t = p

def TipsAcyclic (core : Core T) (tips : List (VerifiedTip T)) : Prop :=
  ∀ a, ¬ Relation.TransGen (TipLink core tips) a a

def TipsConsistent (core : Core T) (ht : String → ℤ) (tips : List (VerifiedTip T)) : Prop :=
  ∀ t ∈ tips, ht (core.key t) = t.height.toNat ∧ ht (core.key t) = ht (core.prevKey t) + 1

instance (core : Core T) (ht : String → ℤ) (tips : List (VerifiedTip T)) :
    Decidable (TipsConsistent core ht tips) :=
  inferInstanceAs (Decidable (∀ t ∈ tips, _ ∧ _))

section Tips
variable {tips tips' : List (VerifiedTip T)} {nodes : Nodes T} {ht : String → ℤ}

theorem FromTips.mono (h : FromTips core tips nodes) (hsub : tips ⊆ tips') :
    FromTips core tips' nodes := by
  intro k n hk
  obtain ⟨t, htips, hkey, hnode⟩ := h k n hk
  exact ⟨t, hsub htips, hkey, hnode⟩

theorem TipsAcyclic.mono (h : TipsAcyclic core tips') (hsub : tips ⊆ tips') :
    TipsAcyclic core tips := by
  intro a ha
  refine h a (Relation.TransGen.mono ?_ _ _ ha)
  rintro x y ⟨t, htips, hkey, hprev⟩
  exact ⟨t, hsub htips, hkey, hprev⟩

theorem TipsConsistent.mono (h : TipsConsistent core ht tips') (hsub : tips ⊆ tips') :
    TipsConsistent core ht tips :=
  fun t htips => h t (hsub htips)

theorem TipsConsistent.lt (h : TipsConsistent core ht tips) {a c : String}
    (hac : Relation.TransGen (TipLink core tips) a c) : ht c < ht a := by
  have hstep : ∀ a p, TipLink core tips a p → ht p < ht a := by
    rintro a p ⟨t, htips, rfl, rfl⟩
    have := (h t htips).2
    omega
  induction hac with
  | single hp => exact hstep _ _ hp
  | tail _ hp ih => exact (hstep _ _ hp).trans ih

theorem TipsConsistent.acyclic (h : TipsConsistent core ht tips) : TipsAcyclic core tips :=
  fun _ ha => lt_irrefl _ (h.lt ha)

theorem FromTips.link (h : FromTips core tips nodes) {a p : String}
    (hp : parentIn nodes a = some p) : TipLink core tips a p := by
  obtain ⟨n, hn, rfl⟩ := parentIn_eq_some.mp hp
  obtain ⟨t, htips, hkey, rfl⟩ := h a n hn
  exact ⟨t, htips, hkey, rfl⟩

theorem FromTips.acyclic (h : FromTips core tips nodes) (hacyc : TipsAcyclic core tips) :
    Acyclic (parentIn nodes) :=
  fun a ha => hacyc a (Relation.TransGen.mono (fun _ _ hp => h.link hp) _ _ ha)

theorem FromTips.linkConsistent (h : FromTips core tips nodes)
    (hcons : TipsConsistent core ht tips) : LinkConsistent ht nodes := by
  intro k n hk
  obtain ⟨t, htips, rfl, rfl⟩ := h k n hk
  exact hcons t htips

end Tips

/-! ## Windows of a run -/

section Windows
variable {m m' : ChainMonitor T} {tip : VerifiedTip T} {out : Ingest T.StateHash}
  {tips : List (VerifiedTip T)} {outs : List (Ingest T.StateHash)} {capacity : ℕ}

theorem FromTips.windowAfter (hm : WellFormed core m) (h : FromTips core tips m.nodes)
    (hkey : core.key tip ∉ m.nodes) : FromTips core (tips ++ [tip]) (windowAfter core m tip) := by
  intro k n hk
  have hmem : k ∈ MinaVerify.windowAfter core m tip := by
    rw [← AList.lookup_isSome, hk]
    rfl
  by_cases hne : k = core.key tip
  · subst hne
    rw [MinaVerify.windowAfter, insert_lookup hm hkey hmem, AList.lookup_insert,
      Option.some.injEq] at hk
    exact ⟨tip, by simp, rfl, hk⟩
  · rw [MinaVerify.windowAfter, insert_lookup_old hm hkey hmem hne] at hk
    obtain ⟨t, htips, hkt, hnode⟩ := h k n hk
    exact ⟨t, by simp [htips], hkt, hnode⟩

theorem ingest_fromTips (hm : WellFormed core m) (hf : FromTips core tips m.nodes)
    (h : m.ingest core tip = .returned (m', out)) : FromTips core (tips ++ [tip]) m'.nodes := by
  obtain ⟨_, rfl, _⟩ | ⟨hkey, _, rfl | ⟨_, rfl⟩⟩ := ingest_effect h
  · exact hf.mono (List.subset_append_left _ _)
  · exact hf.windowAfter hm hkey
  · exact hf.windowAfter hm hkey

theorem run_fromTips (h : (ChainMonitor.new capacity).run core tips = .returned (m, outs)) :
    FromTips core tips m.nodes := by
  have hboth := run_induction
    (fun tips _ m => WellFormed core m ∧ FromTips core tips m.nodes)
    ⟨wellFormed_new core capacity, by intro k n hk; simp [ChainMonitor.new] at hk⟩
    (fun _ _ _ _ _ _ hm h => ⟨ingest_wellFormed hm.1 h, ingest_fromTips hm.1 hm.2 h⟩) h
  exact hboth.2

theorem run_windowAfter (h : (ChainMonitor.new capacity).run core tips = .returned (m, outs))
    (hkey : core.key tip ∉ m.nodes) : FromTips core (tips ++ [tip]) (windowAfter core m tip) :=
  (run_fromTips h).windowAfter (run_wellFormed h).1 hkey

/-- A monitor fed tips without a cycle answers. -/
theorem run_ingest_returns (h2 : 2 ≤ capacity)
    (hrun : (ChainMonitor.new capacity).run core tips = .returned (m, outs))
    {tip : VerifiedTip T} (hacyc : TipsAcyclic core (tips ++ [tip])) :
    ∃ m' out, m.ingest core tip = .returned (m', out) :=
  (run_anchored h2 hrun).ingest_returns fun hkey => (run_windowAfter hrun hkey).acyclic hacyc

theorem run_returns (h2 : 2 ≤ capacity) (hacyc : TipsAcyclic core tips) :
    ∃ m outs, (ChainMonitor.new capacity).run core tips = .returned (m, outs) := by
  induction tips using List.reverseRecOn with
  | nil => exact ⟨_, _, rfl⟩
  | append_singleton tips tip ih =>
    obtain ⟨m, outs, hrun⟩ := ih (hacyc.mono (List.subset_append_left _ _))
    obtain ⟨m', out, hing⟩ := run_ingest_returns h2 hrun hacyc
    exact ⟨m', _, run_snoc_returned.mpr ⟨m, outs, out, hrun, hing, rfl⟩⟩

end Windows
end MinaVerify
