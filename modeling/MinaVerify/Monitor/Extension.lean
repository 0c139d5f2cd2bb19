import MinaVerify.Monitor.Agreement

/-! # What follows an extension

`ingest` has two ways to answer `Extend`: the fast path on a direct child of the best, and the walk
that finds the best among the ancestors of the tip. When `consensus_take` orders the blocks totally,
the second is never taken: the block right above the best on such a walk was fed before the tip, and
would have become the best then. So a consumer that appends the tip on every `Extend` appends it to
its parent. -/
namespace MinaVerify
set_option autoImplicit false
open Links

variable {T : Types} {core : Core T}

/-! ## The branch of several blocks -/

/-- `ingest` reaches the comment "a multi-block extension". -/
def MultiBlockExtend (core : Core T) (m : ChainMonitor T) (tip : VerifiedTip T) : Prop :=
  core.key tip ∉ m.nodes ∧ ∃ b n, m.best = some b ∧ m.nodes.lookup b = some n ∧
    core.prevKey tip ≠ b ∧
    core.consensusTake n.cs tip.consensusState n.hash tip.stateHash = true ∧
    commonAncestor (windowAfter core m tip) (core.key tip) b = .returned (some b)

theorem Maximum.no_child {tips : List (VerifiedTip T)} {w x : VerifiedTip T}
    (hmax : Maximum core tips w) (h : TotalOn core tips) (hx : x ∈ tips)
    (hprev : x.previousStateHash = w.stateHash) : False := by
  have hup := h.child w hmax.1 x hx hprev
  have hne : x.stateHash ≠ w.stateHash := by
    intro he
    rw [h.irrefl w hmax.1 x hx he.symm] at hup
    exact Bool.false_ne_true hup
  rw [h.toOrderedOn.asymm hx hmax.1 (hmax.2 x hx hne)] at hup
  exact Bool.false_ne_true hup

section Step
variable {m m' : ChainMonitor T} {tip w : VerifiedTip T} {tips : List (VerifiedTip T)}
  {outs : List (Ingest T.StateHash)} {capacity : ℕ}

/-- The last link of a walk from the tip down to the best leaves a child of the best. -/
theorem not_multiBlockExtend (hinj : Function.Injective core.stateHashToString)
    (hrun : (ChainMonitor.new capacity).run core tips = .returned (m, outs))
    (htotal : TotalOn core tips) (hmax : Maximum core tips w) (hbest : BestIs core m w)
    (h2 : 2 ≤ capacity) : ¬ MultiBlockExtend core m tip := by
  intro hmulti
  obtain ⟨hkey, b, n, hb, _, hprev, _, hwalk⟩ := hmulti
  rw [hbest.best, Option.some.injEq] at hb
  subst hb
  have hreach := (commonAncestor_sound hwalk).1
  have hne := (run_anchored h2 hrun).key_ne_best hkey hbest.best
  obtain he | ⟨x, _, hlink⟩ := Relation.ReflTransGen.cases_tail hreach
  · exact hne he.symm
  · obtain ⟨t, ht, _, htprev⟩ := (run_windowAfter hrun hkey).link hlink
    obtain hold | hnew := List.mem_append.mp ht
    · exact hmax.no_child htotal hold (hinj htprev)
    · rw [List.mem_singleton.mp hnew] at htprev
      exact hprev htprev

theorem BestIs.bestHeight (h : BestIs core m w) : m.bestHeight = some w.height := by
  simp [ChainMonitor.bestHeight, h.best, h.lookup, Core.node]

/-- `t` is the next block after `p`. -/
def Follows (p t : VerifiedTip T) : Prop :=
  t.previousStateHash = p.stateHash ∧ t.height.toNat = p.height.toNat + 1

theorem TipsConsistent.follows {ht : String → ℤ} {p t : VerifiedTip T}
    (h : TipsConsistent core ht tips) (hp : p ∈ tips) (htips : t ∈ tips)
    (hprev : t.previousStateHash = p.stateHash) : Follows p t := by
  refine ⟨hprev, ?_⟩
  obtain ⟨htop, hstep⟩ := h t htips
  have hbot := (h p hp).1
  have hkey : core.prevKey t = core.key p := by rw [Core.prevKey, hprev, Core.key]
  rw [hkey, htop, hbot] at hstep
  omega

/-- A tip that extends is the child of the best. -/
theorem ingest_extend (hinj : Function.Injective core.stateHashToString) (h2 : 2 ≤ capacity)
    {ht : String → ℤ} (hrun : (ChainMonitor.new capacity).run core tips = .returned (m, outs))
    (htotal : TotalOn core (tips ++ [tip])) (hcons : TipsConsistent core ht (tips ++ [tip]))
    {height : UInt32} (h : m.ingest core tip = .returned (m', .extend height)) :
    height = tip.height ∧ BestIs core m' tip ∧ ∃ w, BestIs core m w ∧ Follows w tip := by
  have hm := run_anchored h2 hrun
  have hold := htotal.mono (List.subset_append_left tips [tip])
  have hbest : ∀ b, m.best = some b → ∃ w, Maximum core tips w ∧ BestIs core m w := by
    intro b hb
    exact run_maximum hinj h2 hold hrun (run_ne_nil hrun hb)
  cases hm.ingest_cases h with
  | child hkey hb hprev =>
    obtain ⟨w, hmax, hw⟩ := hbest _ hb
    rw [hw.best, Option.some.injEq] at hb
    refine ⟨rfl, ⟨rfl, hm.insert_new hkey⟩, w, hw, ?_⟩
    exact hcons.follows (by simp [hmax.1]) (by simp) (hinj (hprev.trans hb.symm))
  | descendant hkey hb hn hprev htake hwalk =>
    obtain ⟨w, hmax, hw⟩ := hbest _ hb
    have hmulti : MultiBlockExtend core m tip := ⟨hkey, _, _, hb, hn, hprev, htake, hwalk⟩
    exact absurd hmulti (not_multiBlockExtend hinj hrun hold hmax hw h2)
  | loses _ _ _ _ _ _ hout => simp at hout

end Step

/-! ## A consumer of the answers

The core loop of `docs/USING_AS_A_BACKEND.md`: a tip that starts or extends the chain is appended, one
that reorganises it makes the consumer rebuild its chain, and nothing else touches it. -/

section Consumer
variable (rebuild : List (VerifiedTip T) → VerifiedTip T → Option String → List (VerifiedTip T))

def persist (chain : List (VerifiedTip T)) (tip : VerifiedTip T) :
    Ingest T.StateHash → List (VerifiedTip T)
  | .genesis => chain ++ [tip]
  | .extend _ => chain ++ [tip]
  | .reorg _ common _ => rebuild chain tip common
  | .duplicate => chain
  | .behind _ => chain
  | .fork _ => chain
  | .unlinked => chain

def persistAll (tips : List (VerifiedTip T)) (outs : List (Ingest T.StateHash)) :
    List (VerifiedTip T) :=
  (tips.zip outs).foldl (fun chain e => persist rebuild chain e.1 e.2) []

theorem persistAll_snoc {tips : List (VerifiedTip T)} {outs : List (Ingest T.StateHash)}
    (hlen : outs.length = tips.length) (tip : VerifiedTip T) (out : Ingest T.StateHash) :
    persistAll rebuild (tips ++ [tip]) (outs ++ [out]) =
      persist rebuild (persistAll rebuild tips outs) tip out := by
  unfold persistAll
  rw [List.zip_append hlen.symm, List.foldl_append]
  rfl

/-- The chain is linked and ends at the best of the monitor. -/
def Tracks (core : Core T) (m : ChainMonitor T) (chain : List (VerifiedTip T)) : Prop :=
  chain.IsChain Follows ∧
    ((chain = [] ∧ m.best = none) ∨ ∃ w, chain.getLast? = some w ∧ BestIs core m w)

variable {rebuild} {m m' : ChainMonitor T} {chain : List (VerifiedTip T)} {tip : VerifiedTip T}
  {out : Ingest T.StateHash}

theorem Tracks.snoc (h : Tracks core m chain) (hbest : BestIs core m' tip)
    (hlast : ∀ w, BestIs core m w → Follows w tip) : Tracks core m' (chain ++ [tip]) := by
  refine ⟨?_, Or.inr ⟨tip, by simp, hbest⟩⟩
  rw [List.isChain_append]
  refine ⟨h.1, List.isChain_singleton tip, ?_⟩
  intro w hw t ht
  rw [List.head?_cons, Option.mem_some_iff] at ht
  subst ht
  obtain ⟨hnil, _⟩ | ⟨w', hw', hbest'⟩ := h.2
  · simp [hnil] at hw
  · rw [Option.mem_def, hw', Option.some.injEq] at hw
    exact hlast w (hw ▸ hbest')

theorem BestIs.follows {w w' : VerifiedTip T} (h : BestIs core m w) (h' : BestIs core m w')
    (hf : Follows w tip) : Follows w' tip := by
  have hkey : core.key w = core.key w' := Option.some.inj (h.best.symm.trans h'.best)
  have hnode : core.node w = core.node w' :=
    Option.some.inj (h.lookup.symm.trans (hkey ▸ h'.lookup))
  have hhash : w.stateHash = w'.stateHash := congrArg Node.hash hnode
  have hheight : w.height = w'.height := congrArg Node.height hnode
  exact ⟨hf.1.trans hhash, by rw [hf.2, hheight]⟩

/-- Of the answers that move the best, only `Reorg` is not an append. -/
theorem Tracks.persist (hm : Anchored core m) (h : Tracks core m chain)
    (hrebuild : ∀ chain tip common, chain.IsChain Follows →
      (rebuild chain tip common).IsChain Follows ∧ (rebuild chain tip common).getLast? = some tip)
    (hing : m.ingest core tip = .returned (m', out))
    (hext : ∀ height, out = .extend height →
      BestIs core m' tip ∧ ∃ w, BestIs core m w ∧ Follows w tip) :
    Tracks core m' (persist rebuild chain tip out) := by
  have happend : ∀ height, out = .extend height → Tracks core m' (chain ++ [tip]) := by
    intro height hout
    obtain ⟨hbest, w, hw, hf⟩ := hext height hout
    exact h.snoc hbest (fun w' hw' => hw.follows hw' hf)
  cases hm.ingest_cases hing with
  | duplicate _ => exact h
  | genesis _ hb =>
    apply h.snoc (ingest_bestIs_genesis hm hb hing)
    intro w hw
    exact absurd hw.best (by simp [hb])
  | child _ _ _ => exact happend tip.height rfl
  | descendant _ _ _ _ _ _ => exact happend tip.height rfl
  | @reorg _ _ common hkey _ _ _ _ _ _ =>
    obtain ⟨hchain, hlast⟩ := hrebuild chain tip common h.1
    exact ⟨hchain, Or.inr ⟨tip, hlast, rfl, hm.insert_new hkey⟩⟩
  | loses hkey hb _ _ _ _ hout =>
    -- the best stays, and so does its node
    have hkeep : MinaVerify.persist rebuild chain tip out = chain := by
      obtain ⟨_, rfl⟩ | ⟨c, _, _, rfl⟩ | ⟨_, rfl⟩ := hout
      · rfl
      · rfl
      · rfl
    rw [hkeep]
    refine ⟨h.1, ?_⟩
    obtain ⟨_, hnone⟩ | ⟨w, hw, hbest⟩ := h.2
    · simp [hnone] at hb
    · exact Or.inr ⟨w, hw, hbest.best, hm.lookup_best_after hkey hbest.best hbest.lookup⟩

theorem run_tracks (hinj : Function.Injective core.stateHashToString) {capacity : ℕ}
    (h2 : 2 ≤ capacity) {ht : String → ℤ} {tips : List (VerifiedTip T)} (htotal : TotalOn core tips)
    (hcons : TipsConsistent core ht tips)
    (hrebuild : ∀ chain tip common, chain.IsChain Follows →
      (rebuild chain tip common).IsChain Follows ∧ (rebuild chain tip common).getLast? = some tip) :
    ∀ {m outs}, (ChainMonitor.new capacity).run core tips = .returned (m, outs) →
      Tracks core m (persistAll rebuild tips outs) := by
  induction tips using List.reverseRecOn with
  | nil =>
    intro m outs hrun
    exact ⟨List.isChain_nil, Or.inl ⟨rfl, run_nil_best hrun⟩⟩
  | append_singleton tips tip ih =>
    intro m outs hrun
    obtain ⟨m₁, outs₁, out, h1, hing, rfl⟩ := run_snoc_returned.mp hrun
    have hsub := List.subset_append_left tips [tip]
    rw [persistAll_snoc rebuild (run_length h1)]
    apply (ih (htotal.mono hsub) (hcons.mono hsub) h1).persist (run_anchored h2 h1) hrebuild hing
    intro height hout
    exact (ingest_extend hinj h2 h1 htotal hcons (hout ▸ hing)).2

end Consumer

/-- **An extension is one block, on the best.** Every run returns; in it every `Extend` answers the
child of the best, one above it; the branch for several blocks is never taken; and a consumer that
appends the tip on `Extend` has a chain without gaps that ends at the best. -/
theorem extend_appends (hinj : Function.Injective core.stateHashToString) {capacity : ℕ}
    (h2 : 2 ≤ capacity) {ht : String → ℤ} {tips : List (VerifiedTip T)} (htotal : TotalOn core tips)
    (hcons : TipsConsistent core ht tips)
    (rebuild : List (VerifiedTip T) → VerifiedTip T → Option String → List (VerifiedTip T))
    (hrebuild : ∀ chain tip common, chain.IsChain Follows →
      (rebuild chain tip common).IsChain Follows ∧ (rebuild chain tip common).getLast? = some tip) :
    Along core capacity tips (fun m tip =>
      ¬ MultiBlockExtend core m tip ∧
      ∀ m' height, m.ingest core tip = .returned (m', .extend height) →
        height = tip.height ∧ m.bestHash = some tip.previousStateHash ∧
        ∃ best, m.bestHeight = some best ∧ height.toNat = best.toNat + 1) ∧
    ∃ m outs, (ChainMonitor.new capacity).run core tips = .returned (m, outs) ∧
      (persistAll rebuild tips outs).IsChain Follows ∧
      (persistAll rebuild tips outs).getLast?.map VerifiedTip.stateHash = m.bestHash := by
  constructor
  · intro pre tip hpre m outs hrun
    have htotal' := htotal.mono hpre.subset
    have hold := htotal'.mono (List.subset_append_left pre [tip])
    refine ⟨?_, ?_⟩
    · intro hmulti
      have hne : pre ≠ [] := by
        obtain ⟨_, _, _, hb, _⟩ := hmulti
        exact run_ne_nil hrun hb
      obtain ⟨w, hmax, hbest⟩ := run_maximum hinj h2 hold hrun hne
      exact not_multiBlockExtend hinj hrun hold hmax hbest h2 hmulti
    · intro m' height hing
      obtain ⟨hheight, _, w, hbest, hprev, hnext⟩ :=
        ingest_extend hinj h2 hrun htotal' (hcons.mono hpre.subset) hing
      exact ⟨hheight, hprev ▸ hbest.bestHash, w.height, hbest.bestHeight, hheight ▸ hnext⟩
  · obtain ⟨m, outs, hrun⟩ := run_returns h2 (htotal.acyclic hinj)
    obtain ⟨hchain, hend⟩ := run_tracks hinj h2 htotal hcons hrebuild hrun
    refine ⟨m, outs, hrun, hchain, ?_⟩
    obtain ⟨hnil, hnone⟩ | ⟨w, hw, hbest⟩ := hend
    · simp [hnil, ChainMonitor.bestHash, hnone]
    · rw [hw, hbest.bestHash]
      rfl

namespace Sample

/-- `a` extends the chain, `b` replaces `a`, and `c` extends `b`. -/
def restart : List (VerifiedTip types) :=
  [tip "g" "o" 1, tip "a" "g" 2, tip "b" "g" 2, tip "c" "b" 3]

def restartHeights (k : String) : ℤ := if k = "c" then 3 else heights k

end Sample

/-- The chain restarts at the reorganisation and is extended again. -/
theorem extend_appends_restart :
    ∃ m outs, (ChainMonitor.new 3).run Sample.minaCore Sample.restart = .returned (m, outs) ∧
      outs = [.genesis, .extend 2, .reorg "a" (some "g") (some 1), .extend 3] ∧
      (persistAll (fun _ tip _ => [tip]) Sample.restart outs).map VerifiedTip.stateHash =
        ["b", "c"] ∧
      (persistAll (fun _ tip _ => [tip]) Sample.restart outs).IsChain Follows ∧
      (persistAll (fun _ tip _ => [tip]) Sample.restart outs).getLast?.map VerifiedTip.stateHash =
        m.bestHash := by
  have hinj : Function.Injective Sample.minaCore.stateHashToString := Function.injective_id
  have htotal : TotalOn Sample.minaCore Sample.restart :=
    ⟨⟨by decide +kernel, by decide +kernel, by decide +kernel⟩, by decide +kernel⟩
  have hcons : TipsConsistent Sample.minaCore Sample.restartHeights Sample.restart := by
    decide +kernel
  obtain ⟨m, outs, hrun, hchain, hlast⟩ := (extend_appends hinj (by omega : 2 ≤ 3) htotal hcons
    (fun _ tip _ => [tip]) (fun _ tip _ _ => ⟨List.isChain_singleton tip, rfl⟩)).2
  obtain ⟨⟨m', outs'⟩, hrun', hp⟩ := Outcome.exists_of_holds
    (x := (ChainMonitor.new 3).run Sample.minaCore Sample.restart)
    (p := fun r : ChainMonitor Sample.types × List (Ingest String) => decide
      (r.2 = [.genesis, .extend 2, .reorg "a" (some "g") (some 1), .extend 3])) (by decide +kernel)
  have houts : outs = [.genesis, .extend 2, .reorg "a" (some "g") (some 1), .extend 3] := by
    rw [hrun, Outcome.returned.injEq, Prod.mk.injEq] at hrun'
    exact hrun'.2.trans (of_decide_eq_true hp)
  exact ⟨m, outs, hrun, houts, by rw [houts]; decide, hchain, hlast⟩

end MinaVerify
