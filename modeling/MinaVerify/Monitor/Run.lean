import Mathlib.Data.List.Induction
import MinaVerify.Monitor.Window

/-! # Runs of the monitor

One `ingest` either leaves the monitor alone (a duplicate) or inserts the tip and moves the best to
it or not; the walk over parent links only decides what is reported. The window invariants of whole
runs follow from that and from `Monitor.Window`. -/
namespace MinaVerify
set_option autoImplicit false

variable {T : Types} {core : Core T}

/-! ## One call -/

theorem commonAncestor_ne_panicked (nodes : Nodes T) (a b message : String) :
    commonAncestor nodes a b ≠ .panicked message := by
  unfold commonAncestor
  split
  · simp
  · simp
  · split <;> simp

section Ingest
variable {m m' : ChainMonitor T} {tip : VerifiedTip T} {out : Ingest T.StateHash}

theorem resolve_effect (m : ChainMonitor T) (key bestKey : String) (height : UInt32)
    (bestNode : Node T) (better : Bool) (common : Option String) :
    (m.resolve key bestKey height bestNode better common).1 =
        (if better then m.setBest key else m) ∧
      (m.resolve key bestKey height bestNode better common).2 ≠ .duplicate := by
  unfold ChainMonitor.resolve
  split_ifs <;> simp_all

theorem ingest_duplicate (hkey : core.key tip ∈ m.nodes) :
    m.ingest core tip = .returned (m, .duplicate) := by
  simp [ChainMonitor.ingest, hkey]

theorem ingest_effect (h : m.ingest core tip = .returned (m', out)) :
    (core.key tip ∈ m.nodes ∧ m' = m ∧ out = .duplicate) ∨
    (core.key tip ∉ m.nodes ∧ out ≠ .duplicate ∧
      (m' = (m.insert (core.key tip) (core.node tip)).setBest (core.key tip) ∨
        (m.best ≠ none ∧ m' = m.insert (core.key tip) (core.node tip)))) := by
  by_cases hkey : core.key tip ∈ m.nodes
  · rw [ingest_duplicate hkey, Outcome.returned.injEq, Prod.mk.injEq] at h
    exact Or.inl ⟨hkey, h.1.symm, h.2.symm⟩
  · right
    refine ⟨hkey, ?_⟩
    simp only [ChainMonitor.ingest, if_neg hkey, insert_best] at h
    cases hbest : m.best with
    | none =>
      simp only [hbest, Outcome.returned.injEq, Prod.mk.injEq] at h
      exact ⟨by simp [← h.2], Or.inl h.1.symm⟩
    | some b =>
      simp only [hbest] at h
      by_cases hprev : core.prevKey tip = b
      · simp only [if_pos hprev, Outcome.returned.injEq, Prod.mk.injEq] at h
        exact ⟨by simp [← h.2], Or.inl h.1.symm⟩
      · rw [if_neg hprev] at h
        obtain ⟨bestNode, _, h⟩ := Outcome.bind_eq_returned.mp h
        obtain ⟨candNode, _, h⟩ := Outcome.bind_eq_returned.mp h
        obtain ⟨common, _, h⟩ := Outcome.bind_eq_returned.mp h
        rw [Outcome.returned.injEq] at h
        have heff := resolve_effect (m.insert (core.key tip) (core.node tip)) (core.key tip) b
          tip.height bestNode (core.consensusTake bestNode.cs candNode.cs bestNode.hash
            candNode.hash) common
        simp only [h] at heff
        refine ⟨heff.2, ?_⟩
        by_cases hbetter : core.consensusTake bestNode.cs candNode.cs bestNode.hash candNode.hash
        · left
          rw [heff.1, if_pos hbetter]
        · right
          refine ⟨by simp, ?_⟩
          rw [heff.1, if_neg hbetter]

theorem ingest_capacity (h : m.ingest core tip = .returned (m', out)) :
    m'.capacity = m.capacity := by
  obtain ⟨_, rfl, _⟩ | ⟨_, _, rfl | ⟨_, rfl⟩⟩ := ingest_effect h
  · rfl
  · rfl
  · rfl

theorem WellFormed.setBest (h : WellFormed core m) (key : String) :
    WellFormed core (m.setBest key) :=
  ⟨h.nodup, h.mem_order, h.own, h.len_le, h.capacity_pos⟩

theorem ingest_wellFormed (hm : WellFormed core m) (h : m.ingest core tip = .returned (m', out)) :
    WellFormed core m' := by
  obtain ⟨_, rfl, _⟩ | ⟨hkey, _, rfl | ⟨_, rfl⟩⟩ := ingest_effect h
  · exact hm
  · exact (insert_wellFormed hm hkey rfl).setBest _
  · exact insert_wellFormed hm hkey rfl

end Ingest

/-! ## Whole runs -/

theorem run_append (core : Core T) (m : ChainMonitor T) (tips tips' : List (VerifiedTip T)) :
    m.run core (tips ++ tips') =
      (m.run core tips).bind fun r => (r.1.run core tips').bind fun s =>
        .returned (s.1, r.2 ++ s.2) := by
  induction tips generalizing m with
  | nil =>
    cases h : m.run core tips' <;> simp [ChainMonitor.run, h]
  | cons tip tips ih =>
    rw [List.cons_append, ChainMonitor.run, ChainMonitor.run]
    cases h : m.ingest core tip with
    | panicked message => rfl
    | diverged => rfl
    | returned r =>
      simp only [Outcome.bind_returned, ih]
      cases h1 : r.1.run core tips with
      | panicked message => rfl
      | diverged => rfl
      | returned s =>
        simp only [Outcome.bind_returned]
        cases h2 : s.1.run core tips' with
        | panicked message => rfl
        | diverged => rfl
        | returned u => simp

theorem run_snoc (core : Core T) (m : ChainMonitor T) (tips : List (VerifiedTip T))
    (tip : VerifiedTip T) :
    m.run core (tips ++ [tip]) =
      (m.run core tips).bind fun r => (r.1.ingest core tip).bind fun s =>
        .returned (s.1, r.2 ++ [s.2]) := by
  rw [run_append]
  congr 1
  funext r
  cases h : r.1.ingest core tip <;> simp [ChainMonitor.run, h]

theorem run_snoc_returned {m m' : ChainMonitor T} {tips : List (VerifiedTip T)}
    {tip : VerifiedTip T} {outs : List (Ingest T.StateHash)} :
    m.run core (tips ++ [tip]) = .returned (m', outs) ↔
      ∃ m₁ outs₁ out, m.run core tips = .returned (m₁, outs₁) ∧
        m₁.ingest core tip = .returned (m', out) ∧ outs = outs₁ ++ [out] := by
  rw [run_snoc]
  constructor
  · intro h
    obtain ⟨⟨m₁, outs₁⟩, h1, h⟩ := Outcome.bind_eq_returned.mp h
    obtain ⟨⟨m₂, out⟩, h2, h⟩ := Outcome.bind_eq_returned.mp h
    rw [Outcome.returned.injEq, Prod.mk.injEq] at h
    obtain ⟨rfl, rfl⟩ := h
    exact ⟨m₁, outs₁, out, h1, h2, rfl⟩
  · rintro ⟨m₁, outs₁, out, h1, h2, rfl⟩
    simp [h1, h2]

/-- The run rule: what holds at the start and survives every call that returns holds after every run
that returns. The property may speak about the tips fed so far and what each call answered. -/
theorem run_induction
    (P : List (VerifiedTip T) → List (Ingest T.StateHash) → ChainMonitor T → Prop)
    {m : ChainMonitor T} (h0 : P [] [] m)
    (hstep : ∀ tips outs m tip m' out, P tips outs m →
      m.ingest core tip = .returned (m', out) → P (tips ++ [tip]) (outs ++ [out]) m')
    {tips : List (VerifiedTip T)} {m' : ChainMonitor T} {outs : List (Ingest T.StateHash)}
    (h : m.run core tips = .returned (m', outs)) : P tips outs m' := by
  induction tips using List.reverseRecOn generalizing m' outs with
  | nil =>
    simp only [ChainMonitor.run, Outcome.returned.injEq, Prod.mk.injEq] at h
    obtain ⟨rfl, rfl⟩ := h
    exact h0
  | append_singleton tips tip ih =>
    obtain ⟨m₁, outs₁, out, h1, h2, rfl⟩ := run_snoc_returned.mp h
    exact hstep tips outs₁ m₁ tip m' out (ih h1) h2

theorem run_length {m m' : ChainMonitor T} {tips : List (VerifiedTip T)}
    {outs : List (Ingest T.StateHash)} (h : m.run core tips = .returned (m', outs)) :
    outs.length = tips.length :=
  run_induction (fun tips outs _ => outs.length = tips.length) rfl
    (fun _ _ _ _ _ _ hlen _ => by simp [hlen]) h

/-- Along the run of `tips` on a fresh monitor, a property of every state and the next tip. -/
def Along (core : Core T) (capacity : ℕ) (tips : List (VerifiedTip T))
    (P : ChainMonitor T → VerifiedTip T → Prop) : Prop :=
  ∀ pre tip, pre ++ [tip] <+: tips → ∀ m outs,
    (ChainMonitor.new capacity).run core pre = .returned (m, outs) → P m tip

section Fresh
variable {capacity : ℕ} {tips : List (VerifiedTip T)} {m : ChainMonitor T}
  {outs : List (Ingest T.StateHash)}

theorem run_wellFormed (h : (ChainMonitor.new capacity).run core tips = .returned (m, outs)) :
    WellFormed core m ∧ m.capacity = max capacity 1 := by
  refine run_induction (fun _ _ m => WellFormed core m ∧ m.capacity = max capacity 1) ?_ ?_ h
  · exact ⟨wellFormed_new core capacity, rfl⟩
  · rintro tips outs m tip m' out ⟨hm, hcap⟩ h
    exact ⟨ingest_wellFormed hm h, by rw [ingest_capacity h, hcap]⟩

/-! ## With room for two blocks -/

/-- A window of capacity two or more that holds its best; without a best it is empty. -/
structure Anchored (core : Core T) (m : ChainMonitor T) : Prop where
  wellFormed : WellFormed core m
  two_le : 2 ≤ m.capacity
  best_mem : ∀ b, m.best = some b → b ∈ m.nodes
  empty : m.best = none → ∀ k, k ∉ m.nodes

theorem anchored_new (core : Core T) (h2 : 2 ≤ capacity) :
    Anchored core (ChainMonitor.new capacity) where
  wellFormed := wellFormed_new core capacity
  two_le := by simp only [ChainMonitor.new]; omega
  best_mem := by intro b hb; simp [ChainMonitor.new] at hb
  empty := by intro _ k; simp [ChainMonitor.new]

theorem Anchored.insert_new (hm : Anchored core m) {tip : VerifiedTip T}
    (hkey : core.key tip ∉ m.nodes) :
    (m.insert (core.key tip) (core.node tip)).nodes.lookup (core.key tip) =
      some (core.node tip) :=
  insert_keeps_new hm.wellFormed hkey hm.two_le

theorem Anchored.insert_new_mem (hm : Anchored core m) {tip : VerifiedTip T}
    (hkey : core.key tip ∉ m.nodes) :
    core.key tip ∈ (m.insert (core.key tip) (core.node tip)).nodes := by
  rw [← AList.lookup_isSome, hm.insert_new hkey]
  rfl

theorem Anchored.insert_best (hm : Anchored core m) {tip : VerifiedTip T}
    (hkey : core.key tip ∉ m.nodes) {b : String} (hb : m.best = some b) :
    ∃ n, m.nodes.lookup b = some n ∧
      (m.insert (core.key tip) (core.node tip)).nodes.lookup b = some n := by
  have hmem := hm.best_mem b hb
  have hne : b ≠ core.key tip := fun he => hkey (he ▸ hmem)
  obtain ⟨n, hn⟩ := Option.isSome_iff_exists.mp (AList.lookup_isSome.mpr hmem)
  refine ⟨n, hn, ?_⟩
  rw [insert_lookup_old hm.wellFormed hkey (insert_keeps_best hm.wellFormed hkey hb hmem) hne, hn]

theorem ingest_anchored {m' : ChainMonitor T} {tip : VerifiedTip T} {out : Ingest T.StateHash}
    (hm : Anchored core m) (h : m.ingest core tip = .returned (m', out)) : Anchored core m' := by
  refine ⟨ingest_wellFormed hm.wellFormed h, by rw [ingest_capacity h]; exact hm.two_le, ?_, ?_⟩
  · intro b hb
    obtain ⟨_, rfl, _⟩ | ⟨hkey, _, rfl | ⟨_, rfl⟩⟩ := ingest_effect h
    · exact hm.best_mem b hb
    · rw [ChainMonitor.setBest_best, Option.some.injEq] at hb
      exact hb ▸ hm.insert_new_mem hkey
    · exact insert_keeps_best hm.wellFormed hkey hb (hm.best_mem b hb)
  · intro hnone
    obtain ⟨_, rfl, _⟩ | ⟨_, _, rfl | ⟨hbest, rfl⟩⟩ := ingest_effect h
    · exact hm.empty hnone
    · simp at hnone
    · exact absurd hnone hbest

theorem run_anchored (h2 : 2 ≤ capacity)
    (h : (ChainMonitor.new capacity).run core tips = .returned (m, outs)) : Anchored core m :=
  run_induction (fun _ _ m => Anchored core m) (anchored_new core h2)
    (fun _ _ _ _ _ _ hm h => ingest_anchored hm h) h

theorem ingest_best_isSome {m' : ChainMonitor T} {tip : VerifiedTip T} {out : Ingest T.StateHash}
    (hm : Anchored core m) (h : m.ingest core tip = .returned (m', out)) : ∃ b, m'.best = some b := by
  obtain ⟨hkey, rfl, _⟩ | ⟨_, _, rfl | ⟨hbest, rfl⟩⟩ := ingest_effect h
  · cases hb : m'.best with
    | none => exact absurd hkey (hm.empty hb _)
    | some b => exact ⟨b, rfl⟩
  · exact ⟨_, rfl⟩
  · exact Option.ne_none_iff_exists'.mp hbest

theorem run_best_isSome (h2 : 2 ≤ capacity) (hne : tips ≠ [])
    (h : (ChainMonitor.new capacity).run core tips = .returned (m, outs)) :
    ∃ b, m.best = some b := by
  obtain rfl | ⟨pre, tip, rfl⟩ := List.eq_nil_or_concat tips
  · exact absurd rfl hne
  · obtain ⟨m₁, outs₁, out, h1, hing, _⟩ := run_snoc_returned.mp (List.concat_eq_append ▸ h)
    exact ingest_best_isSome (run_anchored h2 h1) hing

/-- With the best and the new block in the window, neither `expect` fires: what is left of a call is
the fast path on a direct child, or the walk and the classification. -/
theorem Anchored.ingest_eq (hm : Anchored core m) {tip : VerifiedTip T}
    (hkey : core.key tip ∉ m.nodes) {b : String} (hb : m.best = some b) {n : Node T}
    (hn : m.nodes.lookup b = some n) :
    m.ingest core tip =
      if core.prevKey tip = b then
        .returned ((m.insert (core.key tip) (core.node tip)).setBest (core.key tip),
          .extend tip.height)
      else
        (commonAncestor (m.insert (core.key tip) (core.node tip)).nodes (core.key tip) b).bind
          fun common => .returned ((m.insert (core.key tip) (core.node tip)).resolve (core.key tip) b
            tip.height n (core.consensusTake n.cs tip.consensusState n.hash tip.stateHash) common) := by
  obtain ⟨n', hn', hins⟩ := hm.insert_best hkey hb
  rw [hn, Option.some.injEq] at hn'
  subst hn'
  unfold ChainMonitor.ingest
  simp only [if_neg hkey, MinaVerify.insert_best, hb, hins, hm.insert_new hkey, Outcome.expect_some,
    Outcome.bind_returned]
  rfl

theorem Anchored.ingest_genesis (hm : Anchored core m) {tip : VerifiedTip T} (hb : m.best = none) :
    m.ingest core tip =
      .returned ((m.insert (core.key tip) (core.node tip)).setBest (core.key tip), .genesis) := by
  unfold ChainMonitor.ingest
  simp only [if_neg (hm.empty hb (core.key tip)), MinaVerify.insert_best, hb]

theorem Anchored.ingest_ne_panicked (hm : Anchored core m) (tip : VerifiedTip T)
    (message : String) : m.ingest core tip ≠ .panicked message := by
  by_cases hkey : core.key tip ∈ m.nodes
  · simp [ingest_duplicate hkey]
  · cases hb : m.best with
    | none => simp [hm.ingest_genesis hb]
    | some b =>
      obtain ⟨n, hn, _⟩ := hm.insert_best hkey hb
      rw [hm.ingest_eq hkey hb hn]
      split_ifs
      · simp
      · rw [ne_eq, Outcome.bind_eq_panicked]
        simp [commonAncestor_ne_panicked]

end Fresh

end MinaVerify
