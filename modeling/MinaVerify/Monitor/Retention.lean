import MinaVerify.Foundations.PinnedQueue
import MinaVerify.Monitor.History

/-! # How long a block stays

The queue of the monitor rotates its best from the front to the back, so a block's age does not say
how long it has left. It is a pinned queue all the same: of the `capacity` places, all but one hold
the latest insertions, and a divergence within them is resolved. -/
namespace MinaVerify
set_option autoImplicit false
open Links PinnedQueue

variable {T : Types} {core : Core T}

/-! ## The queue, as tips -/

/-- The tips whose nodes the window holds, in the order of the queue. -/
structure Queued (core : Core T) (m : ChainMonitor T) (queue : List (VerifiedTip T)) : Prop where
  order : m.order = queue.map core.key
  stored : ∀ t ∈ queue, m.nodes.lookup (core.key t) = some (core.node t)

def Pinned (core : Core T) (best : Option String) (t : VerifiedTip T) : Prop :=
  best = some (core.key t)

section Insert
variable {m : ChainMonitor T} {tip : VerifiedTip T} {queue : List (VerifiedTip T)}

theorem Queued.keys_nodup (hq : Queued core m queue) (hm : WellFormed core m) :
    (queue.map core.key).Nodup :=
  hq.order ▸ hm.nodup

theorem Queued.eq_of_key (hq : Queued core m queue) (hm : WellFormed core m) {a b : VerifiedTip T}
    (ha : a ∈ queue) (hb : b ∈ queue) (hab : core.key a = core.key b) : a = b :=
  List.inj_on_of_nodup_map (hq.keys_nodup hm) ha hb hab

theorem Queued.mem_of_key (hq : Queued core m queue) (hm : WellFormed core m) {a : VerifiedTip T}
    (ha : a ∈ queue) : core.key a ∈ m.nodes :=
  (hm.mem_order _).mp (hq.order ▸ List.mem_map_of_mem ha)

theorem Queued.of_order (hq : Queued core m queue) (hm : WellFormed core m)
    (hkey : core.key tip ∉ m.nodes) {queue' : List (VerifiedTip T)}
    (horder : (m.insert (core.key tip) (core.node tip)).order = queue'.map core.key)
    (hsub : queue' ⊆ queue ++ [tip]) :
    Queued core (m.insert (core.key tip) (core.node tip)) queue' := by
  refine ⟨horder, ?_⟩
  intro t ht
  have hwf : WellFormed core (m.insert (core.key tip) (core.node tip)) :=
    insert_wellFormed hm hkey rfl
  have hmem : core.key t ∈ (m.insert (core.key tip) (core.node tip)).nodes :=
    (hwf.mem_order _).mp (horder ▸ List.mem_map_of_mem ht)
  rw [insert_lookup hm hkey hmem]
  rcases List.mem_append.mp (hsub ht) with hold | hnew
  · have hne : core.key t ≠ core.key tip := fun he => hkey (he ▸ hq.mem_of_key hm hold)
    rw [AList.lookup_insert_ne hne, hq.stored t hold]
  · rw [List.mem_singleton.mp hnew, AList.lookup_insert]

theorem Queued.insert (hq : Queued core m queue) (hm : WellFormed core m) (h2 : 2 ≤ m.capacity)
    (hkey : core.key tip ∉ m.nodes) :
    ∃ queue', Queued core (m.insert (core.key tip) (core.node tip)) queue' ∧
      Push m.capacity (Pinned core m.best) tip queue queue' ∧ queue' ⊆ queue ++ [tip] := by
  have hlen : queue.length = m.len := by
    rw [← hm.length_order, hq.order, List.length_map]
  obtain ⟨hroom, hins⟩ | ⟨k, rest, hcap, hcons, hbest, hins⟩ |
      ⟨b, k, rest, rest', hcap, hcons, hbest, hne, hrest, hins⟩ :=
    insert_cases hm hkey (core.node tip)
  · refine ⟨queue ++ [tip], ?_, .room (by omega), List.Subset.refl _⟩
    refine hq.of_order hm hkey ?_ (List.Subset.refl _)
    rw [hins]
    simp [hq.order]
  · rw [hq.order, List.map_eq_cons_iff] at hcons
    obtain ⟨q, queue₁, rfl, rfl, rfl⟩ := hcons
    have hsub : queue₁ ++ [tip] ⊆ q :: queue₁ ++ [tip] := by simp
    refine ⟨queue₁ ++ [tip], ?_, .drop (by omega) hbest, hsub⟩
    refine hq.of_order hm hkey ?_ hsub
    rw [hins]
    simp [Evicted]
  · rw [hq.order, List.map_eq_cons_iff] at hcons
    obtain ⟨q, queue₁, rfl, rfl, rfl⟩ := hcons
    -- with two places the entry behind the best is an old one
    cases queue₁ with
    | nil =>
      simp only [List.length_cons, List.length_nil] at hlen
      omega
    | cons q₂ queue₂ =>
      simp only [List.map_cons, List.cons_append, List.cons.injEq] at hrest
      obtain ⟨rfl, rfl⟩ := hrest
      have hsub : queue₂ ++ [tip, q] ⊆ q :: q₂ :: queue₂ ++ [tip] := by
        intro t ht
        simp only [List.mem_append, List.mem_cons, List.not_mem_nil, or_false] at ht ⊢
        tauto
      refine ⟨queue₂ ++ [tip, q], ?_, .rotate (by omega) hbest, hsub⟩
      refine hq.of_order hm hkey ?_ hsub
      rw [hins]
      simp [Evicted]

end Insert

/-! ## The log of insertions -/

def Ingest.isDuplicate {StateHash : Type} : Ingest StateHash → Bool
  | .duplicate => true
  | _ => false

theorem Ingest.isDuplicate_iff {StateHash : Type} {out : Ingest StateHash} :
    out.isDuplicate = true ↔ out = .duplicate := by
  cases out <;> simp [Ingest.isDuplicate]

/-- The tips whose call did not answer `Duplicate`, oldest first. -/
def inserted : List (VerifiedTip T) → List (Ingest T.StateHash) → List (VerifiedTip T)
  | tip :: tips, out :: outs =>
    if out.isDuplicate then inserted tips outs else tip :: inserted tips outs
  | _, _ => []

theorem inserted_snoc {tips : List (VerifiedTip T)} {outs : List (Ingest T.StateHash)}
    (hlen : outs.length = tips.length) (tip : VerifiedTip T) (out : Ingest T.StateHash) :
    inserted (tips ++ [tip]) (outs ++ [out]) =
      inserted tips outs ++ if out.isDuplicate then [] else [tip] := by
  induction tips generalizing outs with
  | nil =>
    rw [List.length_nil, List.length_eq_zero_iff] at hlen
    subst hlen
    simp [inserted]
  | cons t tips ih =>
    obtain ⟨o, outs, rfl⟩ := List.exists_cons_of_length_pos (by rw [hlen]; simp)
    rw [List.length_cons, List.length_cons, Nat.add_right_cancel_iff] at hlen
    simp only [List.cons_append, inserted, ih hlen]
    split_ifs <;> simp

structure Retained (core : Core T) (log : List (VerifiedTip T)) (m : ChainMonitor T) : Prop where
  anchored : Anchored core m
  aged : ∃ queue, Queued core m queue ∧ Aged m.capacity (Pinned core m.best) log queue

section Step
variable {m m' : ChainMonitor T} {tip : VerifiedTip T} {out : Ingest T.StateHash}
  {log : List (VerifiedTip T)}

theorem Retained.recent (h : Retained core log m) {t : VerifiedTip T}
    (ht : t ∈ log.rtake (m.capacity - 1)) : m.nodes.lookup (core.key t) = some (core.node t) := by
  obtain ⟨queue, hq, haged⟩ := h.aged
  exact hq.stored t (haged.recent ht)

theorem Retained.insert (h : Retained core log m) (hkey : core.key tip ∉ m.nodes)
    {best : Option String} (hbest : best = m.best ∨ best = some (core.key tip)) :
    ∃ queue, Queued core (m.insert (core.key tip) (core.node tip)) queue ∧
      Aged m.capacity (Pinned core best) (log ++ [tip]) queue := by
  obtain ⟨queue, hq, haged⟩ := h.aged
  have hm := h.anchored.wellFormed
  obtain ⟨queue', hq', hpush, hsub⟩ := hq.insert hm h.anchored.two_le hkey
  refine ⟨queue', hq', hpush.aged (List.Nodup.of_map _ (hq.keys_nodup hm)) ?_ ?_ haged⟩
  · intro a ha b hb hpa hpb
    rw [Pinned] at hpa hpb
    exact hq.eq_of_key hm ha hb (Option.some.inj (hpa.symm.trans hpb))
  · intro b hb hpb
    rcases List.mem_append.mp (hsub hb) with hold | hnew
    · right
      refine ⟨hold, ?_⟩
      rcases hbest with rfl | rfl
      · exact hpb
      · -- an old entry does not carry the key of the new tip
        rw [Pinned, Option.some.injEq] at hpb
        exact absurd (hpb ▸ hq.mem_of_key hm hold) hkey
    · exact Or.inl (List.mem_singleton.mp hnew)

theorem Queued.setBest {queue : List (VerifiedTip T)} (h : Queued core m queue) (key : String) :
    Queued core (m.setBest key) queue :=
  ⟨h.order, h.stored⟩

theorem ingest_retained (hr : Retained core log m) (h : m.ingest core tip = .returned (m', out)) :
    Retained core (log ++ if out.isDuplicate then [] else [tip]) m' := by
  refine ⟨ingest_anchored hr.anchored h, ?_⟩
  obtain ⟨_, rfl, rfl⟩ | ⟨hkey, hout, hm'⟩ := ingest_effect h
  · simpa [Ingest.isDuplicate] using hr.aged
  · rw [if_neg (fun hd => hout (Ingest.isDuplicate_iff.mp hd))]
    obtain rfl | ⟨_, rfl⟩ := hm'
    · obtain ⟨queue, hq, haged⟩ := hr.insert hkey (Or.inr rfl)
      exact ⟨queue, hq.setBest _, haged⟩
    · exact hr.insert hkey (Or.inl rfl)

end Step

theorem run_retained {capacity : ℕ} (h2 : 2 ≤ capacity) {tips : List (VerifiedTip T)}
    {m : ChainMonitor T} {outs : List (Ingest T.StateHash)}
    (h : (ChainMonitor.new capacity).run core tips = .returned (m, outs)) :
    Retained core (inserted tips outs) m := by
  have hboth := run_induction
    (fun tips outs m => outs.length = tips.length ∧ Retained core (inserted tips outs) m)
    ⟨rfl, anchored_new core h2, [], ⟨rfl, by simp⟩, .fifo (by simp [inserted]) (by simp [inserted])⟩
    (by
      rintro tips outs m tip m' out ⟨hlen, hr⟩ hing
      refine ⟨by simp [hlen], ?_⟩
      rw [inserted_snoc hlen]
      exact ingest_retained hr hing) h
  exact hboth.2

/-! ## Divergences within the retained blocks -/

/-- `c` is the lowest common ancestor of `a` and `b` in the chain of all `blocks`, and lies with both
and with every block between among the `recent` ones. -/
structure RecentAncestor (core : Core T) (ht : String → ℤ) (blocks recent : List (VerifiedTip T))
    (a b c : String) : Prop where
  left : Relation.ReflTransGen (TipLink core recent) a c
  right : Relation.ReflTransGen (TipLink core recent) b c
  mem : ∃ t ∈ recent, core.key t = c
  lowest : ∀ d, Relation.ReflTransGen (TipLink core blocks) a d →
    Relation.ReflTransGen (TipLink core blocks) b d → ht d ≤ ht c

section Ancestor
variable {nodes : Nodes T} {ht : String → ℤ} {blocks recent : List (VerifiedTip T)} {a b c : String}

theorem reaches_of_recent
    (hrecent : ∀ t ∈ recent, nodes.lookup (core.key t) = some (core.node t))
    (h : Relation.ReflTransGen (TipLink core recent) a c) : Reaches (parentIn nodes) a c := by
  refine Relation.ReflTransGen.mono ?_ _ _ h
  rintro x p ⟨t, ht, rfl, rfl⟩
  exact parentIn_of_lookup (hrecent t ht)

theorem FromTips.ancestor (hf : FromTips core blocks nodes) (h : Reaches (parentIn nodes) a c) :
    Relation.ReflTransGen (TipLink core blocks) a c :=
  Relation.ReflTransGen.mono (fun _ _ hp => hf.link hp) _ _ h

theorem RecentAncestor.highestCommon (h : RecentAncestor core ht blocks recent a b c)
    (hrecent : ∀ t ∈ recent, nodes.lookup (core.key t) = some (core.node t))
    (hf : FromTips core blocks nodes) : HighestCommon (parentIn nodes) ht a b c where
  left := reaches_of_recent hrecent h.left
  right := reaches_of_recent hrecent h.right
  highest := fun d had hbd => h.lowest d (hf.ancestor had) (hf.ancestor hbd)

end Ancestor

/-- `Reorg` and `Fork` name `c`, and `Unlinked` is not reported. -/
def Finds {StateHash : Type} (c : String) : Ingest StateHash → Prop
  | .reorg _ common _ => common = some c
  | .fork common => common = some c
  | .unlinked => False
  | _ => True

theorem resolve_finds (m : ChainMonitor T) (key bestKey : String) (height : UInt32)
    (bestNode : Node T) (better : Bool) (c : String) :
    Finds c (m.resolve key bestKey height bestNode better (some c)).2 := by
  unfold ChainMonitor.resolve
  split_ifs <;> simp_all [Finds]

/-- **Recent history is resolvable.** After every run the window holds the last `capacity - 1`
insertions and the best; and a divergence within the last `capacity - 1` insertions, the new tip among
them, is reported with its lowest common ancestor. -/
theorem recent_history_resolvable {capacity : ℕ} (h2 : 2 ≤ capacity) {tips : List (VerifiedTip T)}
    {m : ChainMonitor T} {outs : List (Ingest T.StateHash)}
    (hrun : (ChainMonitor.new capacity).run core tips = .returned (m, outs)) :
    (∀ t ∈ (inserted tips outs).rtake (capacity - 1),
      m.nodes.lookup (core.key t) = some (core.node t)) ∧
    (tips ≠ [] → ∃ b ∈ m.nodes, m.best = some b) ∧
    (∀ ht tip b c, TipsConsistent core ht (tips ++ [tip]) → core.key tip ∉ m.nodes →
      m.best = some b →
      RecentAncestor core ht (tips ++ [tip]) ((inserted tips outs ++ [tip]).rtake (capacity - 1))
        (core.key tip) b c →
      ∃ m' out, m.ingest core tip = .returned (m', out) ∧ Finds c out) := by
  have hr := run_retained h2 hrun
  have hm := hr.anchored
  have hcap : m.capacity = capacity := by
    rw [(run_wellFormed hrun).2]
    omega
  refine ⟨?_, ?_, ?_⟩
  · intro t ht
    exact hr.recent (hcap ▸ ht)
  · intro hne
    obtain ⟨b, hb⟩ := run_best_isSome h2 hne hrun
    exact ⟨b, hm.best_mem b hb, hb⟩
  · intro ht tip b c hcons hkey hb hanc
    obtain ⟨n, hn⟩ := hm.lookup_best hb
    by_cases hprev : core.prevKey tip = b
    · exact ⟨_, _, hm.ingest_child hkey hb hprev, trivial⟩
    · obtain ⟨queue, hq, haged⟩ := hr.insert hkey (Or.inl rfl)
      have hf := run_windowAfter hrun hkey
      have hcom : HighestCommon (parentIn (windowAfter core m tip)) ht (core.key tip) b c :=
        hanc.highestCommon (fun t ht => hq.stored t (haged.recent (hcap ▸ ht))) hf
      have hwalk := commonAncestor_complete (hf.linkConsistent hcons) (hm.insert_new_mem hkey)
        (hm.best_mem_after hkey hb) hcom
      exact ⟨_, _, hm.ingest_of_walk hkey hb hn hprev hwalk, resolve_finds _ _ _ _ _ _ c⟩

theorem recent_history_resolvable_fork :
    ∃ m outs m' out,
      (ChainMonitor.new 4).run Sample.minaCore [Sample.tip "g" "o" 1, Sample.tip "a" "g" 2] =
        .returned (m, outs) ∧
      m.ingest Sample.minaCore (Sample.tip "b" "g" 2) = .returned (m', out) ∧ Finds "g" out := by
  obtain ⟨⟨m, outs⟩, hrun, hm⟩ := Outcome.exists_of_holds
    (x := (ChainMonitor.new 4).run Sample.minaCore [Sample.tip "g" "o" 1, Sample.tip "a" "g" 2])
    (p := fun r : ChainMonitor Sample.types × List (Ingest String) => decide (r.1.best = some "a" ∧
      "b" ∉ r.1.nodes ∧ r.2 = [.genesis, .extend 2])) (by decide +kernel)
  obtain ⟨hb, hkey, rfl⟩ := of_decide_eq_true hm
  have hlink : ∀ k ∈ ["a", "b"], Relation.ReflTransGen (TipLink Sample.minaCore
      [Sample.tip "g" "o" 1, Sample.tip "a" "g" 2, Sample.tip "b" "g" 2]) k "g" := by
    intro k hk
    refine .single ⟨Sample.tip k "g" 2, ?_, rfl, rfl⟩
    rcases List.mem_pair.mp hk with rfl | rfl <;> simp
  have hcons : TipsConsistent Sample.minaCore Sample.heights
      [Sample.tip "g" "o" 1, Sample.tip "a" "g" 2, Sample.tip "b" "g" 2] := by
    decide
  have hlowest : ∀ d, Relation.ReflTransGen (TipLink Sample.minaCore
      [Sample.tip "g" "o" 1, Sample.tip "a" "g" 2, Sample.tip "b" "g" 2]) "b" d →
      Relation.ReflTransGen (TipLink Sample.minaCore
        [Sample.tip "g" "o" 1, Sample.tip "a" "g" 2, Sample.tip "b" "g" 2]) "a" d →
      Sample.heights d ≤ Sample.heights "g" := by
    intro d hbd had
    -- both have height 2, so a common ancestor is a proper one of either
    rcases Relation.reflTransGen_iff_eq_or_transGen.mp had with rfl | hlt
    · rcases Relation.reflTransGen_iff_eq_or_transGen.mp hbd with he | hlt
      · exact absurd he (by decide)
      · exact absurd (hcons.lt hlt) (by decide)
    · exact Int.lt_add_one_iff.mp (hcons.lt hlt)
  obtain ⟨_, _, hfinds⟩ := recent_history_resolvable (by omega) hrun
  obtain ⟨m', out, hing, hout⟩ := hfinds Sample.heights (Sample.tip "b" "g" 2) "a" "g" hcons hkey hb
    ⟨hlink "b" (by simp), hlink "a" (by simp),
      ⟨Sample.tip "g" "o" 1, by simp [List.rtake, inserted, Ingest.isDuplicate], rfl⟩, hlowest⟩
  exact ⟨m, _, m', out, hrun, hing, hout⟩

end MinaVerify
