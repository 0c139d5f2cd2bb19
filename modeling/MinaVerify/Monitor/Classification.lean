import MinaVerify.Monitor.Ancestor

/-! # What `ingest` reports

The window a tip is classified in is the one right after its own insertion and eviction. When the
chains of the tip and of the old best meet in it, `ingest` finds the highest meeting point and reports
it; when they do not, it falls through to `Unlinked`, but only after fork choice has had its say. -/
namespace MinaVerify
set_option autoImplicit false
open Links

variable {T : Types} {core : Core T}

/-- The window in which a tip is classified. -/
def windowAfter (core : Core T) (m : ChainMonitor T) (tip : VerifiedTip T) : Nodes T :=
  (m.insert (core.key tip) (core.node tip)).nodes

/-! ## The last step of a call -/

section Resolve
variable (m : ChainMonitor T) (key bestKey : String) (height : UInt32) (bestNode : Node T)

theorem resolve_extend : m.resolve key bestKey height bestNode true (some bestKey) =
    (m.setBest key, .extend height) := by
  simp [ChainMonitor.resolve]

theorem resolve_reorg {common : Option String} (h : common ≠ some bestKey) :
    m.resolve key bestKey height bestNode true common =
      (m.setBest key, .reorg bestNode.hash common
        ((common.bind fun c => m.nodes.lookup c).map fun c =>
          saturatingSub bestNode.height c.height)) := by
  simp [ChainMonitor.resolve, h]

theorem resolve_behind : m.resolve key bestKey height bestNode false (some key) =
    (m, .behind height) := by
  simp [ChainMonitor.resolve]

theorem resolve_fork {c : String} (h : c ≠ key) :
    m.resolve key bestKey height bestNode false (some c) = (m, .fork (some c)) := by
  simp [ChainMonitor.resolve, h]

theorem resolve_unlinked : m.resolve key bestKey height bestNode false none = (m, .unlinked) := by
  simp [ChainMonitor.resolve]

theorem resolve_cases (better : Bool) (common : Option String) :
    (better = true ∧ common = some bestKey ∧
      m.resolve key bestKey height bestNode better common = (m.setBest key, .extend height)) ∨
    (better = true ∧ common ≠ some bestKey ∧
      m.resolve key bestKey height bestNode better common =
        (m.setBest key, .reorg bestNode.hash common
          ((common.bind fun c => m.nodes.lookup c).map fun c =>
            saturatingSub bestNode.height c.height))) ∨
    (better = false ∧ ∃ out, m.resolve key bestKey height bestNode better common = (m, out) ∧
      ((common = some key ∧ out = .behind height) ∨
        (∃ c, c ≠ key ∧ common = some c ∧ out = .fork (some c)) ∨
        (common = none ∧ out = .unlinked))) := by
  cases better with
  | true =>
    by_cases h : common = some bestKey
    · exact Or.inl ⟨rfl, h, by rw [h, resolve_extend]⟩
    · exact Or.inr (Or.inl ⟨rfl, h, resolve_reorg m key bestKey height bestNode h⟩)
  | false =>
    refine Or.inr (Or.inr ⟨rfl, ?_⟩)
    cases common with
    | none => exact ⟨_, resolve_unlinked m key bestKey height bestNode, Or.inr (Or.inr ⟨rfl, rfl⟩)⟩
    | some c =>
      by_cases h : c = key
      · exact ⟨_, by rw [h, resolve_behind], Or.inl ⟨by rw [h], rfl⟩⟩
      · exact ⟨_, resolve_fork m key bestKey height bestNode h, Or.inr (Or.inl ⟨c, h, rfl, rfl⟩)⟩

end Resolve

/-! ## One call on an anchored window -/

section Step
variable {m : ChainMonitor T} {tip : VerifiedTip T} {b : String} {n : Node T} {ht : String → ℤ}

theorem Anchored.key_ne_best (hm : Anchored core m) (hkey : core.key tip ∉ m.nodes)
    (hb : m.best = some b) : core.key tip ≠ b :=
  fun he => hkey (he ▸ hm.best_mem b hb)

theorem Anchored.lookup_best (hm : Anchored core m) (hb : m.best = some b) :
    ∃ n, m.nodes.lookup b = some n :=
  Option.isSome_iff_exists.mp (AList.lookup_isSome.mpr (hm.best_mem b hb))

theorem bestHash_eq (hb : m.best = some b) (hn : m.nodes.lookup b = some n) :
    m.bestHash = some n.hash := by
  simp [ChainMonitor.bestHash, hb, hn]

theorem Anchored.best_mem_after (hm : Anchored core m) (hkey : core.key tip ∉ m.nodes)
    (hb : m.best = some b) : b ∈ windowAfter core m tip :=
  insert_keeps_best hm.wellFormed hkey hb (hm.best_mem b hb)

theorem Anchored.lookup_best_after (hm : Anchored core m) (hkey : core.key tip ∉ m.nodes)
    (hb : m.best = some b) (hn : m.nodes.lookup b = some n) :
    (windowAfter core m tip).lookup b = some n := by
  obtain ⟨n', hn', hafter⟩ := hm.insert_best hkey hb
  rw [hn, Option.some.injEq] at hn'
  exact hn' ▸ hafter

theorem Anchored.parent_after (hm : Anchored core m) (hkey : core.key tip ∉ m.nodes) :
    parentIn (windowAfter core m tip) (core.key tip) = some (core.prevKey tip) :=
  parentIn_of_lookup (hm.insert_new hkey)

theorem Anchored.child_reaches (hm : Anchored core m) (hkey : core.key tip ∉ m.nodes)
    (hprev : core.prevKey tip = b) : Reaches (parentIn (windowAfter core m tip)) (core.key tip) b :=
  Reaches.head (hprev ▸ hm.parent_after hkey) (Reaches.refl b)

theorem Anchored.ingest_of_walk (hm : Anchored core m) (hkey : core.key tip ∉ m.nodes)
    (hb : m.best = some b) (hn : m.nodes.lookup b = some n) (hprev : core.prevKey tip ≠ b)
    {common : Option String}
    (hwalk : commonAncestor (windowAfter core m tip) (core.key tip) b = .returned common) :
    m.ingest core tip = .returned ((m.insert (core.key tip) (core.node tip)).resolve (core.key tip)
      b tip.height n (core.consensusTake n.cs tip.consensusState n.hash tip.stateHash) common) := by
  rw [hm.ingest_eq hkey hb hn, if_neg hprev]
  unfold windowAfter at hwalk
  rw [hwalk, Outcome.bind_returned]

theorem Anchored.ingest_child (hm : Anchored core m) (hkey : core.key tip ∉ m.nodes)
    (hb : m.best = some b) (hprev : core.prevKey tip = b) :
    m.ingest core tip = .returned
      ((m.insert (core.key tip) (core.node tip)).setBest (core.key tip), .extend tip.height) := by
  obtain ⟨n, hn⟩ := hm.lookup_best hb
  rw [hm.ingest_eq hkey hb hn, if_pos hprev]

/-- What a call that returned did: the ways through `ingest`, with what was tested on the way. The three
answers to a tip that loses fork choice are one case. -/
inductive Ingested (core : Core T) (m : ChainMonitor T) (tip : VerifiedTip T) :
    ChainMonitor T → Ingest T.StateHash → Prop where
  | duplicate (hkey : core.key tip ∈ m.nodes) : Ingested core m tip m .duplicate
  | genesis (hkey : core.key tip ∉ m.nodes) (hb : m.best = none) :
      Ingested core m tip
        ((m.insert (core.key tip) (core.node tip)).setBest (core.key tip)) .genesis
  | child {b : String} (hkey : core.key tip ∉ m.nodes) (hb : m.best = some b)
      (hprev : core.prevKey tip = b) :
      Ingested core m tip
        ((m.insert (core.key tip) (core.node tip)).setBest (core.key tip)) (.extend tip.height)
  | descendant {b : String} {n : Node T} (hkey : core.key tip ∉ m.nodes) (hb : m.best = some b)
      (hn : m.nodes.lookup b = some n) (hprev : core.prevKey tip ≠ b)
      (htake : core.consensusTake n.cs tip.consensusState n.hash tip.stateHash = true)
      (hwalk : commonAncestor (windowAfter core m tip) (core.key tip) b = .returned (some b)) :
      Ingested core m tip
        ((m.insert (core.key tip) (core.node tip)).setBest (core.key tip)) (.extend tip.height)
  | reorg {b : String} {n : Node T} {common : Option String} (hkey : core.key tip ∉ m.nodes)
      (hb : m.best = some b) (hn : m.nodes.lookup b = some n) (hprev : core.prevKey tip ≠ b)
      (htake : core.consensusTake n.cs tip.consensusState n.hash tip.stateHash = true)
      (hcommon : common ≠ some b)
      (hwalk : commonAncestor (windowAfter core m tip) (core.key tip) b = .returned common) :
      Ingested core m tip
        ((m.insert (core.key tip) (core.node tip)).setBest (core.key tip))
        (.reorg n.hash common ((common.bind fun c => (windowAfter core m tip).lookup c).map fun c =>
          saturatingSub n.height c.height))
  | loses {b : String} {n : Node T} {common : Option String} {out : Ingest T.StateHash}
      (hkey : core.key tip ∉ m.nodes) (hb : m.best = some b) (hn : m.nodes.lookup b = some n)
      (hprev : core.prevKey tip ≠ b)
      (htake : core.consensusTake n.cs tip.consensusState n.hash tip.stateHash = false)
      (hwalk : commonAncestor (windowAfter core m tip) (core.key tip) b = .returned common)
      (hout : (common = some (core.key tip) ∧ out = .behind tip.height) ∨
        (∃ c, c ≠ core.key tip ∧ common = some c ∧ out = .fork (some c)) ∨
        (common = none ∧ out = .unlinked)) :
      Ingested core m tip (m.insert (core.key tip) (core.node tip)) out

theorem Anchored.ingest_cases (hm : Anchored core m) {m' : ChainMonitor T} {out : Ingest T.StateHash}
    (h : m.ingest core tip = .returned (m', out)) : Ingested core m tip m' out := by
  by_cases hkey : core.key tip ∈ m.nodes
  · rw [ingest_duplicate hkey, Outcome.returned.injEq, Prod.mk.injEq] at h
    obtain ⟨rfl, rfl⟩ := h
    exact .duplicate hkey
  · cases hb : m.best with
    | none =>
      rw [hm.ingest_genesis hb, Outcome.returned.injEq, Prod.mk.injEq] at h
      obtain ⟨rfl, rfl⟩ := h
      exact .genesis hkey hb
    | some b =>
      obtain ⟨n, hn⟩ := hm.lookup_best hb
      by_cases hprev : core.prevKey tip = b
      · rw [hm.ingest_child hkey hb hprev, Outcome.returned.injEq, Prod.mk.injEq] at h
        obtain ⟨rfl, rfl⟩ := h
        exact .child hkey hb hprev
      · rw [hm.ingest_eq hkey hb hn, if_neg hprev] at h
        obtain ⟨common, hwalk, h⟩ := Outcome.bind_eq_returned.mp h
        obtain ⟨htake, hcommon, heq⟩ | ⟨htake, hcommon, heq⟩ | ⟨htake, out', heq, hout⟩ :=
          resolve_cases (m.insert (core.key tip) (core.node tip)) (core.key tip) b tip.height n
            (core.consensusTake n.cs tip.consensusState n.hash tip.stateHash) common
        · rw [heq, Outcome.returned.injEq, Prod.mk.injEq] at h
          obtain ⟨rfl, rfl⟩ := h
          exact .descendant hkey hb hn hprev htake (hcommon ▸ hwalk)
        · rw [heq, Outcome.returned.injEq, Prod.mk.injEq] at h
          obtain ⟨rfl, rfl⟩ := h
          exact .reorg hkey hb hn hprev htake hcommon hwalk
        · rw [heq, Outcome.returned.injEq, Prod.mk.injEq] at h
          obtain ⟨rfl, rfl⟩ := h
          exact .loses hkey hb hn hprev htake hwalk hout

theorem Anchored.ingest_returns (hm : Anchored core m)
    (hacyc : core.key tip ∉ m.nodes → Acyclic (parentIn (windowAfter core m tip))) :
    ∃ m' out, m.ingest core tip = .returned (m', out) := by
  by_cases hkey : core.key tip ∈ m.nodes
  · exact ⟨_, _, ingest_duplicate hkey⟩
  · cases hb : m.best with
    | none => exact ⟨_, _, hm.ingest_genesis hb⟩
    | some b =>
      obtain ⟨n, hn⟩ := hm.lookup_best hb
      by_cases hprev : core.prevKey tip = b
      · exact ⟨_, _, hm.ingest_child hkey hb hprev⟩
      · obtain ⟨common, hwalk⟩ := commonAncestor_ends (hacyc hkey) (core.key tip) b
        exact ⟨_, _, hm.ingest_of_walk hkey hb hn hprev hwalk⟩

/-! ## Chains that meet -/

/-- `consensus_take` prefers a block to each of its proper ancestors, and never the reverse. -/
def PrefersDescendants (core : Core T) (nodes : Nodes T) : Prop :=
  ∀ d nd a na, nodes.lookup d = some nd → nodes.lookup a = some na →
    Relation.TransGen (Link (parentIn nodes)) d a →
      core.consensusTake na.cs nd.cs na.hash nd.hash = true ∧
      core.consensusTake nd.cs na.cs nd.hash na.hash = false

theorem transGen_of_reaches {parent : String → Option String} {a c : String}
    (h : Reaches parent a c) (hne : c ≠ a) : Relation.TransGen (Link parent) a c := by
  rcases Relation.reflTransGen_iff_eq_or_transGen.mp h with he | ht
  · exact absurd he hne
  · exact ht

theorem Anchored.highest_of_child (hm : Anchored core m) (hkey : core.key tip ∉ m.nodes)
    (hc : LinkConsistent ht (windowAfter core m tip)) (hprev : core.prevKey tip = b) {c : String}
    (hcom : HighestCommon (parentIn (windowAfter core m tip)) ht (core.key tip) b c) : c = b := by
  have hle := hcom.highest b (hm.child_reaches hkey hprev) (Reaches.refl b)
  exact hc.graded.eq_of_reaches hcom.right (by have := hc.graded.le hcom.right; omega)

/-- **Classification is exact when the links are in the window.** -/
theorem ingest_classifies {capacity : ℕ} {tips : List (VerifiedTip T)}
    {outs : List (Ingest T.StateHash)} (h2 : 2 ≤ capacity)
    (hrun : (ChainMonitor.new capacity).run core tips = .returned (m, outs))
    (hb : m.best = some b) (hkey : core.key tip ∉ m.nodes)
    (hc : LinkConsistent ht (windowAfter core m tip))
    (hpref : PrefersDescendants core (windowAfter core m tip)) {c : String}
    (hcom : HighestCommon (parentIn (windowAfter core m tip)) ht (core.key tip) b c) :
    ∃ n m' out, m.nodes.lookup b = some n ∧ m.bestHash = some n.hash ∧
      m.ingest core tip = .returned (m', out) ∧
      (out = .extend tip.height ↔ c = b) ∧ (out = .behind tip.height ↔ c = core.key tip) ∧
      (c ≠ b → c ≠ core.key tip →
        (core.consensusTake n.cs tip.consensusState n.hash tip.stateHash = true →
          ∃ depth, out = .reorg n.hash (some c) depth) ∧
        (core.consensusTake n.cs tip.consensusState n.hash tip.stateHash = false →
          out = .fork (some c))) := by
  have hm := run_anchored h2 hrun
  have hne := hm.key_ne_best hkey hb
  obtain ⟨n, hn⟩ := hm.lookup_best hb
  have hnb := hm.lookup_best_after hkey hb hn
  have hnew := hm.insert_new hkey
  by_cases hprev : core.prevKey tip = b
  · have hcb := hm.highest_of_child hkey hc hprev hcom
    refine ⟨n, _, _, hn, bestHash_eq hb hn, hm.ingest_child hkey hb hprev, ?_, ?_, ?_⟩
    · simp [hcb]
    · simp [hcb, hne.symm]
    · exact fun hcb' => absurd hcb hcb'
  · have hing := hm.ingest_of_walk hkey hb hn hprev
      (commonAncestor_complete hc (hm.insert_new_mem hkey) (hm.best_mem_after hkey hb) hcom)
    by_cases hcb : c = b
    · -- the best is a proper ancestor of the tip: fork choice takes the tip
      have htake : core.consensusTake n.cs tip.consensusState n.hash tip.stateHash = true :=
        (hpref _ _ _ _ hnew hnb (transGen_of_reaches (hcb ▸ hcom.left) hne.symm)).1
      rw [htake, hcb, resolve_extend] at hing
      refine ⟨n, _, _, hn, bestHash_eq hb hn, hing, ?_⟩
      simp [hcb, hne.symm]
    · by_cases hck : c = core.key tip
      · -- the tip is a proper ancestor of the best: fork choice keeps the best
        have htake : core.consensusTake n.cs tip.consensusState n.hash tip.stateHash = false :=
          (hpref _ _ _ _ hnb hnew (transGen_of_reaches (hck ▸ hcom.right) hne)).2
        rw [htake, hck, resolve_behind] at hing
        refine ⟨n, _, _, hn, bestHash_eq hb hn, hing, ?_⟩
        simp [hck, hne]
      · cases htake : core.consensusTake n.cs tip.consensusState n.hash tip.stateHash with
        | true =>
          rw [htake, resolve_reorg _ _ _ _ _ (by simpa using hcb)] at hing
          refine ⟨n, _, _, hn, bestHash_eq hb hn, hing, ?_⟩
          simp [hcb, hck, htake]
        | false =>
          rw [htake, resolve_fork _ _ _ _ _ hck] at hing
          refine ⟨n, _, _, hn, bestHash_eq hb hn, hing, ?_⟩
          simp [hcb, hck, htake]

end Step

/-! ## Two blocks on one parent -/

theorem highestCommon_of_siblings {parent : String → Option String} {ht : String → ℤ}
    (hg : Graded parent ht) {x y p : String} (hx : parent x = some p) (hy : parent y = some p)
    (hne : x ≠ y) : HighestCommon parent ht x y p := by
  refine ⟨Reaches.head hx (Reaches.refl p), Reaches.head hy (Reaches.refl p), ?_⟩
  intro d hxd hyd
  obtain rfl | ⟨q, hq, hqd⟩ := hxd.cases_head
  · have hxy : ht x = ht y := by rw [hg x p hx, hg y p hy]
    exact absurd (hg.eq_of_reaches hyd hxy) hne
  · rw [hx, Option.some.injEq] at hq
    exact hg.le (hq ▸ hqd)

theorem linkConsistent_iff {ht : String → ℤ} {nodes : Nodes T} :
    LinkConsistent ht nodes ↔
      ∀ e ∈ nodes.entries, ht e.1 = e.2.height.toNat ∧ ht e.1 = ht e.2.prev + 1 := by
  constructor
  · rintro h ⟨k, n⟩ he
    exact h k n (AList.mem_lookup_iff.mpr he)
  · intro h k n hk
    exact h ⟨k, n⟩ (AList.mem_lookup_iff.mp hk)

namespace Sample

theorem prefersDescendants {nodes : Nodes types} {ht : String → ℤ} (hc : LinkConsistent ht nodes)
    (hlen : ∀ e ∈ nodes.entries, e.2.height = e.2.cs.blockchainLength) :
    PrefersDescendants minaCore nodes := by
  intro d nd a na hd ha hda
  have hlt : ht a < ht d := by
    obtain ⟨p, hp, hpa⟩ := Relation.TransGen.head'_iff.mp hda
    have h1 := hc.graded d p hp
    have h2 := hc.graded.le hpa
    omega
  have hd' := hlen _ (AList.mem_lookup_iff.mp hd)
  have ha' := hlen _ (AList.mem_lookup_iff.mp ha)
  have hnat : na.cs.blockchainLength.toNat < nd.cs.blockchainLength.toNat := by
    rw [(hc a na ha).1, (hc d nd hd).1] at hlt
    simp only at hd' ha'
    rw [← hd', ← ha']
    omega
  have hl : na.cs.blockchainLength < nd.cs.blockchainLength := UInt32.lt_iff_toNat_lt.mpr hnat
  have hne : na.cs.blockchainLength ≠ nd.cs.blockchainLength := by
    intro he
    rw [he] at hnat
    omega
  have hnl : ¬ nd.cs.blockchainLength < na.cs.blockchainLength := by
    rw [UInt32.lt_iff_toNat_lt]
    omega
  simp [minaCore, consensusTake, hne, hne.symm, hl, hnl]

def heights : String → ℤ
  | "a" => 2
  | "b" => 2
  | "g" => 1
  | _ => 0

end Sample

/-- Block `b` arrives on the parent `g` of the best `a`: a reorganisation at `g`. -/
theorem ingest_classifies_fork :
    ∃ m outs m' depth,
      (ChainMonitor.new 3).run Sample.minaCore [Sample.tip "g" "o" 1, Sample.tip "a" "g" 2] =
        .returned (m, outs) ∧
      m.ingest Sample.minaCore (Sample.tip "b" "g" 2) =
        .returned (m', .reorg "a" (some "g") depth) := by
  obtain ⟨⟨m, outs⟩, hrun, hm⟩ := Outcome.exists_of_holds
    (x := (ChainMonitor.new 3).run Sample.minaCore [Sample.tip "g" "o" 1, Sample.tip "a" "g" 2])
    (p := fun r : ChainMonitor Sample.types × _ => decide
      ((windowAfter Sample.minaCore r.1 (Sample.tip "b" "g" 2)).entries =
      [⟨"b", Sample.minaCore.node (Sample.tip "b" "g" 2)⟩,
        ⟨"a", Sample.minaCore.node (Sample.tip "a" "g" 2)⟩,
        ⟨"g", Sample.minaCore.node (Sample.tip "g" "o" 1)⟩] ∧ r.1.best = some "a" ∧
      "b" ∉ r.1.nodes ∧
      r.1.nodes.lookup "a" = some (Sample.minaCore.node (Sample.tip "a" "g" 2)))) (by decide +kernel)
  obtain ⟨hent, hb, hkey, hn⟩ := of_decide_eq_true hm
  have hc : LinkConsistent Sample.heights (windowAfter Sample.minaCore m (Sample.tip "b" "g" 2)) := by
    rw [linkConsistent_iff, hent]
    decide
  have hlk : ∀ k n, (⟨k, n⟩ : Sigma fun _ : String => Node Sample.types) ∈
      (windowAfter Sample.minaCore m (Sample.tip "b" "g" 2)).entries →
      parentIn (windowAfter Sample.minaCore m (Sample.tip "b" "g" 2)) k = some n.prev := by
    intro k n hk
    exact parentIn_of_lookup (AList.mem_lookup_iff.mpr hk)
  have hcom := highestCommon_of_siblings hc.graded (x := "b") (y := "a") (p := "g")
    (hlk "b" (Sample.minaCore.node (Sample.tip "b" "g" 2)) (by rw [hent]; simp))
    (hlk "a" (Sample.minaCore.node (Sample.tip "a" "g" 2)) (by rw [hent]; simp)) (by decide)
  have hnew : Sample.minaCore.key (Sample.tip "b" "g" 2) ∉ m.nodes := hkey
  obtain ⟨n, m', out, hn', _, hing, _, _, hdiv⟩ := ingest_classifies (by omega) hrun hb hnew hc
    (Sample.prefersDescendants hc (by rw [hent]; decide)) hcom
  rw [hn, Option.some.injEq] at hn'
  subst hn'
  obtain ⟨depth, hout⟩ := (hdiv (by decide) (by decide)).1 (by decide +kernel)
  exact ⟨m, outs, m', depth, hrun, hout ▸ hing⟩

end MinaVerify
