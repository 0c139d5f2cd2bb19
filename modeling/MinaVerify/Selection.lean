import Mathlib.Data.List.Induction
import MinaVerify.ForkChoice

/-! # The winner among several tips

`select_canonical` compares each tip only with the best so far. When `consensus_take` orders the state
hashes of the tips strictly and totally that is enough: the tip selected beats every other, is the
first of its hash, and does not depend on the order of the list. -/
namespace MinaVerify
set_option autoImplicit false

variable {T : Types} {core : Core T}

/-! ## Orders of tips -/

/-- On these tips `consensus_take` is a strict total order of the state hashes. -/
structure OrderedOn (core : Core T) (tips : List (VerifiedTip T)) : Prop where
  irrefl : ∀ s ∈ tips, ∀ t ∈ tips, s.stateHash = t.stateHash → prefersCandidate core s t = false
  trans : ∀ r ∈ tips, ∀ s ∈ tips, ∀ t ∈ tips, prefersCandidate core r s = true →
    prefersCandidate core s t = true → prefersCandidate core r t = true
  total : ∀ s ∈ tips, ∀ t ∈ tips, s.stateHash ≠ t.stateHash →
    prefersCandidate core s t = true ∨ prefersCandidate core t s = true

def Maximum (core : Core T) (tips : List (VerifiedTip T)) (w : VerifiedTip T) : Prop :=
  w ∈ tips ∧ ∀ t ∈ tips, t.stateHash ≠ w.stateHash → prefersCandidate core t w = true

section Order
variable {tips tips' : List (VerifiedTip T)} {r s t w : VerifiedTip T}

theorem OrderedOn.mono (h : OrderedOn core tips') (hsub : tips ⊆ tips') : OrderedOn core tips where
  irrefl := fun s hs t ht => h.irrefl s (hsub hs) t (hsub ht)
  trans := fun r hr s hs t ht => h.trans r (hsub hr) s (hsub hs) t (hsub ht)
  total := fun s hs t ht => h.total s (hsub hs) t (hsub ht)

theorem OrderedOn.asymm (h : OrderedOn core tips) (hs : s ∈ tips) (ht : t ∈ tips)
    (hst : prefersCandidate core s t = true) : prefersCandidate core t s = false := by
  by_contra hts
  rw [Bool.not_eq_false] at hts
  have hss := h.trans s hs t ht s hs hst hts
  rw [h.irrefl s hs s hs rfl] at hss
  exact Bool.false_ne_true hss

theorem OrderedOn.congr_left (h : OrderedOn core tips) (hr : r ∈ tips) (hs : s ∈ tips) (ht : t ∈ tips)
    (hrs : r.stateHash = s.stateHash) (hst : prefersCandidate core s t = true) :
    prefersCandidate core r t = true := by
  have hne : r.stateHash ≠ t.stateHash := by
    intro he
    rw [h.irrefl s hs t ht (hrs.symm.trans he)] at hst
    exact Bool.false_ne_true hst
  rcases h.total r hr t ht hne with hrt | htr
  · exact hrt
  · have hsr := h.trans s hs t ht r hr hst htr
    rw [h.irrefl s hs r hr hrs.symm] at hsr
    exact absurd hsr Bool.false_ne_true

theorem Maximum.snoc (hmax : Maximum core tips w) (h : OrderedOn core (tips ++ [t]))
    (hne : t.stateHash ≠ w.stateHash) :
    Maximum core (tips ++ [t]) (if prefersCandidate core w t then t else w) := by
  have ht : t ∈ tips ++ [t] := by simp
  have hw : w ∈ tips ++ [t] := by simp [hmax.1]
  split_ifs with htake
  · refine ⟨ht, ?_⟩
    intro u hu hut
    by_cases huw : u.stateHash = w.stateHash
    · exact h.congr_left hu hw ht huw htake
    · rcases List.mem_append.mp hu with hold | hnew
      · exact h.trans u hu w hw t ht (hmax.2 u hold huw) htake
      · exact absurd (by rw [List.mem_singleton.mp hnew]) hut
  · refine ⟨hw, ?_⟩
    intro u hu huw
    rcases List.mem_append.mp hu with hold | hnew
    · exact hmax.2 u hold huw
    · rw [List.mem_singleton.mp hnew]
      exact (h.total t ht w hw hne).resolve_right htake

theorem Maximum.snoc_old (hmax : Maximum core tips w) (h : OrderedOn core (tips ++ [t]))
    (hs : s ∈ tips) (hst : s.stateHash = t.stateHash) : Maximum core (tips ++ [t]) w := by
  refine ⟨by simp [hmax.1], ?_⟩
  intro u hu huw
  rcases List.mem_append.mp hu with hold | hnew
  · exact hmax.2 u hold huw
  · rw [List.mem_singleton.mp hnew] at huw ⊢
    exact h.congr_left (by simp) (by simp [hs]) (by simp [hmax.1]) hst.symm
      (hmax.2 s hs (hst ▸ huw))

theorem Maximum.unique (h : OrderedOn core (tips ++ tips')) {w' : VerifiedTip T}
    (hw : Maximum core tips w) (hw' : Maximum core tips' w')
    (hset : ∀ x, x ∈ tips.map VerifiedTip.stateHash ↔ x ∈ tips'.map VerifiedTip.stateHash) :
    w.stateHash = w'.stateHash := by
  by_contra hne
  obtain ⟨u, hu, huw'⟩ := List.mem_map.mp
    ((hset w'.stateHash).mpr (List.mem_map_of_mem hw'.1))
  obtain ⟨v, hv, hvw⟩ := List.mem_map.mp ((hset w.stateHash).mp (List.mem_map_of_mem hw.1))
  have hmem : ∀ x ∈ tips, x ∈ tips ++ tips' := fun x hx => by simp [hx]
  have hmem' : ∀ x ∈ tips', x ∈ tips ++ tips' := fun x hx => by simp [hx]
  have hup := h.congr_left (hmem' w' hw'.1) (hmem u hu) (hmem w hw.1) huw'.symm
    (hw.2 u hu (fun he => hne (he.symm.trans huw')))
  have hdown := h.congr_left (hmem w hw.1) (hmem' v hv) (hmem' w' hw'.1) hvw.symm
    (hw'.2 v hv (fun he => hne (hvw.symm.trans he)))
  rw [h.asymm (hmem w hw.1) (hmem' w' hw'.1) hdown] at hup
  exact Bool.false_ne_true hup

end Order

/-! ## `select_canonical`, one tip at a time -/

theorem challenge_append (core : Core T) (tips tips' : List (VerifiedTip T)) {best i : ℕ}
    (hbest : best < tips.length) (hi : i < tips.length) :
    challenge core (tips ++ tips') best i = challenge core tips best i := by
  unfold challenge
  rw [List.getElem?_append_left hbest, List.getElem?_append_left hi]

theorem challenge_lt (core : Core T) (tips : List (VerifiedTip T)) {best i : ℕ}
    (hbest : best < tips.length) (hi : i < tips.length) : challenge core tips best i < tips.length := by
  unfold challenge
  split
  · split_ifs
    · exact hi
    · exact hbest
  · exact hbest

theorem foldl_challenge_append (core : Core T) (tips tips' : List (VerifiedTip T)) (is : List ℕ)
    (his : ∀ i ∈ is, i < tips.length) {best : ℕ} (hbest : best < tips.length) :
    is.foldl (challenge core (tips ++ tips')) best = is.foldl (challenge core tips) best ∧
      is.foldl (challenge core tips) best < tips.length := by
  induction is generalizing best with
  | nil => exact ⟨rfl, hbest⟩
  | cons i is ih =>
    have hi := his i (by simp)
    rw [List.foldl_cons, List.foldl_cons, challenge_append core tips tips' hbest hi]
    exact ih (fun j hj => his j (by simp [hj])) (challenge_lt core tips hbest hi)

theorem selectCanonical_singleton (core : Core T) (tip : VerifiedTip T) :
    selectCanonical core [tip] = some 0 := rfl

theorem selectCanonical_snoc (core : Core T) {tips : List (VerifiedTip T)} {w : ℕ}
    {t : VerifiedTip T} (hw : selectCanonical core tips = some w) (ht : tips[w]? = some t)
    (tip : VerifiedTip T) :
    selectCanonical core (tips ++ [tip]) =
      some (if prefersCandidate core t tip then tips.length else w) := by
  have hne : tips ≠ [] := by
    rintro rfl
    simp at ht
  have hpos : 0 < tips.length := List.length_pos_iff.mpr hne
  have hrange : List.range' 1 tips.length = List.range' 1 (tips.length - 1) ++ [tips.length] := by
    have h : List.range' 1 (tips.length - 1 + 1) =
        List.range' 1 (tips.length - 1) ++ [1 + 1 * (tips.length - 1)] := List.range'_concat
    rw [Nat.sub_add_cancel hpos] at h
    rw [h]
    congr 2
    omega
  have his : ∀ i ∈ List.range' 1 (tips.length - 1), i < tips.length := by
    intro i hi
    have := List.mem_range'_1.mp hi
    omega
  unfold selectCanonical at hw ⊢
  rw [if_neg (by simpa using hne), Option.some.injEq] at hw
  obtain ⟨happ, hlt⟩ := foldl_challenge_append core tips [tip] _ his hpos
  rw [if_neg (by simp), List.length_append, List.length_singleton, Nat.add_sub_cancel, hrange,
    List.foldl_append, happ, hw]
  rw [hw] at hlt
  simp [challenge, List.getElem?_append_left hlt, ht]

/-! ## The winner -/

section Winner
variable {tips : List (VerifiedTip T)} {t : VerifiedTip T}

/-- What the loop of `select_canonical` keeps: the best so far is the maximum of the tips seen, and no
tip before it has its hash. -/
def Wins (core : Core T) (tips : List (VerifiedTip T)) (w : ℕ) (t : VerifiedTip T) : Prop :=
  tips[w]? = some t ∧ Maximum core tips t ∧
    ∀ i s, i < w → tips[i]? = some s → s.stateHash ≠ t.stateHash

theorem Wins.snoc {w : ℕ} (hwins : Wins core tips w t) (tip : VerifiedTip T)
    (h : OrderedOn core (tips ++ [tip])) :
    Wins core (tips ++ [tip]) (if prefersCandidate core t tip then tips.length else w)
      (if prefersCandidate core t tip then tip else t) := by
  obtain ⟨hw, hmax, hfirst⟩ := hwins
  have hlt := (List.getElem?_eq_some_iff.mp hw).1
  have ht : t ∈ tips ++ [tip] := by simp [hmax.1]
  have htip : tip ∈ tips ++ [tip] := by simp
  by_cases htake : prefersCandidate core t tip = true
  · have hne : tip.stateHash ≠ t.stateHash := by
      intro he
      rw [h.irrefl t ht tip htip he.symm] at htake
      exact Bool.false_ne_true htake
    have hsnoc := hmax.snoc h hne
    rw [if_pos htake] at hsnoc
    rw [if_pos htake, if_pos htake]
    refine ⟨by simp, hsnoc, ?_⟩
    intro i s hi hs he
    -- a tip of the new hash was seen before and lost to the best so far
    rw [List.getElem?_append_left hi] at hs
    have hmem : s ∈ tips := List.mem_of_getElem? hs
    have hsmem : s ∈ tips ++ [tip] := by simp [hmem]
    have hlost := hmax.2 s hmem (he ▸ hne)
    have hself := h.trans s hsmem t ht tip htip hlost htake
    rw [h.irrefl s hsmem tip htip he] at hself
    exact Bool.false_ne_true hself
  · rw [if_neg htake, if_neg htake]
    refine ⟨by rw [List.getElem?_append_left hlt, hw], ?_, ?_⟩
    · by_cases he : tip.stateHash = t.stateHash
      · exact hmax.snoc_old h hmax.1 he.symm
      · have hsnoc := hmax.snoc h he
        rwa [if_neg htake] at hsnoc
    · intro i s hi hs
      rw [List.getElem?_append_left (by omega)] at hs
      exact hfirst i s hi hs

theorem selectCanonical_wins (hne : tips ≠ []) (h : OrderedOn core tips) :
    ∃ w t, selectCanonical core tips = some w ∧ Wins core tips w t := by
  induction tips using List.reverseRecOn with
  | nil => exact absurd rfl hne
  | append_singleton tips tip ih =>
    by_cases hempty : tips = []
    · subst hempty
      refine ⟨0, tip, selectCanonical_singleton core tip, rfl, ⟨by simp, ?_⟩, by simp⟩
      intro s hs hother
      rw [List.nil_append, List.mem_singleton] at hs
      exact absurd (by rw [hs]) hother
    · obtain ⟨w, t, hselect, hwins⟩ := ih hempty (h.mono (List.subset_append_left _ _))
      exact ⟨_, _, selectCanonical_snoc core hselect hwins.1 tip, hwins.snoc tip h⟩

theorem compareTips_of_ne [DecidableEq T.StateHash] (core : Core T) {a b : VerifiedTip T}
    (hne : a.stateHash ≠ b.stateHash) :
    ∃ range, compareTips core a b = .diverged (prefersCandidate core a b) range := by
  unfold compareTips
  rw [if_neg hne]
  exact ⟨_, rfl⟩

end Winner

/-- **`select_canonical` finds the one winner, whatever the order of the tips.** -/
theorem selectCanonical_winner [DecidableEq T.StateHash] {tips : List (VerifiedTip T)}
    (hne : tips ≠ []) (h : OrderedOn core tips) :
    ∃ w t, selectCanonical core tips = some w ∧ tips[w]? = some t ∧
      (∀ (i : ℕ) s, tips[i]? = some s → s.stateHash ≠ t.stateHash →
        (∃ range, compareTips core s t = .diverged true range) ∧
        ∃ range, compareTips core t s = .diverged false range) ∧
      (∀ i s, i < w → tips[i]? = some s → s.stateHash ≠ t.stateHash) ∧
      ∀ tips', tips'.Perm tips →
        ∃ w' t', selectCanonical core tips' = some w' ∧ tips'[w']? = some t' ∧
          t'.stateHash = t.stateHash := by
  obtain ⟨w, t, hselect, hw, hmax, hfirst⟩ := selectCanonical_wins hne h
  refine ⟨w, t, hselect, hw, ?_, hfirst, ?_⟩
  · intro i s hs hother
    have hmem : s ∈ tips := List.mem_of_getElem? hs
    have hlost := hmax.2 s hmem hother
    obtain ⟨range, hst⟩ := compareTips_of_ne core hother
    obtain ⟨range', hts⟩ := compareTips_of_ne core (Ne.symm hother)
    rw [hlost] at hst
    rw [h.asymm hmem hmax.1 hlost] at hts
    exact ⟨⟨range, hst⟩, range', hts⟩
  · intro tips' hperm
    have hne' : tips' ≠ [] := by
      rintro rfl
      exact hne hperm.nil_eq.symm
    obtain ⟨w', t', hselect', hw', hmax', _⟩ := selectCanonical_wins hne' (h.mono hperm.subset)
    refine ⟨w', t', hselect', hw', ?_⟩
    apply hmax'.unique (h.mono (by simp [hperm.subset])) hmax
    intro x
    exact (hperm.map VerifiedTip.stateHash).mem_iff

/-- The longest chain wins against a shorter one that is given twice. -/
theorem selectCanonical_winner_repeated :
    ∃ w t, selectCanonical Sample.minaCore
        [Sample.tip "a" "g" 2, Sample.tip "b" "a" 3, Sample.tip "a" "g" 2] = some w ∧
      [Sample.tip "a" "g" 2, Sample.tip "b" "a" 3, Sample.tip "a" "g" 2][w]? = some t ∧
      ∃ w' t', selectCanonical Sample.minaCore
          [Sample.tip "b" "a" 3, Sample.tip "a" "g" 2, Sample.tip "a" "g" 2] = some w' ∧
        [Sample.tip "b" "a" 3, Sample.tip "a" "g" 2, Sample.tip "a" "g" 2][w']? = some t' ∧
        t'.stateHash = t.stateHash := by
  have hordered : OrderedOn Sample.minaCore
      [Sample.tip "a" "g" 2, Sample.tip "b" "a" 3, Sample.tip "a" "g" 2] :=
    ⟨by decide +kernel, by decide +kernel, by decide +kernel⟩
  obtain ⟨w, t, hselect, hw, _, _, hperm⟩ := selectCanonical_winner (by simp) hordered
  exact ⟨w, t, hselect, hw, hperm _ (List.Perm.swap _ _ _)⟩

end MinaVerify
