import Mathlib.Data.Finset.Prod
import MinaVerify.Foundations.Links
import MinaVerify.Monitor.Run

/-! # The common ancestor of two blocks of a window

The two loops of `common_ancestor` over the parent links of a window, in the terms of `Links`:

* on acyclic links both loops end, whatever the heights (`commonAncestor_ends`), and running out of
  `rounds` is never ending (`commonAncestor_diverged`);
* a key returned is reached from both blocks (`commonAncestor_sound`);
* with heights that follow the links, the key returned is the highest common one, and there is one to
  return exactly when the two chains meet (`commonAncestor_spec`). The meeting point may be a parent
  that is itself absent from the window.
-/
namespace MinaVerify
set_option autoImplicit false
open Links

variable {T : Types} {nodes : Nodes T}

def parentIn (nodes : Nodes T) (k : String) : Option String := (nodes.lookup k).map Node.prev

theorem parentIn_eq_some {k p : String} :
    parentIn nodes k = some p ↔ ∃ n, nodes.lookup k = some n ∧ n.prev = p := by
  simp [parentIn]

theorem parentIn_of_lookup {k : String} {n : Node T} (h : nodes.lookup k = some n) :
    parentIn nodes k = some n.prev := by
  simp [parentIn, h]

theorem present_iff {k : String} : (∃ p, parentIn nodes k = some p) ↔ k ∈ nodes := by
  rw [← AList.lookup_isSome, Option.isSome_iff_exists]
  simp [parentIn]

/-- There is a height for every key that agrees with the stored ones and drops by one along every
link. -/
def LinkConsistent (ht : String → ℤ) (nodes : Nodes T) : Prop :=
  ∀ k n, nodes.lookup k = some n → ht k = n.height.toNat ∧ ht k = ht n.prev + 1

theorem LinkConsistent.graded {ht : String → ℤ} (h : LinkConsistent ht nodes) :
    Graded (parentIn nodes) ht := by
  intro k p hp
  obtain ⟨n, hn, rfl⟩ := parentIn_eq_some.mp hp
  exact (h k n hn).2

/-! ## The rounds of the two loops -/

theorem levelStep_inl {x y : String} {s : String × String} (h : levelStep nodes (x, y) = .inl s) :
    ∃ nx ny, nodes.lookup x = some nx ∧ nodes.lookup y = some ny ∧
      ((ny.height.toNat < nx.height.toNat ∧ s = (nx.prev, y)) ∨
        (nx.height.toNat < ny.height.toNat ∧ s = (x, ny.prev))) := by
  simp only [levelStep] at h
  split at h
  · next nx ny hx hy =>
    refine ⟨nx, ny, hx, hy, ?_⟩
    split_ifs at h with heq hgt
    · rw [Sum.inl.injEq] at h
      exact Or.inl ⟨UInt32.lt_iff_toNat_lt.mp hgt, h.symm⟩
    · rw [Sum.inl.injEq] at h
      have hne : nx.height.toNat ≠ ny.height.toNat := fun he => heq (UInt32.toNat_inj.mp he)
      have hle : ¬ ny.height.toNat < nx.height.toNat := fun hl => hgt (UInt32.lt_iff_toNat_lt.mpr hl)
      exact Or.inr ⟨by omega, h.symm⟩
  · simp at h

theorem lookup_eq_none_or {x y : String}
    (h : ∀ nx ny, nodes.lookup x = some nx → nodes.lookup y = some ny → False) :
    nodes.lookup x = none ∨ nodes.lookup y = none := by
  cases hx : nodes.lookup x with
  | none => exact Or.inl rfl
  | some nx =>
    cases hy : nodes.lookup y with
    | none => exact Or.inr rfl
    | some ny => exact absurd hy (h nx ny hx)

theorem levelStep_inr {x y : String} {r : Option (String × String)}
    (h : levelStep nodes (x, y) = .inr r) :
    (r = none ∧ (nodes.lookup x = none ∨ nodes.lookup y = none)) ∨
      ∃ nx ny, nodes.lookup x = some nx ∧ nodes.lookup y = some ny ∧ nx.height = ny.height ∧
        r = some (x, y) := by
  simp only [levelStep] at h
  split at h
  · next nx ny hx hy =>
    right
    refine ⟨nx, ny, hx, hy, ?_⟩
    split_ifs at h with heq
    rw [Sum.inr.injEq] at h
    exact ⟨heq, h.symm⟩
  · next hmiss =>
    left
    rw [Sum.inr.injEq] at h
    exact ⟨h.symm, lookup_eq_none_or hmiss⟩

theorem lockStep_inl {x y : String} {s : String × String} (h : lockStep nodes (x, y) = .inl s) :
    x ≠ y ∧ ∃ nx ny, nodes.lookup x = some nx ∧ nodes.lookup y = some ny ∧
      s = (nx.prev, ny.prev) := by
  simp only [lockStep] at h
  split_ifs at h with heq
  split at h
  · next nx ny hx hy =>
    rw [Sum.inl.injEq] at h
    exact ⟨heq, nx, ny, hx, hy, h.symm⟩
  · simp at h

theorem lockStep_inr {x y : String} {r : Option String} (h : lockStep nodes (x, y) = .inr r) :
    (x = y ∧ r = some x) ∨
      (x ≠ y ∧ r = none ∧ (nodes.lookup x = none ∨ nodes.lookup y = none)) := by
  simp only [lockStep] at h
  split_ifs at h with heq
  · rw [Sum.inr.injEq] at h
    exact Or.inl ⟨heq, h.symm⟩
  · split at h
    · simp at h
    · next hmiss =>
      rw [Sum.inr.injEq] at h
      exact Or.inr ⟨heq, h.symm, lookup_eq_none_or hmiss⟩

/-! ## Fuel -/

/-- The pairs of present keys, the only states in which either loop goes round again. -/
def cursorPairs (nodes : Nodes T) : Finset (String × String) :=
  nodes.keys.toFinset ×ˢ nodes.keys.toFinset

theorem card_cursorPairs (nodes : Nodes T) : (cursorPairs nodes).card + 1 ≤ rounds nodes := by
  unfold cursorPairs rounds
  rw [Finset.card_product]
  have h := List.toFinset_card_le nodes.keys
  have := Nat.mul_le_mul h h
  omega

theorem mem_cursorPairs {x y : String} {nx ny : Node T} (hx : nodes.lookup x = some nx)
    (hy : nodes.lookup y = some ny) : (x, y) ∈ cursorPairs nodes := by
  have hmem : ∀ {k : String} {n : Node T}, nodes.lookup k = some n → k ∈ nodes.keys.toFinset := by
    intro k n hk
    rw [List.mem_toFinset, ← AList.mem_keys, ← AList.lookup_isSome, hk]
    rfl
  exact Finset.mem_product.mpr ⟨hmem hx, hmem hy⟩

theorem mem_of_levelStep {s s' : String × String} (h : levelStep nodes s = .inl s') :
    s ∈ cursorPairs nodes := by
  obtain ⟨nx, ny, hx, hy, _⟩ := levelStep_inl h
  exact mem_cursorPairs hx hy

theorem mem_of_lockStep {s s' : String × String} (h : lockStep nodes s = .inl s') :
    s ∈ cursorPairs nodes := by
  obtain ⟨_, nx, ny, hx, hy, _⟩ := lockStep_inl h
  exact mem_cursorPairs hx hy

theorem level_rounds {n : ℕ} {s : String × String} {r : Option (String × String)}
    (h : Loop.iterate (levelStep nodes) n s = some r) :
    Loop.iterate (levelStep nodes) (rounds nodes) s = some r :=
  Loop.iterate_card (fun _ _ => mem_of_levelStep) (card_cursorPairs nodes) h

theorem lock_rounds {n : ℕ} {s : String × String} {r : Option String}
    (h : Loop.iterate (lockStep nodes) n s = some r) :
    Loop.iterate (lockStep nodes) (rounds nodes) s = some r :=
  Loop.iterate_card (fun _ _ => mem_of_lockStep) (card_cursorPairs nodes) h

theorem commonAncestor_diverged {a b : String} :
    commonAncestor nodes a b = .diverged ↔
      (∀ n, Loop.iterate (levelStep nodes) n (a, b) = none) ∨
      ∃ n cursors, Loop.iterate (levelStep nodes) n (a, b) = some (some cursors) ∧
        ∀ k, Loop.iterate (lockStep nodes) k cursors = none := by
  have hlevel : ∀ s, Loop.iterate (levelStep nodes) (rounds nodes) s = none ↔
      ∀ n, Loop.iterate (levelStep nodes) n s = none :=
    fun _ => Loop.iterate_card_none (fun _ _ => mem_of_levelStep) (card_cursorPairs nodes)
  have hlock : ∀ s, Loop.iterate (lockStep nodes) (rounds nodes) s = none ↔
      ∀ n, Loop.iterate (lockStep nodes) n s = none :=
    fun _ => Loop.iterate_card_none (fun _ _ => mem_of_lockStep) (card_cursorPairs nodes)
  unfold commonAncestor
  constructor
  · intro h
    split at h
    · next h1 => exact Or.inl ((hlevel _).mp h1)
    · simp at h
    · next cursors h1 =>
      right
      refine ⟨_, cursors, h1, ?_⟩
      split at h
      · next h2 => exact (hlock _).mp h2
      · simp at h
  · rintro (h | ⟨n, cursors, h1, h2⟩)
    · simp [(hlevel _).mpr h]
    · simp [level_rounds h1, (hlock _).mpr h2]

/-! ## Termination and soundness -/

theorem exists_window_rank (h : Acyclic (parentIn nodes)) :
    ∃ rank : String → ℕ, ∀ k p, parentIn nodes k = some p → rank p < rank k := by
  apply h.exists_rank nodes.keys.toFinset
  intro k p hp
  rw [List.mem_toFinset, ← AList.mem_keys]
  exact present_iff.mp ⟨p, hp⟩

theorem level_ends (h : Acyclic (parentIn nodes)) (s : String × String) :
    ∃ n r, Loop.iterate (levelStep nodes) n s = some r := by
  obtain ⟨rank, hrank⟩ := exists_window_rank h
  refine ⟨_, Loop.iterate_ends (fun s => rank s.1 + rank s.2) ?_ s⟩
  intro s s' hs
  obtain ⟨x, y⟩ := s
  obtain ⟨nx, ny, hx, hy, ⟨_, rfl⟩ | ⟨_, rfl⟩⟩ := levelStep_inl hs
  · have := hrank x nx.prev (parentIn_of_lookup hx)
    simp only
    omega
  · have := hrank y ny.prev (parentIn_of_lookup hy)
    simp only
    omega

theorem lock_ends (h : Acyclic (parentIn nodes)) (s : String × String) :
    ∃ n r, Loop.iterate (lockStep nodes) n s = some r := by
  obtain ⟨rank, hrank⟩ := exists_window_rank h
  refine ⟨_, Loop.iterate_ends (fun s => rank s.1 + rank s.2) ?_ s⟩
  intro s s' hs
  obtain ⟨x, y⟩ := s
  obtain ⟨_, nx, ny, hx, hy, rfl⟩ := lockStep_inl hs
  have h1 := hrank x nx.prev (parentIn_of_lookup hx)
  have h2 := hrank y ny.prev (parentIn_of_lookup hy)
  simp only
  omega

theorem commonAncestor_ends (h : Acyclic (parentIn nodes)) (a b : String) :
    ∃ common, commonAncestor nodes a b = .returned common := by
  obtain ⟨n, r, h1⟩ := level_ends h (a, b)
  unfold commonAncestor
  rw [level_rounds h1]
  cases r with
  | none => exact ⟨none, rfl⟩
  | some cursors =>
    obtain ⟨k, r', h2⟩ := lock_ends h cursors
    simp only [lock_rounds h2]
    exact ⟨r', rfl⟩

theorem commonAncestor_eq_returned {a b : String} {common : Option String}
    (h : commonAncestor nodes a b = .returned common) :
    (common = none ∧ Loop.iterate (levelStep nodes) (rounds nodes) (a, b) = some none) ∨
      ∃ cursors, Loop.iterate (levelStep nodes) (rounds nodes) (a, b) = some (some cursors) ∧
        Loop.iterate (lockStep nodes) (rounds nodes) cursors = some common := by
  unfold commonAncestor at h
  split at h
  · simp at h
  · next h1 =>
    rw [Outcome.returned.injEq] at h
    exact Or.inl ⟨h.symm, h1⟩
  · next cursors h1 =>
    split at h
    · simp at h
    · next r h2 =>
      rw [Outcome.returned.injEq] at h
      exact Or.inr ⟨cursors, h1, h ▸ h2⟩

theorem level_reaches {a b : String} {n : ℕ} {s : String × String}
    (h : Loop.iterate (levelStep nodes) n (a, b) = some (some s)) :
    Reaches (parentIn nodes) a s.1 ∧ Reaches (parentIn nodes) b s.2 := by
  refine Loop.iterate_inv (fun s => Reaches (parentIn nodes) a s.1 ∧ Reaches (parentIn nodes) b s.2)
    (fun r => ∀ s, r = some s → Reaches (parentIn nodes) a s.1 ∧ Reaches (parentIn nodes) b s.2)
    ?_ ?_ ⟨Reaches.refl a, Reaches.refl b⟩ h s rfl
  · intro s s' hxy hs
    obtain ⟨x, y⟩ := s
    obtain ⟨nx, ny, hx, hy, ⟨_, rfl⟩ | ⟨_, rfl⟩⟩ := levelStep_inl hs
    · exact ⟨hxy.1.tail (parentIn_of_lookup hx), hxy.2⟩
    · exact ⟨hxy.1, hxy.2.tail (parentIn_of_lookup hy)⟩
  · intro s r hxy hs t ht
    obtain ⟨x, y⟩ := s
    subst ht
    obtain ⟨h, _⟩ | ⟨_, _, _, _, _, h⟩ := levelStep_inr hs
    · simp at h
    · rw [Option.some.injEq] at h
      exact h ▸ hxy

theorem lock_reaches {a b c : String} {n : ℕ}
    (h : Loop.iterate (lockStep nodes) n (a, b) = some (some c)) :
    Reaches (parentIn nodes) a c ∧ Reaches (parentIn nodes) b c := by
  refine Loop.iterate_inv (fun s => Reaches (parentIn nodes) a s.1 ∧ Reaches (parentIn nodes) b s.2)
    (fun r => ∀ k, r = some k → Reaches (parentIn nodes) a k ∧ Reaches (parentIn nodes) b k)
    ?_ ?_ ⟨Reaches.refl a, Reaches.refl b⟩ h c rfl
  · intro s s' hxy hs
    obtain ⟨x, y⟩ := s
    obtain ⟨_, nx, ny, hx, hy, rfl⟩ := lockStep_inl hs
    exact ⟨hxy.1.tail (parentIn_of_lookup hx), hxy.2.tail (parentIn_of_lookup hy)⟩
  · intro s r hxy hs k hk
    obtain ⟨x, y⟩ := s
    subst hk
    obtain ⟨rfl, h⟩ | ⟨_, h, _⟩ := lockStep_inr hs
    · rw [Option.some.injEq] at h
      exact h ▸ hxy
    · simp at h

theorem commonAncestor_sound {a b c : String}
    (h : commonAncestor nodes a b = .returned (some c)) :
    Reaches (parentIn nodes) a c ∧ Reaches (parentIn nodes) b c := by
  obtain ⟨h1, _⟩ | ⟨⟨x, y⟩, h1, h2⟩ := commonAncestor_eq_returned h
  · simp at h1
  · obtain ⟨hax, hby⟩ := level_reaches h1
    obtain ⟨hxc, hyc⟩ := lock_reaches h2
    exact ⟨hax.trans hxc, hby.trans hyc⟩

/-! ## With heights that follow the links -/

section Heights
variable {ht : String → ℤ}

theorem LinkConsistent.height_eq (hc : LinkConsistent ht nodes) {x y : String} {nx ny : Node T}
    (hx : nodes.lookup x = some nx) (hy : nodes.lookup y = some ny) (h : nx.height = ny.height) :
    ht x = ht y := by
  rw [(hc x nx hx).1, (hc y ny hy).1, h]

/-- Levelling the higher cursor keeps the highest common key and does not leave the window: an
absent parent would be that key, at the height of the other cursor, which is present. -/
theorem level_invariant (hc : LinkConsistent ht nodes) {x y c : String} {nx ny : Node T}
    (hx : nodes.lookup x = some nx) (hy : nodes.lookup y = some ny)
    (hlt : ny.height.toNat < nx.height.toNat) (h : HighestCommon (parentIn nodes) ht x y c) :
    nx.prev ∈ nodes ∧ HighestCommon (parentIn nodes) ht nx.prev y c := by
  have hgr := hc.graded
  have hxp := parentIn_of_lookup hx
  have hhx := hc x nx hx
  have hhy := hc y ny hy
  have hyc := hgr.le h.right
  have hne : x ≠ c := by
    rintro rfl
    omega
  have hstep := h.step hxp hne
  refine ⟨?_, hstep⟩
  by_contra habs
  have hnone : parentIn nodes nx.prev = none := by
    simp [parentIn, AList.lookup_eq_none.mpr habs]
  have hcp : c = nx.prev := hstep.left.eq_of_absent hnone
  have hcy : c = y := hgr.eq_of_reaches h.right (by rw [hcp] at hyc ⊢; omega)
  exact habs (hcp ▸ hcy ▸ present_iff.mp ⟨_, parentIn_of_lookup hy⟩)

theorem lock_invariant (hc : LinkConsistent ht nodes) {x y c : String} (hne : x ≠ y)
    (heq : ht x = ht y) (h : HighestCommon (parentIn nodes) ht x y c) :
    ∃ nx ny, nodes.lookup x = some nx ∧ nodes.lookup y = some ny ∧ ht nx.prev = ht ny.prev ∧
      HighestCommon (parentIn nodes) ht nx.prev ny.prev c := by
  have hgr := hc.graded
  have hxc : x ≠ c := by
    rintro rfl
    exact hne (hgr.eq_of_reaches h.right heq)
  have hyc : y ≠ c := by
    rintro rfl
    exact hne (hgr.eq_of_reaches h.left heq.symm).symm
  obtain ⟨px, hpx⟩ := h.left.present hxc.symm
  obtain ⟨py, hpy⟩ := h.right.present hyc.symm
  obtain ⟨nx, hx, rfl⟩ := parentIn_eq_some.mp hpx
  obtain ⟨ny, hy, rfl⟩ := parentIn_eq_some.mp hpy
  refine ⟨nx, ny, hx, hy, ?_, ((h.step hpx hxc).symm.step hpy hyc).symm⟩
  have h1 := (hc x nx hx).2
  have h2 := (hc y ny hy).2
  omega

theorem level_complete (hc : LinkConsistent ht nodes) {a b c : String} (ha : a ∈ nodes)
    (hb : b ∈ nodes) (h : HighestCommon (parentIn nodes) ht a b c) {n : ℕ}
    {r : Option (String × String)} (hr : Loop.iterate (levelStep nodes) n (a, b) = some r) :
    ∃ s, r = some s ∧ ht s.1 = ht s.2 ∧ HighestCommon (parentIn nodes) ht s.1 s.2 c := by
  refine Loop.iterate_inv
    (fun s => s.1 ∈ nodes ∧ s.2 ∈ nodes ∧ HighestCommon (parentIn nodes) ht s.1 s.2 c)
    (fun r => ∃ s, r = some s ∧ ht s.1 = ht s.2 ∧ HighestCommon (parentIn nodes) ht s.1 s.2 c)
    ?_ ?_ ⟨ha, hb, h⟩ hr
  · intro s s' hinv hs
    obtain ⟨x, y⟩ := s
    obtain ⟨hxm, hym, hxy⟩ := hinv
    obtain ⟨nx, ny, hx, hy, ⟨hlt, rfl⟩ | ⟨hlt, rfl⟩⟩ := levelStep_inl hs
    · obtain ⟨hmem, hstep⟩ := level_invariant hc hx hy hlt hxy
      exact ⟨hmem, hym, hstep⟩
    · obtain ⟨hmem, hstep⟩ := level_invariant hc hy hx hlt hxy.symm
      exact ⟨hxm, hmem, hstep.symm⟩
  · intro s r hinv hs
    obtain ⟨x, y⟩ := s
    obtain ⟨hxm, hym, hxy⟩ := hinv
    obtain ⟨_, hmiss | hmiss⟩ | ⟨nx, ny, hx, hy, heq, rfl⟩ := levelStep_inr hs
    · exact absurd hxm (AList.lookup_eq_none.mp hmiss)
    · exact absurd hym (AList.lookup_eq_none.mp hmiss)
    · exact ⟨(x, y), rfl, hc.height_eq hx hy heq, hxy⟩

theorem lock_complete (hc : LinkConsistent ht nodes) {s : String × String} {c : String}
    (heq : ht s.1 = ht s.2) (h : HighestCommon (parentIn nodes) ht s.1 s.2 c) {n : ℕ}
    {r : Option String} (hr : Loop.iterate (lockStep nodes) n s = some r) : r = some c := by
  refine Loop.iterate_inv
    (fun s => ht s.1 = ht s.2 ∧ HighestCommon (parentIn nodes) ht s.1 s.2 c)
    (fun r => r = some c) ?_ ?_ ⟨heq, h⟩ hr
  · intro s s' hinv hs
    obtain ⟨x, y⟩ := s
    obtain ⟨heq, hxy⟩ := hinv
    obtain ⟨hne, nx, ny, hx, hy, rfl⟩ := lockStep_inl hs
    obtain ⟨nx', ny', hx', hy', hprev, hstep⟩ := lock_invariant hc hne heq hxy
    rw [hx, Option.some.injEq] at hx'
    rw [hy, Option.some.injEq] at hy'
    subst hx' hy'
    exact ⟨hprev, hstep⟩
  · intro s r hinv hs
    obtain ⟨x, y⟩ := s
    obtain ⟨heq, hxy⟩ := hinv
    obtain ⟨hxy', rfl⟩ | ⟨hne, _, hmiss⟩ := lockStep_inr hs
    · subst hxy'
      rw [hxy.self hc.graded]
    · obtain ⟨nx, ny, hx, hy, _⟩ := lock_invariant hc hne heq hxy
      simp [hx, hy] at hmiss

theorem commonAncestor_complete (hc : LinkConsistent ht nodes) {a b c : String} (ha : a ∈ nodes)
    (hb : b ∈ nodes) (h : HighestCommon (parentIn nodes) ht a b c) :
    commonAncestor nodes a b = .returned (some c) := by
  obtain ⟨common, hres⟩ := commonAncestor_ends hc.graded.acyclic a b
  obtain ⟨_, h1⟩ | ⟨cursors, h1, h2⟩ := commonAncestor_eq_returned hres
  · obtain ⟨s, hs, _⟩ := level_complete hc ha hb h h1
    simp at hs
  · obtain ⟨s, hs, heq, hcom⟩ := level_complete hc ha hb h h1
    rw [Option.some.injEq] at hs
    subst hs
    rw [hres, lock_complete hc heq hcom h2]

theorem commonAncestor_spec (hc : LinkConsistent ht nodes) {a b : String} (ha : a ∈ nodes)
    (hb : b ∈ nodes) :
    (∃ c, commonAncestor nodes a b = .returned (some c) ∧
      HighestCommon (parentIn nodes) ht a b c) ∨
    (commonAncestor nodes a b = .returned none ∧
      ∀ c, Reaches (parentIn nodes) a c → ¬ Reaches (parentIn nodes) b c) := by
  by_cases hmeet : ∃ d, Reaches (parentIn nodes) a d ∧ Reaches (parentIn nodes) b d
  · obtain ⟨d, had, hbd⟩ := hmeet
    obtain ⟨c, hcom⟩ := exists_highestCommon hc.graded had hbd
    exact Or.inl ⟨c, commonAncestor_complete hc ha hb hcom, hcom⟩
  · right
    obtain ⟨common, hres⟩ := commonAncestor_ends hc.graded.acyclic a b
    refine ⟨?_, fun c hac hbc => hmeet ⟨c, hac, hbc⟩⟩
    cases common with
    | none => exact hres
    | some c =>
      obtain ⟨hac, hbc⟩ := commonAncestor_sound hres
      exact absurd ⟨c, hac, hbc⟩ hmeet

end Heights
end MinaVerify
