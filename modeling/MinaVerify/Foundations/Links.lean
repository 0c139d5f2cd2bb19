import Mathlib.Logic.Relation
import Mathlib.Data.Finset.Card
import Mathlib.Data.Fintype.Card
import Mathlib.Algebra.Order.Ring.Int

/-! # Parent links

A finite map of nodes, each naming its parent, seen as a partial function `parent`: it is `none`
where the node itself is absent. A link leaves a present node and may arrive at an absent one, so a
chain of links stops at the first absent key.

* `Reaches`: zero or more links. Links are functional, so what a node reaches is a chain.
* `Graded`: heights that drop by one along every link. Two keys of one chain at one height are equal.
* `HighestCommon`: the common key of two chains with the greatest height, and how it moves when one
  of the two chains is followed by one link.
* `Acyclic`: no key reaches itself by one or more links; over finitely many present nodes this gives
  a rank that every link lowers.
-/
namespace MinaVerify.Links
set_option autoImplicit false

variable {κ : Type} {parent : κ → Option κ}

def Link (parent : κ → Option κ) (a p : κ) : Prop := parent a = some p

/-- `c` is reached from `a` by zero or more links, each leaving a present node. -/
def Reaches (parent : κ → Option κ) : κ → κ → Prop := Relation.ReflTransGen (Link parent)

theorem Reaches.refl (a : κ) : Reaches parent a a := Relation.ReflTransGen.refl

theorem Reaches.tail {a b c : κ} (hab : Reaches parent a b) (hbc : parent b = some c) :
    Reaches parent a c := Relation.ReflTransGen.tail hab hbc

theorem Reaches.head {a b c : κ} (hab : parent a = some b) (hbc : Reaches parent b c) :
    Reaches parent a c := Relation.ReflTransGen.head hab hbc

theorem link_rightUnique (parent : κ → Option κ) : Relator.RightUnique (Link parent) := by
  intro a p q hp hq
  exact Option.some.inj (hp.symm.trans hq)

theorem Reaches.total {a c d : κ} (hc : Reaches parent a c) (hd : Reaches parent a d) :
    Reaches parent c d ∨ Reaches parent d c :=
  Relation.ReflTransGen.total_of_right_unique (link_rightUnique parent) hc hd

theorem Reaches.cases_head {a c : κ} (h : Reaches parent a c) :
    a = c ∨ ∃ p, parent a = some p ∧ Reaches parent p c :=
  Relation.ReflTransGen.cases_head h

theorem Reaches.of_parent {a p c : κ} (h : Reaches parent a c) (hp : parent a = some p)
    (hne : a ≠ c) : Reaches parent p c := by
  obtain rfl | ⟨q, hq, hqc⟩ := h.cases_head
  · exact absurd rfl hne
  · rw [hp, Option.some.injEq] at hq
    exact hq ▸ hqc

theorem Reaches.eq_of_absent {a c : κ} (h : Reaches parent a c) (ha : parent a = none) : c = a := by
  obtain rfl | ⟨p, hp, _⟩ := h.cases_head
  · rfl
  · simp [ha] at hp

theorem Reaches.present {a c : κ} (h : Reaches parent a c) (hne : c ≠ a) : ∃ p, parent a = some p := by
  obtain rfl | ⟨p, hp, _⟩ := h.cases_head
  · exact absurd rfl hne
  · exact ⟨p, hp⟩

theorem Reaches.present_of_present {c d : κ} (hd : Reaches parent c d)
    (hpd : ∃ p, parent d = some p) : ∃ p, parent c = some p := by
  by_cases hdc : d = c
  · exact hdc ▸ hpd
  · exact hd.present hdc

/-! ## Heights -/

/-- Heights drop by one along every link. -/
def Graded (parent : κ → Option κ) (ht : κ → ℤ) : Prop :=
  ∀ a p, parent a = some p → ht a = ht p + 1

section Graded
variable {ht : κ → ℤ}

theorem Graded.le (hg : Graded parent ht) {a c : κ} (h : Reaches parent a c) : ht c ≤ ht a := by
  induction h with
  | refl => exact le_refl _
  | tail _ hp ih =>
    have := hg _ _ hp
    omega

theorem Graded.eq_of_reaches (hg : Graded parent ht) {a c : κ} (h : Reaches parent a c)
    (he : ht c = ht a) : c = a := by
  obtain rfl | ⟨p, hp, hpc⟩ := h.cases_head
  · rfl
  · have h1 := hg a p hp
    have h2 := hg.le hpc
    omega

theorem Graded.reaches_of_le (hg : Graded parent ht) {a c d : κ} (hc : Reaches parent a c)
    (hd : Reaches parent a d) (hle : ht d ≤ ht c) : Reaches parent c d := by
  rcases hc.total hd with h | h
  · exact h
  · have hcd : c = d := hg.eq_of_reaches h (by have := hg.le h; omega)
    exact hcd ▸ Reaches.refl c

/-! ## Counting links -/

/-- The key a number of links away, if the chain is that long. -/
def ancestorAt (parent : κ → Option κ) : ℕ → κ → Option κ
  | 0, a => some a
  | k + 1, a => (parent a).bind (ancestorAt parent k)

theorem Reaches.exists_ancestorAt {a c : κ} (h : Reaches parent a c) :
    ∃ k, ancestorAt parent k a = some c := by
  induction h using Relation.ReflTransGen.head_induction_on with
  | refl => exact ⟨0, rfl⟩
  | @head a p hp _ ih =>
    obtain ⟨k, hk⟩ := ih
    have hlink : parent a = some p := hp
    exact ⟨k + 1, by rw [ancestorAt, hlink, Option.bind_some, hk]⟩

theorem reaches_of_ancestorAt {k : ℕ} {a c : κ} (h : ancestorAt parent k a = some c) :
    Reaches parent a c := by
  induction k generalizing a with
  | zero =>
    rw [ancestorAt, Option.some.injEq] at h
    exact h ▸ Reaches.refl a
  | succ k ih =>
    obtain ⟨p, hp, hk⟩ := Option.bind_eq_some_iff.mp h
    exact Reaches.head hp (ih hk)

theorem Graded.height_of_ancestorAt (hg : Graded parent ht) {k : ℕ} {a c : κ}
    (h : ancestorAt parent k a = some c) : ht a = ht c + k := by
  induction k generalizing a with
  | zero =>
    rw [ancestorAt, Option.some.injEq] at h
    simp [h]
  | succ k ih =>
    obtain ⟨p, hp, hk⟩ := Option.bind_eq_some_iff.mp h
    have hlink := hg a p hp
    have hrest := ih hk
    push_cast
    omega

/-! ## The highest common key -/

/-- `c` is common to the chains of `a` and `b`, and no common key is higher. -/
structure HighestCommon (parent : κ → Option κ) (ht : κ → ℤ) (a b c : κ) : Prop where
  left : Reaches parent a c
  right : Reaches parent b c
  highest : ∀ d, Reaches parent a d → Reaches parent b d → ht d ≤ ht c

theorem HighestCommon.symm {a b c : κ} (h : HighestCommon parent ht a b c) :
    HighestCommon parent ht b a c :=
  ⟨h.right, h.left, fun d hb ha => h.highest d ha hb⟩

theorem HighestCommon.self (hg : Graded parent ht) {a c : κ} (h : HighestCommon parent ht a a c) :
    c = a := by
  have h1 := h.highest a (Reaches.refl a) (Reaches.refl a)
  exact hg.eq_of_reaches h.left (by have := hg.le h.left; omega)

theorem HighestCommon.step {a b c p : κ} (h : HighestCommon parent ht a b c)
    (hp : parent a = some p) (hne : a ≠ c) : HighestCommon parent ht p b c where
  left := h.left.of_parent hp hne
  right := h.right
  highest := fun d hpd hbd => h.highest d (Reaches.head hp hpd) hbd

/-- Two chains with a common key have a highest one: the first key of one of them that the other
reaches. -/
theorem exists_highestCommon (hg : Graded parent ht) {a b d : κ} (ha : Reaches parent a d)
    (hb : Reaches parent b d) : ∃ c, HighestCommon parent ht a b c := by
  induction ha using Relation.ReflTransGen.head_induction_on with
  | refl => exact ⟨d, Reaches.refl d, hb, fun e he _ => hg.le he⟩
  | @head a p hap _ ih =>
    by_cases hba : Reaches parent b a
    · exact ⟨a, Reaches.refl a, hba, fun e he _ => hg.le he⟩
    · obtain ⟨c, hc⟩ := ih
      refine ⟨c, Reaches.head hap hc.left, hc.right, ?_⟩
      intro e hae hbe
      have hne : a ≠ e := fun h => hba (h ▸ hbe)
      exact hc.highest e (hae.of_parent hap hne) hbe

end Graded

/-! ## Acyclic links -/

def Acyclic (parent : κ → Option κ) : Prop := ∀ a, ¬ Relation.TransGen (Link parent) a a

theorem Graded.acyclic {ht : κ → ℤ} (hg : Graded parent ht) : Acyclic parent := by
  intro a h
  have hlt : ∀ c, Relation.TransGen (Link parent) a c → ht c < ht a := by
    intro c hc
    induction hc with
    | single hp => have := hg _ _ hp; omega
    | tail _ hp ih => have := hg _ _ hp; omega
  exact lt_irrefl _ (hlt a h)

/-- Over finitely many present nodes, the number of present nodes reached is lowered by every
link. -/
theorem Acyclic.exists_rank (h : Acyclic parent) (S : Finset κ)
    (hS : ∀ a p, parent a = some p → a ∈ S) :
    ∃ rank : κ → ℕ, ∀ a p, parent a = some p → rank p < rank a := by
  classical
  refine ⟨fun a => (S.filter (Reaches parent a)).card, ?_⟩
  intro a p hp
  apply Finset.card_lt_card
  rw [Finset.ssubset_iff_of_subset]
  · refine ⟨a, Finset.mem_filter.mpr ⟨hS a p hp, Reaches.refl a⟩, ?_⟩
    intro ha
    have hpa : Reaches parent p a := (Finset.mem_filter.mp ha).2
    exact h a (Relation.TransGen.head' hp hpa)
  · intro k hk
    obtain ⟨hkS, hpk⟩ := Finset.mem_filter.mp hk
    exact Finset.mem_filter.mpr ⟨hkS, Reaches.head hp hpk⟩

end MinaVerify.Links
