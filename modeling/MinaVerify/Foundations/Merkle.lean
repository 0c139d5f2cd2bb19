import Mathlib.Data.List.Induction
import Mathlib.Data.Nat.Bitwise

/-! # Merkle trees with a node hash for each height

A perfect binary tree is given by its leaves, in order; the node at height `h` and position `p` has
the nodes `2 * p` and `2 * p + 1` of height `h` minus one below it. A path lists the siblings met on
the way from a leaf to the root. Its directions are the bits of the leaf's position, lowest first:
with the directions fixed, a fold that reaches the right root started from the right leaf, whatever
the siblings were. -/
namespace MinaVerify.Merkle
set_option autoImplicit false

variable {F : Type*}

/-- One step up: the node on the path is the left or the right child, and the other one is given. -/
inductive Step (F : Type*) where
  | left (right : F)
  | right (left : F)
  deriving DecidableEq, Repr

def Step.isRight : Step F → Bool
  | .left _ => false
  | .right _ => true

def combine (hash : ℕ → F → F → F) (height : ℕ) (node : F) : Step F → F
  | .left right => hash height node right
  | .right left => hash height left node

def fold (hash : ℕ → F → F → F) (leaf : F) (path : List (Step F)) : F :=
  path.zipIdx.foldl (fun node step => combine hash step.2 node step.1) leaf

def nodeHash (hash : ℕ → F → F → F) (leaf : ℕ → F) : ℕ → ℕ → F
  | 0, p => leaf p
  | h + 1, p => hash h (nodeHash hash leaf h (2 * p)) (nodeHash hash leaf h (2 * p + 1))

/-- The directions of the path are those of the leaf at position `i`. -/
def Follows (i : ℕ) (path : List (Step F)) : Prop :=
  ∀ h step, path[h]? = some step → step.isRight = i.testBit h

section Fold
variable (hash : ℕ → F → F → F) (leaf : ℕ → F)

theorem fold_snoc (node : F) (path : List (Step F)) (step : Step F) :
    fold hash node (path ++ [step]) = combine hash path.length (fold hash node path) step := by
  simp [fold, List.zipIdx_append]

theorem follows_snoc {i : ℕ} {path : List (Step F)} {step : Step F} :
    Follows i (path ++ [step]) ↔ Follows i path ∧ step.isRight = i.testBit path.length := by
  constructor
  · intro h
    refine ⟨?_, h path.length step (by simp)⟩
    intro k s hk
    exact h k s (by rw [List.getElem?_append_left (List.getElem?_eq_some_iff.mp hk).1, hk])
  · rintro ⟨hpath, hstep⟩ k s hk
    rcases Nat.lt_trichotomy k path.length with hlt | rfl | hgt
    · rw [List.getElem?_append_left hlt] at hk
      exact hpath k s hk
    · rw [List.getElem?_append_right (Nat.le_refl _), Nat.sub_self] at hk
      simp only [List.getElem?_cons_zero, Option.some.injEq] at hk
      exact hk ▸ hstep
    · rw [List.getElem?_eq_none (by simp; omega)] at hk
      simp at hk

theorem div_two_pow (i h : ℕ) : i / 2 ^ h = 2 * (i / 2 ^ (h + 1)) + (i.testBit h).toNat := by
  have hbit : (i.testBit h).toNat = i / 2 ^ h % 2 := by
    rw [Nat.testBit_eq_decide_div_mod_eq]
    rcases Nat.mod_two_eq_zero_or_one (i / 2 ^ h) with h0 | h1
    · simp [h0]
    · simp [h1]
  rw [hbit, pow_succ, ← Nat.div_div_eq_div_mul]
  omega

theorem nodeHash_above (i h : ℕ) :
    nodeHash hash leaf (h + 1) (i / 2 ^ (h + 1)) =
      if i.testBit h then
        hash h (nodeHash hash leaf h (2 * (i / 2 ^ (h + 1)))) (nodeHash hash leaf h (i / 2 ^ h))
      else
        hash h (nodeHash hash leaf h (i / 2 ^ h)) (nodeHash hash leaf h (2 * (i / 2 ^ (h + 1)) + 1)) := by
  have hdiv := div_two_pow i h
  cases hb : i.testBit h with
  | true =>
    rw [hb, Bool.toNat_true] at hdiv
    rw [if_pos rfl, hdiv]
    rfl
  | false =>
    rw [hb, Bool.toNat_false, Nat.add_zero] at hdiv
    rw [if_neg Bool.false_ne_true, hdiv]
    rfl

/-- A fold that follows position `i` and reaches the node above it started from the leaf at `i`. -/
theorem leaf_of_fold (hinj : ∀ h, Function.Injective2 (hash h)) {i : ℕ} {node : F}
    {path : List (Step F)} (hpath : Follows i path)
    (h : fold hash node path = nodeHash hash leaf path.length (i / 2 ^ path.length)) :
    node = leaf i := by
  induction path using List.reverseRecOn with
  | nil => simpa [fold, nodeHash] using h
  | append_singleton path step ih =>
    obtain ⟨hpath, hdir⟩ := follows_snoc.mp hpath
    apply ih hpath
    -- the top hash pins the node below it, on the side the bit of `i` says
    rw [fold_snoc, List.length_append, List.length_singleton, nodeHash_above, ← hdir] at h
    cases step with
    | left right => exact (hinj _ h).1
    | right left => exact (hinj _ h).2

/-! ## Paths of any shape

The height is an input of the node hash, so the top hash of a fold tells how long the path was; the
directions of any path are those of one position. -/

theorem length_of_fold
    (hheight : ∀ h l r h' l' r', hash h l r = hash h' l' r' → h = h') {node : F}
    (hnode : ∀ h l r, hash h l r ≠ node) {p : ℕ} (hleaf : ∀ h l r, hash h l r ≠ leaf p)
    {path : List (Step F)} {depth : ℕ}
    (h : fold hash node path = nodeHash hash leaf depth p) : path.length = depth := by
  have hcombine : ∀ height below step, ∃ l r, combine hash height below step = hash height l r := by
    intro height below step
    cases step with
    | left right => exact ⟨below, right, rfl⟩
    | right left => exact ⟨left, below, rfl⟩
  obtain rfl | ⟨path, step, rfl⟩ := List.eq_nil_or_concat path
  · cases depth with
    | zero => rfl
    | succ depth => exact absurd h.symm (hnode _ _ _)
  · rw [List.concat_eq_append, fold_snoc] at h
    obtain ⟨l, r, hlr⟩ := hcombine path.length (fold hash node path) step
    rw [hlr] at h
    cases depth with
    | zero => exact absurd h (hleaf _ _ _)
    | succ depth =>
      rw [List.concat_eq_append, List.length_append, List.length_singleton, hheight _ _ _ _ _ _ h]

def leafIndex : List (Step F) → ℕ
  | [] => 0
  | step :: path => Nat.bit step.isRight (leafIndex path)

theorem follows_leafIndex (path : List (Step F)) : Follows (leafIndex path) path := by
  intro h step hstep
  induction path generalizing h with
  | nil => simp at hstep
  | cons first path ih =>
    cases h with
    | zero =>
      rw [List.getElem?_cons_zero, Option.some.injEq] at hstep
      rw [leafIndex, Nat.testBit_bit_zero, hstep]
    | succ h =>
      rw [List.getElem?_cons_succ] at hstep
      rw [leafIndex, Nat.testBit_bit_succ]
      exact ih h hstep

theorem leafIndex_lt (path : List (Step F)) : leafIndex path < 2 ^ path.length := by
  induction path with
  | nil => simp [leafIndex]
  | cons step path ih =>
    have hbit := Bool.toNat_lt step.isRight
    rw [leafIndex, Nat.bit_val, List.length_cons, pow_succ]
    omega

/-! ## The path of a leaf -/

def siblingPosition (p : ℕ) : ℕ := if p % 2 = 1 then p - 1 else p + 1

def stepAt (i h : ℕ) : Step F :=
  if i.testBit h then .right (nodeHash hash leaf h (siblingPosition (i / 2 ^ h)))
  else .left (nodeHash hash leaf h (siblingPosition (i / 2 ^ h)))

/-- The siblings on the way from leaf `i` to the root, the leaf's own first. -/
def pathOf (depth i : ℕ) : List (Step F) := (List.range depth).map (stepAt hash leaf i)

theorem siblingPosition_above (i h : ℕ) : siblingPosition (i / 2 ^ h) =
    if i.testBit h then 2 * (i / 2 ^ (h + 1)) else 2 * (i / 2 ^ (h + 1)) + 1 := by
  have hdiv := div_two_pow i h
  unfold siblingPosition
  cases hb : i.testBit h with
  | true =>
    rw [hb, Bool.toNat_true] at hdiv
    rw [if_pos (by omega), if_pos rfl]
    omega
  | false =>
    rw [hb, Bool.toNat_false] at hdiv
    rw [if_neg (by omega), if_neg Bool.false_ne_true]
    omega

theorem combine_stepAt (i h : ℕ) :
    combine hash h (nodeHash hash leaf h (i / 2 ^ h)) (stepAt hash leaf i h) =
      nodeHash hash leaf (h + 1) (i / 2 ^ (h + 1)) := by
  rw [nodeHash_above, stepAt, siblingPosition_above]
  cases i.testBit h with
  | true => rfl
  | false => rfl

theorem fold_pathOf (depth i : ℕ) :
    fold hash (leaf i) (pathOf hash leaf depth i) = nodeHash hash leaf depth (i / 2 ^ depth) := by
  induction depth with
  | zero => simp [fold, pathOf, nodeHash]
  | succ depth ih =>
    have hsucc : pathOf hash leaf (depth + 1) i =
        pathOf hash leaf depth i ++ [stepAt hash leaf i depth] := by
      simp [pathOf, List.range_succ]
    have hlen : (pathOf hash leaf depth i).length = depth := by simp [pathOf]
    rw [hsucc, fold_snoc, ih, hlen, combine_stepAt]

/-- With the directions fixed there is one path to the root: the leaf's own. -/
theorem path_of_fold (hinj : ∀ h, Function.Injective2 (hash h)) {i : ℕ} {node : F}
    {path : List (Step F)} (hpath : Follows i path)
    (h : fold hash node path = nodeHash hash leaf path.length (i / 2 ^ path.length)) :
    path = pathOf hash leaf path.length i := by
  induction path using List.reverseRecOn with
  | nil => rfl
  | append_singleton path step ih =>
    obtain ⟨hpath, hdir⟩ := follows_snoc.mp hpath
    rw [fold_snoc, List.length_append, List.length_singleton, ← combine_stepAt] at h
    have hstep : step = stepAt hash leaf i path.length ∧
        fold hash node path = nodeHash hash leaf path.length (i / 2 ^ path.length) := by
      unfold stepAt at h ⊢
      rw [← hdir] at h ⊢
      cases step with
      | left right =>
        obtain ⟨hbelow, hright⟩ := hinj _ h
        exact ⟨congrArg Step.left hright, hbelow⟩
      | right left =>
        obtain ⟨hleft, hbelow⟩ := hinj _ h
        exact ⟨congrArg Step.right hleft, hbelow⟩
    have hinit := ih hpath hstep.2
    calc path ++ [step] = pathOf hash leaf path.length i ++ [stepAt hash leaf i path.length] := by
          rw [← hinit, hstep.1]
      _ = pathOf hash leaf (path ++ [step]).length i := by simp [pathOf, List.range_succ]

end Fold

/-! ## Addresses -/

/-- The directions from the root down to the node at position `p`, `level` levels below it. -/
def address (level p : ℕ) : List Bool :=
  (List.range level).map fun k => p.testBit (level - 1 - k)

def position (address : List Bool) : ℕ := address.foldl (fun p right => 2 * p + right.toNat) 0

@[simp] theorem length_address (level p : ℕ) : (address level p).length = level := by
  simp [address]

theorem address_succ (level p : ℕ) :
    address (level + 1) p = address level (p / 2) ++ [p.testBit 0] := by
  have hmap : ∀ k ∈ List.range level, p.testBit (level - k) = (p / 2).testBit (level - 1 - k) := by
    intro k hk
    have hlt := List.mem_range.mp hk
    rw [← Nat.testBit_succ]
    congr 1
    omega
  simp [address, List.range_succ, List.map_congr_left hmap]

theorem position_address {level p : ℕ} (hp : p < 2 ^ level) : position (address level p) = p := by
  induction level generalizing p with
  | zero => simp [address, position]; omega
  | succ level ih =>
    have hlt : p / 2 < 2 ^ level := by
      rw [pow_succ] at hp
      omega
    have hih := ih hlt
    unfold position at hih ⊢
    rw [address_succ, List.foldl_append, hih, List.foldl_cons, List.foldl_nil, Nat.testBit_zero]
    rcases Nat.mod_two_eq_zero_or_one p with h0 | h1
    · simp [h0]; omega
    · simp [h1]; omega

end MinaVerify.Merkle
