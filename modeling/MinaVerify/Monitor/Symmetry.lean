import MinaVerify.Monitor.Ancestor

/-! # The common ancestor in either order

`common_ancestor` treats its two arguments differently only in the order in which it looks them up, and
a missing block ends it with the same answer whichever cursor is on it. So each loop, run on exchanged
cursors, goes through the exchanged states, on any window and with any heights. -/
namespace MinaVerify
set_option autoImplicit false
open Links

variable {T : Types} {nodes : Nodes T}

/-! ## Exchanged cursors -/

theorem levelStep_swap (nodes : Nodes T) (s : String × String) :
    levelStep nodes s.swap = (levelStep nodes s).map Prod.swap (Option.map Prod.swap) := by
  obtain ⟨x, y⟩ := s
  simp only [Prod.swap_prod_mk, levelStep]
  cases hx : nodes.lookup x with
  | none => cases nodes.lookup y <;> rfl
  | some nx =>
    cases hy : nodes.lookup y with
    | none => rfl
    | some ny =>
      simp only
      by_cases heq : nx.height = ny.height
      · rw [if_pos heq, if_pos heq.symm]
        rfl
      · rw [if_neg heq, if_neg (Ne.symm heq)]
        -- exactly one of the two cursors is the higher
        by_cases hgt : ny.height < nx.height
        · rw [if_pos hgt, if_neg (UInt32.lt_asymm hgt)]
          rfl
        · have hlt : nx.height < ny.height :=
            UInt32.lt_of_le_of_ne (UInt32.not_lt.mp hgt) heq
          rw [if_neg hgt, if_pos hlt]
          rfl

theorem lockStep_swap (nodes : Nodes T) (s : String × String) :
    lockStep nodes s.swap = (lockStep nodes s).map Prod.swap id := by
  obtain ⟨x, y⟩ := s
  simp only [Prod.swap_prod_mk, lockStep]
  by_cases heq : x = y
  · rw [if_pos heq, if_pos heq.symm, heq]
    rfl
  · rw [if_neg heq, if_neg (Ne.symm heq)]
    cases nodes.lookup x with
    | none => cases nodes.lookup y <;> rfl
    | some nx => cases nodes.lookup y <;> rfl

theorem commonAncestor_comm (nodes : Nodes T) (a b : String) :
    commonAncestor nodes a b = commonAncestor nodes b a := by
  have hlevel := Loop.iterate_map Prod.swap (Option.map Prod.swap) (levelStep_swap nodes)
    (rounds nodes) (a, b)
  rw [Prod.swap_prod_mk] at hlevel
  unfold commonAncestor
  rw [hlevel]
  cases Loop.iterate (levelStep nodes) (rounds nodes) (a, b) with
  | none => rfl
  | some r =>
    cases r with
    | none => rfl
    | some cursors =>
      have hlock := Loop.iterate_map Prod.swap id (lockStep_swap nodes) (rounds nodes) cursors
      rw [Option.map_id_fun, id_eq] at hlock
      simp only [Option.map_some, hlock]

/-- **`common_ancestor` on a window without cycles, whatever the heights.** Both loops end, what is
returned is reached from both blocks, and the order of the blocks does not matter. -/
theorem commonAncestor_total_sound_comm (h : Acyclic (parentIn nodes)) (a b : String) :
    (∃ n r, Loop.iterate (levelStep nodes) n (a, b) = some r) ∧
    (∀ cursors, ∃ n r, Loop.iterate (lockStep nodes) n cursors = some r) ∧
    (∃ common, commonAncestor nodes a b = .returned common) ∧
    (∀ c, commonAncestor nodes a b = .returned (some c) →
      Reaches (parentIn nodes) a c ∧ Reaches (parentIn nodes) b c) ∧
    commonAncestor nodes a b = commonAncestor nodes b a := by
  refine ⟨level_ends h (a, b), lock_ends h, commonAncestor_ends h a b, ?_, commonAncestor_comm nodes a b⟩
  intro c hc
  exact commonAncestor_sound hc

namespace Sample

/-- Two blocks on `g`, and `g` itself, stored with a height above theirs. -/
def unevenWindow : Nodes types :=
  ((AList.singleton "g" (minaCore.node (tip "g" "o" 9))).insert "a"
    (minaCore.node (tip "a" "g" 5))).insert "b" (minaCore.node (tip "b" "g" 5))

theorem unevenWindow_acyclic : Acyclic (parentIn unevenWindow) := by
  have hgraded : Graded (parentIn unevenWindow)
      (fun k => if k = "o" then 0 else if k = "g" then 1 else 2) := by
    intro k p hp
    have hmem : k ∈ unevenWindow.keys := AList.mem_keys.mp (present_iff.mp ⟨p, hp⟩)
    have hkeys : unevenWindow.keys = ["b", "a", "g"] := by decide +kernel
    rw [hkeys, List.mem_cons, List.mem_cons, List.mem_singleton] at hmem
    have hparents : parentIn unevenWindow "b" = some "g" ∧ parentIn unevenWindow "a" = some "g" ∧
        parentIn unevenWindow "g" = some "o" := by
      decide +kernel
    obtain rfl | rfl | rfl := hmem
    · rw [hparents.1, Option.some.injEq] at hp
      subst hp
      decide
    · rw [hparents.2.1, Option.some.injEq] at hp
      subst hp
      decide
    · rw [hparents.2.2, Option.some.injEq] at hp
      subst hp
      decide
  exact hgraded.acyclic

end Sample

theorem commonAncestor_total_sound_comm_uneven :
    commonAncestor Sample.unevenWindow "a" "b" = .returned (some "g") ∧
      Reaches (parentIn Sample.unevenWindow) "a" "g" ∧
      commonAncestor Sample.unevenWindow "b" "a" = .returned (some "g") := by
  obtain ⟨_, _, _, hsound, hcomm⟩ :=
    commonAncestor_total_sound_comm Sample.unevenWindow_acyclic "a" "b"
  have hfound : commonAncestor Sample.unevenWindow "a" "b" = .returned (some "g") := by
    decide +kernel
  exact ⟨hfound, (hsound "g" hfound).1, hcomm ▸ hfound⟩

end MinaVerify
