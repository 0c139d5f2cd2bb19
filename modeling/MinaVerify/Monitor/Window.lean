import MinaVerify.Monitor.Model

/-! # The window of the monitor

What one `insert` does to a well-formed window: below capacity it only appends, at capacity it
removes exactly one key, the first of the queue other than the best. The two early `return`s of the
eviction loop are not taken. -/
namespace MinaVerify
set_option autoImplicit false

variable {T : Types}

/-- The map and the queue hold the same keys, once each, within capacity, and every node is stored
under the text of its own hash. -/
structure WellFormed (core : Core T) (m : ChainMonitor T) : Prop where
  nodup : m.order.Nodup
  mem_order : ∀ k, k ∈ m.order ↔ k ∈ m.nodes
  own : ∀ k n, m.nodes.lookup k = some n → core.stateHashToString n.hash = k
  len_le : m.len ≤ m.capacity
  capacity_pos : 1 ≤ m.capacity

theorem WellFormed.length_order {core : Core T} {m : ChainMonitor T} (h : WellFormed core m) :
    m.order.length = m.len := by
  have hp : m.order.Perm m.nodes.keys :=
    (List.perm_ext_iff_of_nodup h.nodup m.nodes.keys_nodup).mpr h.mem_order
  exact hp.length_eq

theorem wellFormed_new (core : Core T) (capacity : ℕ) :
    WellFormed core (ChainMonitor.new capacity) where
  nodup := List.nodup_nil
  mem_order := by intro k; simp [ChainMonitor.new]
  own := by intro k n h; simp [ChainMonitor.new] at h
  len_le := by simp [ChainMonitor.new, ChainMonitor.len]
  capacity_pos := by simp [ChainMonitor.new]

/-! ## The eviction loops -/

theorem evictLoop_other {best : Option String} {k : String} (h : best ≠ some k) (rotated : ℕ)
    (order : List String) : evictLoop best rotated (k :: order) = (order, some k) := by
  rw [evictLoop, if_neg (fun hk => h hk.symm)]

theorem evictLoop_rotate {b k : String} (h : k ≠ b) (order : List String) :
    evictLoop (some b) 0 (b :: k :: order) = (order ++ [b], some k) := by
  have hne : some b ≠ some k := by simp [h.symm]
  rw [evictLoop, if_pos rfl, if_neg (by simp), List.cons_append, evictLoop_other hne]

theorem evict_room {capacity : ℕ} {nodes : Nodes T} (h : nodes.keys.length ≤ capacity)
    (best : Option String) (order : List String) :
    evict capacity best nodes order = (nodes, order) := by
  rw [evict, if_neg (by omega)]

theorem erase_keys_length {nodes : Nodes T} {k : String} {n : ℕ}
    (hlen : nodes.keys.length = n + 1) (hk : k ∈ nodes) : (nodes.erase k).keys.length = n := by
  rw [AList.keys_erase, List.length_erase_of_mem (AList.mem_keys.mp hk), hlen]
  omega

theorem evict_one {capacity : ℕ} {best : Option String} {nodes : Nodes T}
    {order order' : List String} {k : String} (hlen : nodes.keys.length = capacity + 1)
    (hk : k ∈ nodes) (hloop : evictLoop best 0 order = (order', some k)) :
    evict capacity best nodes order = (nodes.erase k, order') := by
  have herase := erase_keys_length hlen hk
  rw [evict, if_pos (by omega)]
  split
  · next heq => rw [hloop] at heq; simp at heq
  · next heq =>
    rw [hloop, Prod.mk.injEq, Option.some.injEq] at heq
    obtain ⟨rfl, rfl⟩ := heq
    exact evict_room (by omega) best order'

/-! ## One insertion -/

section Insert
variable {core : Core T} {m : ChainMonitor T} {key : String} {node : Node T}

theorem insert_keys_length (hkey : key ∉ m.nodes) (node : Node T) :
    (m.nodes.insert key node).keys.length = m.len + 1 := by
  have hnk : key ∉ m.nodes.keys := fun h => hkey (AList.mem_keys.mpr h)
  rw [AList.keys_insert, List.length_cons, List.erase_of_not_mem hnk, ChainMonitor.len]

theorem WellFormed.nodup_append (h : WellFormed core m) (hkey : key ∉ m.nodes) :
    (m.order ++ [key]).Nodup := by
  refine List.nodup_append.mpr ⟨h.nodup, List.nodup_singleton key, ?_⟩
  intro a ha b hb hab
  rw [List.mem_singleton] at hb
  exact hkey ((h.mem_order key).mp (hb ▸ hab ▸ ha))

theorem WellFormed.mem_append (h : WellFormed core m) (key : String) (node : Node T) (k : String) :
    k ∈ m.order ++ [key] ↔ k ∈ m.nodes.insert key node := by
  rw [List.mem_append, List.mem_singleton, AList.mem_insert, h.mem_order, or_comm]

/-- The window after `insert`, when the queue gave up the key `k`. -/
def Evicted (m : ChainMonitor T) (key : String) (node : Node T) (k : String) (order : List String) :
    ChainMonitor T :=
  { m with nodes := (m.nodes.insert key node).erase k, order := order }

/-- Everything `insert` can do to a well-formed window that lacks the key. -/
theorem insert_cases (h : WellFormed core m) (hkey : key ∉ m.nodes) (node : Node T) :
    (m.len < m.capacity ∧
      m.insert key node = { m with nodes := m.nodes.insert key node, order := m.order ++ [key] }) ∨
    (∃ k rest, m.len = m.capacity ∧ m.order = k :: rest ∧ m.best ≠ some k ∧
      m.insert key node = Evicted m key node k (rest ++ [key])) ∨
    (∃ b k rest rest', m.len = m.capacity ∧ m.order = b :: rest ∧ m.best = some b ∧ k ≠ b ∧
      rest ++ [key] = k :: rest' ∧ m.insert key node = Evicted m key node k (rest' ++ [b])) := by
  have hlen := insert_keys_length hkey node
  have hle := h.len_le
  rcases Nat.lt_or_ge m.len m.capacity with hroom | hfull
  · left
    refine ⟨hroom, ?_⟩
    simp only [ChainMonitor.insert]
    rw [evict_room (by omega)]
  · have hcap : m.len = m.capacity := by omega
    have hpos := h.capacity_pos
    have horder := h.length_order
    have hmem := h.mem_append key node
    obtain ⟨k, rest, hcons⟩ : ∃ k rest, m.order = k :: rest :=
      List.exists_cons_of_length_pos (by omega)
    right
    by_cases hbest : m.best = some k
    · right
      obtain ⟨k', rest', hrest⟩ : ∃ k' rest', rest ++ [key] = k' :: rest' :=
        List.exists_cons_of_length_pos (by simp)
      have hnd : (k :: (rest ++ [key])).Nodup := by
        have hn := h.nodup_append hkey
        rwa [hcons, List.cons_append] at hn
      have hne : k' ≠ k := by
        intro he
        rw [hrest, he] at hnd
        simp at hnd
      have hloop : evictLoop m.best 0 (m.order ++ [key]) = (rest' ++ [k], some k') := by
        rw [hcons, hbest, List.cons_append, hrest, evictLoop_rotate hne]
      refine ⟨k, k', rest, rest', hcap, hcons, hbest, hne, hrest, ?_⟩
      have hk' : k' ∈ m.nodes.insert key node := by
        rw [← hmem, hcons, List.cons_append, hrest]
        simp
      simp only [ChainMonitor.insert, Evicted]
      rw [evict_one (by omega) hk' hloop]
    · left
      have hloop : evictLoop m.best 0 (m.order ++ [key]) = (rest ++ [key], some k) := by
        rw [hcons, List.cons_append, evictLoop_other hbest]
      refine ⟨k, rest, hcap, hcons, hbest, ?_⟩
      have hk : k ∈ m.nodes.insert key node := (hmem k).mp (by simp [hcons])
      simp only [ChainMonitor.insert, Evicted]
      rw [evict_one (by omega) hk hloop]

/-- At capacity one key leaves: it is not the best, and with room for two it is not the new one. -/
theorem insert_spec (h : WellFormed core m) (hkey : key ∉ m.nodes) (node : Node T) :
    (m.len < m.capacity ∧
      m.insert key node = { m with nodes := m.nodes.insert key node, order := m.order ++ [key] }) ∨
    (∃ k order, m.len = m.capacity ∧ (k :: order).Perm (m.order ++ [key]) ∧ m.best ≠ some k ∧
      (2 ≤ m.capacity → k ≠ key) ∧ m.insert key node = Evicted m key node k order) := by
  have hold : ∀ k ∈ m.order, k ≠ key := by
    intro k hk he
    exact hkey ((h.mem_order key).mp (he ▸ hk))
  obtain hroom | ⟨k, rest, hcap, hcons, hbest, hins⟩ |
      ⟨b, k, rest, rest', hcap, hcons, hbest, hne, hrest, hins⟩ := insert_cases h hkey node
  · exact Or.inl hroom
  · right
    refine ⟨k, rest ++ [key], hcap, ?_, hbest, fun _ => hold k (by simp [hcons]), hins⟩
    rw [hcons, List.cons_append]
  · right
    refine ⟨k, rest' ++ [b], hcap, ?_, ?_, ?_, hins⟩
    · rw [hcons, List.cons_append, hrest, ← List.cons_append]
      exact List.perm_append_singleton b (k :: rest')
    · rw [hbest]
      simp [hne.symm]
    · intro h2
      -- with two entries in the queue the first one behind the best is an old one
      have hlen := h.length_order
      rw [hcons, List.length_cons] at hlen
      obtain ⟨k', rest'', rfl⟩ : ∃ k' rest'', rest = k' :: rest'' :=
        List.exists_cons_of_length_pos (by omega)
      rw [List.cons_append, List.cons.injEq] at hrest
      exact hold k (by simp [hcons, hrest.1])

@[simp] theorem insert_best : (m.insert key node).best = m.best := rfl
@[simp] theorem insert_capacity : (m.insert key node).capacity = m.capacity := rfl

theorem insert_wellFormed (h : WellFormed core m) (hkey : key ∉ m.nodes)
    (hown : core.stateHashToString node.hash = key) : WellFormed core (m.insert key node) := by
  have hown' : ∀ k n, (m.nodes.insert key node).lookup k = some n →
      core.stateHashToString n.hash = k := by
    intro k n hk
    by_cases hkk : k = key
    · subst hkk
      rw [AList.lookup_insert, Option.some.injEq] at hk
      exact hk ▸ hown
    · rw [AList.lookup_insert_ne hkk] at hk
      exact h.own k n hk
  have hnodup := h.nodup_append hkey
  have hmem := h.mem_append key node
  have hlen := insert_keys_length hkey node
  obtain ⟨hroom, hins⟩ | ⟨k, order, hcap, hperm, _, _, hins⟩ := insert_spec h hkey node
  · rw [hins]
    exact ⟨hnodup, hmem, hown', by simp only [ChainMonitor.len]; omega, h.capacity_pos⟩
  · have hnd : (k :: order).Nodup := hperm.nodup_iff.mpr hnodup
    have hk : k ∈ m.nodes.insert key node := (hmem k).mp (hperm.subset (by simp))
    rw [hins]
    refine ⟨(List.nodup_cons.mp hnd).2, ?_, ?_, ?_, h.capacity_pos⟩
    · intro x
      simp only [Evicted]
      rw [AList.mem_erase, ← hmem x, ← hperm.mem_iff, List.mem_cons]
      constructor
      · intro hx
        exact ⟨fun he => (List.nodup_cons.mp hnd).1 (he ▸ hx), Or.inr hx⟩
      · rintro ⟨hne, he | hx⟩
        · exact absurd he hne
        · exact hx
    · intro x n hx
      simp only [Evicted] at hx
      by_cases hxk : x = k
      · subst hxk
        simp at hx
      · rw [AList.lookup_erase_ne hxk] at hx
        exact hown' x n hx
    · have herase := erase_keys_length hlen hk
      simp only [Evicted, ChainMonitor.len] at *
      omega

theorem insert_len (h : WellFormed core m) (hkey : key ∉ m.nodes) :
    (m.insert key node).len = min m.capacity (m.len + 1) := by
  have hlen := insert_keys_length hkey node
  obtain ⟨hroom, hins⟩ | ⟨k, order, hcap, hperm, _, _, hins⟩ := insert_spec h hkey node
  · rw [hins]
    simp only [ChainMonitor.len] at *
    omega
  · have hk : k ∈ m.nodes.insert key node :=
      (h.mem_append key node k).mp (hperm.subset (by simp))
    have herase := erase_keys_length hlen hk
    rw [hins]
    simp only [Evicted, ChainMonitor.len] at *
    omega

theorem insert_lookup (h : WellFormed core m) (hkey : key ∉ m.nodes) {k : String}
    (hk : k ∈ (m.insert key node).nodes) :
    (m.insert key node).nodes.lookup k = (m.nodes.insert key node).lookup k := by
  obtain ⟨_, hins⟩ | ⟨k', order, _, _, _, _, hins⟩ := insert_spec h hkey node
  · rw [hins]
  · rw [hins] at hk ⊢
    simp only [Evicted, AList.mem_erase] at hk ⊢
    exact AList.lookup_erase_ne hk.1

theorem insert_keeps_best (h : WellFormed core m) (hkey : key ∉ m.nodes) {b : String}
    (hbest : m.best = some b) (hb : b ∈ m.nodes) : b ∈ (m.insert key node).nodes := by
  have hb' : b ∈ m.nodes.insert key node := by
    rw [AList.mem_insert]
    exact Or.inr hb
  obtain ⟨_, hins⟩ | ⟨k, order, _, _, hne, _, hins⟩ := insert_spec h hkey node
  · rw [hins]
    exact hb'
  · rw [hins]
    simp only [Evicted, AList.mem_erase]
    refine ⟨?_, hb'⟩
    intro he
    exact hne (he ▸ hbest)

theorem insert_keeps_new (h : WellFormed core m) (hkey : key ∉ m.nodes) (h2 : 2 ≤ m.capacity) :
    (m.insert key node).nodes.lookup key = some node := by
  have hmem : key ∈ (m.insert key node).nodes := by
    have hk : key ∈ m.nodes.insert key node := by simp [AList.mem_insert]
    obtain ⟨_, hins⟩ | ⟨k, order, _, _, _, hnew, hins⟩ := insert_spec h hkey node
    · rw [hins]
      exact hk
    · rw [hins]
      simp only [Evicted, AList.mem_erase]
      exact ⟨fun he => hnew h2 he.symm, hk⟩
  rw [insert_lookup h hkey hmem, AList.lookup_insert]

theorem insert_lookup_old (h : WellFormed core m) (hkey : key ∉ m.nodes) {k : String}
    (hk : k ∈ (m.insert key node).nodes) (hne : k ≠ key) :
    (m.insert key node).nodes.lookup k = m.nodes.lookup k := by
  rw [insert_lookup h hkey hk, AList.lookup_insert_ne hne]

end Insert
end MinaVerify
