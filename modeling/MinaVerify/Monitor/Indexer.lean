import MinaVerify.Monitor.Extension
import MinaVerify.Monitor.Rollback

/-! # An indexer behind the monitor

The core loop of `docs/USING_AS_A_BACKEND.md` persists a tip that starts or extends the chain, and on
`Reorg` rolls its table back to the common ancestor first. The documentation then persists the tip; the
blocks between the ancestor and the tip, which lost when they came, are missing from the table unless they
are read back. Here is the loop with that step: a table of the canonical blocks, and a store of all of them.

The monitor sees a window of the blocks, the table and the store do not forget. Still its answers are all
that is needed: the table stays gapless and ends at the best, and a reorganisation touches the rows on
which the two chains differ and no others. -/
namespace MinaVerify
set_option autoImplicit false
open Links

variable {T : Types}

/-! ## The indexer -/

/-- Every verified block in the order of arrival, and the canonical ones, newest first. -/
structure Indexer (T : Types) where
  store : List (VerifiedTip T)
  table : List (VerifiedTip T)

section Loop
variable (core : Core T)

/-- `rollback_to`: the rows above the ancestor are removed. -/
def rollbackTo (ancestor : String) (table : List (VerifiedTip T)) : List (VerifiedTip T) :=
  table.dropWhile fun t => decide (core.key t ≠ ancestor)

/-- The stored blocks from the tip down to the child of the ancestor. -/
def branchAbove (store : List (VerifiedTip T)) (ancestor : String) :
    ℕ → VerifiedTip T → List (VerifiedTip T)
  | 0, _ => []
  | fuel + 1, tip =>
    if core.prevKey tip = ancestor then [tip]
    else
      match store.find? fun t => decide (core.key t = core.prevKey tip) with
      | some parent => tip :: branchAbove store ancestor fuel parent
      | none => [tip]

/-- One turn of the loop, with the answer of `ingest`. What to roll back to where no common ancestor is known the
guide leaves open; here the table starts again at the tip. -/
def Indexer.record (ix : Indexer T) (tip : VerifiedTip T) (out : Ingest T.StateHash) : Indexer T :=
  let store := ix.store ++ [tip]
  match out with
  | .genesis => ⟨store, tip :: ix.table⟩
  | .extend _ => ⟨store, tip :: ix.table⟩
  | .reorg _ (some ancestor) _ =>
    ⟨store, branchAbove core store ancestor (tip.height.toNat + 1) tip ++
      rollbackTo core ancestor ix.table⟩
  | .reorg _ none _ => ⟨store, [tip]⟩
  | .duplicate => ⟨store, ix.table⟩
  | .behind _ => ⟨store, ix.table⟩
  | .fork _ => ⟨store, ix.table⟩
  | .unlinked => ⟨store, ix.table⟩

def indexed (tips : List (VerifiedTip T)) (outs : List (Ingest T.StateHash)) : Indexer T :=
  (tips.zip outs).foldl (fun ix e => ix.record core e.1 e.2) ⟨[], []⟩

end Loop

/-- Every row is followed by its parent. -/
def Gapless (table : List (VerifiedTip T)) : Prop := table.IsChain fun t p => Follows p t

/-- The blocks of one hash have one parent: the hash is that of a protocol state with its parent in it. -/
def HashesLink (tips : List (VerifiedTip T)) : Prop :=
  ∀ s ∈ tips, ∀ t ∈ tips, s.stateHash = t.stateHash → s.previousStateHash = t.previousStateHash

/-- The rows removed are not in the new table, and the rows added were not in the old one. -/
def ExactEdit (old new : List (VerifiedTip T)) : Prop :=
  ∃ undone redone kept, old = undone ++ kept ∧ new = redone ++ kept ∧
    (∀ u ∈ undone, ∀ t ∈ new, u.stateHash ≠ t.stateHash) ∧
    (∀ r ∈ redone, ∀ t ∈ old, r.stateHash ≠ t.stateHash)

variable {core : Core T}

theorem indexed_snoc {tips : List (VerifiedTip T)} {outs : List (Ingest T.StateHash)}
    (hlen : outs.length = tips.length) (tip : VerifiedTip T) (out : Ingest T.StateHash) :
    indexed core (tips ++ [tip]) (outs ++ [out]) = (indexed core tips outs).record core tip out := by
  unfold indexed
  rw [List.zip_append hlen.symm, List.foldl_append]
  rfl

theorem record_store (ix : Indexer T) (tip : VerifiedTip T) (out : Ingest T.StateHash) :
    (ix.record core tip out).store = ix.store ++ [tip] := by
  cases out with
  | reorg fromHash common depth => cases common <;> rfl
  | _ => rfl

theorem indexed_store {tips : List (VerifiedTip T)} {outs : List (Ingest T.StateHash)}
    (hlen : outs.length = tips.length) : (indexed core tips outs).store = tips := by
  induction tips using List.reverseRecOn generalizing outs with
  | nil => rfl
  | append_singleton tips tip ih =>
    obtain rfl | ⟨outs, out, rfl⟩ := List.eq_nil_or_concat outs
    · simp at hlen
    · have hlen' : outs.length = tips.length := by simpa using hlen
      rw [List.concat_eq_append, indexed_snoc hlen', record_store, ih hlen']

theorem rollbackTo_subset (c : String) (table : List (VerifiedTip T)) : rollbackTo core c table ⊆ table :=
  (List.dropWhile_suffix _).subset

theorem Gapless.rollbackTo {table : List (VerifiedTip T)} (h : Gapless table) (c : String) :
    Gapless (rollbackTo core c table) :=
  List.IsChain.suffix h (List.dropWhile_suffix _)

/-! ## Heights along a table -/

section Heights
variable {tips : List (VerifiedTip T)} {ht : String → ℤ}

theorem Follows.prevKey {p t : VerifiedTip T} (h : Follows p t) : core.prevKey t = core.key p := by
  rw [Core.prevKey, h.1, Core.key]

/-- Down a table the heights drop by one from row to row. -/
theorem Gapless.height_append {t r : VerifiedTip T} {undone kept : List (VerifiedTip T)}
    (h : Gapless (t :: undone ++ r :: kept)) : t.height.toNat = r.height.toNat + undone.length + 1 := by
  induction undone generalizing t with
  | nil =>
    rw [List.singleton_append, Gapless, List.isChain_cons_cons] at h
    simp [h.1.2]
  | cons u undone ih =>
    rw [List.cons_append, List.cons_append, Gapless, List.isChain_cons_cons] at h
    have hrest := ih h.2
    have hstep := h.1.2
    simp only [List.length_cons]
    omega

theorem Gapless.height_le {t r : VerifiedTip T} {rows : List (VerifiedTip T)} (h : Gapless (t :: rows))
    (hr : r ∈ t :: rows) : r.height.toNat ≤ t.height.toNat := by
  obtain rfl | hr := List.mem_cons.mp hr
  · exact le_refl _
  · obtain ⟨undone, kept, rfl⟩ := List.append_of_mem hr
    have := h.height_append
    omega

end Heights

/-! ## Rows against the links of a window -/

section Window
variable {tips : List (VerifiedTip T)} {nodes : Nodes T} {ht : String → ℤ} {a c : String}

/-- The link of a block in the window is its own, also where another block of its hash was inserted. -/
theorem FromTips.prevKey_eq (hf : FromTips core tips nodes)
    (hinj : Function.Injective core.stateHashToString) (hlink : HashesLink tips) {t : VerifiedTip T}
    (htips : t ∈ tips) {p : String} (hp : parentIn nodes (core.key t) = some p) : core.prevKey t = p := by
  obtain ⟨t', htips', hkey, hprev⟩ := hf.link hp
  rw [← hprev, Core.prevKey, Core.prevKey, hlink t htips t' htips' (hinj hkey.symm)]

/-- A block on the way from `a` to `c`, above `c`. -/
def OnWay (nodes : Nodes T) (a c x : String) : Prop :=
  Reaches (parentIn nodes) a x ∧ Reaches (parentIn nodes) x c ∧ x ≠ c

theorem OnWay.head {p x : String} (hp : parentIn nodes a = some p) (h : OnWay nodes p c x) :
    OnWay nodes a c x :=
  ⟨Reaches.head hp h.1, h.2⟩

theorem OnWay.lt (hc : LinkConsistent ht nodes) {x : String} (h : OnWay nodes a c x) : ht c < ht x := by
  have hle := hc.graded.le h.2.1
  have hne : ht c ≠ ht x := fun he => h.2.2 (hc.graded.eq_of_reaches h.2.1 he).symm
  omega

/-- The first block of a way of one or more links. -/
theorem OnWay.start (hc : LinkConsistent ht nodes) {j : ℕ}
    (hj : ancestorAt (parentIn nodes) (j + 1) a = some c) : OnWay nodes a c a := by
  refine ⟨Reaches.refl a, reaches_of_ancestorAt hj, ?_⟩
  intro he
  have hup := hc.graded.height_of_ancestorAt hj
  rw [he] at hup
  push_cast at hup
  omega

/-- The rows a roll back removes are those above the ancestor. -/
theorem rollbackTo_spec (hf : FromTips core tips nodes) (hinj : Function.Injective core.stateHashToString)
    (hlink : HashesLink tips) {table : List (VerifiedTip T)} (hgap : Gapless table) (hfed : table ⊆ tips)
    (hhead : ∀ t, table.head? = some t → core.key t = a) (hreach : Reaches (parentIn nodes) a c) :
    ∃ undone, table = undone ++ rollbackTo core c table ∧
      (∀ u ∈ undone, OnWay nodes a c (core.key u)) ∧
      ∀ r, (rollbackTo core c table).head? = some r → core.key r = c := by
  induction table generalizing a with
  | nil => exact ⟨[], rfl, by simp, by simp [rollbackTo]⟩
  | cons t rows ih =>
    have ha := hhead t rfl
    by_cases hc : core.key t = c
    · have hkeep : rollbackTo core c (t :: rows) = t :: rows := by simp [rollbackTo, hc]
      rw [hkeep]
      exact ⟨[], rfl, by simp, by simp [hc]⟩
    · have hdrop : rollbackTo core c (t :: rows) = rollbackTo core c rows := by simp [rollbackTo, hc]
      obtain he | ⟨p, hp, hpc⟩ := hreach.cases_head
      · exact absurd (ha.trans he) hc
      have hparent := hf.prevKey_eq hinj hlink (hfed List.mem_cons_self) (ha ▸ hp)
      have hnext : ∀ r, rows.head? = some r → core.key r = p := by
        intro r hr
        obtain ⟨rest, rfl⟩ := List.head?_eq_some_iff.mp hr
        rw [Gapless, List.isChain_cons_cons] at hgap
        rw [← hgap.1.prevKey, hparent]
      obtain ⟨undone, hrows, hway, hkept⟩ := ih (List.IsChain.of_cons hgap)
        (fun r hr => hfed (List.mem_cons_of_mem t hr)) hnext hpc
      rw [hdrop]
      refine ⟨t :: undone, by rw [List.cons_append, ← hrows], ?_, hkept⟩
      intro u hu
      obtain rfl | hu := List.mem_cons.mp hu
      · exact ⟨ha ▸ Reaches.refl _, ha ▸ hreach, hc⟩
      · exact (hway u hu).head hp

/-- What the branch read back from the store is. -/
structure SideBranch (core : Core T) (tips : List (VerifiedTip T)) (nodes : Nodes T) (c : String)
    (t : VerifiedTip T) (rows : List (VerifiedTip T)) : Prop where
  head : rows.head? = some t
  fed : rows ⊆ tips
  gapless : Gapless rows
  last : ∀ r, rows.getLast? = some r → core.prevKey r = c
  onWay : ∀ x ∈ rows, OnWay nodes (core.key t) c (core.key x)

/-- Enough fuel is the number of links. -/
theorem branchAbove_spec (hf : FromTips core tips nodes)
    (hinj : Function.Injective core.stateHashToString) (hlink : HashesLink tips)
    (hcons : TipsConsistent core ht tips) {t : VerifiedTip T} (htips : t ∈ tips) {j fuel : ℕ}
    (hfuel : j < fuel) (hj : ancestorAt (parentIn nodes) (j + 1) (core.key t) = some c) :
    SideBranch core tips nodes c t (branchAbove core tips c fuel t) := by
  have hc := hf.linkConsistent hcons
  induction j generalizing t fuel with
  | zero =>
    have hway := OnWay.start hc hj
    obtain ⟨p, hp, hpc⟩ := Option.bind_eq_some_iff.mp hj
    rw [ancestorAt, Option.some.injEq] at hpc
    subst hpc
    obtain ⟨fuel, rfl⟩ := Nat.exists_eq_add_of_lt hfuel
    have hprev := hf.prevKey_eq hinj hlink htips hp
    have hrows : branchAbove core tips p (0 + fuel + 1) t = [t] := by
      rw [branchAbove, if_pos hprev]
    rw [hrows]
    refine ⟨rfl, by simpa using htips, List.isChain_singleton t, ?_, ?_⟩
    · intro r hr
      rw [List.getLast?_singleton, Option.some.injEq] at hr
      exact hr ▸ hprev
    · intro x hx
      rw [List.mem_singleton.mp hx]
      exact hway
  | succ j ih =>
    obtain ⟨p, hp, hpc⟩ := Option.bind_eq_some_iff.mp hj
    obtain ⟨fuel, rfl⟩ := Nat.exists_eq_add_of_lt hfuel
    have hprev := hf.prevKey_eq hinj hlink htips hp
    have hne : core.prevKey t ≠ c := by
      intro he
      have hup := hc.graded.height_of_ancestorAt hpc
      rw [← hprev, he] at hup
      push_cast at hup
      omega
    -- the parent is in the window, so it was fed
    obtain ⟨q, hq, _⟩ := Option.bind_eq_some_iff.mp hpc
    obtain ⟨parent', htips', hkey', _⟩ := hf.link hq
    have hsome : (tips.find? fun s => decide (core.key s = core.prevKey t)).isSome := by
      rw [List.find?_isSome]
      exact ⟨parent', htips', by simp [hkey', hprev]⟩
    obtain ⟨parent, hparent⟩ := Option.isSome_iff_exists.mp hsome
    have hkey : core.key parent = core.prevKey t := by simpa using List.find?_some hparent
    have hmem := List.mem_of_find?_eq_some hparent
    have hlast : ancestorAt (parentIn nodes) (j + 1) (core.key parent) = some c := by
      rw [hkey, hprev, hpc]
    have hless : j < j + fuel + 1 := by omega
    have hrest := ih hmem hless hlast
    have hrows : branchAbove core tips c (j + 1 + fuel + 1) t =
        t :: branchAbove core tips c (j + fuel + 1) parent := by
      rw [branchAbove, if_neg hne, hparent, Nat.add_right_comm j 1 fuel]
    obtain ⟨rest, hsplit⟩ := List.head?_eq_some_iff.mp hrest.head
    have hfollows := hcons.follows hmem htips (hinj hkey.symm)
    rw [hrows]
    refine ⟨rfl, ?_, ?_, ?_, ?_⟩
    · intro x hx
      obtain rfl | hx := List.mem_cons.mp hx
      · exact htips
      · exact hrest.fed hx
    · have hgap := hrest.gapless
      rw [hsplit] at hgap ⊢
      exact List.IsChain.cons_cons hfollows hgap
    · intro r hr
      rw [hsplit, List.getLast?_cons_cons, ← hsplit] at hr
      exact hrest.last r hr
    · intro x hx
      obtain rfl | hx := List.mem_cons.mp hx
      · exact OnWay.start hc hj
      · have hway := hrest.onWay x hx
        rw [hkey, hprev] at hway
        exact hway.head hp

/-- Rolled back to where two chains part, and with the other branch on top, the table has no gap, and only
the rows on which the chains differ were touched. -/
theorem SideBranch.splice {b : String} {tip : VerifiedTip T} {table rows : List (VerifiedTip T)}
    (hrows : SideBranch core tips nodes c tip rows) (hf : FromTips core tips nodes)
    (hinj : Function.Injective core.stateHashToString) (hlink : HashesLink tips)
    (hcons : TipsConsistent core ht tips) (hgap : Gapless table) (hfed : table ⊆ tips)
    (hhead : ∀ t, table.head? = some t → core.key t = b)
    (hcom : HighestCommon (parentIn nodes) ht (core.key tip) b c) :
    Gapless (rows ++ rollbackTo core c table) ∧ ExactEdit table (rows ++ rollbackTo core c table) := by
  have hc := hf.linkConsistent hcons
  obtain ⟨undone, htable, hundone, hkept⟩ := rollbackTo_spec hf hinj hlink hgap hfed hhead hcom.right
  have hsub : rollbackTo core c table ⊆ tips := fun r hr => hfed (rollbackTo_subset c table hr)
  have hgapKept := (hgap.rollbackTo c : Gapless (rollbackTo core c table))
  have hlow : ∀ r ∈ rollbackTo core c table, ht (core.key r) ≤ ht c := by
    intro r hr
    cases hrest : rollbackTo core c table with
    | nil => simp [hrest] at hr
    | cons first rest =>
      have hfirst := hkept first (by rw [hrest]; rfl)
      rw [hrest] at hgapKept hr hsub
      have hle := hgapKept.height_le hr
      rw [← hfirst, (hcons r (hsub hr)).1, (hcons first (hsub List.mem_cons_self)).1]
      exact_mod_cast hle
  have happart : ∀ u ∈ undone, ∀ x ∈ rows, core.key u ≠ core.key x := by
    intro u hu x hx he
    have hway := hundone u hu
    have hle := hcom.highest (core.key u) (he ▸ (hrows.onWay x hx).1) hway.1
    have hlt := hway.lt hc
    omega
  have hkeys : ∀ s t : VerifiedTip T, core.key s ≠ core.key t → s.stateHash ≠ t.stateHash := by
    intro s t hne he
    exact hne (by rw [Core.key, Core.key, he])
  constructor
  · rw [Gapless, List.isChain_append]
    refine ⟨hrows.gapless, hgapKept, ?_⟩
    intro x hx r hr
    have hxc := hrows.last x hx
    have hrc := hkept r hr
    exact hcons.follows (hsub (List.mem_of_mem_head? hr)) (hrows.fed (List.mem_of_getLast? hx))
      (hinj (hxc.trans hrc.symm))
  · refine ⟨undone, rows, rollbackTo core c table, htable, rfl, ?_, ?_⟩
    · intro u hu t ht'
      apply hkeys
      obtain hx | hr := List.mem_append.mp ht'
      · exact happart u hu t hx
      · intro he
        have hlt := (hundone u hu).lt hc
        have hle := hlow t hr
        rw [he] at hlt
        omega
    · intro x hx t ht'
      apply hkeys
      rw [htable] at ht'
      obtain hu | hr := List.mem_append.mp ht'
      · exact (happart t hu x hx).symm
      · intro he
        have hlt := (hrows.onWay x hx).lt hc
        have hle := hlow t hr
        rw [he] at hlt
        omega

/-- Counted in rows, the way down to the ancestor is as long as its heights say. -/
theorem rollbackTo_eq_drop {b : String} {table : List (VerifiedTip T)} (hf : FromTips core tips nodes)
    (hinj : Function.Injective core.stateHashToString) (hlink : HashesLink tips)
    (hcons : TipsConsistent core ht tips) (hgap : Gapless table) (hfed : table ⊆ tips)
    (hhead : ∀ t, table.head? = some t → core.key t = b) (hreach : Reaches (parentIn nodes) b c) {k : ℕ}
    (hk : ht b = ht c + k) : rollbackTo core c table = table.drop k := by
  have hc := hf.linkConsistent hcons
  obtain ⟨undone, htable, hundone, hkept⟩ := rollbackTo_spec hf hinj hlink hgap hfed hhead hreach
  have hht : ∀ t ∈ table, ht (core.key t) = t.height.toNat := fun t htable => (hcons t (hfed htable)).1
  cases undone with
  | nil =>
    -- the ancestor is the newest row
    cases table with
    | nil => simp [rollbackTo]
    | cons t rows =>
      rw [List.nil_append] at htable
      have hzero : k = 0 := by
        have hkey := hkept t (by rw [← htable]; rfl)
        rw [← hhead t rfl, hkey] at hk
        omega
      rw [← htable, hzero, List.drop_zero]
  | cons t undone =>
    have htop : ht b = t.height.toNat := by
      rw [← hhead t (by rw [htable]; rfl), hht t (by rw [htable]; simp)]
    cases hrest : rollbackTo core c table with
    | nil =>
      -- the table ends above the ancestor
      rw [hrest, List.append_nil] at htable
      rw [eq_comm, List.drop_eq_nil_iff, htable]
      obtain rfl | ⟨front, last, rfl⟩ := List.eq_nil_or_concat undone
      · have hlt := (hundone t (by simp)).lt hc
        rw [hht t (by rw [htable]; simp)] at hlt
        simp only [List.length_singleton]
        omega
      · rw [List.concat_eq_append] at htable hundone ⊢
        have hlt := (hundone last (by simp)).lt hc
        rw [hht last (by rw [htable]; simp)] at hlt
        rw [htable] at hgap
        have hcount := Gapless.height_append hgap
        simp only [List.length_cons, List.length_append, List.length_nil]
        omega
    | cons r rest =>
      have hrc := hkept r (by rw [hrest]; rfl)
      rw [hrest] at htable
      have hlow := hht r (by rw [htable]; simp)
      rw [hrc] at hlow
      rw [htable] at hgap
      have hcount := Gapless.height_append hgap
      have hlen : (t :: undone).length = k := by
        simp only [List.length_cons]
        omega
      rw [htable, ← hlen, List.drop_left]

end Window

/-! ## One turn -/

/-- No block is preferred to one that is built on it. -/
theorem TotalOn.prefers_descendant {tips : List (VerifiedTip T)} {nodes : Nodes T}
    (h : TotalOn core tips) (hinj : Function.Injective core.stateHashToString)
    (hf : FromTips core tips nodes) {w u : VerifiedTip T} (hw : w ∈ tips) (hu : u ∈ tips) {c : String}
    (hreach : Reaches (parentIn nodes) (core.key w) c) (hc : core.key u = c)
    (hne : u.stateHash ≠ w.stateHash) : prefersCandidate core u w = true := by
  induction hreach generalizing u with
  | refl => exact absurd (hinj hc) hne
  | tail _ hp ih =>
    obtain ⟨v, hv, hkey, hprev⟩ := hf.link hp
    have hchild := h.child u hu v hv (hinj (hprev.trans hc.symm))
    by_cases hsame : v.stateHash = w.stateHash
    · -- `v` stands for `w` in the window
      obtain hup | hdown := h.total u hu w hw hne
      · exact hup
      · have hself := h.trans w hw u hu v hv hdown hchild
        rw [h.irrefl w hw v hv hsame.symm] at hself
        exact absurd hself Bool.false_ne_true
    · exact h.trans u hu v hv w hw hchild (ih hv hkey hsame)

/-- The table of the indexer, against the monitor. -/
structure Indexes (core : Core T) (tips : List (VerifiedTip T)) (m : ChainMonitor T)
    (table : List (VerifiedTip T)) : Prop where
  gapless : Gapless table
  fed : table ⊆ tips
  head : table.head?.map core.key = m.best

section Turn
variable {m m' : ChainMonitor T} {tip : VerifiedTip T} {tips : List (VerifiedTip T)}
  {outs : List (Ingest T.StateHash)} {capacity : ℕ} {ht : String → ℤ}

/-- What a reorganisation that names an ancestor says of the links: the two chains part there, the tip is
above it, and the depth is the difference of heights. -/
theorem ingest_reorg_links (hinj : Function.Injective core.stateHashToString) (h2 : 2 ≤ capacity)
    (hrun : (ChainMonitor.new capacity).run core tips = .returned (m, outs))
    (htotal : TotalOn core (tips ++ [tip])) (hcons : TipsConsistent core ht (tips ++ [tip]))
    {fromHash : T.StateHash} {c : String} {depth : Option UInt32}
    (h : m.ingest core tip = .returned (m', .reorg fromHash (some c) depth)) :
    m'.best = some (core.key tip) ∧ FromTips core (tips ++ [tip]) (windowAfter core m tip) ∧
    ∃ b, m.best = some b ∧
      HighestCommon (parentIn (windowAfter core m tip)) ht (core.key tip) b c ∧ core.key tip ≠ c ∧
      ∀ k, depth = some k → ht b = ht c + k.toNat := by
  have hm := run_anchored h2 hrun
  cases hm.ingest_cases h with
  | loses _ _ _ _ _ _ hout => simp at hout
  | @reorg b n _ hkey hb hn _ htake hne hwalk =>
    have hf := run_windowAfter hrun hkey
    have hc := hf.linkConsistent hcons
    have hbest := hm.lookup_best_after hkey hb hn
    obtain ⟨c', hwalk', hcom⟩ | ⟨hnone, _⟩ :=
      commonAncestor_spec hc (hm.insert_new_mem hkey) (hm.best_mem_after hkey hb)
    · have heq : c' = c := by
        have hboth := hwalk'.symm.trans hwalk
        simpa using hboth
      subst heq
      refine ⟨rfl, hf, b, hb, hcom, ?_, ?_⟩
      · intro htip
        -- the tip would be an ancestor of the best, and would not win
        obtain ⟨w, hmax, hw⟩ := run_maximum hinj h2
          (htotal.mono (List.subset_append_left tips [tip])) hrun (run_ne_nil hrun hb)
        have hbw : core.key w = b := Option.some.inj (hw.best.symm.trans hb)
        have hnw : core.node w = n := by
          have hlookup := hw.lookup
          rw [hbw, hn, Option.some.injEq] at hlookup
          exact hlookup.symm
        have hwin : prefersCandidate core w tip = true := by
          rw [← hnw] at htake
          exact htake
        have hmem : w ∈ tips ++ [tip] := by simp [hmax.1]
        have hdiff : tip.stateHash ≠ w.stateHash := by
          intro he
          rw [htotal.irrefl w hmem tip (by simp) he.symm] at hwin
          exact Bool.false_ne_true hwin
        have hreach : Reaches (parentIn (windowAfter core m tip)) (core.key w) c' := by
          rw [hbw]
          exact hcom.right
        have hlose := htotal.prefers_descendant hinj hf hmem (by simp) hreach htip hdiff
        have hself := htotal.trans w hmem tip (by simp) w hmem hwin hlose
        rw [htotal.irrefl w hmem w hmem rfl] at hself
        exact Bool.false_ne_true hself
      · intro k hk
        rw [Option.map_eq_some_iff] at hk
        obtain ⟨nc, hnc, hk⟩ := hk
        rw [Option.bind_some] at hnc
        have htop := (hc b n hbest).1
        have hbot := (hc c' nc hnc).1
        have hle := hc.graded.le hcom.right
        have hheights : nc.height ≤ n.height := by
          rw [UInt32.le_iff_toNat_le]
          omega
        rw [← hk, saturatingSub, if_pos hheights, UInt32.toNat_sub_of_le _ _ hheights]
        have := UInt32.le_iff_toNat_le.mp hheights
        omega
    · rw [hnone] at hwalk
      simp at hwalk

variable {table : List (VerifiedTip T)}

theorem Indexes.head_key (h : Indexes core tips m table) {b : String} (hb : m.best = some b)
    {t : VerifiedTip T} (ht' : table.head? = some t) : core.key t = b := by
  have hhead := h.head
  rw [ht', hb, Option.map_some, Option.some.injEq] at hhead
  exact hhead

theorem Indexes.fed_snoc (h : Indexes core tips m table) : table ⊆ tips ++ [tip] :=
  fun _ ht' => List.mem_append_left [tip] (h.fed ht')

theorem Indexes.keep (h : Indexes core tips m table) (hbest : m'.best = m.best) :
    Indexes core (tips ++ [tip]) m' table :=
  ⟨h.gapless, h.fed_snoc, hbest ▸ h.head⟩

/-- A tip on the newest row. -/
theorem Indexes.push (h : Indexes core tips m table) (hbest : m'.best = some (core.key tip))
    (hfollows : ∀ t, table.head? = some t → Follows t tip) :
    Indexes core (tips ++ [tip]) m' (tip :: table) := by
  refine ⟨?_, ?_, by simp [hbest]⟩
  · rw [Gapless, List.isChain_cons]
    exact ⟨hfollows, h.gapless⟩
  · intro t ht'
    obtain rfl | ht' := List.mem_cons.mp ht'
    · simp
    · exact h.fed_snoc ht'

/-- There is fuel for the branch: its lowest block has a height. -/
theorem branch_of_reorg (hinj : Function.Injective core.stateHashToString)
    (hcons : TipsConsistent core ht (tips ++ [tip])) (hlink : HashesLink (tips ++ [tip]))
    {nodes : Nodes T} (hf : FromTips core (tips ++ [tip]) nodes) {c : String}
    (hreach : Reaches (parentIn nodes) (core.key tip) c) (hne : core.key tip ≠ c) :
    SideBranch core (tips ++ [tip]) nodes c tip
      (branchAbove core (tips ++ [tip]) c (tip.height.toNat + 1) tip) := by
  have hc := hf.linkConsistent hcons
  have hmem : tip ∈ tips ++ [tip] := by simp
  obtain ⟨links, hlinks⟩ := hreach.exists_ancestorAt
  cases links with
  | zero =>
    rw [ancestorAt, Option.some.injEq] at hlinks
    exact absurd hlinks hne
  | succ j =>
    refine branchAbove_spec hf hinj hlink hcons hmem ?_ hlinks
    obtain he | ⟨x, _, hx⟩ := Relation.ReflTransGen.cases_tail hreach
    · exact absurd he.symm hne
    · obtain ⟨n, hn, _⟩ := parentIn_eq_some.mp hx
      have hlow := (hc x n hn).1
      have hstep := hc.graded x c hx
      have hup := hc.graded.height_of_ancestorAt hlinks
      have htop := (hcons tip hmem).1
      push_cast at hup
      omega

/-- A reorganisation to a branch from a common ancestor. -/
theorem Indexes.reorg (hinj : Function.Injective core.stateHashToString) (h2 : 2 ≤ capacity)
    (hrun : (ChainMonitor.new capacity).run core tips = .returned (m, outs))
    (htotal : TotalOn core (tips ++ [tip])) (hcons : TipsConsistent core ht (tips ++ [tip]))
    (hlink : HashesLink (tips ++ [tip])) (h : Indexes core tips m table) {fromHash : T.StateHash}
    {c : String} {depth : Option UInt32}
    (hing : m.ingest core tip = .returned (m', .reorg fromHash (some c) depth)) :
    Indexes core (tips ++ [tip]) m'
        (branchAbove core (tips ++ [tip]) c (tip.height.toNat + 1) tip ++ rollbackTo core c table) ∧
      ExactEdit table
        (branchAbove core (tips ++ [tip]) c (tip.height.toNat + 1) tip ++ rollbackTo core c table) ∧
      (∀ k, depth = some k → rollbackTo core c table = table.drop k.toNat) ∧
      (Gapless (tip :: rollbackTo core c table) ↔
        rollbackTo core c table = [] ∨ core.prevKey tip = c) := by
  obtain ⟨hbest, hf, b, hb, hcom, hne, hdepth⟩ := ingest_reorg_links hinj h2 hrun htotal hcons hing
  have hhead : ∀ t, table.head? = some t → core.key t = b := fun t => h.head_key hb
  have hrows := branch_of_reorg hinj hcons hlink hf hcom.left hne
  obtain ⟨hgap, hedit⟩ := hrows.splice hf hinj hlink hcons h.gapless h.fed_snoc hhead hcom
  obtain ⟨_, _, _, hkept⟩ := rollbackTo_spec hf hinj hlink h.gapless h.fed_snoc hhead hcom.right
  have hsub : rollbackTo core c table ⊆ tips ++ [tip] :=
    fun r hr => h.fed_snoc (rollbackTo_subset c table hr)
  refine ⟨⟨hgap, ?_, ?_⟩, hedit, ?_, ?_⟩
  · intro t ht'
    obtain ht' | ht' := List.mem_append.mp ht'
    · exact hrows.fed ht'
    · exact hsub ht'
  · rw [List.head?_append, hrows.head, hbest]
    rfl
  · intro k hk
    exact rollbackTo_eq_drop hf hinj hlink hcons h.gapless h.fed_snoc hhead hcom.right (hdepth k hk)
  · rw [Gapless, List.isChain_cons]
    constructor
    · rintro ⟨hfirst, _⟩
      cases hrest : rollbackTo core c table with
      | nil => exact Or.inl rfl
      | cons r rest =>
        right
        have hr : (rollbackTo core c table).head? = some r := by rw [hrest]; rfl
        rw [(hfirst r hr).prevKey, hkept r hr]
    · intro hcase
      refine ⟨?_, h.gapless.rollbackTo c⟩
      intro r hr
      obtain hnil | hprev := hcase
      · simp [hnil] at hr
      · exact hcons.follows (hsub (List.mem_of_mem_head? hr)) (by simp)
          (hinj (hprev.trans (hkept r hr).symm))

/-- One turn keeps the table. -/
theorem Indexes.record (hinj : Function.Injective core.stateHashToString) (h2 : 2 ≤ capacity)
    (hrun : (ChainMonitor.new capacity).run core tips = .returned (m, outs))
    (htotal : TotalOn core (tips ++ [tip])) (hcons : TipsConsistent core ht (tips ++ [tip]))
    (hlink : HashesLink (tips ++ [tip])) {ix : Indexer T} (hstore : ix.store = tips)
    (h : Indexes core tips m ix.table) {out : Ingest T.StateHash}
    (hing : m.ingest core tip = .returned (m', out)) :
    Indexes core (tips ++ [tip]) m' (ix.record core tip out).table := by
  have hm := run_anchored h2 hrun
  have happend : ∀ height, out = .extend height →
      Indexes core (tips ++ [tip]) m' (tip :: ix.table) := by
    intro height hout
    obtain ⟨_, hbest, w, hw, hfollows⟩ := ingest_extend hinj h2 hrun htotal hcons (hout ▸ hing)
    refine h.push hbest.best ?_
    intro t ht'
    have hkey := hinj (h.head_key hw.best ht')
    have hmem : t ∈ tips ++ [tip] := h.fed_snoc (List.mem_of_mem_head? ht')
    exact hcons.follows hmem (by simp) (hfollows.1.trans hkey.symm)
  cases hm.ingest_cases hing with
  | duplicate _ => exact h.keep rfl
  | genesis _ hb =>
    refine h.push rfl ?_
    intro t ht'
    have hhead := h.head
    rw [ht', hb] at hhead
    simp at hhead
  | child _ _ _ => exact happend tip.height rfl
  | descendant _ _ _ _ _ _ => exact happend tip.height rfl
  | @reorg _ _ common _ _ _ _ _ _ _ =>
    cases common with
    | none => exact ⟨List.isChain_singleton tip, by simp [Indexer.record], rfl⟩
    | some c =>
      have hturn := (h.reorg hinj h2 hrun htotal hcons hlink hing).1
      simpa only [Indexer.record, hstore] using hturn
  | loses _ _ _ _ _ _ hout =>
    obtain ⟨_, rfl⟩ | ⟨_, _, _, rfl⟩ | ⟨_, rfl⟩ := hout
    · exact h.keep insert_best
    · exact h.keep insert_best
    · exact h.keep insert_best

end Turn

theorem HashesLink.mono {tips tips' : List (VerifiedTip T)} (h : HashesLink tips') (hsub : tips ⊆ tips') :
    HashesLink tips :=
  fun s hs t ht => h s (hsub hs) t (hsub ht)

theorem run_indexes (hinj : Function.Injective core.stateHashToString) {capacity : ℕ}
    (h2 : 2 ≤ capacity) {ht : String → ℤ} {tips : List (VerifiedTip T)} (htotal : TotalOn core tips)
    (hcons : TipsConsistent core ht tips) (hlink : HashesLink tips) :
    ∀ {m outs}, (ChainMonitor.new capacity).run core tips = .returned (m, outs) →
      Indexes core tips m (indexed core tips outs).table := by
  induction tips using List.reverseRecOn with
  | nil =>
    intro m outs hrun
    exact ⟨List.isChain_nil, List.nil_subset _, by rw [run_nil_best hrun]; rfl⟩
  | append_singleton tips tip ih =>
    intro m outs hrun
    obtain ⟨m₁, outs₁, out, h1, hing, rfl⟩ := run_snoc_returned.mp hrun
    have hsub := List.subset_append_left tips [tip]
    have hlen := run_length h1
    rw [indexed_snoc hlen]
    exact (ih (htotal.mono hsub) (hcons.mono hsub) (hlink.mono hsub) h1).record hinj h2 h1 htotal hcons
      hlink (indexed_store hlen) hing

theorem Indexes.bestHash {tips : List (VerifiedTip T)} {m : ChainMonitor T}
    {table : List (VerifiedTip T)} (hinj : Function.Injective core.stateHashToString)
    (h : Indexes core tips m table) (hm : Anchored core m) :
    table.head?.map VerifiedTip.stateHash = m.bestHash := by
  cases hb : m.best with
  | none =>
    have hhead := h.head
    rw [hb, Option.map_eq_none_iff] at hhead
    simp [hhead, ChainMonitor.bestHash, hb]
  | some b =>
    obtain ⟨n, hn⟩ := hm.lookup_best hb
    have hhead := h.head
    rw [hb, Option.map_eq_some_iff] at hhead
    obtain ⟨t, hfirst, hkey⟩ := hhead
    rw [bestHash_eq hb hn, hfirst, Option.map_some, Option.some.injEq]
    exact hinj (hkey.trans (hm.wellFormed.own b n hn).symm)

/-- **The answers of the monitor keep a table of the canonical chain.** Under a fork choice that is a total order
and prefers children, on blocks whose heights and hashes follow their links, and with room for two blocks,
every run returns, and the table of an indexer that follows the answers is gapless, holds verified blocks that
were fed, and ends at the best. A reorganisation that names an ancestor removes the rows that are not on the
new chain, as many as the depth it reports or all if there are fewer, and adds those that were not on the old
one. The tip alone, persisted after the roll back, would leave a gap unless it is a child of the ancestor or
nothing was kept. -/
theorem indexer_exact (hinj : Function.Injective core.stateHashToString) {capacity : ℕ}
    (h2 : 2 ≤ capacity) {ht : String → ℤ} {tips : List (VerifiedTip T)} (htotal : TotalOn core tips)
    (hcons : TipsConsistent core ht tips) (hlink : HashesLink tips) :
    (∃ m outs, (ChainMonitor.new capacity).run core tips = .returned (m, outs) ∧
      Gapless (indexed core tips outs).table ∧ (indexed core tips outs).table ⊆ tips ∧
      (indexed core tips outs).table.head?.map VerifiedTip.stateHash = m.bestHash) ∧
    ∀ pre tip, pre ++ [tip] <+: tips → ∀ m outs m' fromHash c depth,
      (ChainMonitor.new capacity).run core pre = .returned (m, outs) →
      m.ingest core tip = .returned (m', .reorg fromHash (some c) depth) →
        ExactEdit (indexed core pre outs).table
          ((indexed core pre outs).record core tip (.reorg fromHash (some c) depth)).table ∧
        (∀ k, depth = some k →
          rollbackTo core c (indexed core pre outs).table = (indexed core pre outs).table.drop k.toNat ∧
          (indexed core pre outs).table.length = min k.toNat (indexed core pre outs).table.length +
            (rollbackTo core c (indexed core pre outs).table).length) ∧
        (Gapless (tip :: rollbackTo core c (indexed core pre outs).table) ↔
          rollbackTo core c (indexed core pre outs).table = [] ∨ core.prevKey tip = c) := by
  constructor
  · obtain ⟨m, outs, hrun⟩ := run_returns h2 (htotal.acyclic hinj)
    have h := run_indexes hinj h2 htotal hcons hlink hrun
    exact ⟨m, outs, hrun, h.gapless, h.fed, h.bestHash hinj (run_anchored h2 hrun)⟩
  · intro pre tip hpre m outs m' fromHash c depth hrun hing
    have hsub := hpre.subset
    have hold : pre ⊆ tips := fun _ ht' => hsub (List.mem_append_left [tip] ht')
    have h := run_indexes hinj h2 (htotal.mono hold) (hcons.mono hold) (hlink.mono hold) hrun
    obtain ⟨_, hedit, hdrop, hgap⟩ :=
      h.reorg hinj h2 hrun (htotal.mono hsub) (hcons.mono hsub) (hlink.mono hsub) hing
    refine ⟨?_, fun k hk => ⟨hdrop k hk, ?_⟩, hgap⟩
    · simpa only [Indexer.record, indexed_store (run_length hrun)] using hedit
    · rw [hdrop k hk, List.length_drop]
      omega

namespace SampleBranch

/-- `b` beats its sibling `a`, and loses to `c` on `a`. -/
def tips : List (VerifiedTip Sample.types) :=
  [Sample.tip "g" "o" 1, Sample.tip "b" "g" 2, Sample.tip "a" "g" 2, Sample.tip "c" "a" 3]

def heights : String → ℤ
  | "c" => 3
  | "b" => 2
  | "a" => 2
  | "g" => 1
  | _ => 0

end SampleBranch

open SampleBranch in
/-- The block `a`, a fork when it came, is in the table under `c`, and `g`, which the window has lost, below. -/
theorem indexer_exact_two_blocks :
    ∃ m outs, (ChainMonitor.new 3).run Sample.minaCore tips = .returned (m, outs) ∧
      (indexed Sample.minaCore tips outs).table.map VerifiedTip.stateHash = ["c", "a", "g"] ∧
      Gapless (indexed Sample.minaCore tips outs).table ∧ m.bestHash = some "c" := by
  have hinj : Function.Injective Sample.minaCore.stateHashToString := Function.injective_id
  have htotal : TotalOn Sample.minaCore tips :=
    ⟨⟨by decide +kernel, by decide +kernel, by decide +kernel⟩, by decide +kernel⟩
  have hcons : TipsConsistent Sample.minaCore heights tips := by decide
  have hlink : HashesLink tips := by unfold HashesLink; decide +kernel
  obtain ⟨m, outs, hrun, hgapless, _, hbest⟩ :=
    (indexer_exact hinj (by omega : 2 ≤ 3) htotal hcons hlink).1
  have hrows : ((ChainMonitor.new 3).run Sample.minaCore tips).holds (fun r =>
      decide ((indexed Sample.minaCore tips r.2).table.map VerifiedTip.stateHash =
        ["c", "a", "g"])) = true := by
    decide +kernel
  rw [hrun] at hrows
  have htable := of_decide_eq_true hrows
  refine ⟨m, outs, hrun, htable, hgapless, ?_⟩
  rw [← hbest, ← List.head?_map, htable]
  rfl

end MinaVerify
