import Mathlib.Data.List.AList
import MinaVerify.Foundations.Loop
import MinaVerify.ForkChoice

/-! # The chain monitor

`crates/mina-verify/src/monitor.rs`, function by function. The window is a `HashMap` of nodes keyed
by the text of their state hash and a queue of the same keys; `insert` evicts from the front of the
queue, `common_ancestor` walks parent links, `ingest` classifies a tip against the best.

The two loops of `common_ancestor` need not end on a window whose links form a cycle, so they run on
the fuel `rounds`, one round for each pair of present keys and one to leave; `Loop.iterate_card` makes
running out of it the same as never ending (`commonAncestor_diverged`, in `Monitor.Ancestor`).
-/
namespace MinaVerify
set_option autoImplicit false

variable {T : Types}

structure Node (T : Types) where
  hash : T.StateHash
  prev : String
  height : UInt32
  cs : ConsensusState T

instance [DecidableEq T.ConsensusRest] : DecidableEq (ConsensusState T) := fun a b =>
  decidable_of_iff (a.blockchainLength = b.blockchainLength ∧ a.rest = b.rest) (by
    cases a; cases b; simp)

instance [DecidableEq T.StateHash] [DecidableEq (ConsensusState T)] : DecidableEq (Node T) :=
  fun a b => decidable_of_iff (a.hash = b.hash ∧ a.prev = b.prev ∧ a.height = b.height ∧
    a.cs = b.cs) (by cases a; cases b; simp)

/-- `HashMap<String, Node>`. -/
abbrev Nodes (T : Types) := AList fun _ : String => Node T

inductive Ingest (StateHash : Type) where
  | genesis
  | extend (height : UInt32)
  | duplicate
  | behind (height : UInt32)
  | reorg (fromHash : StateHash) (commonAncestor : Option String) (depth : Option UInt32)
  | fork (commonAncestor : Option String)
  | unlinked
  deriving DecidableEq, Repr

structure ChainMonitor (T : Types) where
  nodes : Nodes T
  order : List String
  capacity : ℕ
  best : Option String

namespace ChainMonitor

/-- `ChainMonitor::new`: the capacity is clamped to at least one. -/
def new (capacity : ℕ) : ChainMonitor T where
  nodes := ∅
  order := []
  capacity := max capacity 1
  best := none

/-- `best()`: the current canonical tip's state hash. -/
def bestHash (m : ChainMonitor T) : Option T.StateHash :=
  (m.best.bind fun k => m.nodes.lookup k).map Node.hash

def bestHeight (m : ChainMonitor T) : Option UInt32 :=
  (m.best.bind fun k => m.nodes.lookup k).map Node.height

def len (m : ChainMonitor T) : ℕ := m.nodes.keys.length

def setBest (m : ChainMonitor T) (key : String) : ChainMonitor T := { m with best := some key }

@[simp] theorem setBest_nodes (m : ChainMonitor T) (key : String) :
    (m.setBest key).nodes = m.nodes := rfl
@[simp] theorem setBest_order (m : ChainMonitor T) (key : String) :
    (m.setBest key).order = m.order := rfl
@[simp] theorem setBest_capacity (m : ChainMonitor T) (key : String) :
    (m.setBest key).capacity = m.capacity := rfl
@[simp] theorem setBest_best (m : ChainMonitor T) (key : String) :
    (m.setBest key).best = some key := rfl

end ChainMonitor

/-! ## Insertion and eviction -/

/-- The inner `loop` of `insert`: rotate the best from the front to the back, remove the first other
key. The second component is the removed key, and `none` on either early `return`. -/
def evictLoop (best : Option String) (rotated : ℕ) : List String → List String × Option String
  | [] => ([], none)
  | k :: order =>
    if some k = best then
      if (order ++ [k]).length ≤ rotated + 1 then (order ++ [k], none)
      else evictLoop best (rotated + 1) (order ++ [k])
    else (order, some k)
termination_by order => order.length - rotated
decreasing_by
  simp only [List.length_append, List.length_cons, List.length_nil] at *
  omega

theorem evictLoop_length {best : Option String} {rotated : ℕ} {order order' : List String}
    {k : String} (h : evictLoop best rotated order = (order', some k)) :
    order'.length < order.length := by
  fun_induction evictLoop best rotated order with
  | case1 => simp at h
  | case2 => simp at h
  | case3 rotated k' order hk hlen ih =>
    have := ih h
    simpa using this
  | case4 rotated k' order hk =>
    simp only [Prod.mk.injEq, Option.some.injEq] at h
    simp [h.1]

/-- The `while` of `insert`. -/
def evict (capacity : ℕ) (best : Option String) (nodes : Nodes T) (order : List String) :
    Nodes T × List String :=
  if capacity < nodes.keys.length then
    match _h : evictLoop best 0 order with
    | (order', none) => (nodes, order')
    | (order', some k) => evict capacity best (nodes.erase k) order'
  else (nodes, order)
termination_by order.length
decreasing_by exact evictLoop_length _h

def ChainMonitor.insert (m : ChainMonitor T) (key : String) (node : Node T) : ChainMonitor T :=
  let window := evict m.capacity m.best (m.nodes.insert key node) (m.order ++ [key])
  { m with nodes := window.1, order := window.2 }

/-! ## The common ancestor -/

/-- One round of the first loop: `.inr none` is the early exit of `?` on a missing node, `.inr` of
two cursors their equal heights. -/
def levelStep (nodes : Nodes T) :
    String × String → (String × String) ⊕ Option (String × String)
  | (x, y) =>
    match nodes.lookup x, nodes.lookup y with
    | some nx, some ny =>
      if nx.height = ny.height then .inr (some (x, y))
      else if nx.height > ny.height then .inl (nx.prev, y)
      else .inl (x, ny.prev)
    | _, _ => .inr none

def lockStep (nodes : Nodes T) : String × String → (String × String) ⊕ Option String
  | (x, y) =>
    if x = y then .inr (some x)
    else
      match nodes.lookup x, nodes.lookup y with
      | some nx, some ny => .inl (nx.prev, ny.prev)
      | _, _ => .inr none

/-- One round for each pair of present keys, and one to leave the loop. -/
def rounds (nodes : Nodes T) : ℕ := nodes.keys.length * nodes.keys.length + 1

def commonAncestor (nodes : Nodes T) (a b : String) : Outcome (Option String) :=
  match Loop.iterate (levelStep nodes) (rounds nodes) (a, b) with
  | none => .diverged
  | some none => .returned none
  | some (some cursors) =>
    match Loop.iterate (lockStep nodes) (rounds nodes) cursors with
    | none => .diverged
    | some common => .returned common

/-! ## Ingestion -/

def saturatingSub (a b : UInt32) : UInt32 := if b ≤ a then a - b else 0

namespace ChainMonitor

/-- The end of `ingest`, once the candidate has been compared with the best and the divergence point
looked for. -/
def resolve (m : ChainMonitor T) (key bestKey : String) (height : UInt32) (bestNode : Node T)
    (better : Bool) (common : Option String) : ChainMonitor T × Ingest T.StateHash :=
  if better then
    if common = some bestKey then (m.setBest key, .extend height)
    else
      let depth := (common.bind fun c => m.nodes.lookup c).map fun c =>
        saturatingSub bestNode.height c.height
      (m.setBest key, .reorg bestNode.hash common depth)
  else if common = some key then (m, .behind height)
  else if common.isSome then (m, .fork common)
  else (m, .unlinked)

end ChainMonitor

def Core.key (core : Core T) (tip : VerifiedTip T) : String := core.stateHashToString tip.stateHash

def Core.prevKey (core : Core T) (tip : VerifiedTip T) : String :=
  core.stateHashToString tip.previousStateHash

def Core.node (core : Core T) (tip : VerifiedTip T) : Node T where
  hash := tip.stateHash
  prev := core.prevKey tip
  height := tip.height
  cs := tip.consensusState

namespace ChainMonitor

def ingest (core : Core T) (m : ChainMonitor T) (tip : VerifiedTip T) :
    Outcome (ChainMonitor T × Ingest T.StateHash) :=
  let key := core.key tip
  if key ∈ m.nodes then .returned (m, .duplicate)
  else
    let m := m.insert key (core.node tip)
    match m.best with
    | none => .returned (m.setBest key, .genesis)
    | some bestKey =>
      if core.prevKey tip = bestKey then .returned (m.setBest key, .extend tip.height)
      else
        (Outcome.expect "best is in window" (m.nodes.lookup bestKey)).bind fun bestNode =>
        (Outcome.expect "just inserted" (m.nodes.lookup key)).bind fun candNode =>
        let better := core.consensusTake bestNode.cs candNode.cs bestNode.hash candNode.hash
        (commonAncestor m.nodes key bestKey).bind fun common =>
        .returned (m.resolve key bestKey tip.height bestNode better common)

/-- A sequence of `ingest` calls on one monitor, with what each returned. -/
def run (core : Core T) (m : ChainMonitor T) :
    List (VerifiedTip T) → Outcome (ChainMonitor T × List (Ingest T.StateHash))
  | [] => .returned (m, [])
  | tip :: tips =>
    (m.ingest core tip).bind fun r =>
    (run core r.1 tips).bind fun s =>
    .returned (s.1, r.2 :: s.2)

end ChainMonitor
end MinaVerify
