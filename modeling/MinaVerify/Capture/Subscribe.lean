import MinaVerify.Foundations.Sessions

/-! # The gossip subscription

The event loop of `subscribe_blocks` in `crates/mina-verify-capture/src/lib.rs`. Every round takes the
branch of `tokio::select!` that is ready: the deadline, the tick, or the next event of the swarm. The
tick reports how many peers are connected, from a set of peers; but the swarm reports connections, and
the loop itself dials every seed again whenever one closes, so a peer may have several. -/
namespace MinaVerify
set_option autoImplicit false

variable {Peer Conn Addr σ : Type} [DecidableEq Peer]

/-! ## The loop -/

/-- `SwarmEvent`; the events that the loop ignores are one. -/
inductive SwarmEvent (Peer Conn : Type) where
  /-- `Behaviour` with a gossipsub message. -/
  | message (data : List UInt8)
  | connectionEstablished (peer : Peer) (connection : Conn)
  | connectionClosed (peer : Peer) (connection : Conn)
  | outgoingConnectionError (peer : Option Peer) (error : String)
  | other
  deriving DecidableEq, Repr

inductive Branch (Peer Conn : Type) where
  | deadline
  | tick
  | swarm (event : Option (SwarmEvent Peer Conn))
  deriving DecidableEq, Repr

inductive ControlFlow where
  | continue_
  | break_
  deriving DecidableEq, Repr

/-- The two callbacks, on the state they have captured. -/
structure Callbacks (σ : Type) where
  onBlock : List UInt8 → σ → σ × ControlFlow
  onTick : ℕ → σ → σ × ControlFlow

/-- What the loop calls. -/
inductive Effect (Addr : Type) where
  | onBlock (data : List UInt8)
  | onTick (peers : ℕ)
  | dial (addr : Addr)
  deriving DecidableEq, Repr

structure Subscription (Peer Addr σ : Type) where
  connected : Finset Peer
  captured : σ
  effects : List (Effect Addr)

def Subscription.start (captured : σ) : Subscription Peer Addr σ := ⟨∅, captured, []⟩

section Loop
variable (peers : List Addr) (callbacks : Callbacks σ)

def selectRound (s : Subscription Peer Addr σ) :
    Branch Peer Conn → Subscription Peer Addr σ × ControlFlow
  | .deadline => (s, .break_)
  | .tick =>
    let r := callbacks.onTick s.connected.card s.captured
    ({ s with captured := r.1, effects := s.effects ++ [.onTick s.connected.card] }, r.2)
  | .swarm (some (.message data)) =>
    -- the tag of a block
    if data[8]? = some 0 then
      let r := callbacks.onBlock data s.captured
      ({ s with captured := r.1, effects := s.effects ++ [.onBlock data] }, r.2)
    else (s, .continue_)
  | .swarm (some (.connectionEstablished peer _)) =>
    ({ s with connected := insert peer s.connected }, .continue_)
  | .swarm (some (.connectionClosed peer _)) =>
    ({ s with connected := s.connected.erase peer, effects := s.effects ++ peers.map .dial },
      .continue_)
  | .swarm (some (.outgoingConnectionError _ _)) => (s, .continue_)
  | .swarm (some .other) => (s, .continue_)
  | .swarm none => (s, .break_)

def subscribeBlocks : List (Branch Peer Conn) → Subscription Peer Addr σ →
    Subscription Peer Addr σ × ControlFlow
  | [], s => (s, .continue_)
  | branch :: branches, s =>
    match selectRound peers callbacks s branch with
    | (s, .continue_) => subscribeBlocks branches s
    | (s, .break_) => (s, .break_)

end Loop

/-! ## The connections -/

def Branch.connection : Branch Peer Conn → Option (Sessions.Event Peer Conn)
  | .swarm (some (.connectionEstablished peer connection)) => some (.opened peer connection)
  | .swarm (some (.connectionClosed peer connection)) => some (.closed peer connection)
  | _ => none

def connections (branches : List (Branch Peer Conn)) : List (Sessions.Event Peer Conn) :=
  branches.filterMap Branch.connection

section Run
variable {peers : List Addr} {callbacks : Callbacks σ} {captured : σ}
  {s : Subscription Peer Addr σ} {branches : List (Branch Peer Conn)}

omit [DecidableEq Peer] in
theorem connections_snoc (branches : List (Branch Peer Conn)) (branch : Branch Peer Conn) :
    connections (branches ++ [branch]) = connections branches ++ branch.connection.toList := by
  rw [connections, List.filterMap_append]
  cases hc : branch.connection with
  | none => simp [hc, connections]
  | some e => simp [hc, connections]

theorem selectRound_connected (peers : List Addr) (callbacks : Callbacks σ)
    (s : Subscription Peer Addr σ) (branch : Branch Peer Conn) :
    (selectRound peers callbacks s branch).1.connected =
      (branch.connection.elim s.connected fun e => Sessions.keep s.connected e) := by
  cases branch with
  | deadline => rfl
  | tick => rfl
  | swarm event =>
    cases event with
    | none => rfl
    | some event =>
      cases event with
      | message data =>
        simp only [selectRound]
        split_ifs <;> rfl
      | connectionEstablished peer connection => rfl
      | connectionClosed peer connection => rfl
      | outgoingConnectionError peer error => rfl
      | other => rfl

theorem subscribeBlocks_snoc {s' : Subscription Peer Addr σ} {branch : Branch Peer Conn}
    (h : subscribeBlocks peers callbacks (branches ++ [branch]) s = (s', .continue_)) :
    ∃ t, subscribeBlocks peers callbacks branches s = (t, .continue_) ∧
      selectRound peers callbacks t branch = (s', .continue_) := by
  induction branches generalizing s with
  | nil =>
    refine ⟨s, rfl, ?_⟩
    rw [List.nil_append, subscribeBlocks] at h
    split at h
    · next t hround =>
      rw [hround]
      exact h
    · simp at h
  | cons first branches ih =>
    rw [List.cons_append, subscribeBlocks] at h
    split at h
    · next t hround =>
      obtain ⟨t', hrun, hlast⟩ := ih h
      refine ⟨t', ?_, hlast⟩
      rw [subscribeBlocks, hround]
      exact hrun
    · simp at h

theorem subscribeBlocks_connected
    (h : subscribeBlocks peers callbacks branches (.start captured) = (s, .continue_)) :
    s.connected = Sessions.tracked (connections branches) := by
  induction branches using List.reverseRecOn generalizing s with
  | nil =>
    rw [subscribeBlocks, Prod.mk.injEq] at h
    rw [← h.1]
    rfl
  | append_singleton branches branch ih =>
    obtain ⟨t, hrun, hround⟩ := subscribeBlocks_snoc h
    have hstep := selectRound_connected peers callbacks t branch
    rw [hround, ih hrun] at hstep
    rw [hstep, connections_snoc]
    cases branch.connection with
    | none => rw [Option.toList_none, List.append_nil, Option.elim_none]
    | some e => rw [Option.toList_some, Sessions.tracked_snoc, Option.elim_some]

end Run

/-! ## The count at a tick -/

section Count
variable [DecidableEq Conn]

def openPeers (branches : List (Branch Peer Conn)) : Finset Peer :=
  Sessions.holders (connections branches)

variable (peers : List Addr) (callbacks : Callbacks σ) (captured : σ)
  (branches : List (Branch Peer Conn))

/-- At every tick the loop gets to, `on_tick` is passed the number of peers with an open connection. -/
def CountsPeers : Prop :=
  ∀ pre, pre ++ [.tick] <+: branches → ∀ s,
    subscribeBlocks peers callbacks pre (.start captured) = (s, .continue_) →
      (selectRound peers callbacks s (Branch.tick : Branch Peer Conn)).1.effects =
        s.effects ++ [.onTick (openPeers pre).card]

/-- At every tick the loop gets to, a peer that still has a connection has opened one since it last
lost one. -/
def NoneDropped : Prop :=
  ∀ pre, pre ++ [.tick] <+: branches → ∀ s,
    subscribeBlocks peers callbacks pre (.start captured) = (s, .continue_) →
      ∀ peer ∈ openPeers pre, ¬ Sessions.Dropped (connections pre) peer

/-- **The peer count is right exactly when no tick falls between a connection that a peer loses while
it keeps another, and the next one it opens.** -/
theorem countsPeers_iff :
    CountsPeers peers callbacks captured branches ↔
      NoneDropped peers callbacks captured branches := by
  have htick : ∀ (pre : List (Branch Peer Conn)) (s : Subscription Peer Addr σ),
      subscribeBlocks peers callbacks pre (.start captured) = (s, .continue_) →
      ((selectRound peers callbacks s (Branch.tick : Branch Peer Conn)).1.effects =
          s.effects ++ [.onTick (openPeers pre).card] ↔
        ∀ peer ∈ openPeers pre, ¬ Sessions.Dropped (connections pre) peer) := by
    intro pre s hrun
    have hconnected := subscribeBlocks_connected hrun
    rw [openPeers, ← Sessions.card_tracked_iff, ← hconnected]
    simp [selectRound]
  constructor
  · intro h pre hpre s hrun
    exact (htick pre s hrun).mp (h pre hpre s hrun)
  · intro h pre hpre s hrun
    exact (htick pre s hrun).mpr (h pre hpre s hrun)

end Count

namespace SampleSwarm

/-- Callbacks that never stop the loop. -/
def idle : Callbacks Unit := ⟨fun _ _ => ((), .continue_), fun _ _ => ((), .continue_)⟩

/-- One of two connections to a seed closes. -/
def secondConnection : List (Branch String ℕ) :=
  [.swarm (some (.connectionEstablished "seed" 1)), .swarm (some (.connectionEstablished "seed" 2)),
    .swarm (some (.connectionClosed "seed" 1)), .tick]

end SampleSwarm

open SampleSwarm in
/-- The tick reports no peer, although the second connection is open. -/
theorem not_countsPeers_second_connection :
    Sessions.Emitted (connections secondConnection) ∧
      ¬ CountsPeers ["/dns4/seed"] idle () secondConnection := by
  constructor
  · have h1 : Sessions.Emitted [Sessions.Event.opened "seed" (1 : ℕ)] :=
      Sessions.Emitted.nil.opened (by simp)
    have h2 : Sessions.Emitted [Sessions.Event.opened "seed" 1, .opened "seed" 2] :=
      h1.opened (by simp)
    exact h2.closed (by decide)
  · intro h
    have hcount := h [.swarm (some (.connectionEstablished "seed" 1)),
      .swarm (some (.connectionEstablished "seed" 2)), .swarm (some (.connectionClosed "seed" 1))]
      (List.prefix_refl _) _ rfl
    exact absurd hcount (by decide)

end MinaVerify
