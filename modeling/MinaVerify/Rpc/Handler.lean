import Mathlib.Data.List.Count
import Mathlib.Data.List.Infix
import Mathlib.Logic.Function.Basic
import Mathlib.Tactic.FinCases
import MinaVerify.Rpc.Conn

/-! # Opening the RPC stream

`RpcHandler` and `RpcBehaviour` of `crates/mina-verify-capture/src/rpc_net.rs`: the handler of a connection
asks for one substream and hands the negotiated stream up to the behaviour, which surfaces it as an event
of the swarm; the fetch functions run over the first that surfaces.

The swarm is third-party. It polls handlers and behaviour when it likes, a connection runs in a task of its
own and reaches the behaviour through a channel, and connections come and go. So the code here is run on a
log of the swarm's calls into it, whatever they are, and what libp2p documents of them is a hypothesis on the
log, `SwarmContract`. -/
namespace MinaVerify
set_option autoImplicit false

variable {Conn : Type}

/-- A negotiated stream and the connection it is on. -/
structure Substream (Conn : Type) where
  conn : Conn
  stream : Stream

/-! ## The handler -/

/-- `ConnectionEvent`; the handler looks at one kind only. -/
inductive ConnectionEvent (Conn : Type) where
  | fullyNegotiatedOutbound (stream : Substream Conn)
  | other

inductive ConnectionHandlerEvent (Conn : Type) where
  | outboundSubstreamRequest
  | notifyBehaviour (stream : Substream Conn)

structure RpcHandler (Conn : Type) where
  requested : Bool
  ready : List (Substream Conn)

namespace RpcHandler

def default : RpcHandler Conn := ⟨false, []⟩

/-- `poll`, where `none` is `Pending`. -/
def poll (handler : RpcHandler Conn) : Option (ConnectionHandlerEvent Conn) × RpcHandler Conn :=
  if handler.requested = false then
    (some .outboundSubstreamRequest, { handler with requested := true })
  else
    match handler.ready with
    | stream :: ready => (some (.notifyBehaviour stream), { handler with ready := ready })
    | [] => (none, handler)

def onConnectionEvent (handler : RpcHandler Conn) : ConnectionEvent Conn → RpcHandler Conn
  | .fullyNegotiatedOutbound stream => { handler with ready := handler.ready ++ [stream] }
  | .other => handler

end RpcHandler

/-! ## The behaviour -/

structure RpcBehaviour (Conn : Type) where
  streams : List (Substream Conn)

namespace RpcBehaviour

def default : RpcBehaviour Conn := ⟨[]⟩

/-- `handle_established_inbound_connection` and `handle_established_outbound_connection`, which do not look at
the behaviour. -/
def handleEstablishedConnection : RpcHandler Conn := RpcHandler.default

def onConnectionHandlerEvent (behaviour : RpcBehaviour Conn) (stream : Substream Conn) :
    RpcBehaviour Conn :=
  ⟨behaviour.streams ++ [stream]⟩

def poll (behaviour : RpcBehaviour Conn) : Option (Substream Conn) × RpcBehaviour Conn :=
  match behaviour.streams with
  | stream :: streams => (some stream, ⟨streams⟩)
  | [] => (none, behaviour)

end RpcBehaviour

/-! ## The swarm -/

/-- What the swarm does on a connection: it asks the behaviour for a handler, polls it, tells it of a
substream that was negotiated or could not be, or of anything else, and drops it when the connection
closes. -/
inductive LinkEvent where
  | established
  | poll
  | negotiated (stream : Stream)
  | failed
  | other
  | closed

/-- A call of the swarm into the handlers and the behaviour; `handlerEvent` is
`on_connection_handler_event`. -/
inductive SwarmCall (Conn : Type) where
  | link (c : Conn) (event : LinkEvent)
  | handlerEvent (c : Conn) (stream : Substream Conn)
  | pollBehaviour

/-- The handler of a connection while it is open, what the swarm has got out of it, requests and streams for
the behaviour, and what it still held when it was dropped. -/
structure Link (Conn : Type) where
  handler : Option (RpcHandler Conn)
  requests : ℕ
  notified : List (Substream Conn)
  dropped : List (Substream Conn)

namespace Link

def unused : Link Conn := ⟨none, 0, [], []⟩

/-- What the handler of an open connection has not sent yet. -/
def ready (link : Link Conn) : List (Substream Conn) := (link.handler.map RpcHandler.ready).getD []

/-- The event of a connection that is handed to its handler, if there is one. -/
def onConnectionEvent (link : Link Conn) (event : ConnectionEvent Conn) : Link Conn :=
  { link with handler := link.handler.map fun handler => handler.onConnectionEvent event }

def poll (link : Link Conn) : Link Conn :=
  match link.handler with
  | none => link
  | some handler =>
    match handler.poll with
    | (some .outboundSubstreamRequest, handler) =>
      { link with handler := some handler, requests := link.requests + 1 }
    | (some (.notifyBehaviour stream), handler) =>
      { link with handler := some handler, notified := link.notified ++ [stream] }
    | (none, handler) => { link with handler := some handler }

def step (c : Conn) (link : Link Conn) : LinkEvent → Link Conn
  | .established => { link with handler := some RpcBehaviour.handleEstablishedConnection }
  | .poll => link.poll
  | .negotiated stream => link.onConnectionEvent (.fullyNegotiatedOutbound ⟨c, stream⟩)
  | .failed => link.onConnectionEvent .other
  | .other => link.onConnectionEvent .other
  | .closed => { link with handler := none, dropped := link.ready }

def run (c : Conn) (events : List LinkEvent) : Link Conn := events.foldl (step c) unused

theorem run_snoc (c : Conn) (events : List LinkEvent) (e : LinkEvent) :
    run c (events ++ [e]) = (run c events).step c e := by
  simp [run]

end Link

structure RpcNet (Conn : Type) where
  links : Conn → Link Conn
  behaviour : RpcBehaviour Conn
  /-- The streams `swarm.next` has returned. -/
  surfaced : List (Substream Conn)

namespace RpcNet
variable [DecidableEq Conn]

def start : RpcNet Conn := ⟨fun _ => .unused, .default, []⟩

def step (net : RpcNet Conn) : SwarmCall Conn → RpcNet Conn
  | .link c event => { net with links := Function.update net.links c ((net.links c).step c event) }
  | .handlerEvent _ stream => { net with behaviour := net.behaviour.onConnectionHandlerEvent stream }
  | .pollBehaviour =>
    match net.behaviour.poll with
    | (some stream, behaviour) =>
      { net with behaviour := behaviour, surfaced := net.surfaced ++ [stream] }
    | (none, behaviour) => { net with behaviour := behaviour }

def run (log : List (SwarmCall Conn)) : RpcNet Conn := log.foldl step start

theorem run_snoc (log : List (SwarmCall Conn)) (e : SwarmCall Conn) :
    run (log ++ [e]) = (run log).step e := by
  simp [run]

end RpcNet

/-! ## What the swarm promises -/

/-- The stream that an event negotiates. -/
def LinkEvent.stream (c : Conn) : LinkEvent → List (Substream Conn)
  | .negotiated stream => [⟨c, stream⟩]
  | _ => []

/-- An event that answers a request. -/
def LinkEvent.settles : LinkEvent → Bool
  | .negotiated _ => true
  | .failed => true
  | _ => false

def LinkEvent.isFailed : LinkEvent → Bool
  | .failed => true
  | _ => false

/-- The calls on one connection: the first asks for its handler, and no other does; none comes after its
closing; and each request is answered once at most, by a stream or by a failure. -/
structure LinkContract (c : Conn) (events : List LinkEvent) : Prop where
  first : ∀ event ∈ events.head?, event = .established
  once : .established ∉ events.tail
  closed : .closed ∉ events.dropLast
  answered : ∀ before, before <+: events →
    before.countP LinkEvent.settles ≤ (Link.run c before).requests

section Log
variable [DecidableEq Conn]

def SwarmCall.event (c : Conn) : SwarmCall Conn → List LinkEvent
  | .link c' event => if c' = c then [event] else []
  | _ => []

/-- What a call brings to the behaviour from a connection. -/
def SwarmCall.delivery (c : Conn) : SwarmCall Conn → List (Substream Conn)
  | .handlerEvent c' stream => if c' = c then [stream] else []
  | _ => []

/-- The events of a connection. -/
def eventsOn (c : Conn) (log : List (SwarmCall Conn)) : List LinkEvent := log.flatMap (SwarmCall.event c)

/-- The streams negotiated on a connection. -/
def negotiatedOn (c : Conn) (log : List (SwarmCall Conn)) : List (Substream Conn) :=
  (eventsOn c log).flatMap (LinkEvent.stream c)

/-- What the behaviour was given from a connection. -/
def deliveredOn (c : Conn) (log : List (SwarmCall Conn)) : List (Substream Conn) :=
  log.flatMap (SwarmCall.delivery c)

/-- What libp2p documents of its swarm: each connection is used as `LinkContract` says, and what a handler
sends reaches the behaviour in the order of sending and once at most. -/
structure SwarmContract (log : List (SwarmCall Conn)) : Prop where
  links : ∀ c, LinkContract c (eventsOn c log)
  delivered : ∀ c before, before <+: log →
    deliveredOn c before <+: (Link.run c (eventsOn c before)).notified

end Log

/-! ## One connection -/

/-- A connection against its events: it is open from its first event to its closing, it has asked once at
most, and each stream negotiated on it is in one place. -/
structure Link.Tracked (c : Conn) (events : List LinkEvent) (link : Link Conn) : Prop where
  unused : events = [] → link = .unused
  opened : link.handler ≠ none ↔ events ≠ [] ∧ .closed ∉ events
  requested : ∀ handler, link.handler = some handler → link.requests = handler.requested.toNat
  once : link.requests ≤ 1
  placed : events.flatMap (LinkEvent.stream c) = link.notified ++ link.ready ++ link.dropped
  kept : .closed ∉ events → link.dropped = []

section Link
variable {c : Conn} {link : Link Conn} {events : List LinkEvent} {e : LinkEvent}

theorem LinkContract.init (h : LinkContract c (events ++ [e])) : LinkContract c events where
  first := by
    intro event hevent
    rw [Option.mem_def] at hevent
    exact h.first event (by simp [hevent])
  once := by
    intro hmem
    refine h.once ?_
    cases events with
    | nil => nomatch hmem
    | cons event events => exact List.mem_append_left [e] hmem
  closed := by
    intro hmem
    refine h.closed ?_
    rw [List.dropLast_concat]
    exact List.mem_of_mem_dropLast hmem
  answered := fun before hpre => h.answered before (hpre.trans (List.prefix_append _ _))

/-- Nothing comes after the closing. -/
theorem LinkContract.closed_notMem (h : LinkContract c (events ++ [e])) : .closed ∉ events := by
  simpa using h.closed

theorem LinkContract.established_iff (h : LinkContract c (events ++ [e])) :
    e = .established ↔ events = [] := by
  cases events with
  | nil => simpa using h.first
  | cons event events =>
    have hne : e ≠ .established := by
      rintro rfl
      exact h.once (by simp)
    simp [hne]

/-- While the connection is open nothing is lost. -/
theorem tracked_open {handler : RpcHandler Conn} (hopen : link.handler = some handler)
    (hevents : events ≠ []) (hclosed : .closed ∉ events) :
    link.Tracked c events ↔ link.requests = handler.requested.toNat ∧
      events.flatMap (LinkEvent.stream c) = link.notified ++ handler.ready ∧ link.dropped = [] := by
  constructor
  · intro h
    have hplaced := h.placed
    rw [h.kept hclosed, List.append_nil, Link.ready, hopen] at hplaced
    exact ⟨h.requested handler hopen, hplaced, h.kept hclosed⟩
  · rintro ⟨hrequests, hplaced, hdropped⟩
    refine ⟨fun hnil => absurd hnil hevents, by simp [hopen, hevents, hclosed], ?_, ?_, ?_, fun _ => hdropped⟩
    · intro handler' hhandler'
      rw [hopen, Option.some.injEq] at hhandler'
      rw [hrequests, hhandler']
    · rw [hrequests]
      exact Bool.toNat_le handler.requested
    · rw [hplaced, Link.ready, hopen, hdropped]
      simp

theorem poll_unasked {ready : List (Substream Conn)} (hopen : link.handler = some ⟨false, ready⟩) :
    link.poll = { link with handler := some ⟨true, ready⟩, requests := link.requests + 1 } := by
  simp [Link.poll, hopen, RpcHandler.poll]

theorem poll_ready {stream : Substream Conn} {ready : List (Substream Conn)}
    (hopen : link.handler = some ⟨true, stream :: ready⟩) :
    link.poll = { link with handler := some ⟨true, ready⟩, notified := link.notified ++ [stream] } := by
  simp [Link.poll, hopen, RpcHandler.poll]

theorem poll_pending (hopen : link.handler = some ⟨true, []⟩) : link.poll = link := by
  obtain ⟨handler, requests, notified, dropped⟩ := link
  subst hopen
  rfl

theorem Link.Tracked.poll (h : link.Tracked c events) {handler : RpcHandler Conn}
    (hopen : link.handler = some handler) : (link.step c .poll).Tracked c (events ++ [LinkEvent.poll]) := by
  obtain ⟨hevents, hclosed⟩ := h.opened.mp (by simp [hopen])
  obtain ⟨hrequests, hplaced, hdropped⟩ := (tracked_open hopen hevents hclosed).mp h
  have hclosed' : .closed ∉ events ++ [LinkEvent.poll] := by simp [hclosed]
  have hsnoc : (events ++ [LinkEvent.poll]).flatMap (LinkEvent.stream c) =
      link.notified ++ handler.ready := by
    simp [hplaced, LinkEvent.stream]
  obtain ⟨requested, ready⟩ := handler
  rw [Link.step]
  cases requested with
  | false =>
    rw [Bool.toNat_false] at hrequests
    rw [poll_unasked hopen]
    refine (tracked_open rfl (by simp) hclosed').mpr ⟨?_, ?_, hdropped⟩
    · simp [hrequests]
    · exact hsnoc
  | true =>
    cases ready with
    | nil =>
      rw [poll_pending hopen]
      exact (tracked_open hopen (by simp) hclosed').mpr ⟨hrequests, hsnoc, hdropped⟩
    | cons stream ready =>
      rw [poll_ready hopen]
      refine (tracked_open rfl (by simp) hclosed').mpr ⟨?_, ?_, hdropped⟩
      · exact hrequests
      · rw [hsnoc]
        simp

/-- The handler is told of the event, and keeps the stream if it is given one. -/
theorem Link.Tracked.onConnectionEvent (h : link.Tracked c events) {handler : RpcHandler Conn}
    (hopen : link.handler = some handler) (hclosed : e ≠ .closed) {event : ConnectionEvent Conn}
    (hready : (handler.onConnectionEvent event).ready = handler.ready ++ e.stream c)
    (hrequested : (handler.onConnectionEvent event).requested = handler.requested) :
    (link.onConnectionEvent event).Tracked c (events ++ [e]) := by
  obtain ⟨hevents, hnotclosed⟩ := h.opened.mp (by simp [hopen])
  obtain ⟨hrequests, hplaced, hdropped⟩ := (tracked_open hopen hevents hnotclosed).mp h
  have hopen' : (link.onConnectionEvent event).handler = some (handler.onConnectionEvent event) := by
    simp [Link.onConnectionEvent, hopen]
  refine (tracked_open hopen' (by simp) (by simp [hnotclosed, Ne.symm hclosed])).mpr ⟨?_, ?_, hdropped⟩
  · rw [hrequested]
    exact hrequests
  · rw [hready, List.flatMap_append, hplaced]
    simp [Link.onConnectionEvent]

theorem Link.Tracked.step (h : link.Tracked c events) (hcontract : LinkContract c (events ++ [e])) :
    (link.step c e).Tracked c (events ++ [e]) := by
  have hnotclosed := hcontract.closed_notMem
  by_cases hestablished : e = .established
  · obtain rfl := hcontract.established_iff.mp hestablished
    obtain rfl := h.unused rfl
    subst hestablished
    refine (tracked_open rfl (by simp) (by simp)).mpr ?_
    simp [Link.step, Link.unused, LinkEvent.stream, RpcBehaviour.handleEstablishedConnection,
      RpcHandler.default]
  · have hevents : events ≠ [] := fun hnil => hestablished (hcontract.established_iff.mpr hnil)
    obtain ⟨handler, hopen⟩ := Option.ne_none_iff_exists'.mp (h.opened.mpr ⟨hevents, hnotclosed⟩)
    cases e with
    | established => exact absurd rfl hestablished
    | poll => exact h.poll hopen
    | negotiated stream => exact h.onConnectionEvent hopen (by simp) rfl rfl
    | failed =>
      exact h.onConnectionEvent hopen (by simp) (by simp [RpcHandler.onConnectionEvent, LinkEvent.stream]) rfl
    | other =>
      exact h.onConnectionEvent hopen (by simp) (by simp [RpcHandler.onConnectionEvent, LinkEvent.stream]) rfl
    | closed =>
      obtain ⟨hrequests, hplaced, hdropped⟩ := (tracked_open hopen hevents hnotclosed).mp h
      -- what the handler had not sent goes with it
      refine ⟨by simp, by simp [Link.step], by simp [Link.step], h.once, ?_, by simp⟩
      simp [Link.step, LinkEvent.stream, Link.ready, hplaced, hopen]

theorem link_tracked (h : LinkContract c events) : (Link.run c events).Tracked c events := by
  induction events using List.reverseRecOn with
  | nil => exact ⟨fun _ => rfl, by simp [Link.run, Link.unused], by simp [Link.run, Link.unused],
      by simp [Link.run, Link.unused], by simp [Link.run, Link.unused, Link.ready],
      by simp [Link.run, Link.unused]⟩
  | append_singleton events e ih =>
    rw [Link.run_snoc]
    exact (ih h.init).step h

theorem countP_settles (c : Conn) (events : List LinkEvent) : events.countP LinkEvent.settles =
    (events.flatMap (LinkEvent.stream c)).length + events.countP LinkEvent.isFailed := by
  induction events with
  | nil => rfl
  | cons event events ih =>
    rw [List.countP_cons, List.countP_cons, List.flatMap_cons, List.length_append, ih]
    cases event with
    | negotiated stream =>
      simp only [LinkEvent.settles, LinkEvent.stream, LinkEvent.isFailed, List.length_singleton,
        Bool.false_eq_true, if_true, if_false]
      omega
    | failed =>
      simp only [LinkEvent.settles, LinkEvent.stream, LinkEvent.isFailed, List.length_nil, if_true]
      omega
    | _ => simp [LinkEvent.settles, LinkEvent.stream, LinkEvent.isFailed]

theorem requests_le_poll : link.requests ≤ link.poll.requests := by
  rw [Link.poll]
  split
  · exact le_rfl
  · split
    · exact Nat.le_succ _
    · exact le_rfl
    · exact le_rfl

theorem notified_prefix_poll : link.notified <+: link.poll.notified := by
  rw [Link.poll]
  split
  · exact List.prefix_rfl
  · split
    · exact List.prefix_rfl
    · exact List.prefix_append _ _
    · exact List.prefix_rfl

/-- An open connection may be polled again. -/
theorem LinkContract.poll (h : LinkContract c events) (hopen : (Link.run c events).handler ≠ none) :
    LinkContract c (events ++ [.poll]) := by
  obtain ⟨hevents, hnotclosed⟩ := (link_tracked h).opened.mp hopen
  obtain ⟨event, events, rfl⟩ := List.exists_cons_of_ne_nil hevents
  refine ⟨h.first, ?_, by rwa [List.dropLast_concat], ?_⟩
  · have honce := h.once
    simpa using honce
  · intro before hpre
    obtain rfl | hpre := List.prefix_concat_iff.mp hpre
    · have hanswered := h.answered _ List.prefix_rfl
      rw [Link.run_snoc, List.countP_append]
      exact hanswered.trans requests_le_poll
    · exact h.answered before hpre

end Link

/-! ## All connections -/

section Swarm
variable [DecidableEq Conn] {c : Conn} {x : Substream Conn} {log log' : List (SwarmCall Conn)}
  {e : SwarmCall Conn}

theorem eventsOn_snoc : eventsOn c (log ++ [e]) = eventsOn c log ++ e.event c := by
  simp [eventsOn]

theorem deliveredOn_snoc : deliveredOn c (log ++ [e]) = deliveredOn c log ++ e.delivery c := by
  simp [deliveredOn]

theorem conn_of_negotiatedOn (h : x ∈ negotiatedOn c log) : x.conn = c := by
  obtain ⟨event, _, hx⟩ := List.mem_flatMap.mp h
  cases event with
  | negotiated stream => rw [List.mem_singleton.mp hx]
  | _ => nomatch hx

namespace RpcNet

theorem links_run (c : Conn) (log : List (SwarmCall Conn)) :
    (run log).links c = Link.run c (eventsOn c log) := by
  induction log using List.reverseRecOn with
  | nil => rfl
  | append_singleton log e ih =>
    rw [run_snoc, eventsOn_snoc]
    cases e with
    | link c' event =>
      by_cases hc : c' = c
      · subst hc
        simp [step, SwarmCall.event, Link.run_snoc, ih]
      · simp [step, SwarmCall.event, hc, Function.update_of_ne (Ne.symm hc), ih]
    | handlerEvent c' stream => simpa [step, SwarmCall.event] using ih
    | pollBehaviour =>
      have hlinks : ((run log).step .pollBehaviour).links = (run log).links := by
        rw [step]
        split
        · rfl
        · rfl
      simpa [hlinks, SwarmCall.event] using ih

/-- What the behaviour has got from a connection. -/
def handed (net : RpcNet Conn) (c : Conn) : List (Substream Conn) :=
  (net.surfaced ++ net.behaviour.streams).filter fun x => x.conn = c

theorem step_pollBehaviour (net : RpcNet Conn) :
    (net.step .pollBehaviour).surfaced = net.surfaced ++ net.behaviour.streams.take 1 ∧
      (net.step .pollBehaviour).behaviour.streams = net.behaviour.streams.drop 1 := by
  obtain ⟨links, ⟨streams⟩, surfaced⟩ := net
  cases streams with
  | nil => simp [step, RpcBehaviour.poll]
  | cons stream streams => simp [step, RpcBehaviour.poll]

/-- The streams the behaviour was given have surfaced or wait, in their order. -/
theorem streams_step (net : RpcNet Conn) (e : SwarmCall Conn) :
    (net.step e).surfaced ++ (net.step e).behaviour.streams =
      net.surfaced ++ net.behaviour.streams ++
        match e with
        | .handlerEvent _ x => [x]
        | _ => [] := by
  cases e with
  | link c event => simp [step]
  | handlerEvent c x => simp [step, RpcBehaviour.onConnectionHandlerEvent]
  | pollBehaviour =>
    obtain ⟨hsurfaced, hstreams⟩ := net.step_pollBehaviour
    rw [hsurfaced, hstreams, List.append_assoc, List.take_append_drop, List.append_nil]

/-- What has surfaced stays first: the stream a fetch runs over does not change. -/
theorem surfaced_prefix (log log' : List (SwarmCall Conn)) :
    (run log).surfaced <+: (run (log ++ log')).surfaced := by
  induction log' using List.reverseRecOn with
  | nil => simp
  | append_singleton log' e ih =>
    refine ih.trans ?_
    rw [← List.append_assoc, run_snoc]
    cases e with
    | link c event => exact List.prefix_rfl
    | handlerEvent c x => exact List.prefix_rfl
    | pollBehaviour =>
      rw [((run (log ++ log')).step_pollBehaviour).1]
      exact List.prefix_append _ _

end RpcNet

namespace SwarmContract

theorem init (h : SwarmContract (log ++ [e])) : SwarmContract log where
  links := by
    intro c
    have hlinks := h.links c
    rw [eventsOn_snoc] at hlinks
    cases e with
    | link c' event =>
      rw [SwarmCall.event] at hlinks
      split_ifs at hlinks
      · exact hlinks.init
      · simpa using hlinks
    | handlerEvent c' x => simpa [SwarmCall.event] using hlinks
    | pollBehaviour => simpa [SwarmCall.event] using hlinks
  delivered := fun c before hpre => h.delivered c before (hpre.trans (List.prefix_append _ _))

theorem tracked (h : SwarmContract log) (c : Conn) :
    ((RpcNet.run log).links c).Tracked c (eventsOn c log) := by
  rw [RpcNet.links_run]
  exact link_tracked (h.links c)

/-- What is delivered was sent, and before that negotiated. -/
theorem delivered_prefix (h : SwarmContract log) (c : Conn) :
    deliveredOn c log <+: ((RpcNet.run log).links c).notified := by
  rw [RpcNet.links_run]
  exact h.delivered c log List.prefix_rfl

theorem negotiated_of_notified (h : SwarmContract log) (hx : x ∈ ((RpcNet.run log).links c).notified) :
    x ∈ negotiatedOn c log := by
  rw [negotiatedOn, (h.tracked c).placed]
  simp [hx]

theorem handed_eq (h : SwarmContract log) (c : Conn) : (RpcNet.run log).handed c = deliveredOn c log := by
  induction log using List.reverseRecOn with
  | nil => rfl
  | append_singleton log e ih =>
    rw [RpcNet.handed, RpcNet.run_snoc, RpcNet.streams_step, List.filter_append, deliveredOn_snoc,
      ← ih h.init, RpcNet.handed]
    cases e with
    | link c' event => simp [SwarmCall.delivery]
    | handlerEvent c' x =>
      have hx : x.conn = c' := by
        apply conn_of_negotiatedOn (h.negotiated_of_notified (c := c') ?_)
        refine (h.delivered_prefix c').subset ?_
        simp [deliveredOn_snoc, SwarmCall.delivery]
      by_cases hc : c' = c
      · simp [SwarmCall.delivery, hx, hc]
      · simp [SwarmCall.delivery, hx, hc]
    | pollBehaviour => simp [SwarmCall.delivery]

/-- Each stream negotiated on a connection: with the behaviour, on its way there, still with the handler, or
dropped with it. -/
theorem placed (h : SwarmContract log) (c : Conn) :
    ∃ inFlight, ((RpcNet.run log).links c).notified = (RpcNet.run log).handed c ++ inFlight ∧
      negotiatedOn c log = (RpcNet.run log).handed c ++ inFlight ++ ((RpcNet.run log).links c).ready ++
        ((RpcNet.run log).links c).dropped := by
  obtain ⟨inFlight, hinFlight⟩ := h.delivered_prefix c
  rw [← h.handed_eq] at hinFlight
  refine ⟨inFlight, hinFlight.symm, ?_⟩
  rw [negotiatedOn, (h.tracked c).placed, hinFlight]

theorem answered (h : SwarmContract log) (c : Conn) :
    (negotiatedOn c log).length + (eventsOn c log).countP LinkEvent.isFailed ≤
      ((RpcNet.run log).links c).requests := by
  rw [negotiatedOn, ← countP_settles, RpcNet.links_run]
  exact (h.links c).answered _ List.prefix_rfl

/-- A connection yields one stream or one failure. -/
theorem negotiated_add_failed (h : SwarmContract log) (c : Conn) :
    (negotiatedOn c log).length + (eventsOn c log).countP LinkEvent.isFailed ≤ 1 :=
  (h.answered c).trans (h.tracked c).once

/-- At most one stream of a connection ever reaches the behaviour. -/
theorem nodup (h : SwarmContract log) :
    (((RpcNet.run log).surfaced ++ (RpcNet.run log).behaviour.streams).map Substream.conn).Nodup := by
  rw [List.nodup_iff_count_le_one]
  intro c
  have hone := h.negotiated_add_failed c
  obtain ⟨inFlight, _, hplaced⟩ := h.placed c
  have hcount : (((RpcNet.run log).surfaced ++ (RpcNet.run log).behaviour.streams).map
      Substream.conn).count c = ((RpcNet.run log).handed c).length := by
    rw [List.count_eq_countP, List.countP_map, List.countP_eq_length_filter, RpcNet.handed]
    rfl
  rw [hplaced] at hone
  simp only [List.length_append] at hone
  omega

/-- A stream that has surfaced was negotiated on its connection. -/
theorem negotiated_of_surfaced (h : SwarmContract log) (hx : x ∈ (RpcNet.run log).surfaced) :
    x ∈ negotiatedOn x.conn log := by
  obtain ⟨inFlight, _, hplaced⟩ := h.placed x.conn
  rw [hplaced]
  simp [RpcNet.handed, hx]

/-- What the handler held when its connection closed. -/
theorem dropped_eq (h : SwarmContract log) {before : List (SwarmCall Conn)}
    (hpre : before ++ [.link c .closed] <+: log) :
    ((RpcNet.run log).links c).dropped = ((RpcNet.run before).links c).ready := by
  obtain ⟨after, rfl⟩ := hpre
  induction after using List.reverseRecOn with
  | nil => simp [RpcNet.run_snoc, RpcNet.step, Link.step]
  | append_singleton after e ih =>
    rw [← List.append_assoc] at h ⊢
    rw [← ih h.init]
    have hclosed : .closed ∈ eventsOn c (before ++ [.link c .closed] ++ after) := by
      simp [eventsOn, SwarmCall.event]
    have hlinks := h.links c
    rw [eventsOn_snoc] at hlinks
    rw [RpcNet.links_run, RpcNet.links_run, eventsOn_snoc]
    cases e with
    | link c' event =>
      rw [SwarmCall.event] at hlinks ⊢
      split_ifs at hlinks ⊢
      · exact absurd hclosed hlinks.closed_notMem
      · rw [List.append_nil]
    | handlerEvent c' x => simp [SwarmCall.event]
    | pollBehaviour => simp [SwarmCall.event]

/-! ### Reaching the caller -/

theorem snoc (h : SwarmContract log) (hlinks : ∀ c, LinkContract c (eventsOn c (log ++ [e])))
    (hdelivered : ∀ c, deliveredOn c (log ++ [e]) <+: ((RpcNet.run (log ++ [e])).links c).notified) :
    SwarmContract (log ++ [e]) := by
  refine ⟨hlinks, ?_⟩
  intro c before hpre
  obtain rfl | hpre := List.prefix_concat_iff.mp hpre
  · rw [← RpcNet.links_run]
    exact hdelivered c
  · exact h.delivered c before hpre

theorem pollBehaviour (h : SwarmContract log) : SwarmContract (log ++ [.pollBehaviour]) := by
  have hlinks : ∀ c, (RpcNet.run (log ++ [.pollBehaviour])).links c = (RpcNet.run log).links c := by
    intro c
    simp [RpcNet.links_run, eventsOn_snoc, SwarmCall.event]
  refine h.snoc ?_ ?_
  · intro c
    simpa [eventsOn_snoc, SwarmCall.event] using h.links c
  · intro c
    rw [hlinks]
    simpa [deliveredOn_snoc, SwarmCall.delivery] using h.delivered_prefix c

theorem pollHandler (h : SwarmContract log) (hopen : ((RpcNet.run log).links c).handler ≠ none) :
    SwarmContract (log ++ [.link c .poll]) := by
  rw [RpcNet.links_run] at hopen
  refine h.snoc ?_ ?_
  · intro c'
    rw [eventsOn_snoc, SwarmCall.event]
    split_ifs with hc
    · subst hc
      exact (h.links c).poll hopen
    · simpa using h.links c'
  · intro c'
    have hdelivered : deliveredOn c' (log ++ [.link c .poll]) = deliveredOn c' log := by
      simp [deliveredOn_snoc, SwarmCall.delivery]
    rw [hdelivered, RpcNet.links_run, eventsOn_snoc, SwarmCall.event]
    refine (h.delivered c' log List.prefix_rfl).trans ?_
    split_ifs with hc
    · rw [Link.run_snoc]
      exact notified_prefix_poll
    · rw [List.append_nil]

/-- The next stream that was sent and has not arrived can arrive. -/
theorem deliver (h : SwarmContract log) {inFlight : List (Substream Conn)}
    (hnext : ((RpcNet.run log).links c).notified = (RpcNet.run log).handed c ++ x :: inFlight) :
    SwarmContract (log ++ [.handlerEvent c x]) := by
  have hlinks : ∀ c', (RpcNet.run (log ++ [.handlerEvent c x])).links c' = (RpcNet.run log).links c' := by
    intro c'
    simp [RpcNet.links_run, eventsOn_snoc, SwarmCall.event]
  refine h.snoc ?_ ?_
  · intro c'
    simpa [eventsOn_snoc, SwarmCall.event] using h.links c'
  · intro c'
    rw [hlinks, deliveredOn_snoc, SwarmCall.delivery]
    split_ifs with hc
    · subst hc
      rw [hnext, h.handed_eq]
      exact ⟨inFlight, by simp⟩
    · simpa using h.delivered_prefix c'

end SwarmContract

/-- The swarm takes this step by itself: nothing has to happen outside. -/
def SwarmCall.drives : SwarmCall Conn → Bool
  | .link _ .poll => true
  | .link _ _ => false
  | .handlerEvent _ _ => true
  | .pollBehaviour => true

/-- The swarm can surface the stream with nothing but calls of its own. -/
def Surfaces (log : List (SwarmCall Conn)) (x : Substream Conn) : Prop :=
  ∃ polls, (∀ e ∈ polls, SwarmCall.drives e = true) ∧ SwarmContract (log ++ polls) ∧
    x ∈ (RpcNet.run (log ++ polls)).surfaced

theorem Surfaces.of_call (hdrives : e.drives = true) (h : Surfaces (log ++ [e]) x) : Surfaces log x := by
  obtain ⟨polls, hpolls, hcontract, hx⟩ := h
  rw [List.append_assoc] at hcontract hx
  refine ⟨[e] ++ polls, ?_, hcontract, hx⟩
  simp only [List.singleton_append, List.mem_cons, forall_eq_or_imp]
  exact ⟨hdrives, hpolls⟩

theorem surfaces_of_queued (h : SwarmContract log) (hx : x ∈ (RpcNet.run log).behaviour.streams) :
    Surfaces log x := by
  induction hstreams : (RpcNet.run log).behaviour.streams generalizing log with
  | nil => simp [hstreams] at hx
  | cons y streams ih =>
    obtain ⟨hsurfaced, hrest⟩ := (RpcNet.run log).step_pollBehaviour
    rw [← RpcNet.run_snoc, hstreams] at hsurfaced hrest
    refine Surfaces.of_call (e := .pollBehaviour) rfl ?_
    rw [hstreams] at hx
    obtain rfl | hx := List.mem_cons.mp hx
    · refine ⟨[], by simp, ?_, ?_⟩
      · simpa using h.pollBehaviour
      · simp [hsurfaced]
    · exact ih h.pollBehaviour (by simpa [hrest] using hx) (by simpa using hrest)

theorem surfaces_of_handed (h : SwarmContract log) (hx : x ∈ (RpcNet.run log).handed c) :
    Surfaces log x := by
  obtain hout | hqueued := List.mem_append.mp (List.mem_of_mem_filter hx)
  · exact ⟨[], by simp, by simpa using h, by simpa using hout⟩
  · exact surfaces_of_queued h hqueued

theorem surfaces_of_notified (h : SwarmContract log) (hx : x ∈ ((RpcNet.run log).links c).notified) :
    Surfaces log x := by
  obtain ⟨inFlight, hinFlight, hplaced⟩ := h.placed c
  clear hplaced
  induction inFlight generalizing log with
  | nil =>
    rw [hinFlight, List.append_nil] at hx
    exact surfaces_of_handed h hx
  | cons y inFlight ih =>
    have hdeliver := h.deliver hinFlight
    refine Surfaces.of_call (e := .handlerEvent c y) rfl (ih hdeliver ?_ ?_)
    · rwa [RpcNet.run_snoc, RpcNet.step]
    · rw [hdeliver.handed_eq, deliveredOn_snoc, ← h.handed_eq, RpcNet.run_snoc, RpcNet.step]
      simp [hinFlight, SwarmCall.delivery]

/-- A stream that has been negotiated reaches the caller, unless it was still with its handler when the
connection closed. -/
theorem SwarmContract.surfaces (h : SwarmContract log) (hx : x ∈ negotiatedOn c log)
    (hkept : x ∉ ((RpcNet.run log).links c).dropped) : Surfaces log x := by
  obtain ⟨inFlight, hnotified, hplaced⟩ := h.placed c
  have hone := h.negotiated_add_failed c
  rw [hplaced, ← hnotified, List.mem_append, List.mem_append, or_iff_left hkept] at hx
  obtain hx | hready := hx
  · exact surfaces_of_notified h hx
  · -- the handler has asked, so its next poll sends the stream
    have hopen : ((RpcNet.run log).links c).handler ≠ none := by
      intro hnone
      simp [Link.ready, hnone] at hready
    obtain ⟨⟨requested, ready⟩, hhandler⟩ := Option.ne_none_iff_exists'.mp hopen
    have hrequests := (h.tracked c).requested _ hhandler
    have hanswered := h.answered c
    have hreadyIs : ((RpcNet.run log).links c).ready = ready := by simp [Link.ready, hhandler]
    rw [hreadyIs] at hplaced hready
    have hlen := congrArg List.length hplaced
    have hpos := List.length_pos_of_mem hready
    simp only [List.length_append] at hlen
    obtain ⟨y, ready, rfl⟩ := List.exists_cons_of_length_pos hpos
    simp only [List.length_cons] at hlen
    have hnil : ready = [] := List.length_eq_zero_iff.mp (by omega)
    have hrequested : requested = true := by
      by_contra hnot
      rw [Bool.not_eq_true] at hnot
      rw [hnot, Bool.toNat_false] at hrequests
      omega
    subst hnil hrequested
    obtain rfl := List.mem_singleton.mp hready
    refine Surfaces.of_call (e := .link c .poll) rfl (surfaces_of_notified (c := c) (h.pollHandler hopen) ?_)
    have hlink : (RpcNet.run (log ++ [.link c .poll])).links c = ((RpcNet.run log).links c).poll := by
      simp [RpcNet.run_snoc, RpcNet.step, Link.step]
    rw [hlink, poll_ready hhandler]
    simp

/-- **One stream for each connection, none lost but at its closing.** Whatever a swarm that keeps its promises
does and in whatever order it polls: a connection is asked once at most and answers with one stream or one
failure at most; each stream is in one place, in the order of handing over, with the behaviour, on its way
there, with its handler, or with what the handler still held when the connection closed; no two streams that
reach the behaviour are of one connection; every stream but those last ones can be surfaced by calls the
swarm makes by itself; and what has surfaced stays first. -/
theorem rpc_streams (log : List (SwarmCall Conn)) (h : SwarmContract log) :
    (∀ c, ((RpcNet.run log).links c).requests ≤ 1 ∧
      (negotiatedOn c log).length + (eventsOn c log).countP LinkEvent.isFailed ≤ 1 ∧
      (∃ inFlight, ((RpcNet.run log).links c).notified = (RpcNet.run log).handed c ++ inFlight ∧
        negotiatedOn c log = (RpcNet.run log).handed c ++ inFlight ++ ((RpcNet.run log).links c).ready ++
          ((RpcNet.run log).links c).dropped) ∧
      (.closed ∉ eventsOn c log → ((RpcNet.run log).links c).dropped = []) ∧
      ∀ before, before ++ [.link c .closed] <+: log →
        ((RpcNet.run log).links c).dropped = ((RpcNet.run before).links c).ready) ∧
    (((RpcNet.run log).surfaced ++ (RpcNet.run log).behaviour.streams).map Substream.conn).Nodup ∧
    (∀ c, ∀ x ∈ negotiatedOn c log, x ∉ ((RpcNet.run log).links c).dropped → Surfaces log x) ∧
    ∀ log', (RpcNet.run log).surfaced <+: (RpcNet.run (log ++ log')).surfaced := by
  refine ⟨?_, h.nodup, fun c x hx hkept => h.surfaces hx hkept, RpcNet.surfaced_prefix log⟩
  intro c
  have htracked := h.tracked c
  exact ⟨htracked.once, h.negotiated_add_failed c, h.placed c, htracked.kept, fun before => h.dropped_eq⟩

end Swarm

namespace SampleLinks

def idle : Stream := ⟨⟨[], none⟩, [], []⟩

/-- Three connections come up and ask; the request of the first fails, the stream of the second surfaces, and
the third closes while its stream is still with its handler. -/
def log : List (SwarmCall (Fin 3)) :=
  [.link 0 .established, .link 1 .established, .link 0 .poll, .link 2 .established, .link 2 .poll,
    .link 1 .poll, .link 1 (.negotiated idle), .link 0 .failed, .link 1 .poll, .link 2 (.negotiated idle),
    .handlerEvent 1 ⟨1, idle⟩, .link 2 .closed, .pollBehaviour]

theorem contract : SwarmContract log where
  links := by
    intro c
    have hc : c = 0 ∨ c = 1 ∨ c = 2 := by omega
    have hanswered : ∀ c : Fin 3, ∀ before ∈ (eventsOn c log).inits,
        before.countP LinkEvent.settles ≤ (Link.run c before).requests := by decide
    refine ⟨?_, ?_, ?_, fun before hpre => hanswered c before ((List.mem_inits _ _).mpr hpre)⟩
    · obtain rfl | rfl | rfl := hc <;> simp [log, eventsOn, SwarmCall.event]
    · obtain rfl | rfl | rfl := hc <;> simp [log, eventsOn, SwarmCall.event]
    · obtain rfl | rfl | rfl := hc <;> simp [log, eventsOn, SwarmCall.event]
  delivered := by
    intro c before hpre
    have hc : c = 0 ∨ c = 1 ∨ c = 2 := by omega
    rw [← List.mem_inits] at hpre
    obtain rfl | rfl | rfl := hc <;> fin_cases hpre <;> exact ⟨_, rfl⟩

end SampleLinks

open SampleLinks in
theorem rpc_streams_three_connections :
    (RpcNet.run log).surfaced = [⟨1, idle⟩] ∧ ((RpcNet.run log).links 2).dropped = [⟨2, idle⟩] ∧
      negotiatedOn 0 log = [] ∧ (∀ log', [⟨1, idle⟩] <+: (RpcNet.run (log ++ log')).surfaced) := by
  obtain ⟨hlinks, _, _, hlater⟩ := rpc_streams log contract
  have hfailed : (eventsOn 0 log).countP LinkEvent.isFailed = 1 := rfl
  have hnone := (hlinks 0).2.1
  have hdropped := (hlinks 2).2.2.2.2 (log.take 11) ⟨[.pollBehaviour], rfl⟩
  refine ⟨rfl, hdropped, List.length_eq_zero_iff.mp (by omega), hlater⟩

end MinaVerify
