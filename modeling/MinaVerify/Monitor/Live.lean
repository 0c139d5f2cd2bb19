import MinaVerify.Capture.Messages
import MinaVerify.Foundations.Channel
import MinaVerify.Gossip
import MinaVerify.Monitor.Agreement
import MinaVerify.Process.Environment

/-! # The live monitor

`crates/mina-verify-monitor/src/main.rs`: the gossip loop hands every block it hears of to a worker thread
over a channel; the worker decodes and verifies it and feeds it to a chain monitor only then. The two
threads share the channel and nothing else, and every order of their steps is a schedule of
`Foundations.Channel`.

The worker's state is that of the blocks taken so far, one after another. Its window holds verified blocks
only, and its own code never panics: it dies of a key that cannot be loaded or of a check that panics, and
then the loop goes on without it. -/
namespace MinaVerify
set_option autoImplicit false
open Channel Interleaving

variable {T : Types}

/-! ## The worker -/

/-- The locals of the worker's closure, and what it has printed; the counts wrap, as in a release build. -/
structure Worker (T : Types) where
  verifier : Verifier T
  monitor : ChainMonitor T
  ingested : UInt64
  rejected : UInt64
  lines : List String

def report {StateHash : Type} (height : UInt32) (outcome : Ingest StateHash) : String :=
  let line := match outcome with
    | .genesis => "first verified tip — best"
    | .extend _ => "✓ extends best"
    | .duplicate => "· duplicate"
    | .behind _ => "· behind best (orphan/older)"
    | .reorg _ commonAncestor depth =>
      "⟳ REORG to new best (rolled back " ++ (depth.map toString).getD "?" ++ ", diverged at " ++
        commonAncestor.getD "<unknown>" ++ ")"
    | .fork commonAncestor =>
      "⑂ FORK competing branch (diverged at " ++ commonAncestor.getD "<unknown>" ++ ")"
    | .unlinked => "? unlinked (ancestor outside window)"
  "  ✓ verified h" ++ toString height ++ " — " ++ line

namespace Worker

def print (w : Worker T) (line : String) : Worker T := { w with lines := w.lines ++ [line] }

/-- `Verifier::for_network(&net).expect(..)` and the locals. -/
def build (debug : String → String) : Except ForNetworkError (Verifier T) → Outcome (Worker T)
  | .ok verifier => .returned ⟨verifier, ChainMonitor.new 512, 0, 0, []⟩
  | .error e => .panicked ("verifier for network: " ++ e.debug debug)

/-- The body of the worker's loop. -/
def process (core : Core T) (codec : GossipCodec T) (w : Worker T) (payload : List UInt8) :
    Outcome (Worker T) :=
  (blockFromGossipPayload codec payload).bind fun
    | .error e => .returned (w.print ("  decode error (skipped): " ++ e.display))
    | .ok block =>
      (w.verifier.verifyTip core block).bind fun
        | .ok (some tip) =>
          (w.monitor.ingest core tip).bind fun r =>
            .returned { w.print (report tip.height r.2) with
              monitor := r.1
              ingested := w.ingested + 1 }
        | .ok none =>
          .returned { w.print "  ✗ REJECTED: invalid proof — NOT ingested" with
            rejected := w.rejected + 1 }
        | .error e => .returned (w.print ("  ✗ malformed block (skipped): " ++ e))

section Process
variable {core : Core T} {codec : GossipCodec T} {w w' : Worker T} {payload : List UInt8}

/-- The loop's body in terms of the check: what the check returns decides the case. -/
theorem process_eq : process core codec w payload =
    (w.verifier.checkPayload core codec payload).bind fun
      | .error e => .returned (w.print ("  decode error (skipped): " ++ e.display))
      | .ok (.ok (some tip)) =>
        (w.monitor.ingest core tip).bind fun r =>
          .returned { w.print (report tip.height r.2) with
            monitor := r.1
            ingested := w.ingested + 1 }
      | .ok (.ok none) =>
        .returned { w.print "  ✗ REJECTED: invalid proof — NOT ingested" with
          rejected := w.rejected + 1 }
      | .ok (.error e) => .returned (w.print ("  ✗ malformed block (skipped): " ++ e)) := by
  unfold process Verifier.checkPayload
  cases blockFromGossipPayload codec payload with
  | panicked message => rfl
  | diverged => rfl
  | returned r =>
    cases r with
    | error e => rfl
    | ok block =>
      simp only [Outcome.bind_returned]
      cases w.verifier.verifyTip core block with
      | panicked message => rfl
      | diverged => rfl
      | returned verified =>
        cases verified with
        | error e => rfl
        | ok tip =>
          cases tip with
          | none => rfl
          | some tip => rfl

/-- A payload is ingested, rejected or skipped; each prints one line. -/
theorem process_returned (h : process core codec w payload = .returned w') :
    (∃ tip m out, w.verifier.tipOf core codec payload = some tip ∧
      w.verifier.isRejected core codec payload = false ∧
      w.monitor.ingest core tip = .returned (m, out) ∧
      w' = ⟨w.verifier, m, w.ingested + 1, w.rejected, w.lines ++ [report tip.height out]⟩) ∨
    (w.verifier.tipOf core codec payload = none ∧
      w.verifier.isRejected core codec payload = true ∧
      ∃ line, w' = ⟨w.verifier, w.monitor, w.ingested, w.rejected + 1, w.lines ++ [line]⟩) ∨
    (w.verifier.tipOf core codec payload = none ∧
      w.verifier.isRejected core codec payload = false ∧
      ∃ line, w' = ⟨w.verifier, w.monitor, w.ingested, w.rejected, w.lines ++ [line]⟩) := by
  rw [process_eq, Outcome.bind_eq_returned] at h
  obtain ⟨r, hr, h⟩ := h
  unfold Verifier.tipOf Verifier.isRejected
  rw [hr]
  cases r with
  | error e =>
    rw [Outcome.returned.injEq] at h
    exact Or.inr (Or.inr ⟨rfl, rfl, _, h.symm⟩)
  | ok verified =>
    cases verified with
    | error e =>
      rw [Outcome.returned.injEq] at h
      exact Or.inr (Or.inr ⟨rfl, rfl, _, h.symm⟩)
    | ok tip =>
      cases tip with
      | none =>
        rw [Outcome.returned.injEq] at h
        exact Or.inr (Or.inl ⟨rfl, rfl, _, h.symm⟩)
      | some tip =>
        obtain ⟨⟨m, out⟩, hingest, h⟩ := Outcome.bind_eq_returned.mp h
        rw [Outcome.returned.injEq] at h
        exact Or.inl ⟨tip, m, out, rfl, rfl, hingest, h.symm⟩

theorem process_panicked {message : String} (h : process core codec w payload = .panicked message) :
    w.verifier.checkPayload core codec payload = .panicked message ∨
      ∃ tip, w.verifier.tipOf core codec payload = some tip ∧
        w.monitor.ingest core tip = .panicked message := by
  rw [process_eq, Outcome.bind_eq_panicked] at h
  obtain h | ⟨r, hr, h⟩ := h
  · exact Or.inl h
  · right
    unfold Verifier.tipOf
    rw [hr]
    split at h
    · simp at h
    · next tip =>
      obtain h | ⟨_, _, h⟩ := Outcome.bind_eq_panicked.mp h
      · exact ⟨tip, rfl, h⟩
      · simp at h
    · simp at h
    · simp at h

theorem process_diverged (h : process core codec w payload = .diverged) :
    w.verifier.checkPayload core codec payload = .diverged ∨
      ∃ tip, w.verifier.tipOf core codec payload = some tip ∧
        w.monitor.ingest core tip = .diverged := by
  rw [process_eq] at h
  cases hr : w.verifier.checkPayload core codec payload with
  | diverged => exact Or.inl rfl
  | panicked message => simp [hr] at h
  | returned r =>
    rw [hr, Outcome.bind_returned] at h
    right
    unfold Verifier.tipOf
    rw [hr]
    split at h
    · simp at h
    · next tip =>
      cases hingest : w.monitor.ingest core tip with
      | diverged => exact ⟨tip, rfl, hingest⟩
      | panicked message => simp [hingest] at h
      | returned r => simp [hingest] at h
    · simp at h
    · simp at h

end Process
end Worker

/-! ## The two threads -/

section Threads
variable {Peer Conn Addr : Type} [DecidableEq Peer]

/-- The callback that sends a payload to the worker; what it captures is the payload of the round. -/
def handOff : Callbacks (Option (List UInt8)) where
  onBlock := fun data _ => (some data, .continue_)
  onTick := fun _ captured => (captured, .continue_)

/-- The gossip loop: the branches its `select!` will take, and the state of `subscribe_blocks`. -/
abbrev GossipLoop (Peer Conn Addr : Type) :=
  List (Branch Peer Conn) × Subscription Peer Addr (Option (List UInt8))

def gossipTurn (peers : List Addr) :
    GossipLoop Peer Conn Addr → Turn (GossipLoop Peer Conn Addr) (List UInt8)
  | ([], _) => .wait
  | (branch :: branches, s) =>
    match selectRound peers handOff { s with captured := none } branch with
    | (s, .continue_) => .go s.captured (branches, s)
    | (_, .break_) => .stop

/-- `main`: the gossip loop and then `drop(tx)` and `join` on one side, the worker on the other. -/
def liveMonitor (core : Core T) (codec : GossipCodec T) (debug : String → String)
    (built : Except ForNetworkError (Verifier T)) (peers : List Addr) :
    Program (List UInt8) (GossipLoop Peer Conn Addr) (Worker T) where
  turn := gossipTurn peers
  init := Worker.build debug built
  process := Worker.process core codec

/-- The gossip loop about to take its first branch. -/
def listening (branches : List (Branch Peer Conn)) : GossipLoop Peer Conn Addr :=
  (branches, .start none)

/-! ## What the loop sends -/

theorem gossipTurn_cons (peers : List Addr) (branch : Branch Peer Conn)
    (branches : List (Branch Peer Conn)) (s : Subscription Peer Addr (Option (List UInt8))) :
    (branch.ends = true ∧ gossipTurn peers (branch :: branches, s) = .stop) ∨
    (branch.ends = false ∧ ∃ s', gossipTurn peers (branch :: branches, s) =
      .go (branch.message.filter isBlock) (branches, s')) := by
  have hquiet : handOff.Quiet := fun _ _ => rfl
  have hround := selectRound_take peers hquiet { s with captured := none } branch
  cases hs : selectRound peers handOff { s with captured := none } branch with
  | mk s' flow =>
    rw [hs] at hround
    simp only at hround
    unfold Callbacks.take at hround
    cases hends : branch.ends with
    | true =>
      simp only [hends, if_true, Prod.mk.injEq] at hround
      obtain ⟨_, rfl⟩ := hround
      exact Or.inl ⟨rfl, by simp only [gossipTurn, hs]⟩
    | false =>
      simp only [hends, Bool.false_eq_true, if_false] at hround
      right
      refine ⟨rfl, s', ?_⟩
      cases hdata : branch.message.filter isBlock with
      | none =>
        simp only [hdata, Prod.mk.injEq] at hround
        obtain ⟨hcaptured, rfl⟩ := hround
        simp only [gossipTurn, hs, hcaptured]
      | some data =>
        rw [hdata, handOff, Prod.mk.injEq] at hround
        obtain ⟨hcaptured, rfl⟩ := hround
        simp only [gossipTurn, hs, hcaptured]

/-- The loop has sent the tagged messages of the branches it took, none of which ended it. -/
theorem emits_tagged {core : Core T} {codec : GossipCodec T} {debug : String → String}
    {built : Except ForNetworkError (Verifier T)} {peers : List Addr}
    {branches : List (Branch Peer Conn)} {sent : List (List UInt8)} {p : GossipLoop Peer Conn Addr}
    (h : (liveMonitor core codec debug built peers).Emits (listening branches) sent p) :
    ∃ pre, branches = pre ++ p.1 ∧ (∀ branch ∈ pre, branch.ends = false) ∧
      sent = (pre.filterMap Branch.message).filter isBlock := by
  induction h with
  | start => exact ⟨[], rfl, by simp, rfl⟩
  | @go sent p p' item _ hturn ih =>
    obtain ⟨pre, hbranches, hends, rfl⟩ := ih
    obtain ⟨rest, s⟩ := p
    cases rest with
    | nil => simp [liveMonitor, gossipTurn] at hturn
    | cons branch rest =>
      have hturn' : gossipTurn peers (branch :: rest, s) = .go item p' := hturn
      obtain ⟨_, hstop⟩ | ⟨hgoes, s', hgo⟩ := gossipTurn_cons peers branch rest s
      · simp [hstop] at hturn'
      · rw [hgo, Turn.go.injEq] at hturn'
        obtain ⟨rfl, rfl⟩ := hturn'
        refine ⟨pre ++ [branch], by simp [hbranches], ?_, ?_⟩
        · intro b hb
          rcases List.mem_append.mp hb with hb | hb
          · exact hends b hb
          · rw [List.mem_singleton.mp hb, hgoes]
        · rw [List.filterMap_append, List.filter_append]
          congr 1
          cases hmessage : branch.message with
          | none => simp [hmessage]
          | some data =>
            cases htag : isBlock data with
            | true => simp [hmessage, htag, Option.filter_some]
            | false => simp [hmessage, htag, Option.filter_some]

/-! ## What the worker makes of it -/

/-- The worker has taken the payloads one after another. -/
structure Processed (core : Core T) (codec : GossipCodec T) (verifier : Verifier T)
    (payloads : List (List UInt8)) (w : Worker T) : Prop where
  verifier_eq : w.verifier = verifier
  monitor_eq : ∃ outs, (ChainMonitor.new 512).run core (verifier.verifiedTips core codec payloads) =
    .returned (w.monitor, outs)
  ingested_eq : w.ingested = UInt64.ofNat (verifier.verifiedTips core codec payloads).length
  rejected_eq : w.rejected = UInt64.ofNat (payloads.countP (verifier.isRejected core codec))
  lines_eq : w.lines.length = payloads.length

section Worker
variable {core : Core T} {codec : GossipCodec T} {debug : String → String}
  {built : Except ForNetworkError (Verifier T)} {peers : List Addr} {payloads : List (List UInt8)}
  {verifier : Verifier T} {w w' : Worker T}

omit [DecidableEq Peer] in
theorem Processed.snoc (h : Processed core codec verifier payloads w) {payload : List UInt8}
    (hp : Worker.process core codec w payload = .returned w') :
    Processed core codec verifier (payloads ++ [payload]) w' := by
  obtain ⟨rfl, ⟨outs, hrun⟩, hing, hrej, hlines⟩ := h
  have htips : ∀ r, w.verifier.tipOf core codec payload = r →
      w.verifier.verifiedTips core codec (payloads ++ [payload]) =
        w.verifier.verifiedTips core codec payloads ++ r.toList := by
    intro r hr
    rw [Verifier.verifiedTips, List.filterMap_append, Verifier.verifiedTips]
    cases r <;> simp [hr]
  obtain ⟨tip, m, out, htip, hnot, hingest, rfl⟩ | ⟨hnone, hyes, line, rfl⟩ |
      ⟨hnone, hnot, line, rfl⟩ := Worker.process_returned hp
  · refine ⟨rfl, ⟨outs ++ [out], ?_⟩, ?_, ?_, by simp [hlines]⟩
    · rw [htips _ htip]
      exact run_snoc_returned.mpr ⟨w.monitor, outs, out, hrun, hingest, rfl⟩
    · rw [htips _ htip]
      simp [hing]
    · simp [List.countP_append, hrej, hnot]
  · refine ⟨rfl, ⟨outs, ?_⟩, ?_, ?_, by simp [hlines]⟩
    · rw [htips _ hnone]
      simpa using hrun
    · rw [htips _ hnone]
      simp [hing]
    · simp [List.countP_append, hrej, hyes]
  · refine ⟨rfl, ⟨outs, ?_⟩, ?_, ?_, by simp [hlines]⟩
    · rw [htips _ hnone]
      simpa using hrun
    · rw [htips _ hnone]
      simp [hing]
    · simp [List.countP_append, hrej, hnot]

theorem consume_returned
    (h : (liveMonitor core codec debug built peers :
      Program (List UInt8) (GossipLoop Peer Conn Addr) (Worker T)).consume payloads = .returned w) :
    ∃ verifier, built = .ok verifier ∧ Processed core codec verifier payloads w := by
  induction payloads using List.reverseRecOn generalizing w with
  | nil =>
    cases hbuilt : built with
    | error e => simp [Program.consume, liveMonitor, Worker.build, hbuilt] at h
    | ok verifier =>
      simp only [Program.consume, liveMonitor, Worker.build, hbuilt, List.foldl_nil,
        Outcome.returned.injEq] at h
      refine ⟨verifier, rfl, ?_⟩
      rw [← h]
      exact ⟨rfl, ⟨[], rfl⟩, rfl, rfl, rfl⟩
  | append_singleton payloads payload ih =>
    rw [Program.consume_snoc, Outcome.bind_eq_returned] at h
    obtain ⟨w₁, h1, hp⟩ := h
    obtain ⟨verifier, hbuilt, hw₁⟩ := ih h1
    exact ⟨verifier, hbuilt, hw₁.snoc hp⟩

omit [DecidableEq Peer] in
/-- The monitor has room for 512 blocks, so a worker that has a monitor never panics in it. -/
theorem Processed.ingest_ne_panicked (h : Processed core codec verifier payloads w)
    (tip : VerifiedTip T) (message : String) : w.monitor.ingest core tip ≠ .panicked message := by
  obtain ⟨outs, hrun⟩ := h.monitor_eq
  have htwo : 2 ≤ 512 := by decide
  exact (run_anchored htwo hrun).ingest_ne_panicked tip message

theorem consume_panicked {message : String}
    (h : (liveMonitor core codec debug built peers :
      Program (List UInt8) (GossipLoop Peer Conn Addr) (Worker T)).consume payloads =
        .panicked message) :
    (∃ e, built = .error e ∧ message = "verifier for network: " ++ e.debug debug) ∨
      ∃ verifier, built = .ok verifier ∧ ∃ payload ∈ payloads,
        verifier.checkPayload core codec payload = .panicked message := by
  induction payloads using List.reverseRecOn with
  | nil =>
    cases hbuilt : built with
    | error e =>
      simp only [Program.consume, liveMonitor, Worker.build, hbuilt, List.foldl_nil,
        Outcome.panicked.injEq] at h
      exact Or.inl ⟨e, rfl, h.symm⟩
    | ok verifier => simp [Program.consume, liveMonitor, Worker.build, hbuilt] at h
  | append_singleton payloads payload ih =>
    rw [Program.consume_snoc, Outcome.bind_eq_panicked] at h
    obtain h | ⟨w, h1, hp⟩ := h
    · refine (ih h).imp id ?_
      rintro ⟨verifier, hbuilt, bad, hbad, hpanic⟩
      exact ⟨verifier, hbuilt, bad, List.mem_append_left _ hbad, hpanic⟩
    · obtain ⟨verifier, hbuilt, hw⟩ := consume_returned h1
      right
      refine ⟨verifier, hbuilt, payload, by simp, ?_⟩
      obtain hcheck | ⟨tip, _, hingest⟩ := Worker.process_panicked hp
      · exact hw.verifier_eq ▸ hcheck
      · exact absurd hingest (hw.ingest_ne_panicked tip message)

theorem consume_ne_diverged
    (h : ∀ verifier, built = .ok verifier →
      (∀ payload ∈ payloads, verifier.checkPayload core codec payload ≠ .diverged) ∧
        TipsAcyclic core (verifier.verifiedTips core codec payloads)) :
    (liveMonitor core codec debug built peers :
      Program (List UInt8) (GossipLoop Peer Conn Addr) (Worker T)).consume payloads ≠ .diverged := by
  induction payloads using List.reverseRecOn with
  | nil => cases built <;> simp [Program.consume, liveMonitor, Worker.build]
  | append_singleton payloads payload ih =>
    have hsub : ∀ verifier : Verifier T, verifier.verifiedTips core codec payloads ⊆
        verifier.verifiedTips core codec (payloads ++ [payload]) := by
      intro verifier
      rw [Verifier.verifiedTips, Verifier.verifiedTips, List.filterMap_append]
      exact List.subset_append_left _ _
    have hpre := ih fun verifier hbuilt =>
      ⟨fun p hp => (h verifier hbuilt).1 p (List.mem_append_left _ hp),
        (h verifier hbuilt).2.mono (hsub verifier)⟩
    rw [Program.consume_snoc]
    cases h1 : (liveMonitor core codec debug built peers :
        Program (List UInt8) (GossipLoop Peer Conn Addr) (Worker T)).consume payloads with
    | diverged => exact absurd h1 hpre
    | panicked message => simp
    | returned w =>
      rw [Outcome.bind_returned]
      intro hdiv
      obtain ⟨verifier, hbuilt, hw⟩ := consume_returned h1
      obtain ⟨hcheck, hacyc⟩ := h verifier hbuilt
      obtain hbad | ⟨tip, htip, hingest⟩ := Worker.process_diverged hdiv
      · exact hcheck payload (by simp) (hw.verifier_eq ▸ hbad)
      · obtain ⟨outs, hrun⟩ := hw.monitor_eq
        rw [hw.verifier_eq] at htip
        rw [Verifier.verifiedTips, List.filterMap_append, ← Verifier.verifiedTips] at hacyc
        simp only [List.filterMap_cons, htip, List.filterMap_nil] at hacyc
        obtain ⟨m', out, hanswer⟩ := run_ingest_returns (by decide) hrun hacyc
        rw [hingest] at hanswer
        simp at hanswer

end Worker

/-! ## Any interleaving -/

section Live
variable {core : Core T} {codec : GossipCodec T} {debug : String → String}
  {built : Except ForNetworkError (Verifier T)} {peers : List Addr} {branches : List (Branch Peer Conn)}

/-- A loop that has stopped has sent all that arrived with the tag of a block. -/
theorem emits_stopped {sent : List (List UInt8)} {p : GossipLoop Peer Conn Addr}
    (h : (liveMonitor core codec debug built peers).Emits (listening branches) sent p)
    (hstop : (liveMonitor core codec debug built peers).turn p = .stop) :
    sent = (gossiped branches).filter isBlock := by
  obtain ⟨pre, rfl, hends, rfl⟩ := emits_tagged h
  obtain ⟨rest, s⟩ := p
  cases rest with
  | nil => simp [liveMonitor, gossipTurn] at hstop
  | cons branch rest =>
    obtain ⟨hend, _⟩ | ⟨_, s', hgo⟩ := gossipTurn_cons peers branch rest s
    · rw [gossiped, List.takeWhile_append_of_pos (by simpa using hends), List.takeWhile_cons]
      simp [hend]
    · have hstop' : gossipTurn peers (branch :: rest, s) = .stop := hstop
      simp [hgo] at hstop'

omit [DecidableEq Peer] in
theorem verifiedTips_tagged (verifier : Verifier T) (payloads : List (List UInt8)) :
    verifier.verifiedTips core codec (payloads.filter isBlock) =
      verifier.verifiedTips core codec payloads := by
  rw [Verifier.verifiedTips, List.filterMap_filter, Verifier.verifiedTips]
  congr 1
  funext payload
  cases htip : verifier.tipOf core codec payload with
  | none => simp
  | some tip => simp [isBlock, Verifier.tag_of_tipOf htip]

omit [DecidableEq Peer] in
theorem countP_isRejected_tagged (verifier : Verifier T) (payloads : List (List UInt8)) :
    (payloads.filter isBlock).countP (verifier.isRejected core codec) =
      payloads.countP (verifier.isRejected core codec) := by
  rw [List.countP_filter]
  congr 1
  funext payload
  cases hrejected : verifier.isRejected core codec payload with
  | false => simp
  | true => simp [isBlock, Verifier.tag_of_isRejected hrejected]

/-- **The live monitor is the sequential one.** However the two threads are interleaved, when `main` has
joined the worker, the worker's monitor is the one fed the verified tips of all messages that arrived, in
order, and its counts are those of the messages, modulo 2^64; or the worker has died, of a key that could not
be loaded or of a check that panicked. -/
theorem live_monitor_drained (core : Core T) (codec : GossipCodec T) (debug : String → String)
    (built : Except ForNetworkError (Verifier T)) (peers : List Addr)
    (branches : List (Branch Peer Conn)) (schedule : List Side)
    {c : Config Side (Shared (List UInt8)) (Party (GossipLoop Peer Conn Addr) (Worker T))}
    (hc : c = run (liveMonitor core codec debug built peers).act schedule (start (listening branches)))
    (hjoined : c.threads .producer = .joined) :
    (∃ w verifier outs, c.threads .consumer = .drained w ∧ built = .ok verifier ∧
      (ChainMonitor.new 512).run core (verifier.verifiedTips core codec (gossiped branches)) =
        .returned (w.monitor, outs) ∧
      w.ingested = UInt64.ofNat outs.length ∧
      w.rejected = UInt64.ofNat ((gossiped branches).countP (verifier.isRejected core codec))) ∨
    (∃ message, c.threads .consumer = .dead message ∧
      ((∃ e, built = .error e ∧ message = "verifier for network: " ++ e.debug debug) ∨
        ∃ verifier, built = .ok verifier ∧ ∃ payload ∈ gossiped branches,
          verifier.checkPayload core codec payload = .panicked message)) := by
  subst hc
  obtain ⟨sent, hp, hcons⟩ := Program.run_faithful (liveMonitor core codec debug built peers)
    (listening branches) schedule
  rw [hjoined] at hp
  obtain ⟨_, hrec, p, hemits, hstop⟩ := hp
  obtain rfl := emits_stopped hemits hstop
  cases ht : (run (liveMonitor core codec debug built peers).act schedule
      (start (listening branches))).threads .consumer with
  | drained w =>
    rw [ht] at hcons
    obtain ⟨_, _, hw⟩ := hcons
    obtain ⟨verifier, hbuilt, hproc⟩ := consume_returned hw
    obtain ⟨outs, hrun⟩ := hproc.monitor_eq
    rw [verifiedTips_tagged] at hrun
    refine Or.inl ⟨w, verifier, outs, rfl, hbuilt, hrun, ?_, ?_⟩
    · rw [hproc.ingested_eq, verifiedTips_tagged, run_length hrun]
    · rw [hproc.rejected_eq, countP_isRejected_tagged]
  | dead message =>
    rw [ht] at hcons
    obtain ⟨_, taken, hpre, hw⟩ := hcons
    refine Or.inr ⟨message, rfl, (consume_panicked hw).imp id ?_⟩
    rintro ⟨verifier, hbuilt, payload, hmem, hpanic⟩
    exact ⟨verifier, hbuilt, payload, (List.mem_filter.mp (hpre.subset hmem)).1, hpanic⟩
  | starting =>
    rw [ht] at hcons
    simp [hcons.1] at hrec
  | consuming w =>
    rw [ht] at hcons
    simp [hcons.1] at hrec
  | stuck =>
    rw [ht] at hcons
    simp [hcons.1] at hrec
  | _ =>
    rw [ht] at hcons
    exact hcons.elim

/-- **Verify before ingest.** However the two threads are interleaved and wherever they are, every block
in the worker's window was gossiped, its proof has verified under the worker's key, and it is filed under
the state hash computed from it. -/
theorem live_monitor_window_verified (core : Core T) (codec : GossipCodec T) (debug : String → String)
    (built : Except ForNetworkError (Verifier T)) (peers : List Addr)
    (branches : List (Branch Peer Conn)) (schedule : List Side)
    {c : Config Side (Shared (List UInt8)) (Party (GossipLoop Peer Conn Addr) (Worker T))}
    (hc : c = run (liveMonitor core codec debug built peers).act schedule (start (listening branches)))
    {w : Worker T} (hw : (c.threads .consumer).state = some w)
    {key : String} {node : Node T} (hnode : w.monitor.nodes.lookup key = some node) :
    ∃ payload ∈ branches.filterMap Branch.message, ∃ verifier stateHash block,
      built = .ok verifier ∧ blockFromGossipPayload codec payload = .returned (.ok block) ∧
      verifier.verifyBlock core block = .returned true ∧ core.tryHash block.header = .ok stateHash ∧
      key = core.stateHashToString stateHash ∧ node = core.node ⟨block, stateHash⟩ := by
  subst hc
  obtain ⟨sent, hp, hcons⟩ := Program.run_faithful (liveMonitor core codec debug built peers)
    (listening branches) schedule
  generalize run (liveMonitor core codec debug built peers).act schedule (start (listening branches)) = c
    at hp hcons hw
  -- the worker has taken some of what was sent, and all of that arrived
  have htaken : ∃ taken, taken ⊆ sent ∧
      (liveMonitor core codec debug built peers : Program _ (GossipLoop Peer Conn Addr) _).consume taken =
        .returned w := by
    obtain hw | hw := Party.state_eq_some.mp hw
    · rw [hw] at hcons
      obtain ⟨_, taken, rfl, hconsume⟩ := hcons
      exact ⟨taken, List.subset_append_left _ _, hconsume⟩
    · rw [hw] at hcons
      exact ⟨sent, List.Subset.refl _, hcons.2.2⟩
  have hsent : sent ⊆ branches.filterMap Branch.message := by
    have hemits : ∃ p, (liveMonitor core codec debug built peers).Emits (listening branches) sent p := by
      cases ht : c.threads .producer with
      | producing p =>
        rw [ht] at hp
        exact ⟨p, hp.2⟩
      | joining =>
        rw [ht] at hp
        exact ⟨_, hp.2.choose_spec.1⟩
      | joined =>
        rw [ht] at hp
        exact ⟨_, hp.2.2.choose_spec.1⟩
      | _ =>
        rw [ht] at hp
        exact hp.elim
    obtain ⟨p, hemits⟩ := hemits
    obtain ⟨pre, rfl, _, rfl⟩ := emits_tagged hemits
    rw [List.filterMap_append]
    exact List.Subset.trans List.filter_sublist.subset (List.subset_append_left _ _)
  obtain ⟨taken, hsub, hconsume⟩ := htaken
  obtain ⟨verifier, hbuilt, hproc⟩ := consume_returned hconsume
  obtain ⟨outs, hrun⟩ := hproc.monitor_eq
  obtain ⟨tip, htips, rfl, rfl⟩ := run_fromTips hrun key node hnode
  obtain ⟨payload, hmem, htip⟩ := List.mem_filterMap.mp htips
  obtain ⟨hblock, hverified, hhash⟩ := Verifier.tipOf_eq_some.mp htip
  exact ⟨payload, hsent (hsub hmem), verifier, tip.stateHash, tip.block, hbuilt, hblock, hverified,
    hhash, rfl, rfl⟩

theorem stops_listening (core : Core T) (codec : GossipCodec T) (debug : String → String)
    (built : Except ForNetworkError (Verifier T)) (peers : List Addr)
    (hends : ∃ branch ∈ branches, branch.ends = true)
    (s : Subscription Peer Addr (Option (List UInt8))) :
    (liveMonitor core codec debug built peers).Stops (branches, s) := by
  induction branches generalizing s with
  | nil => simp at hends
  | cons branch branches ih =>
    obtain ⟨_, hstop⟩ | ⟨hgoes, s', hgo⟩ := gossipTurn_cons peers branch branches s
    · exact .stop hstop
    · refine .go hgo (ih ?_ s')
      obtain ⟨b, hb, hend⟩ := hends
      rcases List.mem_cons.mp hb with rfl | hb
      · simp [hend] at hgoes
      · exact ⟨b, hb, hend⟩

/-- **The live monitor comes to its end.** Whatever the two threads have done, they can go on until `main`
has joined the worker, provided the swarm or the deadline ends the loop, the check of each message ends and
the parent links of the verified blocks close no cycle. -/
theorem live_monitor_completes (core : Core T) (codec : GossipCodec T) (debug : String → String)
    (built : Except ForNetworkError (Verifier T)) (peers : List Addr)
    (branches : List (Branch Peer Conn)) (hends : ∃ branch ∈ branches, branch.ends = true)
    (hchecks : ∀ verifier, built = .ok verifier →
      (∀ payload ∈ gossiped branches, verifier.checkPayload core codec payload ≠ .diverged) ∧
        TipsAcyclic core (verifier.verifiedTips core codec (gossiped branches)))
    (schedule : List Side) :
    ∃ schedule', (run (liveMonitor core codec debug built peers).act (schedule ++ schedule')
      (start (listening branches))).threads .producer = .joined := by
  refine Program.exists_joined schedule (stops_listening core codec debug built peers hends _) ?_
  intro sent p hemits taken hpre
  -- what was taken arrived before the end
  have hsub : taken ⊆ gossiped branches := by
    obtain ⟨pre, rfl, hgoes, rfl⟩ := emits_tagged hemits
    refine List.Subset.trans hpre.subset (List.Subset.trans List.filter_sublist.subset ?_)
    rw [gossiped, List.takeWhile_append_of_pos (by simpa using hgoes), List.filterMap_append]
    exact List.subset_append_left _ _
  refine consume_ne_diverged fun verifier hbuilt => ?_
  obtain ⟨hcheck, hacyc⟩ := hchecks verifier hbuilt
  refine ⟨fun payload hp => hcheck payload (hsub hp), hacyc.mono ?_⟩
  exact List.filterMap_subset _ hsub

end Live
end Threads

/-! ## Two blocks and a forged one -/

namespace SampleGossip

/-- The block at a height; its parent is the one below. -/
def block (height : UInt8) : Block Sample.types :=
  (Sample.tip "" (if height = 2 then "a" else "o") height.toUInt32).block

/-- State hashes by height; the proof of the block at height 9 is forged. -/
def core : Core Sample.types :=
  { Sample.minaCore with
    tryHash := fun h =>
      .ok (if h.protocolState.body.consensusState.blockchainLength = 1 then "a" else "b")
    verifyBlockProof := fun h _ =>
      .returned (decide (h.protocolState.body.consensusState.blockchainLength ≠ 9)) }

/-- A block message is its tag and its height. -/
def read : List UInt8 → Outcome (Except String (GossipNetMessage Sample.types))
  | 0 :: height :: _ => .returned (.ok (.newState (block height)))
  | [0] => .returned (.error "unexpected end of input")
  | [] => .returned (.error "unexpected end of input")
  | _ => .returned (.ok .snarkPoolDiff)

def codec : GossipCodec Sample.types where
  read := read
  tag_of_block := by
    intro bytes block h
    unfold read at h
    split at h
    · rfl
    · simp at h
    · simp at h
    · simp at h

def payload (message : List UInt8) : List UInt8 := List.replicate 8 7 ++ message

def branches : List (Branch String ℕ) :=
  [.swarm (some (.message (payload [0, 1]))), .tick, .swarm (some (.message (payload [1]))),
    .swarm (some (.message (payload [0, 9]))), .swarm (some (.message (payload [0, 2]))), .deadline]

def verifier : Verifier Sample.types := ⟨"devnet", ()⟩

def program : Program (List UInt8) (GossipLoop String ℕ String) (Worker Sample.types) :=
  liveMonitor core codec id (.ok verifier) ["/dns4/seed"]

/-- The worker takes the first block while the loop still runs. -/
def schedule : List Side :=
  [.producer, .consumer, .consumer, .producer, .producer, .producer, .producer, .consumer, .producer,
    .consumer, .consumer, .producer]

def final : Config Side (Shared (List UInt8)) (Party (GossipLoop String ℕ String) (Worker Sample.types)) :=
  run program.act schedule (start (listening branches))

end SampleGossip

open SampleGossip in
/-- Two blocks are ingested, the forged one is rejected and the pool diff is not looked at. -/
theorem live_monitor_drained_two_blocks :
    ∃ w outs, final.threads .consumer = .drained w ∧
      (ChainMonitor.new 512).run core (verifier.verifiedTips core codec (gossiped branches)) =
        .returned (w.monitor, outs) ∧ w.ingested = UInt64.ofNat outs.length ∧ w.rejected = 1 := by
  have hjoined : final.threads .producer = .joined := Party.isJoined_iff.mp (by decide +kernel)
  obtain ⟨w, v, outs, hw, hv, hrun, hing, hrej⟩ | ⟨message, _, hdead⟩ :=
    live_monitor_drained core codec id (.ok verifier) ["/dns4/seed"] branches schedule rfl hjoined
  · obtain rfl := Except.ok.inj hv
    refine ⟨w, outs, hw, hrun, hing, hrej.trans ?_⟩
    decide +kernel
  · obtain ⟨e, he⟩ | ⟨v, hv, payload, hmem, hpanic⟩ := hdead
    · simp at he
    · obtain rfl := Except.ok.inj hv
      have hnone : ∀ payload ∈ gossiped branches,
          (verifier.checkPayload core codec payload).panics = false := by decide +kernel
      have := hnone payload hmem
      simp [hpanic, Outcome.panics] at this

open SampleGossip in
/-- The first block is in the window, and was verified. -/
theorem live_monitor_window_verified_first_block :
    ∃ w node, (final.threads .consumer).state = some w ∧ w.monitor.nodes.lookup "a" = some node ∧
      ∃ payload ∈ branches.filterMap Branch.message, ∃ block,
        blockFromGossipPayload codec payload = .returned (.ok block) ∧
        verifier.verifyBlock core block = .returned true ∧ core.tryHash block.header = .ok node.hash := by
  have hsome : ((final.threads .consumer).state.bind fun w =>
      w.monitor.nodes.lookup "a").isSome = true := by decide +kernel
  obtain ⟨node, hnode⟩ := Option.isSome_iff_exists.mp hsome
  obtain ⟨w, hw, hlookup⟩ := Option.bind_eq_some_iff.mp hnode
  obtain ⟨payload, hmem, v, stateHash, block, hv, hblock, hverified, hhash, _, hnode⟩ :=
    live_monitor_window_verified core codec id (.ok verifier) ["/dns4/seed"] branches schedule
      (c := final) rfl hw hlookup
  obtain rfl := Except.ok.inj hv
  refine ⟨w, node, hw, hlookup, payload, hmem, block, hblock, hverified, ?_⟩
  rw [hhash, hnode]
  rfl

open SampleGossip in
/-- From the middle of the run the two threads can be brought to their end. -/
theorem live_monitor_completes_two_blocks :
    ∃ schedule', (run program.act ([.producer, .consumer, .consumer] ++ schedule')
      (start (listening branches))).threads .producer = .joined := by
  refine live_monitor_completes core codec id (.ok verifier) ["/dns4/seed"] branches
    ⟨.deadline, by simp [branches], rfl⟩ ?_ [.producer, .consumer, .consumer]
  intro v hv
  obtain rfl := Except.ok.inj hv
  constructor
  · intro payload hmem hdiv
    have hreturns : ∀ payload ∈ gossiped branches,
        (verifier.checkPayload core codec payload).holds (fun _ => true) = true := by decide +kernel
    have := hreturns payload hmem
    simp [hdiv, Outcome.holds] at this
  · have hcons : TipsConsistent core (fun k => if k = "a" then 1 else if k = "b" then 2 else 0)
        (verifier.verifiedTips core codec (gossiped branches)) := by decide +kernel
    exact hcons.acyclic

end MinaVerify
