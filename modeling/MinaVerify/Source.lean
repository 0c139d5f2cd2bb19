import MinaVerify.Capture.Seeds
import MinaVerify.Rpc.Tip
import MinaVerify.Server.Handle

/-! # Where a block to verify comes from

`fetch_best_tip` of `crates/mina-verify-capture/src/rpc_net.rs` and `verify_from` of
`crates/mina-verify-monitor/src/source.rs`: a block is taken from a JSON text or is the best tip of a live
node, and only a proof that verifies lets its facts through. The node is not trusted, and it is reached over
whichever connection opens a stream first; a deadline ends the wait for it. -/
namespace MinaVerify
set_option autoImplicit false
open Framing

variable {T : Types} {Conn : Type}

/-! ## Fetching the best tip -/

/-- What a fetch meets outside: how seeds are reached; the codecs; the streams that `swarm.next` returns, in
their order; and whether the work ends within a deadline of so many seconds. -/
structure LiveNode (T : Types) (Conn : Type) extends Transport where
  codec : HeaderCodec
  getBestTip : Request (Option (BestTip T))
  surfaced : List (Substream Conn)
  inTime : ℕ → Bool

/-- `tokio::select!` of some work and a deadline: work that waits for ever is cut off. -/
def withDeadline {α : Type} (inTime : Bool) (message : String) (work : Outcome (Except String α)) :
    Outcome (Except String α) :=
  match inTime, work with
  | true, .returned r => .returned r
  | true, .panicked text => .panicked text
  | true, .diverged => .returned (.error message)
  | false, _ => .returned (.error message)

def fetchBestTip (node : LiveNode T Conn) (peers : List String) (deadline : ℕ) :
    Outcome (Except String (Block T)) :=
  (node.connect "multiaddr" peers).bind fun _ =>
    withDeadline (node.inTime deadline) "deadline reached before fetching best tip" <|
      match node.surfaced with
      | x :: _ => rpcBestTip node.codec node.getBestTip x.stream
      | [] => .diverged

/-! ## Verifying from a source -/

inductive BlockSource where
  | precomputed (json : String)
  | node (network : String) (deadline : ℕ)

/-- `DEFAULT_NODE_DEADLINE`, in seconds. -/
def defaultNodeDeadline : ℕ := 90

/-- `BlockSource::node`. -/
def BlockSource.atNode (network : String) : BlockSource := .node network defaultNodeDeadline

inductive SourceError where
  | verifier (e : VerifierError)
  | unknownNetwork (network : String)
  | rpc (e : String)
  deriving DecidableEq, Repr

/-- `From<VerifierError>`, as `?` applies it. -/
def fromVerifier {α : Type} (x : Outcome (Except VerifierError α)) : Outcome (Except SourceError α) :=
  x.bind fun
    | .ok a => .returned (.ok a)
    | .error e => .returned (.error (.verifier e))

def verifyFrom (core : Core T) (codecs : Codecs T) (node : LiveNode T Conn) (verifier : Verifier T) :
    BlockSource → Outcome (Except SourceError (VerifiedBlock T))
  | .precomputed json => fromVerifier (verifier.verifyPrecomputedAndExtract core codecs json)
  | .node network deadline =>
    match networkSeeds network with
    | none => .returned (.error (.unknownNetwork network))
    | some (_, peers) =>
      (fetchBestTip node peers deadline).bind fun
        | .error e => .returned (.error (.rpc e))
        | .ok block => fromVerifier (verifier.verifyAndExtract core block.header)

/-! ## What a fetch returns -/

section Fetch
variable {node : LiveNode T Conn} {peers : List String} {deadline : ℕ}

theorem withDeadline_eq_ok {α : Type} {inTime : Bool} {message : String} {work : Outcome (Except String α)}
    {a : α} :
    withDeadline inTime message work = .returned (.ok a) ↔ inTime = true ∧ work = .returned (.ok a) := by
  cases inTime with
  | false => simp [withDeadline]
  | true => cases work <;> simp [withDeadline]

theorem withDeadline_eq_panicked {α : Type} {inTime : Bool} {message text : String}
    {work : Outcome (Except String α)} :
    withDeadline inTime message work = .panicked text ↔ inTime = true ∧ work = .panicked text := by
  cases inTime with
  | false => simp [withDeadline]
  | true => cases work <;> simp [withDeadline]

theorem withDeadline_ne_diverged {α : Type} {inTime : Bool} {message : String}
    {work : Outcome (Except String α)} : withDeadline inTime message work ≠ .diverged := by
  cases inTime with
  | false => simp [withDeadline]
  | true => cases work <;> simp [withDeadline]

theorem fetchBestTip_eq_ok {block : Block T} :
    fetchBestTip node peers deadline = .returned (.ok block) ↔
      node.Dials peers ∧ node.inTime deadline = true ∧
        ∃ x others, node.surfaced = x :: others ∧
          rpcBestTip node.codec node.getBestTip x.stream = .returned (.ok block) := by
  rw [fetchBestTip, Outcome.bind_eq_returned, ← Transport.connect_eq_returned]
  constructor
  · rintro ⟨_, hconnect, h⟩
    obtain ⟨htime, hwork⟩ := withDeadline_eq_ok.mp h
    cases hsurfaced : node.surfaced with
    | nil => simp [hsurfaced] at hwork
    | cons x others =>
      rw [hsurfaced] at hwork
      exact ⟨hconnect, htime, x, others, rfl, hwork⟩
  · rintro ⟨hconnect, htime, x, others, hsurfaced, hwork⟩
    refine ⟨(), hconnect, withDeadline_eq_ok.mpr ⟨htime, ?_⟩⟩
    rw [hsurfaced]
    exact hwork

theorem fetchBestTip_panics :
    (∃ message, fetchBestTip node peers deadline = .panicked message) ↔
      ¬ node.Dials peers ∨ (node.Dials peers ∧ node.inTime deadline = true ∧
        ∃ x others, node.surfaced = x :: others ∧
          ∃ message, rpcBestTip node.codec node.getBestTip x.stream = .panicked message) := by
  rw [← Transport.connect_panics, ← Transport.connect_eq_returned]
  constructor
  · rintro ⟨message, h⟩
    obtain h | ⟨_, hconnect, h⟩ := Outcome.bind_eq_panicked.mp h
    · exact Or.inl ⟨message, h⟩
    · obtain ⟨htime, hwork⟩ := withDeadline_eq_panicked.mp h
      cases hsurfaced : node.surfaced with
      | nil => simp [hsurfaced] at hwork
      | cons x others =>
        rw [hsurfaced] at hwork
        exact Or.inr ⟨hconnect, htime, x, others, rfl, message, hwork⟩
  · rintro (⟨message, h⟩ | ⟨hconnect, htime, x, others, hsurfaced, message, hwork⟩)
    · exact ⟨message, Outcome.bind_eq_panicked.mpr (Or.inl h)⟩
    · refine ⟨message, Outcome.bind_eq_panicked.mpr (Or.inr ⟨(), hconnect, ?_⟩)⟩
      refine withDeadline_eq_panicked.mpr ⟨htime, ?_⟩
      rw [hsurfaced]
      exact hwork

/-- The deadline ends every wait. -/
theorem fetchBestTip_ne_diverged : fetchBestTip node peers deadline ≠ .diverged := by
  rw [fetchBestTip, ne_eq, Outcome.bind_eq_diverged, not_or]
  refine ⟨Transport.connect_ne_diverged, ?_⟩
  rintro ⟨_, _, h⟩
  exact withDeadline_ne_diverged h

end Fetch

/-! ## What a source yields -/

section Verify
variable {core : Core T} {codecs : Codecs T} {node : LiveNode T Conn} {verifier : Verifier T}

theorem fromVerifier_eq_ok {α : Type} {x : Outcome (Except VerifierError α)} {a : α} :
    fromVerifier x = .returned (.ok a) ↔ x = .returned (.ok a) := by
  rw [fromVerifier, Outcome.bind_eq_returned]
  constructor
  · rintro ⟨r, rfl, h⟩
    cases r with
    | ok b => simpa using h
    | error e => simp at h
  · intro h
    exact ⟨.ok a, h, rfl⟩

theorem fromVerifier_eq_error {α : Type} {x : Outcome (Except VerifierError α)} {e : VerifierError} :
    fromVerifier x = .returned (.error (.verifier e)) ↔ x = .returned (.error e) := by
  rw [fromVerifier, Outcome.bind_eq_returned]
  constructor
  · rintro ⟨r, rfl, h⟩
    cases r with
    | ok b => simp at h
    | error e' => simpa using h
  · intro h
    exact ⟨.error e, h, rfl⟩

theorem fromVerifier_eq_panicked {α : Type} {x : Outcome (Except VerifierError α)} {message : String} :
    fromVerifier x = .panicked message ↔ x = .panicked message := by
  rw [fromVerifier, Outcome.bind_eq_panicked, or_iff_left]
  rintro ⟨r, _, h⟩
  cases r <;> simp at h

theorem fromVerifier_eq_diverged {α : Type} {x : Outcome (Except VerifierError α)} :
    fromVerifier x = .diverged ↔ x = .diverged := by
  rw [fromVerifier, Outcome.bind_eq_diverged, or_iff_left]
  rintro ⟨r, _, h⟩
  cases r <;> simp at h

theorem verifyAndExtract_eq_panicked {header : BlockHeader T} {message : String} :
    verifier.verifyAndExtract core header = .panicked message ↔
      verifier.verifyHeader core header = .panicked message := by
  rw [Verifier.verifyAndExtract, Outcome.bind_eq_panicked]
  simp

theorem verifyAndExtract_eq_diverged {header : BlockHeader T} :
    verifier.verifyAndExtract core header = .diverged ↔
      verifier.verifyHeader core header = .diverged := by
  rw [Verifier.verifyAndExtract, Outcome.bind_eq_diverged]
  simp

variable [DecidableEq Conn]

/-- The header comes from the source. From a node it is that of the block in the first response to the first
id on the first stream that surfaces, which was negotiated on one of the connections; and all of this in
time. -/
def Yields (codecs : Codecs T) (node : LiveNode T Conn) (log : List (SwarmCall Conn)) :
    BlockSource → BlockHeader T → Prop
  | .precomputed json, header => headerFromPrecomputed codecs json = .returned (.ok header)
  | .node network deadline, header =>
    ∃ seeds x others payload tip, networkSeeds network = some seeds ∧ node.Dials seeds.2 ∧
      node.inTime deadline = true ∧ node.surfaced = x :: others ∧ x ∈ negotiatedOn x.conn log ∧
      Writable x.stream.faults 2 ∧
      ResponseAhead node.codec queryId x.stream.source.incoming payload ∧
      node.getBestTip.answer payload = .ok (some tip) ∧ tip.data.header = header

theorem yields_node {log : List (SwarmCall Conn)} (hcontract : SwarmContract log)
    (hlog : node.surfaced = (RpcNet.run log).surfaced) {network : String} {deadline : ℕ}
    {header : BlockHeader T} :
    Yields codecs node log (.node network deadline) header ↔
      ∃ seeds block, networkSeeds network = some seeds ∧
        fetchBestTip node seeds.2 deadline = .returned (.ok block) ∧ block.header = header := by
  constructor
  · rintro ⟨seeds, x, others, payload, tip, hseeds, hdials, htime, hsurfaced, _, hw, hahead, hanswer, hheader⟩
    refine ⟨seeds, tip.data, hseeds, fetchBestTip_eq_ok.mpr ⟨hdials, htime, x, others, hsurfaced, ?_⟩, hheader⟩
    exact rpcBestTip_eq_ok.mpr ⟨hw, payload, tip, hahead, hanswer, rfl⟩
  · rintro ⟨seeds, block, hseeds, hfetch, hheader⟩
    obtain ⟨hdials, htime, x, others, hsurfaced, hblock⟩ := fetchBestTip_eq_ok.mp hfetch
    obtain ⟨hw, payload, tip, hahead, hanswer, rfl⟩ := rpcBestTip_eq_ok.mp hblock
    have hmem := hcontract.negotiated_of_surfaced (x := x) (by simp [← hlog, hsurfaced])
    exact ⟨seeds, x, others, payload, tip, hseeds, hdials, htime, hsurfaced, hmem, hw, hahead, hanswer, hheader⟩

/-- What `verify_from` makes of a fetched block. -/
def checkFetched (core : Core T) (verifier : Verifier T) :
    Except String (Block T) → Outcome (Except SourceError (VerifiedBlock T))
  | .error e => .returned (.error (.rpc e))
  | .ok block => fromVerifier (verifier.verifyAndExtract core block.header)

omit [DecidableEq Conn] in
theorem verifyFrom_node {network : String} {deadline : ℕ} {seeds : String × List String}
    (hseeds : networkSeeds network = some seeds) :
    verifyFrom core codecs node verifier (.node network deadline) =
      (fetchBestTip node seeds.2 deadline).bind (checkFetched core verifier) := by
  simp only [verifyFrom, hseeds]
  rfl

section Node
variable {log : List (SwarmCall Conn)} {network : String} {deadline : ℕ}

theorem verifyFrom_node_ok (hcontract : SwarmContract log)
    (hlog : node.surfaced = (RpcNet.run log).surfaced) {vb : VerifiedBlock T} :
    verifyFrom core codecs node verifier (.node network deadline) = .returned (.ok vb) ↔
      ∃ header, Yields codecs node log (.node network deadline) header ∧
        verifier.verifyAndExtract core header = .returned (.ok vb) := by
  cases hseeds : networkSeeds network with
  | none => simp [verifyFrom, hseeds, Yields]
  | some seeds =>
    rw [verifyFrom_node hseeds, Outcome.bind_eq_returned]
    constructor
    · rintro ⟨r, hfetch, h⟩
      cases r with
      | error e => simp [checkFetched] at h
      | ok block =>
        exact ⟨block.header, (yields_node hcontract hlog).mpr ⟨seeds, block, hseeds, hfetch, rfl⟩,
          fromVerifier_eq_ok.mp h⟩
    · rintro ⟨header, hyields, h⟩
      obtain ⟨seeds', block, hseeds', hfetch, rfl⟩ := (yields_node hcontract hlog).mp hyields
      obtain rfl := Option.some.inj (hseeds.symm.trans hseeds')
      exact ⟨_, hfetch, fromVerifier_eq_ok.mpr h⟩

/-- The block is refused for its proof. -/
theorem verifyFrom_node_refused (hcontract : SwarmContract log)
    (hlog : node.surfaced = (RpcNet.run log).surfaced) :
    verifyFrom core codecs node verifier (.node network deadline) =
        .returned (.error (.verifier .proofInvalid)) ↔
      ∃ header, Yields codecs node log (.node network deadline) header ∧
        verifier.verifyHeader core header = .returned false := by
  cases hseeds : networkSeeds network with
  | none => simp [verifyFrom, hseeds, Yields]
  | some seeds =>
    rw [verifyFrom_node hseeds, Outcome.bind_eq_returned]
    constructor
    · rintro ⟨r, hfetch, h⟩
      cases r with
      | error e => simp [checkFetched] at h
      | ok block =>
        exact ⟨block.header, (yields_node hcontract hlog).mpr ⟨seeds, block, hseeds, hfetch, rfl⟩,
          Verifier.verifyAndExtract_proofInvalid.mp (fromVerifier_eq_error.mp h)⟩
    · rintro ⟨header, hyields, h⟩
      obtain ⟨seeds', block, hseeds', hfetch, rfl⟩ := (yields_node hcontract hlog).mp hyields
      obtain rfl := Option.some.inj (hseeds.symm.trans hseeds')
      exact ⟨_, hfetch, fromVerifier_eq_error.mpr (Verifier.verifyAndExtract_proofInvalid.mpr h)⟩

theorem verifyFrom_node_diverged (hcontract : SwarmContract log)
    (hlog : node.surfaced = (RpcNet.run log).surfaced) :
    verifyFrom core codecs node verifier (.node network deadline) = .diverged ↔
      ∃ header, Yields codecs node log (.node network deadline) header ∧
        verifier.verifyHeader core header = .diverged := by
  cases hseeds : networkSeeds network with
  | none => simp [verifyFrom, hseeds, Yields]
  | some seeds =>
    rw [verifyFrom_node hseeds, Outcome.bind_eq_diverged]
    constructor
    · rintro (h | ⟨r, hfetch, h⟩)
      · exact absurd h fetchBestTip_ne_diverged
      · cases r with
        | error e => simp [checkFetched] at h
        | ok block =>
          exact ⟨block.header, (yields_node hcontract hlog).mpr ⟨seeds, block, hseeds, hfetch, rfl⟩,
            verifyAndExtract_eq_diverged.mp (fromVerifier_eq_diverged.mp h)⟩
    · rintro ⟨header, hyields, h⟩
      obtain ⟨seeds', block, hseeds', hfetch, rfl⟩ := (yields_node hcontract hlog).mp hyields
      obtain rfl := Option.some.inj (hseeds.symm.trans hseeds')
      exact Or.inr ⟨_, hfetch, fromVerifier_eq_diverged.mpr (verifyAndExtract_eq_diverged.mpr h)⟩

/-- The fetch itself panics: on an address, or on what the peer claims to send. -/
def FetchPanics (node : LiveNode T Conn) (peers : List String) (deadline : ℕ) : Prop :=
  ¬ node.Dials peers ∨ (node.Dials peers ∧ node.inTime deadline = true ∧
    ∃ x others, node.surfaced = x :: others ∧ Writable x.stream.faults 2 ∧
      OversizedAhead node.codec queryId x.stream.source.incoming)

omit [DecidableEq Conn] in
theorem fetchPanics_iff {peers : List String} : FetchPanics node peers deadline ↔
    ∃ message, fetchBestTip node peers deadline = .panicked message := by
  simp only [FetchPanics, fetchBestTip_panics, rpcBestTip_panics]

theorem verifyFrom_node_panics (hcontract : SwarmContract log)
    (hlog : node.surfaced = (RpcNet.run log).surfaced) :
    (∃ message, verifyFrom core codecs node verifier (.node network deadline) = .panicked message) ↔
      (∃ header message, Yields codecs node log (.node network deadline) header ∧
        verifier.verifyHeader core header = .panicked message) ∨
      ∃ seeds, networkSeeds network = some seeds ∧ FetchPanics node seeds.2 deadline := by
  cases hseeds : networkSeeds network with
  | none => simp [verifyFrom, hseeds, Yields]
  | some seeds =>
    simp only [verifyFrom_node hseeds, Outcome.bind_eq_panicked, Option.some.injEq, exists_eq_left',
      fetchPanics_iff]
    constructor
    · rintro ⟨message, h | ⟨r, hfetch, h⟩⟩
      · exact Or.inr ⟨message, h⟩
      · cases r with
        | error e => simp [checkFetched] at h
        | ok block =>
          exact Or.inl ⟨block.header, message, (yields_node hcontract hlog).mpr ⟨seeds, block, hseeds, hfetch, rfl⟩,
            verifyAndExtract_eq_panicked.mp (fromVerifier_eq_panicked.mp h)⟩
    · rintro (⟨header, message, hyields, h⟩ | ⟨message, h⟩)
      · obtain ⟨seeds', block, hseeds', hfetch, rfl⟩ := (yields_node hcontract hlog).mp hyields
        obtain rfl := Option.some.inj (hseeds.symm.trans hseeds')
        exact ⟨message, Or.inr ⟨_, hfetch, fromVerifier_eq_panicked.mpr (verifyAndExtract_eq_panicked.mpr h)⟩⟩
      · exact ⟨message, Or.inl h⟩

end Node

/-- **Only a verified proof lets a block through.** Whatever the connections did and whatever the bytes of the
peer are: facts are returned exactly when the source yields a header whose proof verifies, and they are that
header's own; the block is refused for its proof exactly when the proof of that header does not verify. A
fetch from a node always comes to an end, by its deadline if by nothing else, so only the check of the proof
can hang; and it panics only in that check, on an address that does not parse or cannot be dialled, or on a
length that no buffer can have. -/
theorem verify_from_exact (core : Core T) (codecs : Codecs T) (verifier : Verifier T)
    (node : LiveNode T Conn) (log : List (SwarmCall Conn)) (hcontract : SwarmContract log)
    (hlog : node.surfaced = (RpcNet.run log).surfaced) :
    (∀ source vb, verifyFrom core codecs node verifier source = .returned (.ok vb) ↔
      ∃ header, Yields codecs node log source header ∧
        verifier.verifyHeader core header = .returned true ∧
        VerifiedBlock.fromHeader core header = .ok vb) ∧
    (∀ source, verifyFrom core codecs node verifier source =
        .returned (.error (.verifier .proofInvalid)) ↔
      ∃ header, Yields codecs node log source header ∧
        verifier.verifyHeader core header = .returned false) ∧
    ∀ network deadline,
      (verifyFrom core codecs node verifier (.node network deadline) = .diverged ↔
        ∃ header, Yields codecs node log (.node network deadline) header ∧
          verifier.verifyHeader core header = .diverged) ∧
      ((∃ message, verifyFrom core codecs node verifier (.node network deadline) = .panicked message) ↔
        (∃ header message, Yields codecs node log (.node network deadline) header ∧
          verifier.verifyHeader core header = .panicked message) ∨
        ∃ seeds, networkSeeds network = some seeds ∧ FetchPanics node seeds.2 deadline) := by
  refine ⟨?_, ?_, fun network deadline =>
    ⟨verifyFrom_node_diverged hcontract hlog, verifyFrom_node_panics hcontract hlog⟩⟩
  · intro source vb
    cases source with
    | precomputed json =>
      rw [verifyFrom, fromVerifier_eq_ok, Verifier.verifyPrecomputedAndExtract_ok]
      rfl
    | node network deadline =>
      rw [verifyFrom_node_ok hcontract hlog]
      simp only [Verifier.verifyAndExtract_ok]
  · intro source
    cases source with
    | precomputed json =>
      rw [verifyFrom, fromVerifier_eq_error, Verifier.verifyPrecomputedAndExtract_proofInvalid]
      rfl
    | node network deadline => exact verifyFrom_node_refused hcontract hlog

end Verify

namespace SampleNode
open SampleWire

/-- A peer that shakes hands, answers a call that was never made, and answers the query. -/
def stream : Stream := streamOf [handshake, reply 9, reply 1, handshake]

/-- Of two connections, the first comes up and closes, and the other opens the stream. -/
def log : List (SwarmCall Bool) :=
  [.link false .established, .link true .established, .link false .poll, .link true .poll,
    .link false .closed, .link true (.negotiated stream), .link true .poll,
    .handlerEvent true ⟨true, stream⟩, .pollBehaviour]

def node : LiveNode Sample.types Bool where
  parse := fun _ => none
  dial := fun _ => none
  codec := markedCodec
  getBestTip :=
    { name := [103]
      version := 2
      payload := []
      decode := fun payload =>
        if payload = [0] then .ok (some (some ⟨(Sample.tip "b" "a" 2).block⟩))
        else .error "unexpected end of input" }
  surfaced := [⟨true, stream⟩]
  inTime := fun deadline => decide (3 < deadline)

theorem contract : SwarmContract log where
  links := by
    have hanswered : ∀ c, ∀ before ∈ (eventsOn c log).inits,
        before.countP LinkEvent.settles ≤ (Link.run c before).requests := by decide
    intro c
    refine ⟨?_, ?_, ?_, fun before hpre => hanswered c before ((List.mem_inits _ _).mpr hpre)⟩
    · cases c <;> simp [log, eventsOn, SwarmCall.event]
    · cases c <;> simp [log, eventsOn, SwarmCall.event]
    · cases c <;> simp [log, eventsOn, SwarmCall.event]
  delivered := by
    intro c before hpre
    rw [← List.mem_inits] at hpre
    cases c <;> fin_cases hpre <;> exact ⟨_, rfl⟩

end SampleNode

open SampleNode SampleWire SampleBlock in
/-- The tip of the node of devnet, within the default deadline. -/
theorem verify_from_exact_devnet :
    verifyFrom Sample.minaCore blockCodecs node ⟨"devnet", ()⟩ (.atNode "devnet") =
      .returned (.ok ⟨2, "a", "a", "ledger"⟩) := by
  have hahead : ResponseAhead markedCodec queryId (bytesOf ([handshake, reply 9] ++ reply 1 :: [handshake]))
      [0] := ResponseAhead.of_frames (by decide) rfl
  refine ((verify_from_exact Sample.minaCore blockCodecs ⟨"devnet", ()⟩ node log contract rfl).1 _ _).mpr
    ⟨(Sample.tip "b" "a" 2).block.header, ?_, rfl, rfl⟩
  refine ⟨(devnetChainId, devnetPeers), ⟨true, stream⟩, [], [0], ⟨(Sample.tip "b" "a" 2).block⟩, rfl,
    fun _ _ => ⟨rfl, rfl⟩, rfl, rfl, ?_, ?_, hahead, rfl, rfl⟩
  · exact List.mem_singleton_self _
  · simp [Writable, stream, streamOf]

end MinaVerify
