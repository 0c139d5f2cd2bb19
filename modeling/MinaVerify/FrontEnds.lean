import Mathlib.Data.List.TFAE
import MinaVerify.Foundations.JsonReading
import MinaVerify.Monitor.Live
import MinaVerify.Process.Environment
import MinaVerify.Server.Dispatch
import MinaVerify.Source

/-! # One block, several front ends

A precomputed block is checked by the sidecar, by the WebAssembly binding
(`crates/mina-verify-wasm/src/lib.rs`) and by `verify_from`; a gossiped block by the command line and the
live monitor, and the example `to_precomputed` turns the latter into the former. All of them are to say the
same of one block. -/
namespace MinaVerify
set_option autoImplicit false
open JsonText

variable {T : Types} {Conn : Type}

/-! ## The WebAssembly binding -/

namespace Wasm

def factsJson (core : Core T) (codecs : Codecs T) (vb : VerifiedBlock T) : Object :=
  object [("height", .number vb.height.toNat),
    ("stateHash", .string (core.stateHashToString vb.stateHash)),
    ("previousStateHash", .string (core.stateHashToString vb.previousStateHash)),
    ("stagedLedgerHash", .string (codecs.ledgerHashToString vb.stagedLedgerHash))]

def verifyPrecomputed (core : Core T) (codecs : Codecs T) (json : IndexJson T) (debug : String → String)
    (network precomputedJson : String) : Outcome (Except String String) :=
  match forNetworkOffline json network with
  | .error e => .returned (.error (e.display debug))
  | .ok verifier =>
    (verifier.verifyPrecomputedAndExtract core codecs precomputedJson).bind fun
      | .error e => .returned (.error e.display)
      | .ok vb => .returned (.ok (compact (factsJson core codecs vb)))

end Wasm

/-! ## What an answer says -/

/-- The texts of hashes, base58check, tell the hashes apart. -/
structure Legible (core : Core T) (codecs : Codecs T) : Prop where
  state : Function.Injective core.stateHashToString
  ledger : Function.Injective codecs.ledgerHashToString

section Answers
variable {core : Core T} {codecs : Codecs T}

theorem eq_of_texts (hlegible : Legible core codecs) {vb vb' : VerifiedBlock T}
    (hheight : vb.height.toNat = vb'.height.toNat)
    (hstate : core.stateHashToString vb.stateHash = core.stateHashToString vb'.stateHash)
    (hprevious : core.stateHashToString vb.previousStateHash = core.stateHashToString vb'.previousStateHash)
    (hledger : codecs.ledgerHashToString vb.stagedLedgerHash =
      codecs.ledgerHashToString vb'.stagedLedgerHash) : vb = vb' := by
  obtain ⟨height, stateHash, previousStateHash, stagedLedgerHash⟩ := vb
  simp only at hheight hstate hprevious hledger
  rw [UInt32.toNat_inj.mp hheight, hlegible.state hstate, hlegible.state hprevious,
    hlegible.ledger hledger]

/-- An object that holds the texts of a block, whatever the keys and the members before them, determines
the block. -/
theorem eq_of_object (hlegible : Legible core codecs) (before : List (String × Scalar))
    {height state previous ledger : String}
    (hnodup : (before.map Prod.fst ++ [height, state, previous, ledger]).Nodup)
    {vb vb' : VerifiedBlock T}
    (h : object (before ++ [(height, .number vb.height.toNat),
        (state, .string (core.stateHashToString vb.stateHash)),
        (previous, .string (core.stateHashToString vb.previousStateHash)),
        (ledger, .string (codecs.ledgerHashToString vb.stagedLedgerHash))]) =
      object (before ++ [(height, .number vb'.height.toNat),
        (state, .string (core.stateHashToString vb'.stateHash)),
        (previous, .string (core.stateHashToString vb'.previousStateHash)),
        (ledger, .string (codecs.ledgerHashToString vb'.stagedLedgerHash))])) : vb = vb' := by
  have hmembers := object_inj (by simp) (by simpa using hnodup) h
  rw [List.append_cancel_left_eq] at hmembers
  simp only [List.cons.injEq, Prod.mk.injEq, Scalar.number.injEq, Scalar.string.injEq, true_and,
    and_true] at hmembers
  obtain ⟨hheight, hstate, hprevious, hledger⟩ := hmembers
  exact eq_of_texts hlegible hheight hstate hprevious hledger

theorem factsJson_inj (hlegible : Legible core codecs) {vb vb' : VerifiedBlock T}
    (h : Wasm.factsJson core codecs vb = Wasm.factsJson core codecs vb') : vb = vb' :=
  eq_of_object hlegible [] (by decide) h

theorem verifiedJson_inj (hlegible : Legible core codecs) {vb vb' : VerifiedBlock T}
    (h : verifiedJson core codecs vb = verifiedJson core codecs vb') : vb = vb' :=
  eq_of_object hlegible [("valid", .bool true)] (by decide) h

theorem refusedJson_inj {error error' : String} (h : refusedJson error = refusedJson error') :
    error = error' := by
  rw [refusedJson, refusedJson] at h
  simpa using object_inj (by rfl) (by simp) h

theorem refusedJson_ne_verifiedJson (error : String) (vb : VerifiedBlock T) :
    refusedJson error ≠ verifiedJson core codecs vb := by
  intro h
  exact not_valid_refused error (h ▸ valid_verified vb)

end Answers

/-! ## Each front end, by the check it runs -/

section Each
variable {core : Core T} {codecs : Codecs T} {verifier : Verifier T} {text error : String}
  {vb : VerifiedBlock T}

section Binding
variable {json : IndexJson T} {debug : String → String} {network : String}

theorem wasm_eq (hverifier : forNetworkOffline json network = .ok verifier) :
    Wasm.verifyPrecomputed core codecs json debug network text =
      (verifier.verifyPrecomputedAndExtract core codecs text).bind fun
        | .error e => .returned (.error e.display)
        | .ok vb => .returned (.ok (compact (Wasm.factsJson core codecs vb))) := by
  rw [Wasm.verifyPrecomputed, hverifier]

theorem wasm_ok (hlegible : Legible core codecs)
    (hverifier : forNetworkOffline json network = .ok verifier) :
    Wasm.verifyPrecomputed core codecs json debug network text =
        .returned (.ok (compact (Wasm.factsJson core codecs vb))) ↔
      verifier.verifyPrecomputedAndExtract core codecs text = .returned (.ok vb) := by
  rw [wasm_eq hverifier, Outcome.bind_eq_returned]
  constructor
  · rintro ⟨r, hr, h⟩
    cases r with
    | error e => simp at h
    | ok vb' =>
      simp only [Outcome.returned.injEq, Except.ok.injEq] at h
      rw [hr, factsJson_inj hlegible (compact_injective h)]
  · intro h
    exact ⟨_, h, rfl⟩

theorem wasm_error (hverifier : forNetworkOffline json network = .ok verifier) :
    Wasm.verifyPrecomputed core codecs json debug network text = .returned (.error error) ↔
      ∃ e, verifier.verifyPrecomputedAndExtract core codecs text = .returned (.error e) ∧
        e.display = error := by
  rw [wasm_eq hverifier, Outcome.bind_eq_returned]
  constructor
  · rintro ⟨r, hr, h⟩
    cases r with
    | ok vb => simp at h
    | error e =>
      simp only [Outcome.returned.injEq, Except.error.injEq] at h
      exact ⟨e, hr, h⟩
  · rintro ⟨e, he, rfl⟩
    exact ⟨_, he, rfl⟩

theorem wasm_panics (hverifier : forNetworkOffline json network = .ok verifier) :
    (∃ message, Wasm.verifyPrecomputed core codecs json debug network text = .panicked message) ↔
      ∃ message, verifier.verifyPrecomputedAndExtract core codecs text = .panicked message := by
  apply exists_congr
  intro message
  rw [wasm_eq hverifier, Outcome.bind_eq_panicked, or_iff_left]
  rintro ⟨r, _, h⟩
  cases r <;> simp at h

theorem wasm_diverged (hverifier : forNetworkOffline json network = .ok verifier) :
    Wasm.verifyPrecomputed core codecs json debug network text = .diverged ↔
      verifier.verifyPrecomputedAndExtract core codecs text = .diverged := by
  rw [wasm_eq hverifier, Outcome.bind_eq_diverged, or_iff_left]
  rintro ⟨r, _, h⟩
  cases r <;> simp at h

end Binding

/-- The answer of the sidecar to a check that ends. -/
def sidecarAnswer (core : Core T) (codecs : Codecs T) : Except VerifierError (VerifiedBlock T) → ℕ × Object
  | .ok vb => (200, verifiedJson core codecs vb)
  | .error .proofInvalid => (200, refusedJson VerifierError.proofInvalid.display)
  | .error e => (400, refusedJson e.display)

theorem dispatch_of_returned {r : Except VerifierError (VerifiedBlock T)}
    (h : verifier.verifyPrecomputedAndExtract core codecs text = .returned r) :
    dispatch core codecs verifier .post "/verify" text = .returned (sidecarAnswer core codecs r) := by
  rw [dispatch_verify, verifyBody, h]
  cases r with
  | ok vb => rfl
  | error e => cases e <;> rfl

theorem dispatch_of_panicked {message : String}
    (h : verifier.verifyPrecomputedAndExtract core codecs text = .panicked message) :
    dispatch core codecs verifier .post "/verify" text =
      .returned (500, refusedJson "internal verifier error") := by
  rw [dispatch_verify, verifyBody, h]
  rfl

/-- The answer tells what the check returned. -/
theorem sidecarAnswer_cases (r : Except VerifierError (VerifiedBlock T)) :
    (∃ vb, r = .ok vb ∧ sidecarAnswer core codecs r = (200, verifiedJson core codecs vb)) ∨
      ∃ e status, r = .error e ∧ status < 500 ∧
        sidecarAnswer core codecs r = (status, refusedJson e.display) := by
  cases r with
  | ok vb => exact Or.inl ⟨vb, rfl, rfl⟩
  | error e =>
    right
    cases e with
    | proofInvalid => exact ⟨_, 200, rfl, by decide, rfl⟩
    | invalidIndexJson text => exact ⟨_, 400, rfl, by decide, rfl⟩
    | blockDecode text => exact ⟨_, 400, rfl, by decide, rfl⟩

theorem dispatch_ok (hlegible : Legible core codecs) :
    dispatch core codecs verifier .post "/verify" text = .returned (200, verifiedJson core codecs vb) ↔
      verifier.verifyPrecomputedAndExtract core codecs text = .returned (.ok vb) := by
  constructor
  · intro h
    cases hcheck : verifier.verifyPrecomputedAndExtract core codecs text with
    | diverged => simp [dispatch_eq_diverged.mpr ⟨rfl, rfl, hcheck⟩] at h
    | panicked message => simp [dispatch_of_panicked hcheck] at h
    | returned r =>
      rw [dispatch_of_returned hcheck, Outcome.returned.injEq] at h
      obtain ⟨vb', rfl, hanswer⟩ | ⟨e, status, rfl, _, hanswer⟩ := sidecarAnswer_cases r
      · rw [hanswer, Prod.mk.injEq] at h
        rw [verifiedJson_inj hlegible h.2]
      · rw [hanswer, Prod.mk.injEq] at h
        exact absurd h.2 (refusedJson_ne_verifiedJson _ _)
  · intro h
    rw [dispatch_of_returned h]
    rfl

theorem dispatch_error :
    (∃ status < 500, dispatch core codecs verifier .post "/verify" text =
        .returned (status, refusedJson error)) ↔
      ∃ e, verifier.verifyPrecomputedAndExtract core codecs text = .returned (.error e) ∧
        e.display = error := by
  constructor
  · rintro ⟨status, hstatus, h⟩
    cases hcheck : verifier.verifyPrecomputedAndExtract core codecs text with
    | diverged => simp [dispatch_eq_diverged.mpr ⟨rfl, rfl, hcheck⟩] at h
    | panicked message =>
      simp only [dispatch_of_panicked hcheck, Outcome.returned.injEq, Prod.mk.injEq] at h
      omega
    | returned r =>
      rw [dispatch_of_returned hcheck, Outcome.returned.injEq] at h
      obtain ⟨vb', rfl, hanswer⟩ | ⟨e, status', rfl, _, hanswer⟩ := sidecarAnswer_cases r
      · rw [hanswer, Prod.mk.injEq] at h
        exact absurd h.2.symm (refusedJson_ne_verifiedJson _ _)
      · rw [hanswer, Prod.mk.injEq] at h
        exact ⟨e, rfl, refusedJson_inj h.2⟩
  · rintro ⟨e, he, rfl⟩
    rw [dispatch_of_returned he]
    obtain ⟨vb', h, _⟩ | ⟨e', status, h, hstatus, hanswer⟩ := sidecarAnswer_cases (.error e)
    · nomatch h
    · rw [Except.error.injEq] at h
      rw [hanswer, ← h]
      exact ⟨status, hstatus, rfl⟩

theorem dispatch_panics :
    dispatch core codecs verifier .post "/verify" text =
        .returned (500, refusedJson "internal verifier error") ↔
      ∃ message, verifier.verifyPrecomputedAndExtract core codecs text = .panicked message := by
  constructor
  · intro h
    cases hcheck : verifier.verifyPrecomputedAndExtract core codecs text with
    | diverged => simp [dispatch_eq_diverged.mpr ⟨rfl, rfl, hcheck⟩] at h
    | panicked message => exact ⟨message, rfl⟩
    | returned r =>
      rw [dispatch_of_returned hcheck, Outcome.returned.injEq] at h
      obtain ⟨vb', rfl, hanswer⟩ | ⟨e, status, rfl, hstatus, hanswer⟩ := sidecarAnswer_cases r
      · rw [hanswer, Prod.mk.injEq] at h
        omega
      · rw [hanswer, Prod.mk.injEq] at h
        omega
  · rintro ⟨message, h⟩
    exact dispatch_of_panicked h

theorem dispatch_verify_diverged :
    dispatch core codecs verifier .post "/verify" text = .diverged ↔
      verifier.verifyPrecomputedAndExtract core codecs text = .diverged := by
  rw [dispatch_eq_diverged]
  simp

end Each

/-! ## Agreement -/

theorem tfae_of_iff {a b c p : Prop} (ha : a ↔ p) (hb : b ↔ p) (hc : c ↔ p) : [a, b, c].TFAE := by
  simp only [ha, hb, hc]
  simp

/-- **The front ends agree.** Under the embedded key of a network, the binding, the router of the sidecar and
`verify_from` accept the same texts, each with an answer that tells the facts of the block; they refuse the
same texts with the same error; and a check that panics or hangs does so in all three, where the router
answers for the panic. The texts are those that reach the router: `handle` gives it the first 32 MiB of a
longer body. -/
theorem front_ends_agree (core : Core T) (codecs : Codecs T) (hlegible : Legible core codecs)
    {json : IndexJson T} {network : String} {verifier : Verifier T}
    (hverifier : forNetworkOffline json network = .ok verifier) (debug : String → String)
    (node : LiveNode T Conn) (text : String) :
    (∀ vb, [Wasm.verifyPrecomputed core codecs json debug network text =
          .returned (.ok (compact (Wasm.factsJson core codecs vb))),
        dispatch core codecs verifier .post "/verify" text =
          .returned (200, verifiedJson core codecs vb),
        verifyFrom core codecs node verifier (.precomputed text) = .returned (.ok vb)].TFAE) ∧
    (∀ error, [Wasm.verifyPrecomputed core codecs json debug network text = .returned (.error error),
        ∃ status < 500, dispatch core codecs verifier .post "/verify" text =
          .returned (status, refusedJson error),
        ∃ e, verifyFrom core codecs node verifier (.precomputed text) = .returned (.error (.verifier e)) ∧
          e.display = error].TFAE) ∧
    [∃ message, Wasm.verifyPrecomputed core codecs json debug network text = .panicked message,
      dispatch core codecs verifier .post "/verify" text =
        .returned (500, refusedJson "internal verifier error"),
      ∃ message, verifyFrom core codecs node verifier (.precomputed text) = .panicked message].TFAE ∧
    [Wasm.verifyPrecomputed core codecs json debug network text = .diverged,
      dispatch core codecs verifier .post "/verify" text = .diverged,
      verifyFrom core codecs node verifier (.precomputed text) = .diverged].TFAE := by
  refine ⟨fun vb => ?_, fun error => ?_, ?_, ?_⟩
  · exact tfae_of_iff (wasm_ok hlegible hverifier) (dispatch_ok hlegible) fromVerifier_eq_ok
  · exact tfae_of_iff (wasm_error hverifier) dispatch_error
      (exists_congr fun _ => and_congr_left' fromVerifier_eq_error)
  · exact tfae_of_iff (wasm_panics hverifier) dispatch_panics
      (exists_congr fun _ => fromVerifier_eq_panicked)
  · exact tfae_of_iff (wasm_diverged hverifier) dispatch_verify_diverged fromVerifier_eq_diverged

/-! ## From a gossiped block to a precomputed one -/

/-- The writers of `serde_json`, `binprot` and `base64` for the values that `to_precomputed` writes, with the
`Debug` texts of their errors: what they write is read back. -/
structure Writers (codecs : Codecs T) where
  /-- `serde_json::to_value` for the protocol state. -/
  protocolState : ProtocolState T → Except String codecs.Value
  /-- `binprot_write` for the proof. -/
  proof : T.Proof → Except String (List UInt8)
  /-- URL-safe base64. -/
  base64 : List UInt8 → String
  /-- A string value, and an object value as `json!` makes it. -/
  string : String → codecs.Value
  object : List (String × codecs.Value) → codecs.Value
  /-- `serde_json::to_string`. -/
  toString : codecs.Value → Except String String
  decodeError : DecodeError → String
  read_protocolState : ∀ state value, protocolState state = .ok value →
    codecs.protocolState value = .returned (.ok state)
  read_proof : ∀ p bytes, proof p = .ok bytes → codecs.proof bytes = .returned (.ok p)
  read_base64 : ∀ bytes, codecs.base64 (base64 bytes) = .returned (.ok bytes)
  read_string : ∀ s, codecs.string (string s) = .returned (.ok s)
  get_object : ∀ members name, (members.map Prod.fst).Nodup →
    codecs.get (object members) name = members.lookup name
  read_toString : ∀ value text, toString value = .ok text → codecs.fromStr text = .returned (.ok value)

/-- `Result::expect`, with the `Debug` text of the error. -/
def expectOk {α β : Type} (message : String) (x : Except String α) (f : α → Outcome β) : Outcome β :=
  match x with
  | .ok a => f a
  | .error e => .panicked (message ++ ": " ++ e)

theorem expectOk_eq_returned {α β : Type} {message : String} {x : Except String α} {f : α → Outcome β}
    {b : β} : expectOk message x f = .returned b ↔ ∃ a, x = .ok a ∧ f a = .returned b := by
  cases x with
  | ok a => simp [expectOk]
  | error e => simp [expectOk]

/-- `main` of the example `to_precomputed`, on the bytes of a captured block. -/
def toPrecomputed (codec : GossipCodec T) {codecs : Codecs T} (writers : Writers codecs)
    (payload : List UInt8) : Outcome String :=
  (blockFromGossipPayload codec payload).bind fun
    | .error e => .panicked ("decode gossip block: " ++ writers.decodeError e)
    | .ok block =>
      expectOk "serialize protocol_state" (writers.protocolState block.header.protocolState) fun state =>
      expectOk "binprot proof" (writers.proof block.header.protocolStateProof) fun proofBytes =>
      let json := writers.object [("data", writers.object
        [("protocol_state", state), ("protocol_state_proof", writers.string (writers.base64 proofBytes))])]
      expectOk "serialize precomputed json" (writers.toString json) fun text => .returned text

/-- Of a header, the check of the proof and the state hash read the protocol state and the proof only. -/
structure ReadsState (core : Core T) : Prop where
  proof : ∀ h h' index, h.protocolState = h'.protocolState → h.protocolStateProof = h'.protocolStateProof →
    core.verifyBlockProof h index = core.verifyBlockProof h' index
  hash : ∀ h h', h.protocolState = h'.protocolState → core.tryHash h = core.tryHash h'

/-- The facts of a tip, as an indexer stores them. -/
def VerifiedTip.facts (tip : VerifiedTip T) : VerifiedBlock T where
  height := tip.height
  stateHash := tip.stateHash
  previousStateHash := tip.previousStateHash
  stagedLedgerHash := tip.block.header.protocolState.body.blockchainState.stagedLedgerHash

section Convert
variable {core : Core T} {codecs : Codecs T} {codec : GossipCodec T} {writers : Writers codecs}
  {verifier : Verifier T} {payload : List UInt8} {text : String}

theorem headerFromPrecomputed_toPrecomputed (h : toPrecomputed codec writers payload = .returned text) :
    ∃ block header, blockFromGossipPayload codec payload = .returned (.ok block) ∧
      headerFromPrecomputed codecs text = .returned (.ok header) ∧
      header.protocolState = block.header.protocolState ∧
      header.protocolStateProof = block.header.protocolStateProof := by
  obtain ⟨r, hblock, h⟩ := Outcome.bind_eq_returned.mp h
  cases r with
  | error e => simp at h
  | ok block =>
    obtain ⟨state, hstate, h⟩ := expectOk_eq_returned.mp h
    obtain ⟨bytes, hbytes, h⟩ := expectOk_eq_returned.mp h
    obtain ⟨written, hwritten, h⟩ := expectOk_eq_returned.mp h
    obtain rfl := Outcome.returned.inj h
    have hdata : codecs.get (writers.object [("data", writers.object [("protocol_state", state),
        ("protocol_state_proof", writers.string (writers.base64 bytes))])]) "data" = _ :=
      writers.get_object _ _ (by simp)
    have hstateField : codecs.get (writers.object [("protocol_state", state),
        ("protocol_state_proof", writers.string (writers.base64 bytes))]) "protocol_state" = some state :=
      writers.get_object _ _ (by simp)
    have hproofField : codecs.get (writers.object [("protocol_state", state),
        ("protocol_state_proof", writers.string (writers.base64 bytes))]) "protocol_state_proof" =
        some (writers.string (writers.base64 bytes)) :=
      writers.get_object _ _ (by simp)
    rw [List.lookup_cons_self] at hdata
    refine ⟨block, { block.header with
      deltaBlockChainProof := (block.header.protocolState.previousStateHash, [])
      currentProtocolVersion := ⟨0, 0, 0⟩
      proposedProtocolVersionOpt := none }, hblock, ?_, rfl, rfl⟩
    simp [headerFromPrecomputed, invalid, Outcome.bindOk, writers.read_toString _ _ hwritten, hdata,
      hstateField, hproofField, writers.read_protocolState _ _ hstate, writers.read_string,
      writers.read_base64, writers.read_proof _ _ hbytes]

theorem verifyAndExtract_congr (hcore : ReadsState core) {h h' : BlockHeader T}
    (hstate : h.protocolState = h'.protocolState) (hproof : h.protocolStateProof = h'.protocolStateProof) :
    verifier.verifyAndExtract core h = verifier.verifyAndExtract core h' := by
  rw [Verifier.verifyAndExtract, Verifier.verifyAndExtract, Verifier.verifyHeader, Verifier.verifyHeader,
    hcore.proof h h' verifier.index hstate hproof]
  rw [VerifiedBlock.fromHeader, VerifiedBlock.fromHeader, hcore.hash h h' hstate, hstate]

/-- The converted text is checked as the block of the payload is. -/
theorem verifyPrecomputedAndExtract_toPrecomputed (verifier : Verifier T) (hcore : ReadsState core)
    (h : toPrecomputed codec writers payload = .returned text) :
    ∃ block, blockFromGossipPayload codec payload = .returned (.ok block) ∧
      verifier.verifyPrecomputedAndExtract core codecs text =
        verifier.verifyAndExtract core block.header := by
  obtain ⟨block, header, hblock, hheader, hstate, hproof⟩ := headerFromPrecomputed_toPrecomputed h
  refine ⟨block, hblock, ?_⟩
  rw [Verifier.verifyPrecomputedAndExtract, hheader]
  exact verifyAndExtract_congr hcore hstate hproof

/-- The two ways to check a block, for its facts and for a tip. -/
theorem verifyAndExtract_eq_ok_iff {block : Block T}
    (hblock : blockFromGossipPayload codec payload = .returned (.ok block)) {vb : VerifiedBlock T} :
    verifier.verifyAndExtract core block.header = .returned (.ok vb) ↔
      ∃ tip, verifier.tipOf core codec payload = some tip ∧ tip.facts = vb := by
  rw [Verifier.verifyAndExtract_ok, Verifier.fromHeader_ok]
  constructor
  · rintro ⟨hverify, stateHash, hhash, rfl⟩
    exact ⟨⟨block, stateHash⟩, Verifier.tipOf_eq_some.mpr ⟨hblock, hverify, hhash⟩, rfl⟩
  · rintro ⟨tip, htip, rfl⟩
    obtain ⟨hblock', hverify, hhash⟩ := Verifier.tipOf_eq_some.mp htip
    rw [hblock, Outcome.returned.injEq, Except.ok.injEq] at hblock'
    subst hblock'
    exact ⟨hverify, tip.stateHash, hhash, rfl⟩

theorem verifyAndExtract_eq_rejected {block : Block T}
    (hblock : blockFromGossipPayload codec payload = .returned (.ok block)) :
    verifier.verifyAndExtract core block.header = .returned (.error .proofInvalid) ↔
      verifier.isRejected core codec payload = true := by
  have hcheck : verifier.checkPayload core codec payload =
      (verifier.verifyTip core block).bind fun r => .returned (.ok r) := by
    rw [Verifier.checkPayload, hblock]
    rfl
  rw [Verifier.isRejected, hcheck, Verifier.verifyAndExtract, Verifier.verifyTip, Verifier.verifyBlock]
  cases verifier.verifyHeader core block.header with
  | diverged => simp
  | panicked message => simp
  | returned ok =>
    cases ok with
    | false => simp
    | true =>
      simp only [VerifiedBlock.fromHeader, Outcome.bind_returned, if_true]
      cases core.tryHash block.header with
      | ok stateHash => simp
      | error e => simp

end Convert

/-- **A converted block is the block.** Where `to_precomputed` prints a text for a payload, the front ends for
precomputed blocks say of the text what the command line and the live monitor say of the payload: the text
has facts exactly when the payload has a tip, and they are the tip's; it is refused for its proof exactly
when the payload is rejected; and it opens the gate of the sidecar exactly when the payload has a tip. -/
theorem to_precomputed_faithful (core : Core T) (hcore : ReadsState core) (codecs : Codecs T)
    (codec : GossipCodec T) (writers : Writers codecs) (verifier : Verifier T) (node : LiveNode T Conn)
    {payload : List UInt8} {text : String} (h : toPrecomputed codec writers payload = .returned text) :
    (∀ vb, verifyFrom core codecs node verifier (.precomputed text) = .returned (.ok vb) ↔
      ∃ tip, verifier.tipOf core codec payload = some tip ∧ tip.facts = vb) ∧
    (verifyFrom core codecs node verifier (.precomputed text) =
        .returned (.error (.verifier .proofInvalid)) ↔
      verifier.isRejected core codec payload = true) ∧
    ((∃ status answer, dispatch core codecs verifier .post "/verify" text = .returned (status, answer) ∧
        Contains validPattern (compact answer)) ↔
      ∃ tip, verifier.tipOf core codec payload = some tip) := by
  obtain ⟨block, hblock, hcheck⟩ := verifyPrecomputedAndExtract_toPrecomputed verifier hcore h
  have hfacts : ∀ vb, verifier.verifyPrecomputedAndExtract core codecs text = .returned (.ok vb) ↔
      ∃ tip, verifier.tipOf core codec payload = some tip ∧ tip.facts = vb := by
    intro vb
    rw [hcheck, verifyAndExtract_eq_ok_iff hblock]
  refine ⟨fun vb => ?_, ?_, ?_⟩
  · rw [verifyFrom, fromVerifier_eq_ok, hfacts]
  · rw [verifyFrom, fromVerifier_eq_error, hcheck, verifyAndExtract_eq_rejected hblock]
  · constructor
    · rintro ⟨status, answer, hanswer, hvalid⟩
      obtain ⟨_, _, vb, hvb⟩ := dispatch_of_valid hanswer hvalid
      obtain ⟨tip, htip, _⟩ := (hfacts vb).mp hvb
      exact ⟨tip, htip⟩
    · rintro ⟨tip, htip⟩
      have hvb := (hfacts tip.facts).mpr ⟨tip, htip, rfl⟩
      exact ⟨_, _, dispatch_of_returned hvb, valid_verified tip.facts⟩

/-! ## A captured block as JSON -/

namespace SampleJson

/-- The fields of a protocol state. -/
abbrev Fields := String × String × UInt32

def fields (state : ProtocolState Sample.types) : Fields :=
  (state.previousStateHash, state.body.blockchainState.stagedLedgerHash,
    state.body.consensusState.blockchainLength)

def ofFields (f : Fields) : ProtocolState Sample.types := ⟨f.1, ⟨⟨f.2.1⟩, ⟨f.2.2, ()⟩⟩⟩

inductive Value where
  | state (fields : Fields)
  | string (s : String)
  | object (members : List (String × Value))

/-- The block at height 1. -/
def first : Value :=
  .object [("data", .object [("protocol_state", .state ("o", "ledger", 1)),
    ("protocol_state_proof", .string "")])]

/-- The printer knows the one block. -/
def print : Value → Except String String
  | .object [(data, .object [(name, .state fields), (name', .string proof)])] =>
    if data = "data" ∧ name = "protocol_state" ∧ name' = "protocol_state_proof" ∧
        fields = ("o", "ledger", 1) ∧ proof = "" then .ok "block"
    else .error "recursion limit exceeded"
  | _ => .error "recursion limit exceeded"

theorem print_eq_ok {value : Value} {text : String} (h : print value = .ok text) :
    value = first ∧ text = "block" := by
  unfold print at h
  split at h
  · split_ifs at h with hfirst
    obtain ⟨rfl, rfl, rfl, rfl, rfl⟩ := hfirst
    exact ⟨rfl, (Except.ok.inj h).symm⟩
  · simp at h

def codecs : Codecs Sample.types where
  Value := Value
  fromStr := fun text => .returned (if text = "block" then .ok first else .error "expected value")
  get := fun v name =>
    match v with
    | .object members => members.lookup name
    | _ => none
  protocolState := fun v => .returned (match v with
    | .state fields => .ok (ofFields fields)
    | _ => .error "invalid type")
  string := fun v => .returned (match v with
    | .string s => .ok s
    | _ => .error "invalid type")
  base64 := fun text => .returned (.ok (text.toList.map fun c => UInt8.ofNat c.toNat))
  proof := fun _ => .returned (.ok ())
  ledgerHashToString := id

def writers : Writers codecs where
  protocolState := fun state => .ok (.state (fields state))
  proof := fun _ => .ok []
  base64 := fun bytes => String.ofList (bytes.map fun b => Char.ofNat b.toNat)
  string := .string
  object := .object
  toString := print
  decodeError := DecodeError.display
  read_protocolState := by
    rintro state value h
    obtain rfl := Except.ok.inj h
    rfl
  read_proof := fun _ _ _ => rfl
  read_base64 := by
    intro bytes
    have hchar : ∀ n < 256, (Char.ofNat n).toNat = n := by decide +kernel
    have hbyte : ∀ b : UInt8, UInt8.ofNat (Char.ofNat b.toNat).toNat = b := by
      intro b
      rw [hchar b.toNat b.toNat_lt, UInt8.ofNat_toNat]
    simp [codecs, Function.comp_def, hbyte]
  read_string := fun _ => rfl
  get_object := fun _ _ _ => rfl
  read_toString := by
    intro value text h
    obtain ⟨rfl, rfl⟩ := print_eq_ok h
    rfl

theorem legible : Legible SampleGossip.core codecs where
  state := fun _ _ h => h
  ledger := fun _ _ h => h

theorem readsState : ReadsState SampleGossip.core where
  proof := by
    intro h h' index hstate _
    simp [SampleGossip.core, hstate]
  hash := by
    intro h h' hstate
    simp [SampleGossip.core, hstate]

end SampleJson

open SampleJson SampleGossip in
/-- The binding answers for the converted block with the facts of its tip. -/
theorem front_ends_agree_first_block :
    Wasm.verifyPrecomputed core codecs ⟨fun _ => .ok (), "", ""⟩ id "devnet" "block" =
      .returned (.ok (compact (Wasm.factsJson core codecs ⟨1, "a", "o", "ledger"⟩))) := by
  have hverifier : forNetworkOffline (⟨fun _ => .ok (), "", ""⟩ : IndexJson Sample.types) "devnet" =
      .ok verifier := rfl
  have hagree := front_ends_agree core codecs legible hverifier id SampleNode.node "block"
  exact ((hagree.1 ⟨1, "a", "o", "ledger"⟩).out 2 0).mp rfl

open SampleJson SampleGossip in
/-- The first captured block, printed as JSON, opens the gate of the sidecar. -/
theorem to_precomputed_faithful_first_block :
    toPrecomputed codec writers (payload [0, 1]) = .returned "block" ∧
      ∃ status answer, dispatch core codecs verifier .post "/verify" "block" =
          .returned (status, answer) ∧ Contains validPattern (compact answer) := by
  have hconvert : toPrecomputed codec writers (payload [0, 1]) = .returned "block" := rfl
  have hfaithful := to_precomputed_faithful core readsState codecs codec writers verifier SampleNode.node
    hconvert
  exact ⟨hconvert, hfaithful.2.2.mpr ⟨⟨block 1, "a"⟩, rfl⟩⟩

end MinaVerify
