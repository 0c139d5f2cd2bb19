import MinaVerify.ForkChoice
import MinaVerify.Foundations.Utf8
import MinaVerify.Server.Dispatch

/-! # Bodies past the cap

`handle` of `crates/mina-verify-server/src/lib.rs` reads at most `MAX_BODY_BYTES` bytes of a body and
hands them to the router as text. The documentation of the cap says that a longer body is cut short and
so does not decode. It is cut short, but what is left decodes whenever it is a block with nothing but
whitespace behind it; then the answer is that of the block, whatever came after the cap. -/
namespace MinaVerify
set_option autoImplicit false
open JsonText Utf8

variable {T : Types}

/-! ## One request -/

def maxBodyBytes : ℕ := 32 * 1024 * 1024

/-- What comes after the bytes of a body: its end, an error of the reader, or nothing for ever, from a client
that keeps the connection open and sends no more. -/
inductive BodyEnd where
  | complete
  | failed (e : String)
  | stalled
  deriving DecidableEq, Repr

structure HttpBody where
  bytes : List UInt8
  ending : BodyEnd
  deriving DecidableEq

/-- `take(limit)` and `read_to_end`: past the limit the reader is not asked again. -/
def HttpBody.readToEnd (limit : ℕ) (body : HttpBody) : Outcome (Except String (List UInt8)) :=
  if limit ≤ body.bytes.length then .returned (.ok (body.bytes.take limit))
  else
    match body.ending with
    | .complete => .returned (.ok body.bytes)
    | .failed e => .returned (.error e)
    | .stalled => .diverged

structure HttpRequest where
  method : Method
  url : String
  body : HttpBody
  deriving DecidableEq

/-- The path of a URL, up to its query. -/
def HttpRequest.path (req : HttpRequest) : String :=
  String.ofList (req.url.toList.takeWhile fun c => c ≠ '?')

structure HttpResponse where
  status : ℕ
  header : String × String
  text : String

def respond (status : ℕ) (body : Object) : HttpResponse :=
  ⟨status, ("Content-Type", "application/json"), compact body⟩

/-- What `handle` answers; a response that cannot be sent is only logged. -/
def handle (core : Core T) (codecs : Codecs T) (verifier : Verifier T) (req : HttpRequest) :
    Outcome HttpResponse :=
  (req.body.readToEnd maxBodyBytes).bind fun
    | .error e => .returned (respond 400 (refusedJson ("reading body: " ++ e)))
    | .ok bytes =>
      (dispatch core codecs verifier req.method req.path (fromUtf8Lossy bytes)).bind fun r =>
        .returned (respond r.1 r.2)

/-! ## What the router sees of a long body -/

/-- The text of a body up to the cap. -/
def HttpBody.cut (body : HttpBody) : String := fromUtf8Lossy (body.bytes.take maxBodyBytes)

section Long
variable {core : Core T} {codecs : Codecs T} {verifier : Verifier T} {req : HttpRequest}

theorem handle_of_long (hlong : maxBodyBytes < req.body.bytes.length) :
    handle core codecs verifier req =
      (dispatch core codecs verifier req.method req.path req.body.cut).bind fun r =>
        .returned (respond r.1 r.2) := by
  have hread : req.body.readToEnd maxBodyBytes = .returned (.ok (req.body.bytes.take maxBodyBytes)) :=
    if_pos hlong.le
  rw [handle, hread]
  rfl

theorem Accepts.handle_of_long {header : BlockHeader T} {stateHash : T.StateHash}
    (h : Accepts core codecs verifier req.method req.path req.body.cut header stateHash)
    (hlong : maxBodyBytes < req.body.bytes.length) :
    ∃ vb, handle core codecs verifier req = .returned (respond 200 (verifiedJson core codecs vb)) := by
  rw [MinaVerify.handle_of_long hlong, h.dispatch_eq, Outcome.bind_returned]
  exact ⟨_, rfl⟩

/-- The answer the documentation of the cap promises. -/
def Refused400 (core : Core T) (codecs : Codecs T) (verifier : Verifier T) (req : HttpRequest) :
    Prop :=
  ∃ response, handle core codecs verifier req = .returned response ∧ response.status = 400 ∧
    ¬ Contains "\"valid\":true" response.text

theorem refused400_iff (hmethod : req.method = .post) (hpath : req.path = "/verify")
    (hlong : maxBodyBytes < req.body.bytes.length) :
    Refused400 core codecs verifier req ↔ verifier.Undecodable core codecs req.body.cut := by
  unfold Refused400
  rw [handle_of_long hlong, hmethod, hpath, Verifier.undecodable_iff]
  constructor
  · intro h
    obtain ⟨response, h, hstatus, _⟩ := h
    obtain ⟨⟨status, json⟩, hdispatch, h⟩ := Outcome.bind_eq_returned.mp h
    rw [Outcome.returned.injEq] at h
    rw [← h] at hstatus
    have h400 : status = 400 := hstatus
    rw [h400] at hdispatch
    obtain ⟨e, hproof, herror, _⟩ := dispatch_refused.mp hdispatch
    exact ⟨e, hproof, herror⟩
  · intro h
    obtain ⟨e, hproof, herror⟩ := h
    have hdispatch := dispatch_refused.mpr ⟨e, hproof, herror, rfl⟩
    refine ⟨respond 400 (refusedJson e.display), ?_, rfl, not_valid_refused e.display⟩
    rw [hdispatch, Outcome.bind_returned]

end Long

/-! ## JSON with whitespace around it -/

/-- The text is one JSON value with optional whitespace around it; `json` relates the text of a value
to the value. -/
def Document {V : Type} (json : String → V → Prop) (text doc : String) (v : V) : Prop :=
  (∃ pre post, text.toList = pre ++ doc.toList ++ post ∧ (∀ c ∈ pre, isSpace c = true) ∧
    ∀ c ∈ post, isSpace c = true) ∧ json doc v

/-- `serde_json::from_str` returns on every text, and accepts exactly one JSON value with optional
whitespace around it. -/
structure ReadsJson (codecs : Codecs T) (json : String → codecs.Value → Prop) : Prop where
  returns : ∀ text, ∃ r, codecs.fromStr text = .returned r
  accepts : ∀ text v, codecs.fromStr text = .returned (.ok v) ↔ ∃ doc, Document json text doc v

section Json
variable {core : Core T} {codecs : Codecs T} {verifier : Verifier T}
  {json : String → codecs.Value → Prop}

theorem Document.undecodable_congr (hjson : ReadsJson codecs json) {text doc : String}
    {v : codecs.Value} (h : Document json text doc v) :
    verifier.Undecodable core codecs text ↔ verifier.Undecodable core codecs doc := by
  have hself : Document json doc doc v := ⟨⟨[], [], by simp, by simp, by simp⟩, h.2⟩
  have htext := (hjson.accepts text v).mpr ⟨doc, h⟩
  have hdoc := (hjson.accepts doc v).mpr ⟨doc, hself⟩
  unfold Verifier.Undecodable
  rw [headerFromPrecomputed_congr codecs (htext.trans hdoc.symm)]

theorem undecodable_iff_documents (hjson : ReadsJson codecs json) (text : String) :
    verifier.Undecodable core codecs text ↔
      ∀ doc v, Document json text doc v → verifier.Undecodable core codecs doc := by
  constructor
  · intro h doc v hdoc
    exact (hdoc.undecodable_congr hjson).mp h
  · intro h
    obtain ⟨r, hr⟩ := hjson.returns text
    cases r with
    | error e =>
      -- not JSON: the first decoder fails
      refine Or.inl ⟨.invalidIndexJson e, ?_⟩
      unfold headerFromPrecomputed
      rw [hr]
      rfl
    | ok v =>
      obtain ⟨doc, hdoc⟩ := (hjson.accepts text v).mp hr
      exact (hdoc.undecodable_congr hjson).mpr (h doc v hdoc)

end Json

/-- **When a body past the cap is refused.** Exactly when the text up to the cap is not one JSON value
with whitespace around it that decodes as a block. -/
theorem oversized_refused_iff (core : Core T) (codecs : Codecs T) (verifier : Verifier T)
    {json : String → codecs.Value → Prop} (hjson : ReadsJson codecs json) {req : HttpRequest}
    (hmethod : req.method = .post) (hpath : req.path = "/verify")
    (hlong : maxBodyBytes < req.body.bytes.length) :
    Refused400 core codecs verifier req ↔
      ∀ doc v, Document json req.body.cut doc v → verifier.Undecodable core codecs doc := by
  rw [refused400_iff hmethod hpath hlong, undecodable_iff_documents hjson]

/-! ## A block and blanks -/

namespace SampleBlock

/-- The values in the text of a block. -/
inductive Value where
  | block
  | protocolState
  | proof
  deriving DecidableEq, Repr

def blockText : String :=
  "\x7b\"protocol_state\":\x7b\"previous_state_hash\":\"g\"\x7d,\"protocol_state_proof\":\"\"\x7d"

def BlockJson (doc : String) (v : Value) : Prop := doc = blockText ∧ v = .block

/-- Decoders that know one block. -/
abbrev blockCodecs : Codecs Sample.types where
  Value := Value
  fromStr := fun text => .returned
    (if trim text.toList = blockText.toList then .ok .block
      else .error "expected value at line 1 column 1")
  get := fun v name =>
    if v = .block ∧ name = "protocol_state" then some .protocolState
    else if v = .block ∧ name = "protocol_state_proof" then some .proof
    else none
  protocolState := fun v => .returned
    (if v = .protocolState then .ok ⟨"g", ⟨⟨"ledger"⟩, ⟨2, ()⟩⟩⟩
      else .error "invalid type")
  string := fun v => .returned (if v = .proof then .ok "" else .error "invalid type")
  base64 := fun text => .returned (if text = "" then .ok [] else .error "invalid byte")
  proof := fun bytes => .returned (if bytes = [] then .ok () else .error "trailing bytes")
  ledgerHashToString := id

theorem blockText_trimmed : blockText.toList ≠ [] ∧
    blockText.toList.dropWhile isSpace = blockText.toList ∧
    blockText.toList.reverse.dropWhile isSpace = blockText.toList.reverse := by
  decide +kernel

theorem length_blockText : (encode blockText).length = 72 := by decide +kernel

theorem fromStr_ok (text : String) (v : Value) :
    blockCodecs.fromStr text = .returned (.ok v) ↔ trim text.toList = blockText.toList ∧ v = .block := by
  simp only [blockCodecs, Outcome.returned.injEq]
  split_ifs with htrim
  · simp [htrim, eq_comm]
  · simp [htrim]

theorem readsJson : ReadsJson blockCodecs BlockJson where
  returns := fun _ => ⟨_, rfl⟩
  accepts := by
    intro text v
    have htrim : trim text.toList = blockText.toList ↔ _ :=
      trim_eq_iff blockText_trimmed.1 blockText_trimmed.2.1 blockText_trimmed.2.2
    rw [fromStr_ok, htrim]
    constructor
    · intro h
      exact ⟨blockText, h.1, rfl, h.2⟩
    · intro h
      obtain ⟨_, hspaces, rfl, hv⟩ := h
      exact ⟨hspaces, hv⟩

theorem exists_header {text : String} (h : blockCodecs.fromStr text = .returned (.ok .block)) :
    ∃ header, headerFromPrecomputed blockCodecs text = .returned (.ok header) := by
  unfold headerFromPrecomputed
  rw [h]
  exact ⟨_, rfl⟩

def verifier : Verifier Sample.types := ⟨"devnet", ()⟩

/-- The block, and blanks to past the cap. -/
def padded : HttpRequest :=
  ⟨.post, "/verify", ⟨encode blockText ++ List.replicate maxBodyBytes 32, .complete⟩⟩

/-- Nothing but blanks. -/
def blank : HttpRequest := ⟨.post, "/verify?pretty", ⟨List.replicate (maxBodyBytes + 1) 32, .complete⟩⟩

theorem cut_padded :
    ∃ n, padded.body.cut = blockText ++ String.ofList (List.replicate n ' ') := by
  have hfits : (encode blockText).length ≤ maxBodyBytes := by
    rw [length_blockText, maxBodyBytes]
    omega
  refine ⟨maxBodyBytes - (encode blockText).length, ?_⟩
  rw [HttpBody.cut, padded, List.take_append, List.take_of_length_le hfits, List.take_replicate,
    Nat.min_eq_left (Nat.sub_le _ _), ← encode_spaces, fromUtf8Lossy_encode]

theorem document_padded : Document BlockJson padded.body.cut blockText .block := by
  obtain ⟨n, hcut⟩ := cut_padded
  refine ⟨⟨[], List.replicate n ' ', by simp [hcut], by simp, ?_⟩, rfl, rfl⟩
  intro c hc
  rw [List.eq_of_mem_replicate hc]
  rfl

theorem cut_blank : blank.body.cut = String.ofList (List.replicate maxBodyBytes ' ') := by
  have hspaces := encode_spaces "" maxBodyBytes
  have hempty : encode "" = [] := by decide
  rw [hempty, List.nil_append, String.empty_append] at hspaces
  rw [HttpBody.cut, blank, List.take_replicate, Nat.min_eq_left (Nat.le_succ _), ← hspaces,
    fromUtf8Lossy_encode]

end SampleBlock

open SampleBlock in
/-- A block followed by blanks to past the cap is accepted. -/
theorem not_refused_padded :
    maxBodyBytes < padded.body.bytes.length ∧ padded.method = .post ∧ padded.path = "/verify" ∧
      ReadsJson blockCodecs BlockJson ∧ ¬ Refused400 Sample.minaCore blockCodecs verifier padded ∧
      ∃ response, handle Sample.minaCore blockCodecs verifier padded = .returned response ∧
        response.status = 200 ∧ Contains "\"valid\":true" response.text := by
  have hlong : maxBodyBytes < padded.body.bytes.length := by
    rw [padded, List.length_append, List.length_replicate, length_blockText]
    omega
  have hpath : padded.path = "/verify" := by decide +kernel
  obtain ⟨header, hheader⟩ :=
    exists_header ((readsJson.accepts _ _).mpr ⟨blockText, document_padded⟩)
  have haccepts : Accepts Sample.minaCore blockCodecs verifier padded.method "/verify"
      padded.body.cut header header.protocolState.previousStateHash :=
    ⟨rfl, rfl, hheader, rfl, rfl⟩
  rw [← hpath] at haccepts
  obtain ⟨vb, hanswer⟩ := haccepts.handle_of_long hlong
  refine ⟨hlong, rfl, hpath, readsJson, ?_, _, hanswer, rfl, valid_verified vb⟩
  intro hrefused
  obtain ⟨response, hresponse, hstatus, _⟩ := hrefused
  rw [hanswer, Outcome.returned.injEq] at hresponse
  rw [← hresponse] at hstatus
  simp [respond] at hstatus

open SampleBlock in
theorem oversized_refused_blank : Refused400 Sample.minaCore blockCodecs verifier blank := by
  have hlong : maxBodyBytes < blank.body.bytes.length := by
    rw [blank, List.length_replicate]
    omega
  have hpath : blank.path = "/verify" := by decide +kernel
  rw [oversized_refused_iff Sample.minaCore blockCodecs verifier readsJson rfl hpath hlong]
  intro doc v h
  obtain ⟨⟨pre, post, hcut, _, _⟩, rfl, _⟩ := h
  have hbrace : '\x7b' ∈ blank.body.cut.toList := by
    have hmem : '\x7b' ∈ blockText.toList := by decide +kernel
    rw [hcut]
    simp [hmem]
  rw [cut_blank, String.toList_ofList] at hbrace
  exact absurd (List.eq_of_mem_replicate hbrace) (by decide)

end MinaVerify
