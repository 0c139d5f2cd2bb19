import MinaVerify.Foundations.JsonText
import MinaVerify.Server.Precomputed

/-! # The verify sidecar

`crates/mina-verify-server/src/lib.rs`: the request router and the answer to `POST /verify`. Its
consumer, `deploy/verify-block.sh`, decides by searching the text of the answer for `"valid":true`;
the error texts in the answers come from untrusted input. -/
namespace MinaVerify
set_option autoImplicit false
open JsonText

variable {T : Types}

/-- `tiny_http::Method`. -/
inductive Method where
  | get
  | head
  | post
  | put
  | delete
  | connect
  | options
  | trace
  | patch
  | nonStandard (name : String)
  deriving DecidableEq, Repr

section Router
variable (core : Core T) (codecs : Codecs T) (verifier : Verifier T)

def verifiedJson (vb : VerifiedBlock T) : Object :=
  object [("valid", .bool true), ("height", .number vb.height.toNat),
    ("state_hash", .string (core.stateHashToString vb.stateHash)),
    ("previous_state_hash", .string (core.stateHashToString vb.previousStateHash)),
    ("staged_ledger_hash", .string (codecs.ledgerHashToString vb.stagedLedgerHash))]

def refusedJson (error : String) : Object :=
  object [("valid", .bool false), ("error", .string error)]

def verifyBody (body : String) : Outcome (ℕ × Object) :=
  (verifier.verifyPrecomputedAndExtract core codecs body).bind fun
    | .ok vb => .returned (200, verifiedJson core codecs vb)
    | .error .proofInvalid => .returned (200, refusedJson "block proof did not verify")
    | .error e => .returned (400, refusedJson e.display)

/-- The request router; a panic while verifying fails the one request. -/
def dispatch (method : Method) (path body : String) : Outcome (ℕ × Object) :=
  if method = .get ∧ path = "/health" then
    .returned (200, object [("status", .string "ok"), ("network", .string verifier.network)])
  else if method = .post ∧ path = "/verify" then
    (verifyBody core codecs verifier body).catchUnwind.bind fun guarded =>
      .returned (guarded.getD (500, refusedJson "internal verifier error"))
  else .returned (404, object [("error", .string "not found; use GET /health or POST /verify")])

end Router

/-! ## The gate -/

/-- The pattern `deploy/verify-block.sh` searches for. -/
def validPattern : String := "\"valid\":true"

theorem exists_true_of_valid {o : Object} (h : Contains validPattern (compact o)) :
    ∃ member ∈ o, member.2 = .bool true := by
  have hend : ['d', '\x22', ':', 't'] <:+: validPattern.toList := by decide
  have hlast : 'd' ∉ structural := by decide
  exact exists_true_of_member hlast (hend.trans h)

theorem not_valid_of_object {members : List (String × Scalar)}
    (h : ∀ member ∈ members, member.2 ≠ .bool true) :
    ¬ Contains validPattern (compact (object members)) := by
  intro hc
  obtain ⟨member, hmem, htrue⟩ := exists_true_of_valid hc
  exact h member (mem_object.mp hmem) htrue

theorem not_valid_refused (error : String) :
    ¬ Contains validPattern (compact (refusedJson error)) :=
  not_valid_of_object (by simp)

section Gate
variable {core : Core T} {codecs : Codecs T} {verifier : Verifier T} {method : Method}
  {path body : String}

theorem valid_verified (vb : VerifiedBlock T) :
    Contains validPattern (compact (verifiedJson core codecs vb)) := by
  have hmember : ("valid", Scalar.bool true) ∈ verifiedJson core codecs vb :=
    mem_object.mpr (by simp)
  have htext : String.ofList (memberText ("valid", .bool true)) = validPattern := by decide +kernel
  exact htext ▸ contains_member hmember

theorem verifyBody_cases {status : ℕ} {json : Object}
    (h : verifyBody core codecs verifier body = .returned (status, json)) :
    (∃ vb, verifier.verifyPrecomputedAndExtract core codecs body = .returned (.ok vb) ∧
      status = 200 ∧ json = verifiedJson core codecs vb) ∨ ∃ error, json = refusedJson error := by
  obtain ⟨r, hr, h⟩ := Outcome.bind_eq_returned.mp h
  split at h <;> simp only [Outcome.returned.injEq, Prod.mk.injEq] at h
  · exact Or.inl ⟨_, hr, h.1.symm, h.2.symm⟩
  · exact Or.inr ⟨_, h.2.symm⟩
  · exact Or.inr ⟨_, h.2.symm⟩

theorem verifyBody_ok {vb : VerifiedBlock T}
    (h : verifier.verifyPrecomputedAndExtract core codecs body = .returned (.ok vb)) :
    verifyBody core codecs verifier body = .returned (200, verifiedJson core codecs vb) := by
  simp [verifyBody, h]

theorem dispatch_verify : dispatch core codecs verifier .post "/verify" body =
    (verifyBody core codecs verifier body).catchUnwind.bind fun guarded =>
      .returned (guarded.getD (500, refusedJson "internal verifier error")) := by
  simp [dispatch]

theorem dispatch_refused {json : Object} :
    dispatch core codecs verifier .post "/verify" body = .returned (400, json) ↔
      ∃ e, e ≠ .proofInvalid ∧
        verifier.verifyPrecomputedAndExtract core codecs body = .returned (.error e) ∧
        json = refusedJson e.display := by
  rw [dispatch_verify, verifyBody]
  cases verifier.verifyPrecomputedAndExtract core codecs body with
  | diverged => simp [Outcome.catchUnwind]
  | panicked message => simp [Outcome.catchUnwind]
  | returned r =>
    cases r with
    | ok vb => simp [Outcome.catchUnwind]
    | error e =>
      cases e with
      | proofInvalid => simp [Outcome.catchUnwind]
      | invalidIndexJson text => simp [Outcome.catchUnwind, eq_comm]
      | blockDecode text => simp [Outcome.catchUnwind, eq_comm]

theorem dispatch_ne_panicked (message : String) :
    dispatch core codecs verifier method path body ≠ .panicked message := by
  unfold dispatch
  split_ifs
  · simp
  · rw [ne_eq, Outcome.bind_eq_panicked]
    simp [Outcome.catchUnwind_ne_panicked]
  · simp

theorem verifyBody_eq_diverged : verifyBody core codecs verifier body = .diverged ↔
    verifier.verifyPrecomputedAndExtract core codecs body = .diverged := by
  rw [verifyBody, Outcome.bind_eq_diverged, or_iff_left]
  rintro ⟨r, _, h⟩
  split at h <;> simp at h

/-- Only the check of a block can hang. -/
theorem dispatch_eq_diverged :
    dispatch core codecs verifier method path body = .diverged ↔ method = .post ∧ path = "/verify" ∧
      verifier.verifyPrecomputedAndExtract core codecs body = .diverged := by
  constructor
  · intro h
    unfold dispatch at h
    split_ifs at h with hhealth hverify
    obtain hguarded | ⟨guarded, _, hanswer⟩ := Outcome.bind_eq_diverged.mp h
    · rw [Outcome.catchUnwind_eq_diverged, verifyBody_eq_diverged] at hguarded
      exact ⟨hverify.1, hverify.2, hguarded⟩
    · nomatch hanswer
  · rintro ⟨rfl, rfl, h⟩
    rw [dispatch_verify, verifyBody_eq_diverged.mpr h]
    rfl

theorem dispatch_of_valid {status : ℕ} {json : Object}
    (h : dispatch core codecs verifier method path body = .returned (status, json))
    (hvalid : Contains validPattern (compact json)) :
    method = .post ∧ path = "/verify" ∧
      ∃ vb, verifier.verifyPrecomputedAndExtract core codecs body = .returned (.ok vb) := by
  unfold dispatch at h
  split_ifs at h with hhealth hverify
  · simp only [Outcome.returned.injEq, Prod.mk.injEq] at h
    exact absurd (h.2 ▸ hvalid) (not_valid_of_object (by simp))
  · refine ⟨hverify.1, hverify.2, ?_⟩
    obtain ⟨guarded, hguarded, h⟩ := Outcome.bind_eq_returned.mp h
    obtain ⟨r, hbody, rfl⟩ | ⟨_, _, rfl⟩ := Outcome.catchUnwind_eq_returned.mp hguarded
    · simp only [Option.getD_some, Outcome.returned.injEq] at h
      rw [h] at hbody
      obtain ⟨vb, hvb, _⟩ | ⟨error, rfl⟩ := verifyBody_cases hbody
      · exact ⟨vb, hvb⟩
      · exact absurd hvalid (not_valid_refused error)
    · simp only [Option.getD_none, Outcome.returned.injEq, Prod.mk.injEq] at h
      exact absurd (h.2 ▸ hvalid) (not_valid_refused _)
  · simp only [Outcome.returned.injEq, Prod.mk.injEq] at h
    exact absurd (h.2 ▸ hvalid) (not_valid_of_object (by simp))

/-- The request is a `POST /verify` of a block that decodes to the header, with a proof that verifies
and a state hash. -/
structure Accepts (core : Core T) (codecs : Codecs T) (verifier : Verifier T) (method : Method)
    (path body : String) (header : BlockHeader T) (stateHash : T.StateHash) : Prop where
  method_eq : method = .post
  path_eq : path = "/verify"
  decodes : headerFromPrecomputed codecs body = .returned (.ok header)
  verifies : verifier.verifyHeader core header = .returned true
  hashes : core.tryHash header = .ok stateHash

theorem Accepts.dispatch_eq {header : BlockHeader T} {stateHash : T.StateHash}
    (h : Accepts core codecs verifier method path body header stateHash) :
    dispatch core codecs verifier method path body = .returned (200, verifiedJson core codecs
      ⟨header.protocolState.body.consensusState.blockchainLength, stateHash,
        header.protocolState.previousStateHash,
        header.protocolState.body.blockchainState.stagedLedgerHash⟩) := by
  obtain ⟨rfl, rfl, hdec, hver, hhash⟩ := h
  have hextract := Verifier.verifyPrecomputedAndExtract_ok.mpr
    ⟨header, hdec, hver, Verifier.fromHeader_ok.mpr ⟨stateHash, hhash, rfl⟩⟩
  rw [dispatch_verify, verifyBody_ok hextract]
  rfl

end Gate

/-- **The gate is exact.** The router does not panic; its answer matches the pattern exactly for a
`POST /verify` of a block that decodes, verifies and hashes; and then it is a 200 with the facts of
that block's own protocol state. -/
theorem dispatch_gate (core : Core T) (codecs : Codecs T) (verifier : Verifier T) (method : Method)
    (path body : String) :
    (∀ message, dispatch core codecs verifier method path body ≠ .panicked message) ∧
    ((∃ status json, dispatch core codecs verifier method path body = .returned (status, json) ∧
        Contains "\"valid\":true" (compact json)) ↔
      ∃ header stateHash, Accepts core codecs verifier method path body header stateHash) ∧
    (∀ header stateHash, Accepts core codecs verifier method path body header stateHash →
      dispatch core codecs verifier method path body = .returned (200, object
        [("valid", .bool true),
          ("height", .number header.protocolState.body.consensusState.blockchainLength.toNat),
          ("state_hash", .string (core.stateHashToString stateHash)),
          ("previous_state_hash",
            .string (core.stateHashToString header.protocolState.previousStateHash)),
          ("staged_ledger_hash", .string (codecs.ledgerHashToString
            header.protocolState.body.blockchainState.stagedLedgerHash))])) := by
  refine ⟨dispatch_ne_panicked, ⟨?_, ?_⟩, fun _ _ h => h.dispatch_eq⟩
  · rintro ⟨status, json, h, hvalid⟩
    obtain ⟨hmethod, hpath, vb, hvb⟩ := dispatch_of_valid h hvalid
    obtain ⟨header, hdec, hver, hfrom⟩ := Verifier.verifyPrecomputedAndExtract_ok.mp hvb
    obtain ⟨stateHash, hhash, _⟩ := Verifier.fromHeader_ok.mp hfrom
    exact ⟨header, stateHash, hmethod, hpath, hdec, hver, hhash⟩
  · rintro ⟨header, stateHash, h⟩
    exact ⟨_, _, h.dispatch_eq, valid_verified _⟩

end MinaVerify
