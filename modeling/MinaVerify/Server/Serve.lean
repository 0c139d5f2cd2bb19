import Mathlib.Data.PNat.Defs
import MinaVerify.Foundations.Pool
import MinaVerify.Process.Environment
import MinaVerify.Server.Handle

/-! # The sidecar as a process

`run` and `serve` of `crates/mina-verify-server/src/lib.rs`: the process reads its verifier once, binds, and
starts workers that take requests from one listener. The workers share the verifier and the listener and
nothing else; every order of their steps is a schedule of `Foundations.Pool`. The listener is third-party: it
hands out requests in the order of arrival, and its own errors in between.

No request kills a worker, but some keep the worker that takes them for good: the client stops sending a body,
or does not take the answer, or the check never ends; and on an error of the listener a worker leaves its
loop. How far the sidecar gets is decided by the number of these among what came before. -/
namespace MinaVerify
set_option autoImplicit false
open JsonText Utf8 Interleaving

variable {T : Types}

namespace Server

/-! ## Start-up -/

/-- The environment, the number of processors if it is known, whether an address can be bound, the texts of
the panics of making room for so many workers and of starting the n-th, and the verifier indices. -/
structure Host (T : Types) extends Environment where
  availableParallelism : Option ℕ+
  http : String → Except String Unit
  withCapacity : ℕ → Option String
  spawn : ℕ → Option String
  index : IndexJson T

def defaultBind : String := "0.0.0.0:8090"

section Startup
variable (host : Host T)

/-- A verifier index that is named wins over the embedded ones. -/
def buildVerifier : Except String (Verifier T) :=
  match host.var "MINA_VK_JSON" with
  | some path =>
    match host.readToString path with
    | .error e => .error ("cannot read MINA_VK_JSON " ++ host.debug path ++ ": " ++ e)
    | .ok json => (withIndexJson host.index json).mapError (ForNetworkError.display host.debug)
  | none =>
    (forNetworkOffline host.index (host.envOr "MINA_NETWORK" "devnet")).mapError
      (ForNetworkError.display host.debug)

def workerThreads : ℕ :=
  (((host.var "VERIFY_THREADS").bind parseU64).filter fun n => 0 < n).getD
    ((host.availableParallelism.map PNat.val).getD 4)

/-- What the process comes to: it exits, or its workers wait for requests. -/
inductive Startup (T : Types) where
  | exited (code : ℕ) (line : String)
  | serving (verifier : Verifier T) (threads : ℕ)

/-- `serve`, up to the joins of the workers. -/
def serve (verifier : Verifier T) (bind : String) (threads : ℕ) : Outcome (Except String (Startup T)) :=
  match host.http bind with
  | .error e => .returned (.error ("cannot bind " ++ bind ++ ": " ++ e))
  | .ok () =>
    match host.withCapacity threads with
    | some message => .panicked message
    | none =>
      match (List.range threads).findSome? host.spawn with
      | some message => .panicked message
      | none => .returned (.ok (.serving verifier threads))

def run : Outcome (Startup T) :=
  match buildVerifier host with
  | .error e => .returned (.exited 2 ("error: " ++ e))
  | .ok verifier =>
    (serve host verifier (host.envOr "BIND" defaultBind) (workerThreads host)).bind fun
      | .error e => .returned (.exited 2 ("error: " ++ e))
      | .ok startup => .returned startup

variable {host}

theorem workerThreads_pos : 0 < workerThreads host := by
  unfold workerThreads
  cases h : ((host.var "VERIFY_THREADS").bind parseU64).filter fun n => 0 < n with
  | some n =>
    rw [Option.filter_eq_some_iff] at h
    simpa using h.2
  | none =>
    cases host.availableParallelism with
    | some n => simp
    | none => simp

theorem serve_ok {verifier : Verifier T} {bind : String} {threads : ℕ} {startup : Startup T}
    (h : serve host verifier bind threads = .returned (.ok startup)) : startup = .serving verifier threads := by
  unfold serve at h
  split at h
  · simp at h
  · split at h
    · simp at h
    · split at h
      · simp at h
      · exact (Except.ok.inj (Outcome.returned.inj h)).symm

theorem run_serving {verifier : Verifier T} {threads : ℕ}
    (h : run host = .returned (.serving verifier threads)) :
    buildVerifier host = .ok verifier ∧ threads = workerThreads host := by
  unfold run at h
  split at h
  · simp at h
  · next v hv =>
    obtain ⟨r, hserve, h⟩ := Outcome.bind_eq_returned.mp h
    cases r with
    | error e => simp at h
    | ok startup =>
      have hstartup := serve_ok hserve
      simp only [hstartup, Outcome.returned.injEq, Startup.serving.injEq] at h
      exact ⟨hv.trans (by rw [h.1]), h.2.symm⟩

end Startup
end Server

/-! ## One request -/

section Request
variable {core : Core T} {codecs : Codecs T} {verifier : Verifier T} {req : HttpRequest}

theorem readToEnd_ne_panicked (body : HttpBody) (limit : ℕ) (message : String) :
    body.readToEnd limit ≠ .panicked message := by
  unfold HttpBody.readToEnd
  split_ifs
  · simp
  · split <;> simp

theorem handle_ne_panicked (message : String) : handle core codecs verifier req ≠ .panicked message := by
  unfold handle
  rw [ne_eq, Outcome.bind_eq_panicked, not_or]
  refine ⟨readToEnd_ne_panicked _ _ _, ?_⟩
  rintro ⟨r, _, h⟩
  cases r with
  | error e => simp at h
  | ok bytes => simp [Outcome.bind_eq_panicked, dispatch_ne_panicked] at h

/-- What `deploy/verify-block.sh` makes of an answer: `curl -f` fails on a status from 400 on, and `grep`
looks for the pattern. -/
def HttpResponse.gate (response : HttpResponse) : Prop :=
  response.status < 400 ∧ Contains validPattern response.text

/-- The gate opens exactly for a `POST /verify` whose body, up to the cap, was read and is accepted. -/
theorem gate_iff {response : HttpResponse} (h : handle core codecs verifier req = .returned response) :
    response.gate ↔ ∃ bytes header stateHash, req.body.readToEnd maxBodyBytes = .returned (.ok bytes) ∧
      Accepts core codecs verifier req.method req.path (fromUtf8Lossy bytes) header stateHash := by
  unfold handle at h
  obtain ⟨r, hread, h⟩ := Outcome.bind_eq_returned.mp h
  cases r with
  | error e =>
    simp only [Outcome.returned.injEq] at h
    simp [← h, hread, HttpResponse.gate, respond]
  | ok bytes =>
    obtain ⟨⟨status, json⟩, hdispatch, h⟩ := Outcome.bind_eq_returned.mp h
    rw [Outcome.returned.injEq] at h
    constructor
    · intro hgate
      rw [← h] at hgate
      obtain ⟨hmethod, hpath, vb, hvb⟩ := dispatch_of_valid hdispatch hgate.2
      obtain ⟨header, hdec, hver, hfrom⟩ := Verifier.verifyPrecomputedAndExtract_ok.mp hvb
      obtain ⟨stateHash, hhash, _⟩ := Verifier.fromHeader_ok.mp hfrom
      exact ⟨bytes, header, stateHash, hread, hmethod, hpath, hdec, hver, hhash⟩
    · rintro ⟨bytes', header, stateHash, hbytes, haccepts⟩
      rw [hread, Outcome.returned.injEq, Except.ok.injEq] at hbytes
      subst hbytes
      rw [haccepts.dispatch_eq, Outcome.returned.injEq, Prod.mk.injEq] at hdispatch
      rw [← h, ← hdispatch.1, ← hdispatch.2]
      exact ⟨by simp [respond], valid_verified _⟩

end Request

/-! ## One turn of a worker -/

/-- What `incoming_requests` hands to a worker: a request, with whether its client takes the answer, or an
error of the listener. -/
inductive Incoming where
  | request (req : HttpRequest) (takesAnswer : Bool)
  | error
  deriving DecidableEq

section Turn
variable (core : Core T) (codecs : Codecs T) (verifier : Verifier T)

/-- The body of a worker's loop, which an error of the listener ends. To respond is to write to the client, who
may never take it. -/
def Server.loopBody : Incoming → Outcome (Option HttpResponse)
  | .request req takesAnswer =>
    (handle core codecs verifier req).bind fun response =>
      if takesAnswer then .returned (some response) else .diverged
  | .error => .returned none

variable {core codecs verifier}

theorem loopBody_ne_panicked (incoming : Incoming) (message : String) :
    Server.loopBody core codecs verifier incoming ≠ .panicked message := by
  cases incoming with
  | error => simp [Server.loopBody]
  | request req takesAnswer =>
    rw [Server.loopBody, ne_eq, Outcome.bind_eq_panicked, not_or]
    refine ⟨handle_ne_panicked message, ?_⟩
    rintro ⟨response, _, h⟩
    cases takesAnswer <;> simp at h

theorem loopBody_eq_none {incoming : Incoming}
    (h : Server.loopBody core codecs verifier incoming = .returned none) : incoming = .error := by
  cases incoming with
  | error => rfl
  | request req takesAnswer =>
    obtain ⟨response, _, h⟩ := Outcome.bind_eq_returned.mp h
    cases takesAnswer <;> simp at h

theorem loopBody_eq_some {incoming : Incoming} {response : HttpResponse} :
    Server.loopBody core codecs verifier incoming = .returned (some response) ↔
      ∃ req, incoming = .request req true ∧ handle core codecs verifier req = .returned response := by
  cases incoming with
  | error => simp [Server.loopBody]
  | request req takesAnswer =>
    rw [Server.loopBody, Outcome.bind_eq_returned]
    cases takesAnswer with
    | false => simp
    | true => simp

end Turn

/-! ## Any order of the workers' steps -/

section Served
variable {core : Core T} {codecs : Codecs T} {host : Server.Host T} {verifier : Verifier T} {threads : ℕ}

/-- The sidecar after the steps of the schedule, with what is to arrive. -/
def served (core : Core T) (codecs : Codecs T) (verifier : Verifier T) (threads : ℕ)
    (incoming : List Incoming) (schedule : List (Option (Fin threads))) :
    Config (Option (Fin threads)) (Pool.Shared Incoming HttpResponse) (Pool.Worker Incoming) :=
  run (Pool.act (Server.loopBody core codecs verifier)) schedule (Pool.start incoming)

/-- **Each request is answered once.** In whatever order the workers take their steps: there is a worker, none
dies, and one leaves its loop only on an error of the listener; what arrives is taken in its order, and each
one taken has one answer or is with one worker; every answer is what `handle` makes of its request; and an
answer opens the gate exactly when its request is a block that decodes, verifies and hashes under the verifier
of the start. -/
theorem server_answers (core : Core T) (codecs : Codecs T) (host : Server.Host T)
    {verifier : Verifier T} {threads : ℕ}
    (hrun : Server.run host = .returned (.serving verifier threads))
    (incoming : List Incoming) (schedule : List (Option (Fin threads))) :
    Server.buildVerifier host = .ok verifier ∧ 0 < threads ∧
    (∃ taken, incoming = taken ++
          (served core codecs verifier threads incoming schedule).shared.waiting ++
          (served core codecs verifier threads incoming schedule).shared.arriving ∧
      (taken : Multiset Incoming) =
        ↑((served core codecs verifier threads incoming schedule).shared.answered.map Prod.fst) +
          Pool.inHand (served core codecs verifier threads incoming schedule)) ∧
    (∀ w last ending, (served core codecs verifier threads incoming schedule).threads (some w) =
      .ended last ending → last = .error ∧ ending = .left) ∧
    (∀ entry ∈ (served core codecs verifier threads incoming schedule).shared.answered,
      ∃ req, entry.1 = .request req true ∧ handle core codecs verifier req = .returned entry.2 ∧
        (entry.2.gate ↔ ∃ bytes header stateHash,
          req.body.readToEnd maxBodyBytes = .returned (.ok bytes) ∧
          Accepts core codecs verifier req.method req.path (fromUtf8Lossy bytes) header stateHash)) := by
  have hacc := Pool.run_accounted (Server.loopBody core codecs verifier) incoming schedule
  obtain ⟨hbuild, rfl⟩ := Server.run_serving hrun
  refine ⟨hbuild, Server.workerThreads_pos, hacc.taken, ?_, ?_⟩
  · intro w last ending hended
    have hending := hacc.ended w last ending hended
    cases hlast : Server.loopBody core codecs verifier last with
    | returned r =>
      rw [hlast] at hending
      obtain ⟨rfl, rfl⟩ := Pool.endingOf_returned hending
      exact ⟨loopBody_eq_none hlast, rfl⟩
    | panicked message => exact absurd hlast (loopBody_ne_panicked last message)
    | diverged =>
      rw [hlast] at hending
      nomatch hending
  · intro entry hentry
    obtain ⟨req, hreq, hhandle⟩ := loopBody_eq_some.mp (hacc.answer entry hentry)
    exact ⟨req, hreq, hhandle, gate_iff hhandle⟩

end Served

/-! ## A health check behind a block -/

namespace SampleServer
open SampleBlock

def index : IndexJson Sample.types where
  parse := fun _ => .ok ()
  devnet := ""
  mainnet := ""

/-- Two workers for devnet. -/
def host : Server.Host Sample.types where
  var := fun key => if key = "VERIFY_THREADS" then some "2" else none
  readToString := fun _ => .error "No such file or directory (os error 2)"
  read := fun _ => .error "No such file or directory (os error 2)"
  debug := id
  availableParallelism := none
  http := fun _ => .ok ()
  withCapacity := fun _ => none
  spawn := fun _ => none
  index := index

def block : Incoming := .request ⟨.post, "/verify", ⟨encode blockText, .complete⟩⟩ true

def health : Incoming := .request ⟨.get, "/health", ⟨[], .complete⟩⟩ true

/-- A client that announces a block and sends nothing. -/
def silent : Incoming := .request ⟨.post, "/verify", ⟨[], .stalled⟩⟩ true

theorem run_host : Server.run host = .returned (.serving verifier 2) := by
  have hthreads : Server.workerThreads host = 2 := by decide +kernel
  rw [Server.run, hthreads]
  rfl

/-- The second worker answers the health check before the first has verified its block, and leaves on an error
of the listener. -/
abbrev answered : Config (Option (Fin 2)) (Pool.Shared Incoming HttpResponse) (Pool.Worker Incoming) :=
  served Sample.minaCore blockCodecs verifier 2 [block, health, .error]
    [none, none, none, some 0, some 1, some 1, some 0, some 1, some 1]

end SampleServer

open SampleServer SampleBlock in
theorem server_answers_two_workers :
    answered.shared.answered.map (fun entry => entry.2.status) = [200, 200] ∧
      (∀ w last ending, answered.threads (some w) = .ended last ending → last = .error ∧ ending = .left) ∧
      answered.threads (some 1) = .ended .error .left := by
  have hanswers := server_answers Sample.minaCore blockCodecs host run_host [block, health, .error]
    [none, none, none, some 0, some 1, some 1, some 0, some 1, some 1]
  exact ⟨by decide +kernel, hanswers.2.2.2.1, by decide +kernel⟩

end MinaVerify
