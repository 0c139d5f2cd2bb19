import MinaVerify.Foundations.Framing
import MinaVerify.Foundations.Loop

/-! # The RPC connection

`crates/mina-verify-capture/src/rpc.rs`: framed messages over an open stream, one handshake, then any
number of queries, each with an id of its own; and the batch loop of `fetch_sync_ledger_answers` in
`rpc_net.rs`. The binprot codecs are third-party: the header's reads back what it wrote, the methods'
are arbitrary. -/
namespace MinaVerify
set_option autoImplicit false
open Framing

/-! ## Messages -/

/-- `MessageHeader` of `rpc_kernel`. -/
inductive MessageHeader where
  | heartbeat
  | query (tag : List UInt8) (version : ℕ) (id : UInt64)
  | response (id : UInt64)
  deriving DecidableEq, Repr

/-- `MessageHeader::binprot_write` and `binprot_read`; the latter leaves what follows the header. -/
structure HeaderCodec where
  write : MessageHeader → List UInt8
  read : List UInt8 → Except String (MessageHeader × List UInt8)
  read_write : ∀ header rest, read (write header ++ rest) = .ok (header, rest)

/-- `u64::from_le_bytes(*b"RPC\x00\x00\x00\x00\x00")`. -/
def handshakeId : UInt64 := UInt64.ofNat (fromLeBytes [82, 80, 67, 0, 0, 0, 0, 0])

def queryId : UInt64 := 1

/-- The most bytes a `Vec<u8>` can hold. -/
def isizeMax : ℕ := 2 ^ 63 - 1

def frame (codec : HeaderCodec) (header : MessageHeader) (payload : List UInt8) : List UInt8 :=
  frameBody (codec.write header ++ payload)

def handshakeBytes (codec : HeaderCodec) : List UInt8 := frame codec (.response handshakeId) [1]

/-- One query of one method: its name and version, the binprot of the query, and the decoder of the
response payload, where `none` is an error the RPC kernel reports. -/
structure Request (R : Type) where
  name : List UInt8
  version : ℕ
  payload : List UInt8
  decode : List UInt8 → Except String (Option R)

variable {R : Type}

def queryBytes (codec : HeaderCodec) (request : Request R) (id : UInt64) : List UInt8 :=
  frame codec (.query request.name request.version id) request.payload

/-! ## The stream -/

/-- An open stream: what comes in, what was sent, and how the next writes end: a fault is the number
of bytes that still got out and an error. -/
structure Stream where
  source : Source
  sent : List UInt8
  faults : List (Option (ℕ × String))

def Stream.write (stream : Stream) (bytes : List UInt8) : Except String Unit × Stream :=
  match stream.faults with
  | some (n, e) :: faults =>
    (.error e, { stream with sent := stream.sent ++ bytes.take n, faults := faults })
  | none :: faults => (.ok (), { stream with sent := stream.sent ++ bytes, faults := faults })
  | [] => (.ok (), { stream with sent := stream.sent ++ bytes })

theorem write_source (stream : Stream) (bytes : List UInt8) :
    (stream.write bytes).2.source = stream.source := by
  unfold Stream.write
  split <;> rfl

/-! ## Calls -/

structure RpcConn where
  stream : Stream
  nextId : UInt64

def RpcConn.open (codec : HeaderCodec) (stream : Stream) : Except String RpcConn :=
  match stream.write (handshakeBytes codec) with
  | (.error e, _) => .error e
  | (.ok _, stream) => .ok ⟨stream, queryId⟩

def Request.answer (request : Request R) (payload : List UInt8) : Except String R :=
  match request.decode payload with
  | .error e => .error e
  | .ok none => .error "rpc kernel error response"
  | .ok (some response) => .ok response

/-- One round of the read loop: `.inl` to keep reading, `.inr` to leave. -/
def readStep (codec : HeaderCodec) (request : Request R) (id : UInt64) (source : Source) :
    Source ⊕ Outcome (Except String R × Source) :=
  match readBody isizeMax source with
  | .panicked message => .inr (.panicked message)
  | .diverged => .inr .diverged
  | .returned (.error e, source) => .inr (.returned (.error e, source))
  | .returned (.ok buf, source) =>
    match codec.read buf with
    | .error e => .inr (.returned (.error e, source))
    | .ok (header, cursor) =>
      if header = .response id then .inr (.returned (request.answer cursor, source))
      else .inl source

namespace RpcConn

/-- Issue one query and return the method's raw response. Ids are 64-bit and wrap. The read loop has
a round for every byte there is, and each round uses up eight (`readStep_ends`). -/
def call (codec : HeaderCodec) (conn : RpcConn) (request : Request R) :
    Outcome (Except String R × RpcConn) :=
  let id := conn.nextId
  match conn.stream.write (queryBytes codec request id) with
  | (.error e, stream) => .returned (.error e, ⟨stream, id + 1⟩)
  | (.ok _, stream) =>
    match Loop.iterate (readStep codec request id) (stream.source.incoming.length + 1)
        stream.source with
    | none => .diverged
    | some result => result.bind fun r =>
      .returned (r.1, ⟨{ stream with source := r.2 }, id + 1⟩)

def run (codec : HeaderCodec) (conn : RpcConn) :
    List (Request R) → Outcome (List (Except String R) × RpcConn)
  | [] => .returned ([], conn)
  | request :: requests =>
    (conn.call codec request).bind fun r =>
    (run codec r.2 requests).bind fun s =>
    .returned (r.1 :: s.1, s.2)

/-- The batch loop of `fetch_sync_ledger_answers`: the first error ends it. A response is itself a
result, whose error comes with its debug text. -/
def fetchSyncLedgerAnswers {A : Type} (codec : HeaderCodec) (conn : RpcConn) :
    List (Request (Except String A)) → Outcome (Except String (List A) × RpcConn)
  | [] => .returned (.ok [], conn)
  | query :: queries =>
    (conn.call codec query).bind fun
      | (.error e, conn) => .returned (.error e, conn)
      | (.ok (.error e), conn) => .returned (.error ("sync-ledger rpc error: " ++ e), conn)
      | (.ok (.ok answer), conn) =>
        (fetchSyncLedgerAnswers codec conn queries).bind fun r =>
        .returned (r.1.map (answer :: ·), r.2)

end RpcConn

theorem readStep_ends (codec : HeaderCodec) (request : Request R) (id : UInt64) (source : Source) :
    ∃ r, Loop.iterate (readStep codec request id) (source.incoming.length + 1) source = some r := by
  refine Loop.iterate_ends (fun s => s.incoming.length) ?_ source
  intro s s' h
  unfold readStep at h
  split at h
  · simp at h
  · simp at h
  · simp at h
  · next hbody =>
    split at h
    · simp at h
    · split_ifs at h
      rw [Sum.inl.injEq] at h
      subst h
      have := readBody_length hbody
      omega

end MinaVerify
