import CFlare.Library.Machine

/-! The posix socket: bytes put back by the requeue come before bytes of the network.
Results of the coroutine library's calls are a script, so that a run ranges over all of them. -/
namespace CFlare.Network
open CFlare.Library

/-- What one `lthread_recv` does: take up to that many bytes, or return `-(code + 1)`. -/
inductive Recv where
  | deliver (count : Nat)
  | fail (code : Nat)
  deriving DecidableEq, Repr

/-- What one `lthread_send` does. After `retry` the socket waits for `lthread_wait_write`,
which succeeds or not; `broken` is any other errno. -/
inductive Send where
  | accept (count : Nat)
  | retry (writable : Bool)
  | broken
  deriving DecidableEq, Repr

/-- After these the writing goes on. -/
def Send.succeeds : Send → Bool
  | .accept _ => true
  | .retry writable => writable
  | .broken => false

/-- The far side: bytes not received yet, bytes accepted from us, results still to come. -/
structure Peer where
  incoming : Bytes
  recvs : List Recv
  outgoing : Bytes
  sends : List Send
  deriving DecidableEq, Repr

/-- The requeue is a block that the socket owns, a position inside it and a byte count. -/
structure Socket where
  fd : Int
  connected : Bool
  ip : Bytes
  port : UInt16
  requeueBuffer : Option Bytes
  requeue : Option Nat
  requeueLength : Nat
  peer : Peer
  deriving DecidableEq, Repr

def newline : UInt8 := 10
def carriageReturn : UInt8 := 13

def socketNew (fd : Int) (ip : Bytes) (port : UInt16) (peer : Peer) : Socket :=
  ⟨fd, true, ip, port, none, none, 0, peer⟩

/-- Returned count, received bytes and the socket after it. An empty script times out. -/
def lthreadRecv (s : Socket) (length : Nat) : Int × Bytes × Socket :=
  match s.peer.recvs with
  | [] => (-2, [], s)
  | .fail code :: recvs => (-(code + 1 : Int), [], { s with peer := { s.peer with recvs := recvs } })
  | .deliver count :: recvs =>
    let bytes := s.peer.incoming.take (min count length)
    (bytes.length, bytes,
      { s with peer := { s.peer with recvs := recvs, incoming := s.peer.incoming.drop bytes.length } })

def requeueRead (s : Socket) (length : Nat) : Bytes × Socket :=
  match s.requeue with
  | none => ([], s)
  | some position =>
    let canRead := if length < s.requeueLength then length else s.requeueLength
    let bytes := ((s.requeueBuffer.getD []).drop position).take canRead
    if s.requeueLength - canRead = 0 then
      (bytes, { s with requeueBuffer := none, requeue := none, requeueLength := 0 })
    else
      (bytes, { s with requeue := some (position + canRead), requeueLength := s.requeueLength - canRead })

/-- The error switch that both reading functions run on a count of zero or less. -/
def readFailed (s : Socket) (count : Int) : Socket :=
  if count = 0 then { s with connected := false }
  else if count = -1 ∨ count = -2 then s
  else { s with connected := false }

/-- None is a false return, which also stores a zero count. -/
def socketRead (s : Socket) (length : Nat) : Except Fault (Option Bytes × Socket) :=
  if s.connected = false then .ok (none, s)
  else if length = 0 then .error .assertion
  else if 0 < s.requeueLength then
    let (queued, s) := requeueRead s length
    let (r, received, s) := lthreadRecv s (length - queued.length)
    -- an error of this receive is left for a later call
    let count : Int := if 0 < r then queued.length + r else queued.length
    if count ≤ 0 then .ok (none, readFailed s count) else .ok (some (queued ++ received), s)
  else
    let (count, received, s) := lthreadRecv s length
    if count ≤ 0 then .ok (none, readFailed s count) else .ok (some received, s)

/-- Fetch bytes one by one until a newline, an error or the end of the room. -/
def readLineBytes : Nat → Socket → Bytes → Bool × Bytes × Socket
  | 0, s, got => (false, got, s)
  | room + 1, s, got =>
    let (r, bytes, s) :=
      if 0 < s.requeueLength then
        let (bytes, s) := requeueRead s 1
        ((bytes.length : Int), bytes, s)
      else lthreadRecv s 1
    if r ≤ 0 then (false, got, readFailed s r)
    else if bytes = [newline] then (true, got, s)
    else readLineBytes room s (got ++ bytes)

/-- Returns whether a newline was met, and the text left in the caller's buffer. -/
def socketReadLine (s : Socket) (length : Nat) : Except Fault ((Bool × Bytes) × Socket) :=
  if length = 0 then .error .assertion
  else if s.connected = false then .ok ((false, []), s)
  else
    let (gotNewline, got, s) := readLineBytes (length - 1) s []
    .ok ((gotNewline, got.filter (· ≠ carriageReturn)), s)

def socketRequeue (s : Socket) (bytes : Bytes) : Socket :=
  let old := ((s.requeueBuffer.getD []).drop (s.requeue.getD 0)).take s.requeueLength
  { s with
    requeueBuffer := some (bytes ++ old)
    requeue := some 0
    requeueLength := bytes.length + s.requeueLength }

def socketClose (s : Socket) : Socket :=
  if s.fd < 0 then s else { s with fd := -1, connected := false }

/-- Keep sending until all is accepted; a script that ends accepts the rest at once. -/
def writeBytes : List Send → Bytes → Socket → Bool × Socket
  | [], bytes, s =>
    (true, { s with peer := { s.peer with sends := [], outgoing := s.peer.outgoing ++ bytes } })
  | .accept count :: sends, bytes, s =>
    let s := { s with peer := { s.peer with
      sends := sends, outgoing := s.peer.outgoing ++ bytes.take count } }
    if bytes.length ≤ count then (true, s) else writeBytes sends (bytes.drop count) s
  | .retry true :: sends, bytes, s => writeBytes sends bytes s
  | .retry false :: sends, _, s | .broken :: sends, _, s =>
    (false, { socketClose { s with peer := { s.peer with sends := sends } } with connected := false })

def socketWrite (s : Socket) (bytes : Bytes) : Bool × Socket :=
  if s.connected = false then (false, s) else writeBytes s.peer.sends bytes s

def socketWriteLine (s : Socket) (bytes : Bytes) : Bool × Socket :=
  if s.connected = false then (false, s)
  else
    match socketWrite s bytes with
    | (false, s) => (false, s)
    | (true, s) =>
      match socketWrite s [newline] with
      | (false, s) => (false, s)
      | (true, s) => (s.connected, s)

end CFlare.Network
