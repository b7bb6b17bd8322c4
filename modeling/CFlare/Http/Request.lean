import CFlare.Http.Integer
import CFlare.Http.Response
import CFlare.Library.Runs

/-! A request on a socket: bytes are received until a blank line, then parsed in place; the
separators in the buffer become null bytes. A pointer into the buffer is its index. -/
namespace CFlare.Http
open CFlare.Library CFlare.Network

def requestMaxLength : Nat := 4096
def requestMaxHeaders : Nat := 32

def space : UInt8 := 32
def tab : UInt8 := 9
def colon : UInt8 := 58
def questionMark : UInt8 := 63

/-- `value` points into the request's buffer. -/
structure RequestHeader where
  header : Header
  value : Nat
  valueLen : Nat
  deriving DecidableEq, Repr

/-- `headers` lists the slots in use. The memory behind the buffer is never read. -/
structure Request where
  buffer : Memory
  bufferFreespace : Nat
  bufferPosition : Nat
  bufferUnread : Nat
  method : Nat
  methodLen : Nat
  path : Nat
  pathLen : Nat
  query : Option Nat
  queryLen : Nat
  version : Nat
  versionLen : Nat
  ip : Bytes
  port : UInt16
  headers : List RequestHeader
  host : Option Nat
  hostLen : Nat
  contentLengthUnread : Nat
  contentLength : Nat
  contentType : Option Nat
  keepalive : Bool
  response : Response

/-- A fresh request is all zero bytes. -/
def requestNew : Request where
  buffer := fun _ => 0
  bufferFreespace := 0
  bufferPosition := 0
  bufferUnread := 0
  method := 0
  methodLen := 0
  path := 0
  pathLen := 0
  query := none
  queryLen := 0
  version := 0
  versionLen := 0
  ip := []
  port := 0
  headers := []
  host := none
  hostLen := 0
  contentLengthUnread := 0
  contentLength := 0
  contentType := none
  keepalive := false
  response := ⟨0, false, false, 0, fun _ => 0, []⟩

/-- What the program has loaded before it serves requests. -/
structure Environment where
  table : HeaderTable
  statusString : UInt32 → Option CString
  statusShort : ∀ code text, statusString code = some text → text.bytes.length ≤ 64
  float : FloatArith

namespace Environment
variable (env : Environment)

private theorem common_named {name : Bytes} (h : name ∈ commonNames) :
    (env.table.header name).name ≠ none := by
  obtain ⟨text, ht⟩ := env.table.header_named (env.table.common_known h)
  simp [ht]

def tables : Tables where
  common := env.table.common
  statusString := env.statusString
  contentLengthNamed := by
    rw [env.table.common_eq]
    exact env.common_named (by simp [commonNames])
  serverNamed := by
    rw [env.table.common_eq]
    exact env.common_named (by simp [commonNames])
  dateNamed := by
    rw [env.table.common_eq]
    exact env.common_named (by simp [commonNames])
  connectionNamed := by
    rw [env.table.common_eq]
    exact env.common_named (by simp [commonNames])
  statusShort := env.statusShort

end Environment

/-- The head of the server's own answer; `%s` prints a null status text as `(null)`. -/
def quickHeaders (env : Environment) (status : UInt32) (message : Bytes) (keepAlive : Bool) : Bytes :=
  let statusString := ((env.statusString status).map CString.bytes).getD (ascii "(null)")
  ascii "HTTP/1.1 " ++ decimal status.toNat ++ ascii " " ++ statusString ++
    ascii "\nContent-Length: " ++ decimal (message.length + 1) ++
    ascii "\nContent-Type: text/plain\nServer: cflare\nConnection: " ++
    (if keepAlive then ascii "keep-alive" else ascii "close") ++ ascii "\n"

def quickResponseSocket (env : Environment) (sock : Socket) (status : UInt32) (message : Bytes)
    (keepAlive : Bool) : Socket :=
  let (_, sock) := socketWriteLine sock (quickHeaders env status message keepAlive)
  let (_, sock) := socketWriteLine sock message
  if keepAlive then sock else socketClose sock

/-- A result equal to the length never occurs, though the callers test for it. -/
def firstOf (m : Memory) : Nat → Nat → UInt8 → Option Nat
  | _, 0, _ => none
  | ptr, len + 1, value => if m ptr = value then some 0 else (firstOf m (ptr + 1) len value).map (· + 1)

/-- Why a request does not reach the hook. -/
inductive Stop where
  | fault (fault : Fault)
  | reject (status : UInt32) (message : Bytes) (req : Request)

def orFault {α : Type} (x : Except Fault α) : Except Stop α := x.mapError Stop.fault

/-- The fields that are set before anything is read. -/
def startRequest (req : Request) : Request :=
  { req with
    bufferPosition := 0
    bufferFreespace := requestMaxLength
    keepalive := true
    response := responseInit { req.response with keepalive := true } }

/-- Look for the second newline in a row, carriage returns apart. -/
def scanFragment : Nat → Bytes → Bool × Nat
  | newlines, [] => (false, newlines)
  | newlines, b :: rest =>
    if b = carriageReturn then scanFragment newlines rest
    else if b = newline then
      if newlines + 1 = 2 then (true, newlines + 1) else scanFragment (newlines + 1) rest
    else scanFragment 0 rest

/-- Receive until the blank line; the number of bytes received is the output. The length is
tested before the fragment is searched. -/
def receive : Nat → Request → Nat → Nat → Socket → Except Fault (Except Stop Nat × Request × Socket)
  | 0, _, _, _, _ => .error .diverged
  | fuel + 1, req, nbytes, newlines, sock => do
    match ← socketRead sock (sizeSub req.bufferFreespace nbytes) with
    | (none, sock) => .ok (.error (.reject 400 (ascii "recv error") req), req, sock)
    | (some fragment, sock) =>
      let req := { req with buffer := store req.buffer nbytes fragment }
      let nbytes := nbytes + fragment.length
      if nbytes = req.bufferFreespace then
        .ok (.error (.reject 413 (ascii "request too long") req), req, sock)
      else
        match scanFragment newlines fragment with
        | (true, _) => .ok (.ok nbytes, { req with bufferFreespace := req.bufferFreespace - nbytes }, sock)
        | (false, newlines) => receive fuel req nbytes newlines sock

def parseMethod (req : Request) (nbytes : Nat) : Except Stop (Request × Nat) :=
  let req := { req with method := req.bufferPosition }
  match firstOf req.buffer req.method nbytes space with
  | none => .error (.reject 400 (ascii "invalid request") req)
  | some pos =>
    .ok ({ req with
      buffer := Function.update req.buffer (req.method + pos) 0
      methodLen := pos
      bufferPosition := req.method + pos + 1 }, nbytes - (pos + 1))

def parsePath (req : Request) (nbytes : Nat) : Except Stop (Request × Nat) :=
  let req := { req with path := req.bufferPosition }
  match firstOf req.buffer req.path nbytes space with
  | none => .error (.reject 414 (ascii "request URI too long") req)
  | some pos =>
    let buffer := Function.update req.buffer (req.path + pos) 0
    let req := { req with bufferPosition := req.path + pos + 1 }
    match firstOf buffer req.path pos questionMark with
    | none =>
      .ok ({ req with buffer := buffer, pathLen := pos, query := none, queryLen := 0 },
        nbytes - (pos + 1))
    | some queryPos =>
      .ok ({ req with
        buffer := Function.update buffer (req.path + queryPos) 0
        pathLen := queryPos
        query := some (req.path + queryPos + 1)
        queryLen := pos - queryPos - 1 }, nbytes - (pos + 1))

/-- End a line at its newline, or at a carriage return before it. For an empty line the byte
before is the last one of what precedes the line. -/
def endLine (m : Memory) (line pos : Nat) : Memory × Nat :=
  if m (line + pos - 1) = carriageReturn then
    (Function.update m (line + pos - 1) 0, sizeSub pos 1)
  else (Function.update m (line + pos) 0, pos)

def parseVersion (req : Request) (nbytes : Nat) : Except Stop (Request × Nat) :=
  let req := { req with version := req.bufferPosition }
  match firstOf req.buffer req.version nbytes newline with
  | none => .error (.reject 400 (ascii "invalid version") req)
  | some pos =>
    let (buffer, versionLen) := endLine req.buffer req.version pos
    .ok ({ req with
      buffer := buffer
      versionLen := versionLen
      bufferPosition := req.version + pos + 1 }, nbytes - (pos + 1))

/-- The header loop's variables that are read later. -/
structure HeaderScan where
  req : Request
  nbytes : Nat
  contentLength : Int
  host : Option Nat
  hostLen : Nat

def takeLine (st : HeaderScan) : Except Stop (Nat × Nat × HeaderScan) :=
  let line := st.req.bufferPosition
  match firstOf st.req.buffer line st.nbytes newline with
  | none => .error (.reject 400 (ascii "invalid header 1") st.req)
  | some pos =>
    let (buffer, lineLen) := endLine st.req.buffer line pos
    .ok (line, lineLen, { st with
      req := { st.req with buffer := buffer, bufferPosition := line + pos + 1 }
      nbytes := st.nbytes - (pos + 1) })

/-- The string at a pointer into the buffer. Reads are checked against `limit`, the length of
the array; the program's is `requestMaxLength`. -/
def stringAt (limit : Nat) (m : Memory) (start : Nat) : Except Stop Bytes :=
  match cstring m start (limit - start) with
  | none => .error (.fault .overrun)
  | some text => .ok text

/-- Keep a header and what it says, if it is one of those that matter here. A content type is
recognised, but nothing of it is kept. -/
def recordHeader (env : Environment) (limit : Nat) (st : HeaderScan) (hdr : Header) (value valueLen : Nat) :
    Except Stop HeaderScan :=
  if requestMaxHeaders ≤ st.req.headers.length then
    .error (.reject 413 (ascii "reached max number of headers") st.req)
  else do
    let common := env.table.common
    let st := { st with req := { st.req with headers := st.req.headers ++ [⟨hdr, value, valueLen⟩] } }
    if ← orFault (headersEquals hdr common.host) then
      .ok { st with host := some value, hostLen := valueLen }
    else if ← orFault (headersEquals hdr common.connection) then
      let connection ← stringAt limit st.req.buffer value
      .ok { st with req := { st.req with
        keepalive := (occurrence connection (ascii "keep-alive")).isSome } }
    else if ← orFault (headersEquals hdr common.contentType) then .ok st
    else if ← orFault (headersEquals hdr common.contentLength) then
      let text ← stringAt limit st.req.buffer value
      match ← orFault (toInteger env.float text) with
      | none => .error (.reject 400 (ascii "bad content-length") st.req)
      | some contentLength => .ok { st with contentLength := contentLength }
    else .ok st

/-- A line that is not blank. There is never a previous header to continue: the source does
not set its pointer. The value starts behind the colon and one more byte, whatever that is. -/
def parseHeader (env : Environment) (limit : Nat) (st : HeaderScan) (line lineLen : Nat) :
    Except Stop HeaderScan :=
  if st.req.buffer line = space ∨ st.req.buffer line = tab then
    .error (.reject 400 (ascii "request header invalid: nothing to continue") st.req)
  else
    match firstOf st.req.buffer line lineLen colon with
    | none => .error (.reject 400 (ascii "invalid header 2") st.req)
    | some posCol => do
      let value := line + posCol + 1 + 1
      let valueLen := sizeSub lineLen (posCol + 1 + 1)
      let buffer := Function.update st.req.buffer (line + posCol) 0
      let st := { st with req := { st.req with
        buffer := Function.update buffer (sizeAdd value valueLen) 0 } }
      let key ← stringAt limit st.req.buffer line
      let hdr ← orFault (headersGet env.table.canonicalHeaders key)
      if headersValid hdr then recordHeader env limit st hdr value valueLen else .ok st

def parseHeaders (env : Environment) (limit : Nat) : Nat → HeaderScan → Except Stop HeaderScan
  | 0, _ => .error (.fault .diverged)
  | fuel + 1, st => do
    let (line, lineLen, st) ← takeLine st
    if lineLen = 0 then .ok st
    else
      let st ← parseHeader env limit st line lineLen
      parseHeaders env limit fuel st

def byteAt (limit : Nat) (req : Request) (i : Nat) : Except Stop UInt8 :=
  if i < limit then .ok (req.buffer i) else .error (.fault .overrun)

/-- The host in the URL of an HTTP/1.2 request: the string is moved down by one byte to make
room for its null byte, over the length of the host that the headers gave. -/
def parseAuthority (limit : Nat) (st : HeaderScan) : Except Stop HeaderScan := do
  let path ← stringAt limit st.req.buffer st.req.path
  match occurrence path (ascii "://") with
  | none => .ok st
  | some protocol =>
    let hostPart := st.req.path + protocol + 3
    let text ← stringAt limit st.req.buffer hostPart
    match occurrence text (ascii "/") with
    -- a null pointer is subtracted from
    | none => .error (.fault .undefined)
    | some hostPartLen =>
      if limit < hostPart + st.hostLen then .error (.fault .overrun)
      else
        let moved := store st.req.buffer (hostPart - 1) (slice st.req.buffer hostPart st.hostLen)
        let pathPart := hostPart + hostPartLen
        .ok { st with
          req := { st.req with
            buffer := Function.update moved (hostPart - 1 + st.hostLen) 0
            pathLen := sizeSub (st.req.path + st.req.pathLen) pathPart
            path := pathPart }
          host := some (hostPart - 1)
          hostLen := hostPartLen }

/-- `HTTP/5.7`: only the two bytes at the numbers' places are looked at. -/
def checkVersion (limit : Nat) (st : HeaderScan) : Except Stop HeaderScan := do
  let major ← byteAt limit st.req (st.req.version + 5)
  let minor ← byteAt limit st.req (st.req.version + 7)
  if major ≠ 49 then .error (.reject 400 (ascii "HTTP version not supported") st.req)
  else if minor = 49 then
    if st.host = none then .error (.reject 400 (ascii "HTTP version requires host") st.req) else .ok st
  else if minor = 50 then parseAuthority limit st
  else .ok { st with req := { st.req with keepalive := false } }

def sizeOfInt (n : Int) : Nat := (n % (2^64 : Int)).toNat

def finishRequest (st : HeaderScan) (sock : Socket) : Request :=
  { st.req with
    host := st.host
    hostLen := st.hostLen
    ip := sock.ip
    port := sock.port
    bufferUnread := st.nbytes
    contentLength := sizeOfInt st.contentLength
    contentLengthUnread := sizeOfInt st.contentLength }

def parseRequestLine (req : Request) (nbytes : Nat) : Except Stop (Request × Nat) := do
  let (req, nbytes) ← parseMethod req nbytes
  let (req, nbytes) ← parsePath req nbytes
  parseVersion req nbytes

/-- All the parsing phases, over the bytes received. -/
def parsePhases (env : Environment) (limit : Nat) (req : Request) (nbytes : Nat) :
    Except Stop HeaderScan := do
  let (req, nbytes) ← parseRequestLine req nbytes
  let st ← parseHeaders env limit (nbytes + 1) ⟨{ req with headers := [] }, nbytes, 0, none, 0⟩
  checkVersion limit st

/-- How far a request gets before the hook is called. -/
inductive Arrival where
  | rejected (status : UInt32) (req : Request) (sock : Socket)
  | ready (req : Request) (sock : Socket)

/-- The part of the processing before the hook. A rejection is answered and the socket closed. -/
def requestArrive (env : Environment) (req : Request) (sock : Socket) : Except Fault Arrival := do
  let req := startRequest req
  let (received, req, sock) ← receive (requestMaxLength + 1) req 0 0 sock
  match received.bind (parsePhases env requestMaxLength req) with
  | .error (.fault fault) => .error fault
  | .error (.reject status message req) =>
    .ok (.rejected status req (quickResponseSocket env sock status message false))
  | .ok st => .ok (.ready (finishRequest st sock) sock)

/-- The rest of a chunk comes from the socket. -/
def chunkFromSocket (req : Request) (sock : Socket) (got : Bytes) (bufferLen : Nat) :
    Except Fault ((Bool × Bytes) × Request × Socket) := do
  let (bytes, sock) ← socketRead sock bufferLen
  let readsock := bytes.getD []
  .ok ((bytes.isSome, got ++ readsock),
    { req with contentLengthUnread := sizeSub req.contentLengthUnread readsock.length }, sock)

/-- Returns success and the bytes stored for the caller. Of the two lengths the source means to
find the smallest, as its comment says, and takes the largest. -/
def requestContentChunk (req : Request) (sock : Socket) (bufferLen : Nat) :
    Except Fault ((Bool × Bytes) × Request × Socket) :=
  let bufferLen := if req.contentLengthUnread < bufferLen then req.contentLengthUnread else bufferLen
  if 0 < req.bufferUnread then
    let readable := if bufferLen > req.bufferUnread then bufferLen else req.bufferUnread
    -- a copy from behind the buffer's end
    if requestMaxLength < req.bufferPosition + readable then .error .overrun
    else
      let bytes := slice req.buffer req.bufferPosition readable
      let req := { req with
        bufferPosition := req.bufferPosition + readable
        bufferUnread := sizeSub req.bufferUnread readable
        contentLengthUnread := sizeSub req.contentLengthUnread readable }
      let bufferLen := sizeSub bufferLen readable
      if bufferLen = 0 then .ok ((true, bytes), req, sock) else chunkFromSocket req sock bytes bufferLen
  else chunkFromSocket req sock [] bufferLen

/-- What a handler can do with the request and the response it is given. -/
inductive HandlerAction where
  | chunk (bufferLen : Nat)
  | respond (call : ResponseCall)
  | file
  | cookie

/-- A handler's run: what it does, and the integer it leaves first on the returns stack. -/
structure Handler where
  actions : List HandlerAction
  result : Option Int

/-- Only a chunk replies anything but what the response call does. -/
def handlerAction (env : Environment) (state : Request × Socket) :
    HandlerAction → Except Fault ((Option Bool × Bytes) × Request × Socket)
  | .chunk bufferLen => do
    let ((ok, bytes), state) ← requestContentChunk state.1 state.2 bufferLen
    .ok ((some ok, bytes), state)
  | .respond call => do
    let (ok, res, sock) ← responseCall env.tables state.1.keepalive state.1.contentLengthUnread
      (state.1.response, state.2) call
    .ok ((ok, []), { state.1 with response := res }, sock)
  | .file =>
    let (ok, res) := responseFile state.1.response
    .ok ((some ok, []), { state.1 with response := res }, state.2)
  | .cookie => do
    let res ← responseCookie
    .ok ((none, []), { state.1 with response := res }, state.2)

/-- The end of the processing: put back what was received too much, answer if no handler did,
and return whether the socket is to be processed again. `date` is the time of that answer. -/
def requestFinish (env : Environment) (result : Option Int) (date : CString) (req : Request)
    (sock : Socket) : Except Fault (Bool × Request × Socket) := do
  let keepalive := req.keepalive ∧ req.contentLengthUnread = 0 ∧ (result = none ∨ result = some 0)
  if keepalive ∧ 0 < req.bufferUnread ∧ requestMaxLength < req.bufferPosition + req.bufferUnread then
    .error .overrun
  else
    let sock := if keepalive ∧ 0 < req.bufferUnread then
        socketRequeue sock (slice req.buffer req.bufferPosition req.bufferUnread)
      else sock
    if result = none then
      let res := responseStatus req.response 500
      let (_, res, sock) ← responseData env.tables req.keepalive req.contentLengthUnread date res sock
        (ascii "no request handler\n")
      .ok (res.keepalive, { req with response := res }, sock)
    else .ok (req.response.keepalive, req, sock)

/-- One call of `cflare_request_process_socket`, with what the handlers of the hook do in it. -/
def requestProcessSocket (env : Environment) (handler : Handler) (date : CString) (req : Request)
    (sock : Socket) : Except Fault (Bool × Request × Socket) := do
  match ← requestArrive env req sock with
  | .rejected _ req sock => .ok (false, req, sock)
  | .ready req sock =>
    let (_, req, sock) ← runCalls (handlerAction env) (req, sock) handler.actions
    requestFinish env handler.result date req sock

end CFlare.Http
