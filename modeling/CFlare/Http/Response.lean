import CFlare.Http.Headers
import CFlare.Network.Socket

/-! The response: header lines are formatted into a fixed buffer, and the first finalizer
sends the status line and the buffer. -/
namespace CFlare.Http
open CFlare.Library CFlare.Network

def responseMaxLength : Nat := 4096

/-- What happens to the buffer: the free space is computed at a position, or bytes are written. -/
inductive BufferEvent where
  | freeSpace (pos : Nat)
  | write (start count : Nat)
  deriving DecidableEq, Repr

/-- `events` is no field of the source: it records what has happened to the buffer since the
response was initialised. The memory goes on behind the buffer's end. -/
structure Response where
  statusCode : UInt32
  sent : Bool
  keepalive : Bool
  bufferPos : Nat
  buffer : Memory
  events : List BufferEvent

/-- The tables that a response is formatted from. The files list the common headers and no
overlong status text. -/
structure Tables where
  common : CommonHeaders
  statusString : UInt32 → Option CString
  contentLengthNamed : common.contentLength.name ≠ none
  serverNamed : common.server.name ≠ none
  dateNamed : common.date.name ≠ none
  connectionNamed : common.connection.name ≠ none
  statusShort : ∀ code text, statusString code = some text → text.bytes.length ≤ 64

/-- No texts at all. -/
theorem noStatus_short (_ : UInt32) (text : CString) (h : none = some text) : text.bytes.length ≤ 64 := by
  cases h

def responseInit (res : Response) : Response :=
  { res with statusCode := 0, bufferPos := 0, sent := false, events := [] }

def responseStatus (res : Response) (status : UInt32) : Response := { res with statusCode := status }

def responseKeepalive (res : Response) (keepalive : Bool) : Response :=
  { res with keepalive := keepalive }

namespace Response

def freeSpace (res : Response) : Nat × Response :=
  (sizeSub (sizeSub responseMaxLength res.bufferPos) 1,
    { res with events := res.events ++ [.freeSpace res.bufferPos] })

def write (res : Response) (bytes : Bytes) : Response :=
  { res with
    buffer := store res.buffer res.bufferPos bytes
    events := res.events ++ [.write res.bufferPos bytes.length] }

end Response

/-- A line that does not fit is dropped with a warning. -/
def responseHeader (res : Response) (hdr : Header) (value : CString) : Except Fault Response :=
  match hdr.name with
  | none => .error .undefined
  | some key =>
    let req := sizeAdd (sizeAdd key.bytes.length value.bytes.length) 3
    let (free, res) := res.freeSpace
    if req > free then .ok res
    else
      let res := res.write (key.bytes ++ ascii ": " ++ value.bytes ++ [newline])
      .ok { res with bufferPos := sizeAdd res.bufferPos req }

/-- A size in decimal, as `snprintf` prints it. -/
def decimal (n : Nat) : Bytes := (Nat.toDigits 10 n).map (fun c => c.toNat.toUInt8)

theorem decimal_digits {n : Nat} {b : UInt8} (h : b ∈ decimal n) : 48 ≤ b ∧ b ≤ 57 := by
  obtain ⟨c, hc, rfl⟩ := List.mem_map.mp h
  have hd := Nat.isDigit_of_mem_toDigits (by decide) (by decide) hc
  simp only [Char.isDigit, ge_iff_le, Bool.and_eq_true, decide_eq_true_eq] at hd
  have hl : 48 ≤ c.toNat := UInt32.le_iff_toNat_le.mp hd.1
  have hu : c.toNat ≤ 57 := UInt32.le_iff_toNat_le.mp hd.2
  have hcode : c.toNat.toUInt8.toNat = c.toNat := by
    rw [Nat.toUInt8_eq, UInt8.toNat_ofNat']
    omega
  rw [UInt8.le_iff_toNat_le, UInt8.le_iff_toNat_le, hcode]
  exact ⟨hl, hu⟩

theorem decimal_noNull (n : Nat) : (0 : UInt8) ∉ decimal n := fun h => absurd (decimal_digits h).1 (by decide)

/-- What 32 bytes hold of it, the null byte included. -/
def contentLengthText (n : Nat) : CString :=
  ⟨(decimal n).take 31, fun h => decimal_noNull n (List.mem_of_mem_take h),
    Nat.lt_of_le_of_lt (Nat.add_le_add_right (List.length_take_le 31 _) 1) (by decide)⟩

def serverText : CString := ⟨ascii "cflare", by decide, by decide⟩
def keepAliveText : CString := ⟨ascii "keep-alive", by decide, by decide⟩
def closeText : CString := ⟨ascii "close", by decide, by decide⟩

section Sending
variable (tables : Tables)

def statusLine (status : UInt32) : Bytes :=
  let statusString := ((tables.statusString status).map CString.bytes).getD (ascii "Unknown")
  ascii "HTTP/1.1 " ++ decimal status.toNat ++ ascii " " ++ statusString ++ [newline]

/-- The headers that every response gets. Of the request a finalizer reads whether it keeps
the connection and how much of its body is unread; `date` is the formatted time of the call. -/
def requiredHeaders (reqKeepalive : Bool) (contentLengthUnread : Nat) (date : CString)
    (res : Response) : Except Fault Response := do
  let res := { res with keepalive := reqKeepalive && res.keepalive && contentLengthUnread = 0 }
  let res ← responseHeader res tables.common.server serverText
  let res ← responseHeader res tables.common.date date
  responseHeader res tables.common.connection (if res.keepalive then keepAliveText else closeText)

/-- The status line goes out on its own; then a newline ends the buffer. -/
def sendBuffer (res : Response) (sock : Socket) : Except Fault (Bool × Response × Socket) :=
  let status := statusLine tables res.statusCode
  -- the text of a longer line is cut by `snprintf`, its length is not
  if 128 ≤ status.length then .error .undefined
  else
    match socketWrite sock status with
    | (false, sock) => .ok (false, res, sock)
    | (true, sock) =>
      let res := res.write [newline]
      let res := { res with bufferPos := sizeAdd res.bufferPos 1 }
      let (ok, sock) := socketWrite sock (slice res.buffer 0 res.bufferPos)
      .ok (ok, res, sock)

def sendHeaders (reqKeepalive : Bool) (contentLengthUnread : Nat) (date : CString) (res : Response)
    (sock : Socket) : Except Fault (Bool × Response × Socket) :=
  if res.sent then .ok (false, res, sock)
  else do
    let res ← requiredHeaders tables reqKeepalive contentLengthUnread date res
    sendBuffer tables { res with sent := true } sock

def responseData (reqKeepalive : Bool) (contentLengthUnread : Nat) (date : CString) (res : Response)
    (sock : Socket) (buffer : Bytes) : Except Fault (Bool × Response × Socket) := do
  let res ← responseHeader res tables.common.contentLength (contentLengthText buffer.length)
  let (sent, res, sock) ← sendHeaders tables reqKeepalive contentLengthUnread date res sock
  if sent then
    let (ok, sock) := socketWrite sock buffer
    .ok (ok, res, sock)
  else .ok (false, res, sock)

end Sending

/-- Files are not implemented: nothing is sent. -/
def responseFile (res : Response) : Bool × Response := (false, res)

/-- Cookies are not implemented: `cflare_notimp` ends the program. -/
def responseCookie : Except Fault Response := .error .abort

inductive ResponseCall where
  | header (id : Int) (name value : CString)
  | status (status : UInt32)
  | keepalive (keepalive : Bool)
  | data (date : CString) (buffer : Bytes)

/-- A finalizer replies whether the data was sent; the other calls reply nothing. -/
def responseCall (tables : Tables) (reqKeepalive : Bool) (contentLengthUnread : Nat)
    (state : Response × Socket) :
    ResponseCall → Except Fault (Option Bool × Response × Socket)
  | .header id name value => do
    let res ← responseHeader state.1 ⟨id, some name⟩ value
    .ok (none, res, state.2)
  | .status status => .ok (none, responseStatus state.1 status, state.2)
  | .keepalive keepalive => .ok (none, responseKeepalive state.1 keepalive, state.2)
  | .data date buffer => do
    let (ok, res, sock) ←
      responseData tables reqKeepalive contentLengthUnread date state.1 state.2 buffer
    .ok (some ok, res, sock)

end CFlare.Http
