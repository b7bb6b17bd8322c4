import CFlare.Http.RequestBody
import CFlare.Http.RequestHeaders

/-! What a handler is given, and how a request gets there: a front part of the stream is
received, parsed in the buffer, and the rest of it is left to be read. -/
namespace CFlare.Http
open CFlare.Library CFlare.Network
variable {env : Environment} {req req' : Request} {sock sock' : Socket}

/-- The string that a pointer of the request stands for. -/
def stringOf (req : Request) (start : Nat) : Option Bytes :=
  cstring req.buffer start (requestMaxLength - start)

/-- What a handler can see of a request, its pointers read as strings. -/
structure RequestView where
  method : Option Bytes
  methodLen : Nat
  path : Option Bytes
  pathLen : Nat
  query : Option (Option Bytes)
  queryLen : Nat
  version : Option Bytes
  versionLen : Nat
  headers : List (Header × Option Bytes × Nat)
  host : Option (Option Bytes)
  hostLen : Nat
  contentLength : Nat
  contentLengthUnread : Nat
  keepalive : Bool
  deriving DecidableEq, Repr

def requestView (req : Request) : RequestView where
  method := stringOf req req.method
  methodLen := req.methodLen
  path := stringOf req req.path
  pathLen := req.pathLen
  query := req.query.map (stringOf req)
  queryLen := req.queryLen
  version := stringOf req req.version
  versionLen := req.versionLen
  headers := req.headers.map (fun h => (h.header, stringOf req h.value, h.valueLen))
  host := req.host.map (stringOf req)
  hostLen := req.hostLen
  contentLength := req.contentLength
  contentLengthUnread := req.contentLengthUnread
  keepalive := req.keepalive

def filled (req : Request) (bytes : Bytes) : Request :=
  { startRequest req with
    buffer := store req.buffer 0 bytes
    bufferFreespace := requestMaxLength - bytes.length }

@[simp] theorem filled_position (req : Request) (bytes : Bytes) : (filled req bytes).bufferPosition = 0 := rfl

theorem filled_buffer {bytes : Bytes} {i : Nat} (h : i < bytes.length) :
    (filled req bytes).buffer i = bytes[i] := by
  have hat : store req.buffer 0 bytes (0 + i) = bytes[i] := store_at h
  rwa [Nat.zero_add] at hat

theorem filled_slice (req : Request) (bytes : Bytes) :
    slice (filled req bytes).buffer 0 bytes.length = bytes := slice_store

/-- What a call comes to with the end of its parsing. -/
def arrive (env : Environment) (sock : Socket) : Except Stop HeaderScan → Except Fault Arrival
  | .error (.fault fault) => .error fault
  | .error (.reject status message req) =>
    .ok (.rejected status req (quickResponseSocket env sock status message false))
  | .ok st => .ok (.ready (finishRequest st sock) sock)

def Fetched.parsed (env : Environment) (req : Request) : Fetched → Except Stop HeaderScan
  | .failed bytes => .error (.reject 400 (ascii "recv error") { startRequest req with
      buffer := store req.buffer 0 bytes })
  | .tooLong bytes => .error (.reject 413 (ascii "request too long") { startRequest req with
      buffer := store req.buffer 0 bytes })
  | .got bytes => parsePhases env requestMaxLength (filled req bytes) bytes.length

/-- Every call receives a front part of the stream, whatever its request object holds, and goes
on with that. -/
theorem requestArrive_spec (env : Environment) (hw : sock.WellFormed) :
    ∃ fetched sock', sock'.WellFormed ∧ sock.pending = fetched.bytes ++ sock'.pending ∧
      fetched.Holds [] ∧ fetchBlock (requestMaxLength + 1) 0 0 sock = .ok (fetched, sock') ∧
      ∀ req, requestArrive env req sock = arrive env sock' (fetched.parsed env req) := by
  obtain ⟨fetched, sock', hw', hpend, hholds, hfetch, hreceive⟩ := receive_spec hw
  refine ⟨fetched, sock', hw', hpend, hholds, hfetch, fun req => ?_⟩
  rw [requestArrive]
  dsimp only
  rw [hreceive req, fault_ok_bind]
  cases fetched with
  | failed bytes => rfl
  | tooLong bytes => rfl
  | got bytes =>
    simp only [Fetched.stored, Fetched.parsed, Nat.zero_add]
    show arrive env sock' (parsePhases env requestMaxLength (filled req bytes) bytes.length) = _
    rfl

/-- The bytes of a block, and perhaps more, taken off the stream. -/
structure Received (sock : Socket) (bytes : Bytes) (sock' : Socket) : Prop where
  stream : sock'.WellFormed
  received : sock.pending = bytes ++ sock'.pending
  short : bytes.length < requestMaxLength
  block : ∃ stop, blockEnd 0 bytes = some stop

/-- How a request arrived: what was received of the stream, and how it was parsed. -/
structure Arrived (env : Environment) (req : Request) (sock : Socket) (bytes : Bytes) (st : HeaderScan)
    (req' : Request) (sock' : Socket) : Prop extends Received sock bytes sock' where
  phases : parsePhases env requestMaxLength (filled req bytes) bytes.length = .ok st
  finished : req' = finishRequest st sock'

theorem requestArrive_got {bytes : Bytes} (env : Environment) (hw : sock.WellFormed)
    (h : fetchBlock (requestMaxLength + 1) 0 0 sock = .ok (.got bytes, sock')) :
    Received sock bytes sock' ∧ ∀ req, requestArrive env req sock =
      arrive env sock' (parsePhases env requestMaxLength (filled req bytes) bytes.length) := by
  obtain ⟨fetched, sock1, hw1, hpending, hholds, hfetch, harrive⟩ := requestArrive_spec env hw
  obtain ⟨rfl, rfl⟩ := Prod.mk.inj (Except.ok.inj (hfetch.symm.trans h))
  exact ⟨⟨hw1, hpending, hholds.1, hholds.2⟩, harrive⟩

theorem requestArrive_ready (hw : sock.WellFormed) (h : requestArrive env req sock = .ok (.ready req' sock')) :
    ∃ bytes st, Arrived env req sock bytes st req' sock' := by
  obtain ⟨fetched, sock1, hw1, hpend, hholds, -, harrive⟩ := requestArrive_spec env hw
  rw [harrive req] at h
  cases fetched with
  | failed bytes => cases h
  | tooLong bytes => cases h
  | got bytes =>
    cases hp : Fetched.parsed env req (.got bytes) with
    | error stop =>
      rw [hp] at h
      cases stop <;> cases h
    | ok st =>
      rw [hp] at h
      obtain ⟨rfl, rfl⟩ := Arrival.ready.inj (Except.ok.inj h)
      exact ⟨bytes, st, ⟨hw1, hpend, hholds.1, hholds.2⟩, hp, rfl⟩

namespace Arrived
variable {bytes : Bytes} {st : HeaderScan}

theorem parsed (h : Arrived env req sock bytes st req' sock') :
    Parsed (filled req bytes).buffer bytes.length st :=
  parsePhases_parsed rfl h.short.le (Nat.le_refl _) h.phases

/-- The left-over bytes are those received behind the cursor. -/
theorem leftover (h : Arrived env req sock bytes st req' sock') :
    slice req'.buffer req'.bufferPosition req'.bufferUnread = bytes.drop req'.bufferPosition := by
  obtain ⟨-, htotal, hahead, -⟩ := h.parsed
  rw [h.finished]
  show slice st.req.buffer st.req.bufferPosition st.nbytes = bytes.drop st.req.bufferPosition
  calc slice st.req.buffer st.req.bufferPosition st.nbytes
      = slice (filled req bytes).buffer st.req.bufferPosition st.nbytes :=
        slice_congr (fun i hi _ => hahead i hi)
    _ = (slice (filled req bytes).buffer 0 (st.req.bufferPosition + st.nbytes)).drop
          st.req.bufferPosition := by rw [slice_drop, Nat.zero_add]
    _ = bytes.drop st.req.bufferPosition := by rw [htotal, filled_slice]

/-- What is still to be read is the stream behind the cursor. -/
theorem unread (h : Arrived env req sock bytes st req' sock') :
    unreadBytes req' sock' = sock.pending.drop req'.bufferPosition := by
  obtain ⟨-, htotal, -, -⟩ := h.parsed
  have hle : req'.bufferPosition ≤ bytes.length := by
    rw [h.finished, ← htotal]
    exact Nat.le_add_right _ _
  rw [unreadBytes, h.leftover, h.received, List.drop_append_of_le_length hle]

theorem response (h : Arrived env req sock bytes st req' sock') :
    req'.response = responseInit { req.response with keepalive := true } := by
  rw [h.finished]
  exact parsePhases_response rfl h.short.le h.phases

/-- A request that arrived is one whose body can be read. -/
theorem ready (h : Arrived env req sock bytes st req' sock') : BodyReady req' sock' := by
  obtain ⟨hroom, htotal, -, -⟩ := h.parsed
  rw [h.finished]
  refine ⟨?_, ?_, h.stream⟩
  · show st.req.bufferPosition + st.nbytes ≤ requestMaxLength
    rw [htotal]
    exact hroom
  · have hpos : (0 : Int) < 2^64 := by decide
    have hlt := Int.emod_lt_of_pos st.contentLength hpos
    have hge := Int.emod_nonneg st.contentLength hpos.ne'
    show sizeOfInt st.contentLength < sizeLimit
    rw [sizeOfInt, sizeLimit]
    omega

end Arrived

/-- A server that knows the common headers, and no text for any status. -/
noncomputable def plainEnvironment : Environment where
  table := commonTable
  statusString := fun _ => none
  statusShort := noStatus_short
  float := machineArith

end CFlare.Http
