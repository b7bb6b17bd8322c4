import CFlare.Http.Response
import CFlare.Library.Runs
import Mathlib.Data.List.Induction

/-! Where a response writes its buffer. A finalizer whose header lines leave no byte free moves
the position to the end of the buffer; the next line computes its free space from there. -/
namespace CFlare.Http
open CFlare.Library CFlare.Network

def BufferEvent.Within : BufferEvent → Prop
  | .freeSpace pos => pos + 1 ≤ responseMaxLength
  | .write start count => start + count ≤ responseMaxLength

/-- No write went past the buffer, no free space has wrapped, and the position is inside. -/
structure BufferSafe (res : Response) : Prop where
  pos : res.bufferPos ≤ responseMaxLength
  events : ∀ event ∈ res.events, event.Within

/-- Only what a response records has been added, starting with the free space at a position. -/
def Records (res res' : Response) : Prop := res.events <+: res'.events

theorem Records.trans {a b c : Response} (h : Records a b) (h' : Records b c) : Records a c :=
  List.IsPrefix.trans h h'

theorem freeSpace_records (res : Response) : Records res res.freeSpace.2 := List.prefix_append _ _

section Headers
variable {res : Response} {hdr : Header} {key value : CString}

private theorem freeSpace_eq (h : res.bufferPos < responseMaxLength) :
    sizeSub (sizeSub responseMaxLength res.bufferPos) 1 = responseMaxLength - res.bufferPos - 1 := by
  have hlt : responseMaxLength < sizeLimit := by decide
  rw [sizeSub_of_le (Nat.le_of_lt h) hlt, sizeSub_of_le (by omega) (by omega)]

private theorem required_eq (key value : CString) :
    sizeAdd (sizeAdd key.bytes.length value.bytes.length) 3 =
      key.bytes.length + value.bytes.length + 3 := by
  have hlimit : sizeLimit = 2^63 + 2^63 := rfl
  have hk := key.short
  have hv := value.short
  rw [sizeAdd_of_lt (show key.bytes.length + value.bytes.length < sizeLimit by omega),
    sizeAdd_of_lt (show key.bytes.length + value.bytes.length + 3 < sizeLimit by omega)]

def headerLine (key value : CString) : Bytes := key.bytes ++ ascii ": " ++ value.bytes ++ [newline]

theorem headerLine_length (key value : CString) :
    (headerLine key value).length = key.bytes.length + value.bytes.length + 3 := by
  have hsep : (ascii ": ").length = 2 := rfl
  rw [headerLine, List.length_append, List.length_append, List.length_append, hsep, List.length_singleton]
  omega

def Response.appendLine (res : Response) (line : Bytes) : Response :=
  { res.freeSpace.2.write line with bufferPos := res.bufferPos + line.length }

/-- Inside the buffer a line is written when it leaves a byte for the final newline. -/
theorem responseHeader_fits (hn : hdr.name = some key)
    (h : res.bufferPos + (headerLine key value).length < responseMaxLength) :
    responseHeader res hdr value = .ok (res.appendLine (headerLine key value)) := by
  have hlt : responseMaxLength < sizeLimit := by decide
  have hadd : sizeAdd res.bufferPos (key.bytes.length + value.bytes.length + 3) =
      res.bufferPos + (headerLine key value).length := by
    rw [← headerLine_length]
    exact sizeAdd_of_lt (Nat.lt_trans h hlt)
  have hfit : ¬ key.bytes.length + value.bytes.length + 3 > responseMaxLength - res.bufferPos - 1 := by
    rw [headerLine_length] at h
    omega
  simp only [responseHeader, hn, Response.freeSpace, required_eq, freeSpace_eq (show res.bufferPos < _ by omega)]
  rw [if_neg hfit]
  simp only [Response.write, hadd]
  rfl

theorem responseHeader_drops (hn : hdr.name = some key) (hpos : res.bufferPos < responseMaxLength)
    (h : ¬ res.bufferPos + (headerLine key value).length < responseMaxLength) :
    responseHeader res hdr value = .ok res.freeSpace.2 := by
  have hfit : key.bytes.length + value.bytes.length + 3 > responseMaxLength - res.bufferPos - 1 := by
    rw [headerLine_length] at h
    omega
  simp only [responseHeader, hn, Response.freeSpace, required_eq, freeSpace_eq hpos]
  rw [if_pos hfit]

theorem responseHeader_records (hn : hdr.name ≠ none) (res : Response) (value : CString) :
    ∃ res', responseHeader res hdr value = .ok res' ∧ res'.sent = res.sent ∧
      Records res.freeSpace.2 res' := by
  obtain ⟨key, hn⟩ := Option.ne_none_iff_exists'.mp hn
  simp only [responseHeader, hn]
  split
  · exact ⟨_, rfl, rfl, List.prefix_rfl⟩
  · exact ⟨_, rfl, rfl, List.prefix_append _ _⟩

/-- A line added inside the buffer keeps it safe, and the position stays short of its end. -/
theorem responseHeader_safe (hn : hdr.name ≠ none) (hs : BufferSafe res)
    (hpos : res.bufferPos < responseMaxLength) (value : CString) :
    ∃ res', responseHeader res hdr value = .ok res' ∧ res'.sent = res.sent ∧ BufferSafe res' ∧
      res'.bufferPos < responseMaxLength := by
  obtain ⟨key, hn⟩ := Option.ne_none_iff_exists'.mp hn
  have hfree : ∀ event ∈ res.freeSpace.2.events, event.Within := by
    intro event he
    rcases List.mem_append.mp he with he | he
    · exact hs.events event he
    · rw [List.mem_singleton.mp he]
      exact hpos
  by_cases h : res.bufferPos + (headerLine key value).length < responseMaxLength
  · refine ⟨_, responseHeader_fits hn h, rfl, ⟨Nat.le_of_lt h, fun event he => ?_⟩, h⟩
    rcases List.mem_append.mp he with he | he
    · exact hfree event he
    · rw [List.mem_singleton.mp he]
      exact Nat.le_of_lt h
  · exact ⟨_, responseHeader_drops hn hpos h, rfl, ⟨hs.pos, hfree⟩, hpos⟩

end Headers

section Finalizers
variable (tables : Tables)

theorem status_digits (status : UInt32) : (decimal status.toNat).length ≤ 10 := by
  have hlt : status.toNat < 10^10 := Nat.lt_trans status.toNat_lt (by decide)
  rw [decimal, List.length_map]
  exact (Nat.length_toDigits_le_iff (by decide) (by decide)).mpr hlt

theorem statusLine_short (status : UInt32) :
    (statusLine tables status).length < 128 := by
  have hdigits := status_digits status
  have htext : (((tables.statusString status).map CString.bytes).getD (ascii "Unknown")).length ≤ 64 := by
    cases hs : tables.statusString status with
    | none => decide
    | some text => exact tables.statusShort status text hs
  have hhead : (ascii "HTTP/1.1 ").length = 9 := rfl
  have hsep : (ascii " ").length = 1 := rfl
  simp only [statusLine, List.length_append, hhead, hsep, List.length_singleton]
  omega

theorem requiredHeaders_safe {res : Response} (hs : BufferSafe res)
    (hpos : res.bufferPos < responseMaxLength) (reqKeepalive : Bool) (contentLengthUnread : Nat)
    (date : CString) :
    ∃ res', requiredHeaders tables reqKeepalive contentLengthUnread date res = .ok res' ∧
      BufferSafe res' ∧ res'.bufferPos < responseMaxLength := by
  let res0 : Response :=
    { res with keepalive := reqKeepalive && res.keepalive && contentLengthUnread = 0 }
  have hs0 : BufferSafe res0 := ⟨hs.pos, hs.events⟩
  obtain ⟨res1, he1, -, hs1, hp1⟩ := responseHeader_safe tables.serverNamed hs0 hpos serverText
  obtain ⟨res2, he2, -, hs2, hp2⟩ := responseHeader_safe tables.dateNamed hs1 hp1 date
  obtain ⟨res3, he3, -, hs3, hp3⟩ := responseHeader_safe tables.connectionNamed hs2 hp2
    (if res2.keepalive then keepAliveText else closeText)
  refine ⟨res3, ?_, hs3, hp3⟩
  show responseHeader res0 _ _ >>= _ = _
  rw [he1, fault_ok_bind, he2, fault_ok_bind, he3]

/-- The final newline goes right behind the header lines, if the status line could be sent. -/
theorem sendBuffer_cases (res : Response) (sock : Socket) :
    (∃ sock', sendBuffer tables res sock = .ok (false, res, sock')) ∨
      ∃ ok sock', sendBuffer tables res sock =
        .ok (ok, { res.write [newline] with bufferPos := sizeAdd res.bufferPos 1 }, sock') := by
  unfold sendBuffer
  rw [if_neg (Nat.not_le.mpr (statusLine_short tables _))]
  cases hw : socketWrite sock (statusLine tables res.statusCode) with
  | mk ok sock' =>
    cases ok with
    | false => exact .inl ⟨sock', rfl⟩
    | true => exact .inr ⟨_, _, rfl⟩

/-- A finalizer moves the position to the end of the buffer at most; later ones do nothing. -/
theorem sendHeaders_safe {res : Response} (hs : BufferSafe res)
    (hpos : res.bufferPos < responseMaxLength) (reqKeepalive : Bool) (contentLengthUnread : Nat)
    (date : CString) (sock : Socket) :
    ∃ ok res' sock', sendHeaders tables reqKeepalive contentLengthUnread date res sock =
      .ok (ok, res', sock') ∧ BufferSafe res' := by
  unfold sendHeaders
  cases hsent : res.sent with
  | true => exact ⟨false, res, sock, rfl, hs⟩
  | false =>
    obtain ⟨res1, he, hs1, hp1⟩ := requiredHeaders_safe tables hs hpos reqKeepalive
      contentLengthUnread date
    rw [if_neg (by decide), he, fault_ok_bind]
    rcases sendBuffer_cases tables { res1 with sent := true } sock with
      ⟨sock', hb⟩ | ⟨ok, sock', hb⟩
    · exact ⟨false, _, sock', hb, hs1.pos, hs1.events⟩
    · refine ⟨ok, _, sock', hb, ?_, fun event hev => ?_⟩
      · show sizeAdd res1.bufferPos 1 ≤ responseMaxLength
        rw [sizeAdd_of_lt (Nat.lt_of_le_of_lt hp1 (by decide))]
        exact hp1
      · rcases List.mem_append.mp hev with hev | hev
        · exact hs1.events event hev
        · rw [List.mem_singleton.mp hev]
          exact hp1

theorem sendHeaders_records (res : Response) (reqKeepalive : Bool) (contentLengthUnread : Nat)
    (date : CString) (sock : Socket) :
    ∃ ok res' sock', sendHeaders tables reqKeepalive contentLengthUnread date res sock =
      .ok (ok, res', sock') ∧ Records res res' := by
  unfold sendHeaders
  cases hsent : res.sent with
  | true => exact ⟨false, res, sock, rfl, List.prefix_rfl⟩
  | false =>
    let res0 : Response :=
      { res with keepalive := reqKeepalive && res.keepalive && contentLengthUnread = 0 }
    obtain ⟨res1, he1, -, hr1⟩ := responseHeader_records tables.serverNamed res0 serverText
    obtain ⟨res2, he2, -, hr2⟩ := responseHeader_records tables.dateNamed res1 date
    obtain ⟨res3, he3, -, hr3⟩ := responseHeader_records tables.connectionNamed res2
      (if res2.keepalive then keepAliveText else closeText)
    have hreq : requiredHeaders tables reqKeepalive contentLengthUnread date res = .ok res3 := by
      show responseHeader res0 _ _ >>= _ = _
      rw [he1, fault_ok_bind, he2, fault_ok_bind, he3]
    have h1 : Records res res1 := (freeSpace_records res0).trans hr1
    have h2 : Records res1 res2 := (freeSpace_records res1).trans hr2
    have hall : Records res res3 := (h1.trans h2).trans ((freeSpace_records res2).trans hr3)
    rw [if_neg (by decide), hreq, fault_ok_bind]
    rcases sendBuffer_cases tables { res3 with sent := true } sock with
      ⟨sock', hb⟩ | ⟨ok, sock', hb⟩
    · exact ⟨false, _, sock', hb, hall⟩
    · exact ⟨ok, _, sock', hb, hall.trans (List.prefix_append _ _)⟩

theorem responseHeader_full {res : Response} {hdr : Header} (hn : hdr.name ≠ none)
    (hpos : res.bufferPos + 1 = responseMaxLength) (value : CString) :
    responseHeader res hdr value = .ok res.freeSpace.2 := by
  obtain ⟨key, hn⟩ := Option.ne_none_iff_exists'.mp hn
  refine responseHeader_drops hn (Nat.lt_of_succ_le (Nat.le_of_eq hpos)) ?_
  rw [headerLine_length]
  omega

/-- Header lines that leave no byte but the newline's own, and a finalizer that gets its status
line out, move the position to the end of the buffer. -/
theorem sendHeaders_full {res : Response} (hsent : res.sent = false)
    (hpos : res.bufferPos + 1 = responseMaxLength) (reqKeepalive : Bool) (contentLengthUnread : Nat)
    (date : CString) {sock : Socket} (hsend : ∀ bytes, (socketWrite sock bytes).1 = true) :
    ∃ ok res' sock', sendHeaders tables reqKeepalive contentLengthUnread date res sock =
      .ok (ok, res', sock') ∧ res'.bufferPos = responseMaxLength := by
  let res0 : Response :=
    { res with keepalive := reqKeepalive && res.keepalive && contentLengthUnread = 0 }
  let res3 : Response := res0.freeSpace.2.freeSpace.2.freeSpace.2
  have hpos0 : res0.bufferPos + 1 = responseMaxLength := hpos
  have hpos1 : res0.freeSpace.2.bufferPos + 1 = responseMaxLength := hpos
  have h1 : responseHeader res0 tables.common.server serverText = .ok res0.freeSpace.2 :=
    responseHeader_full tables.serverNamed hpos0 serverText
  have h2 : responseHeader res0.freeSpace.2 tables.common.date date = .ok res0.freeSpace.2.freeSpace.2 :=
    responseHeader_full tables.dateNamed hpos1 date
  have h3 : ∀ value, responseHeader res0.freeSpace.2.freeSpace.2 tables.common.connection value = .ok res3 :=
    responseHeader_full tables.connectionNamed hpos
  have hreq : requiredHeaders tables reqKeepalive contentLengthUnread date res = .ok res3 := by
    show responseHeader res0 _ _ >>= _ = _
    rw [h1, fault_ok_bind, h2, fault_ok_bind, h3]
  rw [sendHeaders, hsent, if_neg (by decide), hreq, fault_ok_bind, sendBuffer,
    if_neg (Nat.not_le.mpr (statusLine_short tables _))]
  have hw := hsend (statusLine tables res3.statusCode)
  revert hw
  cases socketWrite sock (statusLine tables res3.statusCode) with
  | mk ok sock' =>
    rintro rfl
    refine ⟨_, _, _, rfl, ?_⟩
    show sizeAdd res.bufferPos 1 = responseMaxLength
    rw [sizeAdd_of_lt (Nat.lt_of_le_of_lt (Nat.le_of_eq hpos) (by decide)), hpos]

end Finalizers

/-- The calls that format header lines. -/
def ResponseCall.formats : ResponseCall → Prop
  | .header .. | .data .. => True
  | .status _ | .keepalive _ => False

section Calls
variable (tables : Tables) (reqKeepalive : Bool) (contentLengthUnread : Nat)

private theorem responseData_after (res : Response) (sock : Socket) {res1 : Response}
    {date : CString} {buffer : Bytes} {ok : Bool} {res2 : Response} {sock2 : Socket}
    (h1 : responseHeader res tables.common.contentLength (contentLengthText buffer.length) = .ok res1)
    (h2 : sendHeaders tables reqKeepalive contentLengthUnread date res1 sock = .ok (ok, res2, sock2)) :
    ∃ ok' sock', responseData tables reqKeepalive contentLengthUnread date res sock buffer =
      .ok (ok', res2, sock') := by
  rw [responseData, h1, fault_ok_bind, h2, fault_ok_bind]
  cases ok with
  | false => exact ⟨false, sock2, rfl⟩
  | true => exact ⟨_, _, rfl⟩

theorem responseCall_safe {res : Response} (hs : BufferSafe res) (sock : Socket) (call : ResponseCall)
    (hpos : call.formats → res.bufferPos ≠ responseMaxLength) :
    ∃ reply res' sock', responseCall tables reqKeepalive contentLengthUnread (res, sock) call =
      .ok (reply, res', sock') ∧ BufferSafe res' := by
  cases call with
  | header id name value =>
    have hn : (⟨id, some name⟩ : Header).name ≠ none := by simp
    obtain ⟨res', he, -, hs', -⟩ := responseHeader_safe hn hs
      (Nat.lt_of_le_of_ne hs.pos (hpos trivial)) value
    exact ⟨none, res', sock, by rw [responseCall, he]; rfl, hs'⟩
  | status status => exact ⟨none, _, sock, rfl, hs.pos, hs.events⟩
  | keepalive keepalive => exact ⟨none, _, sock, rfl, hs.pos, hs.events⟩
  | data date buffer =>
    obtain ⟨res1, he1, -, hs1, hp1⟩ := responseHeader_safe tables.contentLengthNamed hs
      (Nat.lt_of_le_of_ne hs.pos (hpos trivial)) (contentLengthText buffer.length)
    obtain ⟨ok, res2, sock2, he2, hs2⟩ :=
      sendHeaders_safe tables hs1 hp1 reqKeepalive contentLengthUnread date sock
    obtain ⟨ok', sock', he⟩ := responseData_after tables reqKeepalive contentLengthUnread res sock he1 he2
    exact ⟨some ok', res2, sock', by rw [responseCall, he]; rfl, hs2⟩

theorem responseCall_records (res : Response) (sock : Socket) (call : ResponseCall) :
    ∃ reply res' sock', responseCall tables reqKeepalive contentLengthUnread (res, sock) call =
      .ok (reply, res', sock') ∧ Records res res' ∧ (call.formats → Records res.freeSpace.2 res') := by
  cases call with
  | header id name value =>
    have hn : (⟨id, some name⟩ : Header).name ≠ none := by simp
    obtain ⟨res', he, -, hr⟩ := responseHeader_records hn res value
    exact ⟨none, res', sock, by rw [responseCall, he]; rfl, (freeSpace_records res).trans hr,
      fun _ => hr⟩
  | status status => exact ⟨none, _, sock, rfl, List.prefix_rfl, False.elim⟩
  | keepalive keepalive => exact ⟨none, _, sock, rfl, List.prefix_rfl, False.elim⟩
  | data date buffer =>
    obtain ⟨res1, he1, -, hr1⟩ := responseHeader_records tables.contentLengthNamed res
      (contentLengthText buffer.length)
    obtain ⟨ok, res2, sock2, he2, hr2⟩ :=
      sendHeaders_records tables res1 reqKeepalive contentLengthUnread date sock
    obtain ⟨ok', sock', he⟩ := responseData_after tables reqKeepalive contentLengthUnread res sock he1 he2
    have hall := hr1.trans hr2
    exact ⟨some ok', res2, sock', by rw [responseCall, he]; rfl,
      (freeSpace_records res).trans hall, fun _ => hall⟩

theorem not_safe_of_records {res res' : Response} (h : Records res.freeSpace.2 res')
    (hpos : res.bufferPos = responseMaxLength) : ¬ BufferSafe res' := by
  intro hs
  have hm : BufferEvent.freeSpace res.bufferPos ∈ res'.events :=
    h.subset (List.mem_append_right _ List.mem_cons_self)
  have hw : res.bufferPos + 1 ≤ responseMaxLength := hs.events _ hm
  omega

/-- These calls return and leave the buffer safe. -/
def SafeAfter (start : Response × Socket) (calls : List ResponseCall) : Prop :=
  ∃ replies res sock,
    runCalls (responseCall tables reqKeepalive contentLengthUnread) start calls =
      .ok (replies, res, sock) ∧ BufferSafe res

/-- Over any run of calls on an initialised response the buffer is never overrun and the free
space never wraps, exactly as long as no call formats a line when the position is at the end,
where a finalizer leaves it if its header lines filled the buffer. -/
theorem response_buffer_safe_iff (res : Response) (sock : Socket) (calls : List ResponseCall) :
    (∀ done, done <+: calls →
      SafeAfter tables reqKeepalive contentLengthUnread (responseInit res, sock) done) ↔
    ∀ done call, done ++ [call] <+: calls → call.formats → ∀ replies res' sock',
      runCalls (responseCall tables reqKeepalive contentLengthUnread) (responseInit res, sock) done =
        .ok (replies, res', sock') → res'.bufferPos ≠ responseMaxLength := by
  constructor
  · intro hsafe done call hpre hformats replies res' sock' hrun hpos
    obtain ⟨reply, res2, sock2, hcall, -, hrecords⟩ := responseCall_records tables reqKeepalive
      contentLengthUnread res' sock' call
    obtain ⟨replies3, res3, sock3, hrun3, hs3⟩ := hsafe _ hpre
    rw [runCalls_append_singleton hrun hcall] at hrun3
    obtain ⟨-, hstate⟩ := Prod.mk.inj (Except.ok.inj hrun3)
    obtain ⟨rfl, -⟩ := Prod.mk.inj hstate
    exact not_safe_of_records (hrecords hformats) hpos hs3
  · intro hpos done
    induction done using List.reverseRecOn with
    | nil =>
      intro _
      exact ⟨[], responseInit res, sock, rfl, ⟨Nat.zero_le _, by simp [responseInit]⟩⟩
    | append_singleton done call ih =>
      intro hpre
      obtain ⟨replies, res1, sock1, hrun, hs⟩ := ih ((List.prefix_append done [call]).trans hpre)
      obtain ⟨reply, res2, sock2, hcall, hs2⟩ := responseCall_safe tables reqKeepalive
        contentLengthUnread hs sock1 call
        (fun hformats => hpos done call hpre hformats replies res1 sock1 hrun)
      exact ⟨_, res2, sock2, runCalls_append_singleton hrun hcall, hs2⟩

/-- Two finalizers overrun the buffer when a first line has filled it to the last byte. -/
theorem not_safe_after_full {start : Response} {sock : Socket} (hsent : start.sent = false)
    (hsend : ∀ bytes, (socketWrite sock bytes).1 = true) (id : Int) {name value : CString}
    (hfull : start.bufferPos + (headerLine name value).length + 1 = responseMaxLength)
    (date date' : CString) (buffer buffer' : Bytes) :
    ¬ SafeAfter tables reqKeepalive contentLengthUnread (start, sock)
      [.header id name value, .data date buffer, .data date' buffer'] := by
  let run := runCalls (responseCall tables reqKeepalive contentLengthUnread) (start, sock)
  let res1 := start.appendLine (headerLine name value)
  have hrun1 : run [.header id name value] = .ok ([none], res1, sock) := by
    have hn : (⟨id, some name⟩ : Header).name = some name := rfl
    have hroom : start.bufferPos + (headerLine name value).length < responseMaxLength :=
      Nat.lt_of_succ_le (Nat.le_of_eq hfull)
    have hc : responseCall tables reqKeepalive contentLengthUnread (start, sock) (.header id name value) =
        .ok (none, res1, sock) := by
      rw [responseCall, responseHeader_fits hn hroom]
      rfl
    exact runCalls_append_singleton (show run [] = .ok ([], start, sock) from rfl) hc
  have hpos1 : res1.freeSpace.2.bufferPos + 1 = responseMaxLength := hfull
  obtain ⟨ok, res2, sock2, he2, hpos2⟩ := sendHeaders_full tables
    (show res1.freeSpace.2.sent = false from hsent) hpos1 reqKeepalive contentLengthUnread date hsend
  obtain ⟨ok', sock2', hdata⟩ := responseData_after tables reqKeepalive contentLengthUnread res1 sock
    (responseHeader_full tables.contentLengthNamed hfull (contentLengthText buffer.length)) he2
  have hrun2 : run [.header id name value, .data date buffer] = .ok ([none, some ok'], res2, sock2') := by
    have hc : responseCall tables reqKeepalive contentLengthUnread (res1, sock) (.data date buffer) =
        .ok (some ok', res2, sock2') := by
      rw [responseCall, hdata]
      rfl
    exact runCalls_append_singleton hrun1 hc
  obtain ⟨reply, res3, sock3, hc3, -, hrecords⟩ :=
    responseCall_records tables reqKeepalive contentLengthUnread res2 sock2' (.data date' buffer')
  rintro ⟨replies, res, sock', hrun, hs⟩
  have hrun3 := hrun.symm.trans (runCalls_append_singleton hrun2 hc3)
  obtain ⟨-, hstate⟩ := Prod.mk.inj (Except.ok.inj hrun3)
  obtain ⟨rfl, -⟩ := Prod.mk.inj hstate
  exact not_safe_of_records (hrecords trivial) hpos2 hs

end Calls

def plainHeader (id : Int) (i : Nat) : Header := ⟨id, commonTexts[i]?⟩

/-- The common headers under ids of their own, and no status texts. -/
def plainTables : Tables where
  common :=
    { host := plainHeader 1 0
      contentType := plainHeader 2 1
      contentLength := plainHeader 3 2
      connection := plainHeader 4 3
      server := plainHeader 5 4
      date := plainHeader 6 5 }
  statusString := fun _ => none
  contentLengthNamed := by simp [plainHeader, commonTexts]
  serverNamed := by simp [plainHeader, commonTexts]
  dateNamed := by simp [plainHeader, commonTexts]
  connectionNamed := by simp [plainHeader, commonTexts]
  statusShort := noStatus_short

def emptyText : CString := ⟨[], by simp, by decide⟩

/-- With the name `a` this value makes a line of 4095 bytes. -/
def fillingText : CString :=
  ⟨List.replicate 4091 98, fun h => absurd (List.eq_of_mem_replicate h) (by decide),
    by rw [List.length_replicate]; decide⟩

/-- One header line of 4095 bytes, then two finalizers: the second one formats its line behind
the end of the buffer. -/
theorem second_data_overruns :
    ¬ SafeAfter plainTables true 0
      (responseInit ⟨0, false, true, 0, fun _ => 0, []⟩, socketNew 3 [] 80 ⟨[], [], [], []⟩)
      [.header 1 ⟨ascii "a", by decide, by decide⟩ fillingText, .data emptyText [], .data emptyText []] := by
  have hname : (ascii "a").length = 1 := rfl
  have hfill : fillingText.bytes.length = 4091 := List.length_replicate
  refine not_safe_after_full plainTables true 0 rfl (fun _ => rfl) 1 ?_ emptyText emptyText [] []
  rw [headerLine_length, hfill]
  rfl

end CFlare.Http
