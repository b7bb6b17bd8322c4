import CFlare.Http.ResponseBuffer
import CFlare.Network.SocketWrites

/-! What a response puts on the socket: the status line, the header lines that fitted, a blank
line and the body. -/
namespace CFlare.Http
open CFlare.Library CFlare.Network

/-- The lines in front of the first blank one. -/
def headLines (text : Bytes) : List Bytes := (text.splitOn newline).takeWhile (· ≠ [])

def EndsEarly (text : Bytes) : Prop := [] ∈ (text.splitOn newline).dropLast

section Lines
variable {text rest line : Bytes}

private theorem splitOn_line (text rest : Bytes) :
    (text ++ newline :: rest).splitOn newline = text.splitOn newline ++ rest.splitOn newline :=
  List.splitOn_append_cons_self text rest

theorem takeWhile_blank {xs : List Bytes} (h : [] ∈ xs) (ys : List Bytes) :
    (xs ++ ys).takeWhile (· ≠ []) = xs.takeWhile (· ≠ []) := by
  induction xs with
  | nil => cases h
  | cons x xs ih =>
    cases x with
    | nil => rfl
    | cons b x =>
      have hrest : [] ∈ xs := by simpa using h
      rw [List.cons_append, List.takeWhile_cons_of_pos (by simp), List.takeWhile_cons_of_pos (by simp), ih hrest]

/-- Behind full lines without a blank one the head goes on. -/
theorem headLines_goes_on (h : ¬ EndsEarly (text ++ [newline])) :
    headLines (text ++ newline :: rest) = headLines (text ++ [newline]) ++ headLines rest := by
  rw [EndsEarly, splitOn_line, List.splitOn_nil, List.dropLast_concat] at h
  have hall : ∀ x ∈ text.splitOn newline, decide (x ≠ []) = true := by
    intro x hx
    exact decide_eq_true (fun hz => h (hz ▸ hx))
  rw [headLines, headLines, splitOn_line, splitOn_line, List.takeWhile_append_of_pos hall,
    List.takeWhile_append_of_pos hall, List.append_assoc]
  rfl

/-- Behind a blank line nothing belongs to the head. -/
theorem headLines_ended (h : EndsEarly (text ++ [newline])) :
    headLines (text ++ newline :: rest) = headLines (text ++ [newline]) := by
  rw [EndsEarly, splitOn_line, List.splitOn_nil, List.dropLast_concat] at h
  rw [headLines, headLines, splitOn_line, splitOn_line, takeWhile_blank h, takeWhile_blank h]

theorem headLines_line (h : newline ∉ line) (hl : line ≠ []) :
    headLines (line ++ newline :: newline :: rest) = [line] := by
  rw [headLines, splitOn_line, List.splitOn_eq_singleton h, List.singleton_append, List.takeWhile_cons_of_pos (by simpa)]
  rw [show (newline :: rest : Bytes) = [] ++ newline :: rest from rfl, splitOn_line]
  rfl

theorem headLines_blank (rest : Bytes) : headLines (newline :: rest) = [] := by
  rw [headLines, show (newline :: rest : Bytes) = [] ++ newline :: rest from rfl, splitOn_line]
  rfl

end Lines

def Header.line (hdr : Header) (value : CString) : Bytes :=
  match hdr.name with
  | none => []
  | some key => headerLine key value

/-- A line is added if it leaves a byte for the final newline. -/
def addLine (text line : Bytes) : Bytes :=
  if text.length + line.length < responseMaxLength then text ++ line else text

/-- The header lines formatted so far. -/
structure Formatted (res : Response) (text : Bytes) : Prop where
  pos : res.bufferPos = text.length
  room : text.length < responseMaxLength
  bytes : slice res.buffer 0 text.length = text

section Headers
variable {res : Response} {hdr : Header} {text : Bytes}

private theorem slice_store_behind_text {m : Memory} (hs : slice m 0 text.length = text) (line : Bytes) :
    slice (store m text.length line) 0 (text ++ line).length = text ++ line := by
  have hkeep : slice (store m text.length line) 0 text.length = slice m 0 text.length := by
    apply slice_congr
    intro i _ hi
    exact store_before (by omega)
  rw [List.length_append, slice_add, Nat.zero_add, slice_store, hkeep, hs]

/-- What a call for a header line leaves alone. -/
structure SameChoices (res res' : Response) : Prop where
  sent : res'.sent = res.sent
  keepalive : res'.keepalive = res.keepalive
  statusCode : res'.statusCode = res.statusCode

theorem SameChoices.trans {a b c : Response} (h : SameChoices a b) (h' : SameChoices b c) : SameChoices a c :=
  ⟨h'.sent.trans h.sent, h'.keepalive.trans h.keepalive, h'.statusCode.trans h.statusCode⟩

/-- A header line changes no choice, wherever the position is. -/
theorem responseHeader_choices (hn : hdr.name ≠ none) (res : Response) (value : CString) :
    ∃ res', responseHeader res hdr value = .ok res' ∧ SameChoices res res' := by
  obtain ⟨key, hn⟩ := Option.ne_none_iff_exists'.mp hn
  simp only [responseHeader, hn]
  split
  · exact ⟨_, rfl, rfl, rfl, rfl⟩
  · exact ⟨_, rfl, rfl, rfl, rfl⟩

theorem responseHeader_adds (hn : hdr.name ≠ none) (h : Formatted res text) (value : CString) :
    ∃ res', responseHeader res hdr value = .ok res' ∧ SameChoices res res' ∧
      Formatted res' (addLine text (hdr.line value)) := by
  obtain ⟨key, hn⟩ := Option.ne_none_iff_exists'.mp hn
  have hline : hdr.line value = headerLine key value := by rw [Header.line, hn]
  rw [hline]
  have hpos := h.pos
  have hroom := h.room
  by_cases hfit : res.bufferPos + (headerLine key value).length < responseMaxLength
  · rw [addLine, if_pos (by omega)]
    refine ⟨_, responseHeader_fits hn hfit, ⟨rfl, rfl, rfl⟩, ?_, ?_, ?_⟩
    · rw [List.length_append, ← h.pos]
      rfl
    · rw [List.length_append]
      omega
    · show slice (store res.buffer res.bufferPos (headerLine key value)) 0 _ = _
      rw [h.pos]
      exact slice_store_behind_text h.bytes _
  · rw [addLine, if_neg (by omega)]
    exact ⟨_, responseHeader_drops hn (by omega) hfit, ⟨rfl, rfl, rfl⟩, h.pos, h.room, h.bytes⟩

end Headers

section Writes

/-- A front part of the bytes has gone out; all of them, if the write succeeded. It does on a connected
socket, if the sends that it made did. -/
structure Wrote (sock sock' : Socket) (ok : Bool) (bytes : Bytes) : Prop where
  front : ∃ part, part <+: bytes ∧ sock'.peer.outgoing = sock.peer.outgoing ++ part
  whole : ok = true → sock'.peer.outgoing = sock.peer.outgoing ++ bytes
  stays : ok = true → sock'.connected = true
  sends : ∃ made, sock.peer.sends = made ++ sock'.peer.sends ∧
    (sock.connected = true → (∀ send ∈ made, send.succeeds = true) → ok = true)

section Wrote
variable {sock sock' sock1 : Socket} {ok : Bool} {xs ys : Bytes}

theorem Wrote.nothing (hc : sock.connected = false) (bytes : Bytes) : Wrote sock sock false bytes := by
  refine ⟨⟨[], List.nil_prefix, (List.append_nil _).symm⟩, fun hok => absurd hok Bool.false_ne_true,
    fun hok => absurd hok Bool.false_ne_true, [], rfl, fun hopen => ?_⟩
  rw [hc] at hopen
  exact absurd hopen Bool.false_ne_true

/-- A write that is followed by another one. -/
theorem Wrote.then (h : Wrote sock sock1 true xs) (h' : Wrote sock1 sock' ok ys) : Wrote sock sock' ok (xs ++ ys) := by
  have hfirst := h.whole rfl
  obtain ⟨part, hpart, hout⟩ := h'.front
  obtain ⟨made, hmade, -⟩ := h.sends
  obtain ⟨made', hmade', hok⟩ := h'.sends
  refine ⟨⟨xs ++ part, List.prefix_append_right_inj xs |>.mpr hpart, ?_⟩, fun hok => ?_, h'.stays, made ++ made', ?_,
    fun _ hall => hok (h.stays rfl) (fun send hm => hall send (List.mem_append_right made hm))⟩
  · rw [hout, hfirst, List.append_assoc]
  · rw [h'.whole hok, hfirst, List.append_assoc]
  · rw [hmade, hmade', List.append_assoc]

theorem Wrote.short (h : Wrote sock sock' false xs) (ys : Bytes) : Wrote sock sock' false (xs ++ ys) := by
  obtain ⟨part, hpart, hout⟩ := h.front
  exact ⟨⟨part, hpart.trans (List.prefix_append xs ys), hout⟩, fun hok => absurd hok Bool.false_ne_true, h.stays, h.sends⟩

/-- Where the sends between two states succeed, so does the write that made them. -/
theorem Wrote.succeeds (h : Wrote sock sock' ok xs) (hc : sock.connected = true) (hs : SendsSucceed sock sock') :
    ok = true := by
  obtain ⟨made, hmade, hok⟩ := h.sends
  obtain ⟨made', hmade', hall⟩ := hs
  rw [hmade] at hmade'
  obtain rfl := List.append_cancel_right hmade'
  exact hok hc hall

end Wrote

theorem socketClose_outgoing (sock : Socket) : (socketClose sock).peer.outgoing = sock.peer.outgoing := by
  unfold socketClose
  split
  · rfl
  · rfl

theorem socketWrite_wrote (sock : Socket) (bytes : Bytes) :
    Wrote sock (socketWrite sock bytes).2 (socketWrite sock bytes).1 bytes := by
  unfold socketWrite
  split
  · next hc => exact .nothing hc bytes
  next hc =>
  rw [Bool.not_eq_false] at hc
  obtain ⟨made, hmade, hok⟩ := writeBytes_made sock.peer.sends bytes sock
  have hend := writeBytes_end sock.peer.sends bytes sock
  generalize writeBytes sock.peer.sends bytes sock = out at hend hmade hok
  cases hend with
  | sent rest => exact ⟨⟨bytes, List.prefix_rfl, rfl⟩, fun _ => rfl, fun _ => hc, made, hmade, fun _ => hok⟩
  | @failed part hfront rest =>
    have hclosed := socketClose_outgoing ((sock.accept part).scripted rest)
    exact ⟨⟨part, hfront, hclosed⟩, fun h => absurd h Bool.false_ne_true, fun h => absurd h Bool.false_ne_true, made, hmade,
      fun _ => hok⟩

/-- Nothing is left of the script: what is written goes out. -/
structure SendsAll (sock : Socket) : Prop where
  connected : sock.connected = true
  sends : sock.peer.sends = []

theorem SendsAll.write {sock : Socket} (h : SendsAll sock) (bytes : Bytes) :
    ∃ sock', socketWrite sock bytes = (true, sock') ∧ SendsAll sock' := by
  have hw : socketWrite sock bytes =
      (true, { sock with peer := { sock.peer with sends := [], outgoing := sock.peer.outgoing ++ bytes } }) := by
    rw [socketWrite, if_neg (by rw [h.connected]; decide), h.sends, writeBytes]
  exact ⟨_, hw, h.connected, rfl⟩

theorem socketWrite_requeue (sock : Socket) (queue bytes : Bytes) :
    socketWrite (socketRequeue sock queue) bytes =
      ((socketWrite sock bytes).1, socketRequeue (socketWrite sock bytes).2 queue) := by
  have hwrite : ∀ (sends : List Send) (bytes : Bytes) (s : Socket),
      writeBytes sends bytes (socketRequeue s queue) =
        ((writeBytes sends bytes s).1, socketRequeue (writeBytes sends bytes s).2 queue) := by
    intro sends
    induction sends with
    | nil => exact fun _ _ => rfl
    | cons send sends ih =>
      intro bytes s
      cases send with
      | accept count =>
        rw [writeBytes, writeBytes]
        dsimp only
        split
        · rfl
        · exact ih _ { s with peer := { s.peer with sends := sends, outgoing := s.peer.outgoing ++ bytes.take count } }
      | retry writable =>
        cases writable with
        | true => exact ih _ _
        | false =>
          rw [writeBytes, writeBytes]
          unfold socketClose socketRequeue
          dsimp only
          split <;> rfl
      | broken =>
        rw [writeBytes, writeBytes]
        unfold socketClose socketRequeue
        dsimp only
        split <;> rfl
  have hconnected : (socketRequeue sock queue).connected = sock.connected := rfl
  have hsends : (socketRequeue sock queue).peer.sends = sock.peer.sends := rfl
  unfold socketWrite
  rw [hconnected, hsends]
  split
  · rfl
  · exact hwrite _ _ _

end Writes

section Sending
variable (tables : Tables)

/-- The lines that a finalizer adds before the one for the connection. -/
def ownLines (date : CString) (length : Nat) (text : Bytes) : Bytes :=
  addLine (addLine (addLine text (tables.common.contentLength.line (contentLengthText length)))
    (tables.common.server.line serverText)) (tables.common.date.line date)

def connectionLine (keep : Bool) : Bytes :=
  tables.common.connection.line (if keep then keepAliveText else closeText)

variable {tables} {res : Response} {text : Bytes} {reqKeepalive : Bool} {contentLengthUnread : Nat}
  {sock sock' : Socket}

theorem requiredHeaders_adds (h : Formatted res text) (date : CString) :
    ∃ res', requiredHeaders tables reqKeepalive contentLengthUnread date res = .ok res' ∧
      res'.statusCode = res.statusCode ∧
      res'.keepalive = (reqKeepalive && res.keepalive && contentLengthUnread = 0) ∧
      Formatted res' (addLine (addLine (addLine text (tables.common.server.line serverText))
        (tables.common.date.line date)) (connectionLine tables res'.keepalive)) := by
  let res0 : Response := { res with keepalive := reqKeepalive && res.keepalive && contentLengthUnread = 0 }
  have h0 : Formatted res0 text := ⟨h.pos, h.room, h.bytes⟩
  obtain ⟨res1, he1, hs1, h1⟩ := responseHeader_adds tables.serverNamed h0 serverText
  obtain ⟨res2, he2, hs2, h2⟩ := responseHeader_adds tables.dateNamed h1 date
  obtain ⟨res3, he3, hs3, h3⟩ := responseHeader_adds tables.connectionNamed h2
    (if res2.keepalive then keepAliveText else closeText)
  have hall := (hs1.trans hs2).trans hs3
  refine ⟨res3, ?_, hall.statusCode, hall.keepalive, ?_⟩
  · show responseHeader res0 _ _ >>= _ = _
    rw [he1, fault_ok_bind, he2, fault_ok_bind, he3]
  · rw [connectionLine, hs3.keepalive]
    exact h3

theorem sendBuffer_writes (h : Formatted res text) {ok : Bool} {res' : Response}
    (hs : sendBuffer tables res sock = .ok (ok, res', sock')) :
    SameChoices res res' ∧ Wrote sock sock' ok (statusLine tables res.statusCode ++ (text ++ [newline])) := by
  have hroom := h.room
  rw [sendBuffer, if_neg (Nat.not_le.mpr (statusLine_short tables _))] at hs
  have hstatus := socketWrite_wrote sock (statusLine tables res.statusCode)
  cases hw : socketWrite sock (statusLine tables res.statusCode) with
  | mk ok1 sock1 =>
    rw [hw] at hs hstatus
    cases ok1 with
    | false =>
      obtain ⟨rfl, hstate⟩ := Prod.mk.inj (Except.ok.inj hs)
      obtain ⟨rfl, rfl⟩ := Prod.mk.inj hstate
      exact ⟨⟨rfl, rfl, rfl⟩, hstatus.short _⟩
    | true =>
      dsimp only [Response.write] at hs
      have hsize : responseMaxLength < sizeLimit := by decide
      have hpos : sizeAdd res.bufferPos 1 = (text ++ [newline]).length := by
        rw [h.pos, List.length_append, List.length_singleton]
        exact sizeAdd_of_lt (by omega)
      have hbuffer : slice (store res.buffer res.bufferPos [newline]) 0 (sizeAdd res.bufferPos 1) =
          text ++ [newline] := by
        rw [hpos, h.pos]
        exact slice_store_behind_text h.bytes _
      rw [hbuffer] at hs
      obtain ⟨rfl, hstate⟩ := Prod.mk.inj (Except.ok.inj hs)
      obtain ⟨rfl, rfl⟩ := Prod.mk.inj hstate
      exact ⟨⟨rfl, rfl, rfl⟩, hstatus.then (socketWrite_wrote sock1 _)⟩

/-- The first finalizer decides whether the connection is kept, and sends the head and the body as far as
its writes succeed. -/
theorem responseData_writes (h : Formatted res text) (hunsent : res.sent = false) {date : CString}
    {buffer : Bytes} {ok : Bool} {res' : Response}
    (hd : responseData tables reqKeepalive contentLengthUnread date res sock buffer = .ok (ok, res', sock')) :
    res'.sent = true ∧ res'.keepalive = (reqKeepalive && res.keepalive && contentLengthUnread = 0) ∧
      Wrote sock sock' ok (statusLine tables res.statusCode ++
        (addLine (ownLines tables date buffer.length text) (connectionLine tables res'.keepalive) ++
          newline :: buffer)) := by
  obtain ⟨res1, he1, hs1, h1⟩ := responseHeader_adds tables.contentLengthNamed h (contentLengthText buffer.length)
  obtain ⟨res2, he2, hstatus, hkeep, h2⟩ := requiredHeaders_adds h1 date
  rw [responseData, he1, fault_ok_bind, sendHeaders, hs1.sent, hunsent, if_neg (by decide), he2, fault_ok_bind] at hd
  obtain ⟨⟨sent, res3, sock3⟩, hbuffer, hd⟩ := bind_eq_ok.mp hd
  have hformatted : Formatted { res2 with sent := true } _ := ⟨h2.pos, h2.room, h2.bytes⟩
  obtain ⟨hchoices, hhead⟩ := sendBuffer_writes hformatted hbuffer
  have hsame : res3.keepalive = res2.keepalive := hchoices.keepalive
  have hanswer : statusLine tables res.statusCode ++ (addLine (ownLines tables date buffer.length text)
      (connectionLine tables res3.keepalive) ++ newline :: buffer) =
      statusLine tables res2.statusCode ++ (addLine (ownLines tables date buffer.length text)
        (connectionLine tables res2.keepalive) ++ [newline]) ++ buffer := by
    rw [hsame, hstatus, hs1.statusCode]
    simp only [List.append_assoc, List.singleton_append]
  have hkept : res3.keepalive = (reqKeepalive && res.keepalive && contentLengthUnread = 0) := by
    rw [hsame, hkeep, hs1.keepalive]
  dsimp only at hd
  cases sent with
  | false =>
    obtain ⟨rfl, hstate⟩ := Prod.mk.inj (Except.ok.inj hd)
    obtain ⟨rfl, rfl⟩ := Prod.mk.inj hstate
    refine ⟨hchoices.sent, hkept, ?_⟩
    rw [hanswer]
    exact hhead.short buffer
  | true =>
    obtain ⟨rfl, hstate⟩ := Prod.mk.inj (Except.ok.inj hd)
    obtain ⟨rfl, rfl⟩ := Prod.mk.inj hstate
    refine ⟨hchoices.sent, hkept, ?_⟩
    rw [hanswer]
    exact hhead.then (socketWrite_wrote sock3 buffer)

/-- The first finalizer returns, and its writes succeed on a connection whose sends do. -/
theorem responseData_returns (tables : Tables) (h : Formatted res text) (hunsent : res.sent = false)
    (reqKeepalive : Bool) (contentLengthUnread : Nat) (date : CString) (buffer : Bytes) (sock : Socket) :
    ∃ ok res' sock', responseData tables reqKeepalive contentLengthUnread date res sock buffer = .ok (ok, res', sock') ∧
      (sock.connected = true → (∀ send ∈ sock.peer.sends, send.succeeds = true) → ok = true) := by
  have hreturns : ∃ ok res' sock', responseData tables reqKeepalive contentLengthUnread date res sock buffer =
      .ok (ok, res', sock') := by
    obtain ⟨res1, he1, hs1, h1⟩ := responseHeader_adds tables.contentLengthNamed h (contentLengthText buffer.length)
    obtain ⟨res2, he2, -, -, -⟩ := requiredHeaders_adds h1 date
    rw [responseData, he1, fault_ok_bind, sendHeaders, hs1.sent, hunsent, if_neg (by decide), he2, fault_ok_bind,
      sendBuffer,
      if_neg (Nat.not_le.mpr (statusLine_short tables _))]
    rcases socketWrite sock (statusLine tables res2.statusCode) with ⟨ok1, sock1⟩
    cases ok1 with
    | false => exact ⟨_, _, _, rfl⟩
    | true =>
      dsimp only [Response.write]
      rw [fault_ok_bind]
      dsimp only
      split
      · exact ⟨_, _, _, rfl⟩
      · exact ⟨_, _, _, rfl⟩
  obtain ⟨ok, res', sock', he⟩ := hreturns
  obtain ⟨-, -, hwrote⟩ := responseData_writes h hunsent he
  refine ⟨ok, res', sock', he, fun hc hall => ?_⟩
  obtain ⟨made, hmade, hok⟩ := hwrote.sends
  refine hok hc (fun send hm => hall send ?_)
  rw [hmade]
  exact List.mem_append_left _ hm

theorem responseData_sends (tables : Tables) (h : Formatted res text) (hunsent : res.sent = false) (hs : SendsAll sock)
    (reqKeepalive : Bool) (contentLengthUnread : Nat) (date : CString) (buffer : Bytes) :
    ∃ res' sock', responseData tables reqKeepalive contentLengthUnread date res sock buffer =
      .ok (true, res', sock') := by
  obtain ⟨ok, res', sock', he, hok⟩ :=
    responseData_returns tables h hunsent reqKeepalive contentLengthUnread date buffer sock
  obtain rfl := hok hs.connected (by simp [hs.sends])
  exact ⟨res', sock', he⟩

/-- A finalizer after the first one sends nothing. -/
theorem responseData_sent (hsent : res.sent = true) (date : CString) (sock : Socket) (buffer : Bytes) :
    ∃ res', responseData tables reqKeepalive contentLengthUnread date res sock buffer = .ok (false, res', sock) ∧
      SameChoices res res' := by
  obtain ⟨res1, he1, hs1⟩ := responseHeader_choices tables.contentLengthNamed res (contentLengthText buffer.length)
  refine ⟨res1, ?_, hs1⟩
  rw [responseData, he1, fault_ok_bind, sendHeaders, if_pos (hs1.sent.trans hsent), fault_ok_bind]
  rfl

/-- The outcome on a socket with these bytes put back. -/
def withRequeue (queue : Bytes) (out : Bool × Response × Socket) : Bool × Response × Socket :=
  (out.1, out.2.1, socketRequeue out.2.2 queue)

private theorem sendBuffer_requeue (res : Response) (sock : Socket) (queue : Bytes) :
    sendBuffer tables res (socketRequeue sock queue) = (sendBuffer tables res sock).map (withRequeue queue) := by
  rw [sendBuffer, sendBuffer, if_neg (Nat.not_le.mpr (statusLine_short tables _)),
    if_neg (Nat.not_le.mpr (statusLine_short tables _)), socketWrite_requeue]
  cases socketWrite sock (statusLine tables res.statusCode) with
  | mk ok sock1 =>
    cases ok with
    | false => rfl
    | true =>
      dsimp only
      rw [socketWrite_requeue]
      rfl

theorem responseData_requeue (date : CString) (res : Response) (sock : Socket) (queue buffer : Bytes) :
    responseData tables reqKeepalive contentLengthUnread date res (socketRequeue sock queue) buffer =
      (responseData tables reqKeepalive contentLengthUnread date res sock buffer).map (withRequeue queue) := by
  have hheaders : ∀ res, sendHeaders tables reqKeepalive contentLengthUnread date res (socketRequeue sock queue) =
      (sendHeaders tables reqKeepalive contentLengthUnread date res sock).map (withRequeue queue) := by
    intro res
    unfold sendHeaders
    split
    · rfl
    · cases requiredHeaders tables reqKeepalive contentLengthUnread date res with
      | error fault => rfl
      | ok res1 => exact sendBuffer_requeue _ sock queue
  rw [responseData, responseData]
  cases responseHeader res tables.common.contentLength (contentLengthText buffer.length) with
  | error fault => rfl
  | ok res1 =>
    rw [fault_ok_bind, fault_ok_bind, hheaders]
    cases sendHeaders tables reqKeepalive contentLengthUnread date res1 sock with
    | error fault => rfl
    | ok out =>
      obtain ⟨sent, res2, sock2⟩ := out
      cases sent with
      | false => rfl
      | true =>
        simp only [Except.map, withRequeue, fault_ok_bind, if_true, socketWrite_requeue]

end Sending

end CFlare.Http
