import CFlare.Http.ConnectionHeader
import CFlare.Http.HandlerRun

/-! Whether client and server agree on the connection: what a call returns, what the head that it
sent says, and what the request said. -/
namespace CFlare.Http
open CFlare.Library CFlare.Network

/-- A head with the line that keeps the connection. -/
def CarriesKeepAlive (text : Bytes) : Prop :=
  ∃ name, normalizeHeader name = normalizeHeader (ascii "Connection") ∧ name ++ ascii ": keep-alive" ∈ headLines text

def Header.Carries (hdr : Header) (name : Bytes) : Prop := ∃ key, hdr.name = some key ∧ NameIs key.bytes name

/-- The headers that a finalizer adds carry their names, but for case. -/
structure TablesSpelled (tables : Tables) : Prop where
  contentLength : tables.common.contentLength.Carries (ascii "Content-Length")
  server : tables.common.server.Carries (ascii "Server")
  date : tables.common.date.Carries (ascii "Date")
  connection : tables.common.connection.Carries (ascii "Connection")

/-- A loaded table spells the names that it is asked for. -/
theorem TablesSpelled.of_table {env : Environment} (hs : Spelled env.table.entries) : TablesSpelled env.tables := by
  have hcarries : ∀ name ∈ commonNames, (env.table.header name).Carries name := by
    intro name hn
    obtain ⟨key, hkey⟩ := env.table.header_named (env.table.common_known hn)
    refine ⟨key, hkey, hs name key ?_⟩
    rw [← env.table.header_eq]
    exact hkey
  have hcommon : env.tables.common = _ := env.table.common_eq
  constructor
  · rw [hcommon]
    exact hcarries (ascii "Content-Length") (by simp [commonNames])
  · rw [hcommon]
    exact hcarries (ascii "Server") (by simp [commonNames])
  · rw [hcommon]
    exact hcarries (ascii "Date") (by simp [commonNames])
  · rw [hcommon]
    exact hcarries (ascii "Connection") (by simp [commonNames])

def FullLines (text : Bytes) : Prop := text = [] ∨ ∃ front, text = front ++ [newline]

section Lines
variable {text line : Bytes}

theorem FullLines.append (ht : FullLines text) (hl : FullLines line) : FullLines (text ++ line) := by
  rcases hl with rfl | ⟨front, rfl⟩
  · rwa [List.append_nil]
  · exact .inr ⟨text ++ front, (List.append_assoc _ _ _).symm⟩

theorem FullLines.addLine (ht : FullLines text) (hl : FullLines line) : FullLines (addLine text line) := by
  unfold Http.addLine
  split
  · exact ht.append hl
  · exact ht

theorem Header.line_full (hdr : Header) (value : CString) : FullLines (hdr.line value) := by
  unfold Header.line
  cases hdr.name with
  | none => exact .inl rfl
  | some key => exact .inr ⟨key.bytes ++ ascii ": " ++ value.bytes, rfl⟩

theorem fieldText_full (actions : List HandlerAction) (ht : FullLines text) : FullLines (fieldText text actions) := by
  induction actions generalizing text with
  | nil => exact ht
  | cons action actions ih =>
    apply ih
    unfold HandlerAction.fields
    split
    · next id name value => exact ht.addLine (Header.line_full ⟨id, some name⟩ value)
    · exact ht

theorem ownLines_full (tables : Tables) (date : CString) (length : Nat) (ht : FullLines text) :
    FullLines (ownLines tables date length text) :=
  ((ht.addLine (Header.line_full _ _)).addLine (Header.line_full _ _)).addLine (Header.line_full _ _)

end Lines

section Head
variable (tables : Tables)

/-- What a finalizer sends before the line for the connection. -/
def ownHead (code : UInt32) (date : CString) (length : Nat) (text : Bytes) : Bytes :=
  statusLine tables code ++ ownLines tables date length text

/-- The line that keeps the connection fits behind the other ones. -/
def ConnectionFits (date : CString) (length : Nat) (text : Bytes) : Prop :=
  (ownLines tables date length text).length + (connectionLine tables true).length < responseMaxLength

theorem ownHead_ends (code : UInt32) (date : CString) (length : Nat) {text : Bytes} (ht : FullLines text) :
    ∃ front, ownHead tables code date length text = front ++ [newline] := by
  have hstatus : FullLines (statusLine tables code) := .inr ⟨_, rfl⟩
  rcases hstatus.append (ownLines_full tables date length ht) with hnil | hfull
  · obtain ⟨hnil, -⟩ := List.append_eq_nil_iff.mp hnil
    exact absurd hnil (List.append_ne_nil_of_right_ne_nil _ (List.cons_ne_nil _ _))
  · exact hfull

variable {tables} {connection : CString}

private theorem newline_not_mem_name (hname : normalizeHeader connection.bytes = normalizeHeader (ascii "Connection")) :
    newline ∉ connection.bytes := by
  intro hm
  have hlower : toLower newline ∈ normalizeHeader (ascii "Connection") := by
    rw [← hname]
    exact List.mem_map_of_mem hm
  exact absurd hlower (by decide)

private theorem connectionLine_eq (hc : tables.common.connection.name = some connection) (keep : Bool) :
    connectionLine tables keep =
      (connection.bytes ++ ascii ": " ++ (if keep then keepAliveText else closeText).bytes) ++ [newline] := by
  rw [connectionLine, Header.line, hc]
  rfl

private theorem keepAlive_line (hname : normalizeHeader connection.bytes = normalizeHeader (ascii "Connection"))
    (keep : Bool) : (∃ name, normalizeHeader name = normalizeHeader (ascii "Connection") ∧ name ++ ascii ": keep-alive" =
        connection.bytes ++ ascii ": " ++ (if keep then keepAliveText else closeText).bytes) ↔ keep = true := by
  constructor
  · rintro ⟨name, -, he⟩
    cases keep with
    | true => rfl
    | false =>
      -- the last two bytes differ
      have hkeep : name ++ ascii ": keep-alive" = (name ++ ascii ": keep-ali") ++ ascii "ve" := by
        rw [List.append_assoc]
        rfl
      have hclose : connection.bytes ++ ascii ": " ++ ascii "close" =
          (connection.bytes ++ ascii ": clo") ++ ascii "se" := by
        rw [List.append_assoc, List.append_assoc]
        rfl
      change _ = connection.bytes ++ ascii ": " ++ ascii "close" at he
      rw [hkeep, hclose] at he
      exact absurd (List.append_inj_right' he rfl) (by decide)
  · rintro rfl
    refine ⟨connection.bytes, hname, ?_⟩
    rw [List.append_assoc]
    rfl

theorem carriesKeepAlive_iff (hc : tables.common.connection.name = some connection)
    (hname : normalizeHeader connection.bytes = normalizeHeader (ascii "Connection"))
    (keep : Bool) (code : UInt32) (date : CString) (buffer : Bytes) {text : Bytes} (ht : FullLines text) :
    CarriesKeepAlive (statusLine tables code ++ (addLine (ownLines tables date buffer.length text)
        (connectionLine tables keep) ++ newline :: buffer)) ↔
      CarriesKeepAlive (ownHead tables code date buffer.length text) ∨
        keep = true ∧ ¬ EndsEarly (ownHead tables code date buffer.length text) ∧
          ConnectionFits tables date buffer.length text := by
  let line := connection.bytes ++ ascii ": " ++ (if keep then keepAliveText else closeText).bytes
  have hline : connectionLine tables keep = line ++ [newline] := connectionLine_eq hc keep
  have hnewline : newline ∉ line := by
    intro hm
    rcases List.mem_append.mp hm with hm | hm
    · rcases List.mem_append.mp hm with hm | hm
      · exact newline_not_mem_name hname hm
      · exact absurd hm (by decide)
    · cases keep with
      | true => exact absurd hm (by decide)
      | false => exact absurd hm (by decide)
  have hne : line ≠ [] :=
    List.append_ne_nil_of_left_ne_nil (List.append_ne_nil_of_right_ne_nil _ (by decide)) _
  obtain ⟨front, hfront⟩ := ownHead_ends tables code date buffer.length ht
  have hsent : ∃ rest, statusLine tables code ++ (addLine (ownLines tables date buffer.length text)
        (connectionLine tables keep) ++ newline :: buffer) = front ++ newline :: rest ∧
      headLines rest = if (ownLines tables date buffer.length text).length + (connectionLine tables keep).length <
        responseMaxLength then [line] else [] := by
    unfold addLine
    split
    · refine ⟨line ++ newline :: newline :: buffer, ?_, headLines_line hnewline hne⟩
      rw [hline]
      have hmove := congrArg (· ++ (line ++ newline :: newline :: buffer)) hfront
      simpa [ownHead] using hmove
    · refine ⟨newline :: buffer, ?_, headLines_blank buffer⟩
      have hmove := congrArg (· ++ (newline :: buffer)) hfront
      simpa [ownHead] using hmove
  obtain ⟨rest, hsent, hrest⟩ := hsent
  rw [hsent, hfront]
  by_cases hends : EndsEarly (front ++ [newline])
  · rw [CarriesKeepAlive, headLines_ended hends, ← CarriesKeepAlive]
    constructor
    · exact .inl
    · rintro (h | ⟨-, hnot, -⟩)
      · exact h
      · exact absurd hends hnot
  · have hfits : (ownLines tables date buffer.length text).length + (connectionLine tables keep).length <
        responseMaxLength ∧ keep = true ↔ keep = true ∧ ConnectionFits tables date buffer.length text := by
      rw [and_comm]
      apply and_congr_right
      rintro rfl
      rfl
    rw [CarriesKeepAlive, headLines_goes_on hends, hrest]
    constructor
    · rintro ⟨name, hn, hm⟩
      rcases List.mem_append.mp hm with hm | hm
      · exact .inl ⟨name, hn, hm⟩
      · split at hm
        · next hroom =>
          have hkeep := (keepAlive_line hname keep).mp ⟨name, hn, List.mem_singleton.mp hm⟩
          obtain ⟨-, hfits⟩ := hfits.mp ⟨hroom, hkeep⟩
          exact .inr ⟨hkeep, hends, hfits⟩
        · cases hm
    · rintro (⟨name, hn, hm⟩ | ⟨hkeep, -, hroom⟩)
      · exact ⟨name, hn, List.mem_append_left _ hm⟩
      · obtain ⟨hroom, -⟩ := hfits.mpr ⟨hkeep, hroom⟩
        obtain ⟨name, hn, he⟩ := (keepAlive_line hname keep).mpr hkeep
        refine ⟨name, hn, List.mem_append_right _ ?_⟩
        rw [if_pos hroom]
        exact List.mem_singleton.mpr he

end Head

section Answers
variable {env : Environment} {s s' : Request × Socket} {answers : List HandlerAction}

/-- The first finalizer among the answers of a call, with what is done before and behind it. -/
structure FirstHead (env : Environment) (s : Request × Socket) (answers : List HandlerAction) where
  done : List HandlerAction
  date : CString
  buffer : Bytes
  rest : List HandlerAction
  state : Request × Socket
  split : answers = done ++ .respond (.data date buffer) :: rest
  first : ∀ a ∈ done, a.finalizes = false
  run : ∃ replies, runCalls (handlerAction env) s done = .ok (replies, state)

namespace FirstHead

/-- What it finds: the request and the handler keep the connection, and the body is read. -/
def keep (head : FirstHead env s answers) : Bool :=
  s.1.keepalive && lastKept true head.done && head.state.1.contentLengthUnread = 0

/-- The answer's bytes before the line for the connection. -/
def own (head : FirstHead env s answers) : Bytes :=
  ownHead env.tables (lastStatus 0 head.done) head.date head.buffer.length (fieldText [] head.done)

def Fits (head : FirstHead env s answers) : Prop :=
  ConnectionFits env.tables head.date head.buffer.length (fieldText [] head.done)

def sent (head : FirstHead env s answers) : Bytes :=
  statusLine env.tables (lastStatus 0 head.done) ++
    (addLine (ownLines env.tables head.date head.buffer.length (fieldText [] head.done))
      (connectionLine env.tables head.keep) ++ newline :: head.buffer)

/-- Whether the connection is kept when the call returns. -/
def kept (head : FirstHead env s answers) : Bool := lastKept head.keep head.rest

end FirstHead

/-- The writes of a call succeed: the connection is there when its first finalizer is called, and every send
that the call makes, and every wait for one, succeeds. -/
structure WritesSucceed (env : Environment) (s : Request × Socket) (answers : List HandlerAction)
    (sock sock' : Socket) : Prop where
  connected : ∀ head : FirstHead env s answers, head.state.2.connected = true
  sends : SendsSucceed sock sock'

/-- The call returns true exactly when what it wrote keeps the connection, and never if the request
asked to close it. -/
def PersistenceAgreed (env : Environment) (st : HeaderScan) (written : Bytes) (ret : Bool) : Prop :=
  (ret = true ↔ CarriesKeepAlive written) ∧ (ret = true → ¬ AsksToClose env st)

/-- The answers leave the connection as their head has it: without a head it is closed; with one it
is kept when the head's own lines say so, or the line added to them does; and where it is kept the request
leaves it open. -/
structure HeadDecides (env : Environment) (st : HeaderScan) (s : Request × Socket)
    (answers : List HandlerAction) : Prop where
  silent : (∀ a ∈ answers, a.finalizes = false) → lastKept true answers = false
  advertised : ∀ head : FirstHead env s answers, head.kept = true ↔
    CarriesKeepAlive head.own ∨ head.keep = true ∧ ¬ EndsEarly head.own ∧ head.Fits
  granted : ∀ head : FirstHead env s answers, head.kept = true → LeavesOpen env st s.1.keepalive

theorem FirstHead.not_silent (head : FirstHead env s answers) (h : ∀ a ∈ answers, a.finalizes = false) : False := by
  obtain ⟨done, date, buffer, rest, state, rfl, -, -⟩ := head
  have hfinal := h (.respond (.data date buffer)) (List.mem_append_right _ List.mem_cons_self)
  cases hfinal

theorem firstHead_or {replies : List (Option Bool × Bytes)}
    (hr : runCalls (handlerAction env) s answers = .ok (replies, s')) :
    (∀ a ∈ answers, a.finalizes = false) ∨ Nonempty (FirstHead env s answers) := by
  have hsplit : ∀ xs : List HandlerAction, (∀ a ∈ xs, a.finalizes = false) ∨
      ∃ done date buffer rest, xs = done ++ .respond (.data date buffer) :: rest ∧ ∀ a ∈ done, a.finalizes = false := by
    intro xs
    induction xs with
    | nil => exact .inl (fun a ha => absurd ha List.not_mem_nil)
    | cons x xs ih =>
      cases hx : x.finalizes with
      | true =>
        unfold HandlerAction.finalizes at hx
        split at hx
        · next date buffer => exact .inr ⟨[], date, buffer, xs, rfl, fun a ha => absurd ha List.not_mem_nil⟩
        · cases hx
      | false =>
        rcases ih with hall | ⟨done, date, buffer, rest, rfl, hdone⟩
        · exact .inl (List.forall_mem_cons.mpr ⟨hx, hall⟩)
        · exact .inr ⟨x :: done, date, buffer, rest, rfl, List.forall_mem_cons.mpr ⟨hx, hdone⟩⟩
  rcases hsplit answers with hnone | ⟨done, date, buffer, rest, he, hdone⟩
  · exact .inl hnone
  · rw [he] at hr
    obtain ⟨first, state, last, hfirst, -, -⟩ := runCalls_append_eq_ok.mp hr
    exact .inr ⟨⟨done, date, buffer, rest, state, he, hdone, first, hfirst⟩⟩

/-- The first finalizer decides, and sends the head as far as its writes succeed; what is done behind it
only changes what is returned. -/
theorem FirstHead.ends (head : FirstHead env s answers) {sock : Socket}
    (h : Unanswered s.1.keepalive sock true 0 [] s) {replies : List (Option Bool × Bytes)}
    (hr : runCalls (handlerAction env) s answers = .ok (replies, s')) :
    Answered s'.2 head.kept s' ∧ (∃ part, part <+: head.sent ∧ s'.2.peer.outgoing = sock.peer.outgoing ++ part) ∧
      (head.state.2.connected = true → SendsSucceed sock s'.2 →
        s'.2.peer.outgoing = sock.peer.outgoing ++ head.sent) := by
  obtain ⟨donereplies, hdone⟩ := head.run
  rw [head.split] at hr
  obtain ⟨first, s1, last, hfirst, hrest, -⟩ := runCalls_append_eq_ok.mp hr
  rw [hdone] at hfirst
  obtain ⟨rfl, rfl⟩ := Prod.mk.inj (Except.ok.inj hfirst)
  obtain ⟨reply, s2, replies2, hfinal, hbehind⟩ := runCalls_cons_ok hrest
  have hunanswered := h.run head.first hdone
  obtain ⟨ok, hreply, hanswered, hwrote⟩ := hunanswered.finalize hfinal
  have hall := hanswered.run hbehind
  obtain ⟨part, hpart, hfront⟩ := hwrote.front
  rw [hunanswered.reads.outgoing] at hfront
  refine ⟨⟨hall.sent, hall.keepalive, .refl _⟩, ⟨part, hpart, hall.reads.outgoing.trans hfront⟩, fun hc hsends => ?_⟩
  -- only the finalizer makes sends
  have hmade : SendsSucceed head.state.2 s2.2 := by
    rwa [SendsSucceed, hunanswered.reads.sends, ← hall.reads.sends]
  have hwhole := hwrote.whole (hwrote.succeeds hc hmade)
  rw [hunanswered.reads.outgoing] at hwhole
  exact hall.reads.outgoing.trans hwhole

end Answers

section Agreement
variable {env : Environment} {handler : Handler} {date : CString} {req req0 req' : Request}
  {sock sock0 sock' : Socket} {ret : Bool} {bytes : Bytes} {st st' : HeaderScan}

/-- Before the handler acts nothing is answered. -/
theorem Arrived.unanswered (h : Arrived env req sock bytes st req0 sock0) :
    Unanswered req0.keepalive sock0 true 0 [] (req0, sock0) := by
  have hresponse := h.response
  refine ⟨rfl, ?_, ?_, ?_, ?_, .refl _⟩
  · exact congrArg Response.sent hresponse
  · exact congrArg Response.keepalive hresponse
  · exact congrArg Response.statusCode hresponse
  · exact ⟨congrArg Response.bufferPos hresponse, by decide, rfl⟩

private theorem FirstHead.agreed_iff {answers : List HandlerAction} (head : FirstHead env (req0, sock0) answers)
    (hs : Spelled env.table.entries) (hlast : LastRead env st) (hpassed : VersionPassed requestMaxLength st st')
    (hkeep : req0.keepalive = st'.req.keepalive) :
    PersistenceAgreed env st head.sent head.kept ↔
      (head.kept = true ↔ CarriesKeepAlive head.own ∨ head.keep = true ∧ ¬ EndsEarly head.own ∧ head.Fits) ∧
      (head.kept = true → LeavesOpen env st req0.keepalive) := by
  obtain ⟨connection, hc, hname⟩ := (TablesSpelled.of_table hs).connection
  have hcarries : CarriesKeepAlive head.sent ↔
      CarriesKeepAlive head.own ∨ head.keep = true ∧ ¬ EndsEarly head.own ∧ head.Fits :=
    carriesKeepAlive_iff hc hname head.keep _ head.date head.buffer (fieldText_full head.done (.inl rfl))
  have hgranted := leavesOpen_iff hlast hpassed
  rw [← hkeep] at hgranted
  exact and_congr (iff_congr Iff.rfl hcarries) (imp_congr_right (fun _ => hgranted.symm))

/-- A call that gets to the hook and whose writes succeed agrees with its client about the connection
exactly when the head decides. -/
theorem persistence_agreed_iff (hw : sock.WellFormed) (hs : Spelled env.table.entries)
    (ha : requestArrive env req sock = .ok (.ready req0 sock0))
    (h : requestProcessSocket env handler date req sock = .ok (ret, req', sock'))
    (hwrites : WritesSucceed env (req0, sock0) (handler.answers date) sock sock') :
    ∃ bytes st written, Received sock bytes sock0 ∧
      parseHeaderBlock env requestMaxLength (filled req bytes) bytes.length = .ok st ∧
      sock'.peer.outgoing = sock.peer.outgoing ++ written ∧
      (PersistenceAgreed env st written ret ↔ HeadDecides env st (req0, sock0) (handler.answers date)) := by
  obtain ⟨bytes, st', harrived⟩ := requestArrive_ready hw ha
  have hphases := harrived.phases
  rw [parsePhases_eq] at hphases
  obtain ⟨st, hblock, hcheck⟩ := bind_eq_ok.mp hphases
  have hlast := parseHeaderBlock_lastRead (filled_position req bytes) harrived.short.le hblock
  obtain ⟨-, -, hpassed⟩ := checkVersion_ok hcheck
  have hkeep : req0.keepalive = st'.req.keepalive := by
    rw [harrived.finished]
    rfl
  obtain ⟨replies, sock2, hrun, rfl, hpeer⟩ := requestProcessSocket_run ha h
  have hout : sock'.peer.outgoing = sock2.peer.outgoing := congrArg Peer.outgoing hpeer
  have hstart := harrived.unanswered.from (requestArrive_reads ha)
  have hreceived := harrived.toReceived
  rcases firstHead_or hrun with hnone | ⟨⟨head⟩⟩
  · -- no head is sent
    have hsilent := hstart.run hnone hrun
    refine ⟨bytes, st, [], hreceived, hblock, ?_, ?_⟩
    · rw [hout, List.append_nil]
      exact hsilent.reads.outgoing
    · have hempty : FirstHead env (req0, sock0) (handler.answers date) → False := fun head => head.not_silent hnone
      have hreturned : req'.response.keepalive = lastKept true (handler.answers date) := hsilent.keepalive
      have hno : ¬ CarriesKeepAlive [] := by
        rintro ⟨name, -, hm⟩
        cases hm
      rw [PersistenceAgreed, iff_false_right hno, hreturned]
      constructor
      · rintro ⟨hfalse, -⟩
        exact ⟨fun _ => eq_false_of_ne_true hfalse, fun head => (hempty head).elim, fun head => (hempty head).elim⟩
      · intro hdecides
        have hfalse := hdecides.silent hnone
        rw [hfalse]
        exact ⟨Bool.false_ne_true, fun hk => absurd hk Bool.false_ne_true⟩
  · have hat : ∀ head : FirstHead env (req0, sock0) (handler.answers date),
        sock'.peer.outgoing = sock.peer.outgoing ++ head.sent ∧ req'.response.keepalive = head.kept := by
      intro head
      obtain ⟨hanswered, -, hsent⟩ := head.ends hstart hrun
      have hsends : SendsSucceed sock sock2 := by
        rw [SendsSucceed, ← hpeer]
        exact hwrites.sends
      exact ⟨hout.trans (hsent (hwrites.connected head) hsends), hanswered.keepalive⟩
    obtain ⟨hsent, hreturned⟩ := hat head
    refine ⟨bytes, st, head.sent, hreceived, hblock, hsent, ?_⟩
    constructor
    · intro hagreed
      have hall : ∀ head' : FirstHead env (req0, sock0) (handler.answers date),
          PersistenceAgreed env st head'.sent head'.kept := by
        intro head'
        obtain ⟨hsent', hreturned'⟩ := hat head'
        rw [hsent] at hsent'
        rw [← List.append_cancel_left hsent', ← hreturned']
        exact hagreed
      refine ⟨fun hnone => (head.not_silent hnone).elim, fun head' => ?_, fun head' => ?_⟩
      · exact ((head'.agreed_iff hs hlast hpassed hkeep).mp (hall head')).1
      · exact ((head'.agreed_iff hs hlast hpassed hkeep).mp (hall head')).2
    · intro hdecides
      rw [hreturned]
      exact (head.agreed_iff hs hlast hpassed hkeep).mpr ⟨hdecides.advertised head, hdecides.granted head⟩

end Agreement

/-- A client of version 1.0, with these results of its sends. -/
def oldClient (sends : List Send) : Socket := socketNew 3 [] 80 ⟨ascii "G / HTTP/1.0\n\n", [.deliver 14], [], sends⟩

def oldSocket : Socket := oldClient []

def silentHandler : Handler := ⟨[], some 0⟩

/-- The call wants to go on though nothing was answered, and the client of version 1.0 does not. -/
theorem silent_handler_disagrees :
    ∃ req0 sock0 req' sock' st, requestArrive plainEnvironment requestNew oldSocket = .ok (.ready req0 sock0) ∧
      requestProcessSocket plainEnvironment silentHandler closeText requestNew oldSocket = .ok (true, req', sock') ∧
      WritesSucceed plainEnvironment (req0, sock0) (silentHandler.answers closeText) oldSocket sock' ∧
      parseHeaderBlock plainEnvironment requestMaxLength (filled requestNew (ascii "G / HTTP/1.0\n\n")) 14 = .ok st ∧
      sock'.peer.outgoing = oldSocket.peer.outgoing ++ [] ∧ ¬ PersistenceAgreed plainEnvironment st [] true := by
  refine ⟨_, _, _, _, _, rfl, rfl, ⟨fun head => ?_, [], rfl, by simp⟩, rfl, rfl, ?_⟩
  · exact (head.not_silent (fun a ha => absurd ha List.not_mem_nil)).elim
  · rintro ⟨-, hnot⟩
    exact hnot rfl (.inl rfl)

def helloHandler : Handler := ⟨[.respond (.data closeText (ascii "hi"))], some 0⟩

/-- Whatever the socket does meanwhile, if its sends succeed. -/
theorem hello_processed (sends : List Send) (hall : ∀ send ∈ sends, send.succeeds = true) :
    ∃ req0 sock0 req1 sock1, requestArrive plainEnvironment requestNew (oldClient sends) = .ok (.ready req0 sock0) ∧
      sock0.connected = true ∧
      handlerAction plainEnvironment (req0, sock0) (.respond (.data closeText (ascii "hi"))) =
        .ok ((some true, []), req1, sock1) ∧
      requestProcessSocket plainEnvironment helloHandler closeText requestNew (oldClient sends) = .ok (false, req1, sock1) ∧
      sock1.connected = true ∧ SendsSucceed (oldClient sends) sock1 := by
  have harrive : ∃ req0 sock0, requestArrive plainEnvironment requestNew (oldClient sends) = .ok (.ready req0 sock0) ∧
      req0.keepalive = false ∧ sock0.connected = true ∧ sock0.peer.sends = sends := ⟨_, _, rfl, rfl, rfl, rfl⟩
  obtain ⟨req0, sock0, ha, hkeep, hconnected, hsends⟩ := harrive
  obtain ⟨bytes, st, harrived⟩ := requestArrive_ready (socketNew_wellFormed _ _ _ _) ha
  have hstart := harrived.unanswered
  obtain ⟨ok, res, sock1, hdata, hok⟩ := responseData_returns plainEnvironment.tables hstart.formatted hstart.unsent
    req0.keepalive req0.contentLengthUnread closeText (ascii "hi") sock0
  obtain rfl := hok hconnected (by rwa [hsends])
  obtain ⟨-, hclosed, hwrote⟩ := responseData_writes hstart.formatted hstart.unsent hdata
  rw [hkeep, Bool.false_and, Bool.false_and] at hclosed
  obtain ⟨made, hmade, -⟩ := hwrote.sends
  let req1 : Request := { req0 with response := res }
  have haction : handlerAction plainEnvironment (req0, sock0) (.respond (.data closeText (ascii "hi"))) =
      .ok ((some true, []), req1, sock1) := by
    rw [handlerAction, responseCall, hdata]
    rfl
  have hrun : runCalls (handlerAction plainEnvironment) (req0, sock0) helloHandler.actions =
      .ok ([(some true, [])], req1, sock1) := by
    have hnothing : runCalls (handlerAction plainEnvironment) (req0, sock0) [] = .ok ([], req0, sock0) := rfl
    exact runCalls_append_singleton hnothing haction
  have hfinish : requestFinish plainEnvironment (some 0) closeText req1 sock1 = .ok (false, req1, sock1) := by
    have hnot : ¬ req1.keepalive = true := by
      rw [show req1.keepalive = false from hkeep]
      exact Bool.false_ne_true
    rw [requestFinish, if_neg (fun h => hnot h.1.1), if_neg (Option.some_ne_none 0), if_neg (fun h => hnot h.1.1)]
    exact congrArg (fun keep => Except.ok (keep, req1, sock1)) hclosed
  have hprocess : requestProcessSocket plainEnvironment helloHandler closeText requestNew (oldClient sends) =
      .ok (false, req1, sock1) := by
    rw [requestProcessSocket, ha, fault_ok_bind]
    dsimp only
    rw [hrun, fault_ok_bind]
    exact hfinish
  refine ⟨req0, sock0, req1, sock1, ha, hconnected, haction, hprocess, hwrote.stays rfl, made,
    hsends.symm.trans hmade, fun send hm => ?_⟩
  refine hall send ?_
  rw [← hsends, hmade]
  exact List.mem_append_left _ hm

/-- The one finalizer of that handler finds the socket as the request left it. -/
theorem hello_head {s : Request × Socket} (head : FirstHead plainEnvironment s (helloHandler.answers closeText)) :
    head.state = s := by
  obtain ⟨replies, hrun⟩ := head.run
  have hdone : head.done = [] := by
    have hsplit : [.respond (.data closeText (ascii "hi"))] = head.done ++ .respond (.data head.date head.buffer) ::
        head.rest := head.split
    rcases List.append_eq_singleton_iff.mp hsplit.symm with ⟨hdone, -⟩ | ⟨-, hnil⟩
    · exact hdone
    · exact absurd hnil (List.cons_ne_nil _ _)
  rw [hdone] at hrun
  exact (Prod.mk.inj (Except.ok.inj hrun)).2.symm

/-- The client can be written to only after a wait, and then takes three bytes at first. -/
theorem persistence_agreed_hello : ∃ req0 sock0 req' sock' bytes st written,
    requestArrive plainEnvironment requestNew (oldClient [.retry true, .accept 3]) = .ok (.ready req0 sock0) ∧
      requestProcessSocket plainEnvironment helloHandler closeText requestNew (oldClient [.retry true, .accept 3]) =
        .ok (false, req', sock') ∧
      parseHeaderBlock plainEnvironment requestMaxLength (filled requestNew bytes) bytes.length = .ok st ∧
      sock'.peer.outgoing = written ∧ (PersistenceAgreed plainEnvironment st written false ↔
        HeadDecides plainEnvironment st (req0, sock0) (helloHandler.answers closeText)) := by
  obtain ⟨req0, sock0, req1, sock1, ha, hconnected, -, h, -, hsends⟩ :=
    hello_processed [.retry true, .accept 3] (by decide)
  obtain ⟨bytes, st, written, -, hblock, hout, hiff⟩ := persistence_agreed_iff (socketNew_wellFormed _ _ _ _)
    commonTable_spelled ha h ⟨fun head => by rw [hello_head head]; exact hconnected, hsends⟩
  exact ⟨req0, sock0, req1, sock1, bytes, st, written, ha, h, hblock, hout, hiff⟩

end CFlare.Http
