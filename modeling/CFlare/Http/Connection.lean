import CFlare.Http.KeepAlive
import CFlare.Http.ResponseReading
import CFlare.Network.SocketLifetime

/-! A worker and one connection: it processes the socket until a call returns false, and closes it. What goes
out on it are whole messages, one for each call, that the client can take apart again. -/
namespace CFlare.Http
open CFlare.Library CFlare.Network

/-- The inner loop of a worker. What the handlers do in each call is a script; what is left of it is
returned. -/
def serveRequests (env : Environment) : List (Handler × CString) → Request → Socket →
    Except Fault (List (Handler × CString) × Request × Socket)
  | [], _, _ => .error .diverged
  | (handler, date) :: calls, req, sock => do
    let (ret, req, sock) ← requestProcessSocket env handler date req sock
    if ret then serveRequests env calls req sock else .ok (calls, req, sock)

def serveSocket (env : Environment) (calls : List (Handler × CString)) (req : Request) (sock : Socket) :
    Except Fault (List (Handler × CString) × Request × Socket) := do
  let (rest, req, sock) ← serveRequests env calls req sock
  .ok (rest, req, socketClose sock)

/-- The connection is lost before a call answers: in reading the request, or in what the handler does in front
of its first finalizer. -/
inductive LostBefore (env : Environment) (handler : Handler) (date : CString) (req : Request) (sock : Socket) : Prop where
  | request {received : Except Stop Nat} {req1 : Request} {sock1 : Socket}
      (reads : receive (requestMaxLength + 1) (startRequest req) 0 0 sock = .ok (received, req1, sock1))
      (gone : sock1.connected = false) : LostBefore env handler date req sock
  | body {req0 : Request} {sock0 : Socket} (ready : requestArrive env req sock = .ok (.ready req0 sock0))
      (head : FirstHead env (req0, sock0) (handler.answers date)) (gone : head.state.2.connected = false) :
    LostBefore env handler date req sock

/-- The messages of a connection, from the state in which its calls begin: an answer for each call, up to a
refusal or to the loss of the connection. -/
inductive Exchanged (env : Environment) : Bool → List (Handler × CString) → Request → Socket → List Message → Prop where
  | done (req : Request) (sock : Socket) : Exchanged env false [] req sock []
  | lost {handler : Handler} {date : CString} {req : Request} {sock : Socket}
      (before : LostBefore env handler date req sock) (calls : List (Handler × CString)) :
    Exchanged env true ((handler, date) :: calls) req sock []
  | refused {status : UInt32} {req req1 : Request} {sock sock1 : Socket}
      (refuses : requestArrive env req sock = .ok (.rejected status req1 sock1)) (call : Handler × CString)
      (message : Bytes) : Exchanged env false [call] req sock [refusal env status message]
  | answered {lost ret : Bool} {handler : Handler} {date : CString} {calls : List (Handler × CString)}
      {req req1 : Request} {sock sock1 : Socket} {message : Message} {messages : List Message}
      (returns : requestProcessSocket env handler date req sock = .ok (ret, req1, sock1))
      (answer : message.Answers env handler date) (rest : Exchanged env lost calls req1 sock1 messages) :
    Exchanged env lost ((handler, date) :: calls) req sock (message :: messages)

section Lasting
variable {env : Environment} {tables : Tables} {req req' : Request} {res res' : Response} {sock sock' : Socket}

private theorem receive_lasts {fuel nbytes newlines : Nat} {received : Except Stop Nat}
    (h : receive fuel req nbytes newlines sock = .ok (received, req', sock')) :
    Lasts sock sock' ∧ OnlyReads sock sock' := by
  induction fuel generalizing req nbytes newlines sock with
  | zero => cases h
  | succ fuel ih =>
    obtain ⟨⟨fragment, sock1⟩, hread, h⟩ := bind_eq_ok.mp h
    have hfirst := And.intro (socketRead_lasts hread) (socketRead_reads hread)
    cases fragment with
    | none =>
      obtain ⟨-, h⟩ := Prod.mk.inj (Except.ok.inj h)
      obtain ⟨-, rfl⟩ := Prod.mk.inj h
      exact hfirst
    | some fragment =>
      dsimp only at h
      split at h
      · obtain ⟨-, h⟩ := Prod.mk.inj (Except.ok.inj h)
        obtain ⟨-, rfl⟩ := Prod.mk.inj h
        exact hfirst
      split at h
      · obtain ⟨-, h⟩ := Prod.mk.inj (Except.ok.inj h)
        obtain ⟨-, rfl⟩ := Prod.mk.inj h
        exact hfirst
      · obtain ⟨hlasts, hreads⟩ := ih h
        exact ⟨hfirst.1.trans hlasts, hfirst.2.trans hreads⟩

theorem quickResponseSocket_lasts (env : Environment) (sock : Socket) (status : UInt32) (message : Bytes) :
    Lasts sock (quickResponseSocket env sock status message false) := by
  have hanswer : quickResponseSocket env sock status message false =
      socketClose (socketWriteLine (socketWriteLine sock (quickHeaders env status message false)).2 message).2 := rfl
  rw [hanswer]
  exact ((socketWriteLine_lasts sock _).trans (socketWriteLine_lasts _ message)).trans (socketClose_lasts _)

private theorem requestArrive_lasts {arrival : Arrival} (h : requestArrive env req sock = .ok arrival) :
    (∃ req1 sock1, arrival = .ready req1 sock1 ∧ Lasts sock sock1) ∨
      ∃ status message req1 sock1, arrival = .rejected status req1 (quickResponseSocket env sock1 status message false) ∧
        Lasts sock sock1 ∧ OnlyReads sock sock1 ∧ ∃ received req2,
          receive (requestMaxLength + 1) (startRequest req) 0 0 sock = .ok (received, req2, sock1) := by
  obtain ⟨⟨received, req1, sock1⟩, hreceive, h⟩ := bind_eq_ok.mp h
  have hreceived := receive_lasts hreceive
  dsimp only at h
  cases hparsed : received.bind (parsePhases env requestMaxLength req1) with
  | error stop =>
    rw [hparsed] at h
    cases stop with
    | fault fault => cases h
    | reject status message req2 =>
      exact .inr ⟨status, message, req2, sock1, (Except.ok.inj h).symm, hreceived.1, hreceived.2, _, _, hreceive⟩
  | ok st =>
    rw [hparsed] at h
    exact .inl ⟨_, sock1, (Except.ok.inj h).symm, hreceived.1⟩

private theorem chunkFromSocket_lasts {got : Bytes} {len : Nat} {reply : Bool × Bytes}
    (h : chunkFromSocket req sock got len = .ok (reply, req', sock')) : Lasts sock sock' := by
  obtain ⟨⟨bytes, sock1⟩, hread, h⟩ := bind_eq_ok.mp h
  obtain ⟨-, h⟩ := Prod.mk.inj (Except.ok.inj h)
  obtain ⟨-, rfl⟩ := Prod.mk.inj h
  exact socketRead_lasts hread

private theorem requestContentChunk_lasts {len : Nat} {reply : Bool × Bytes}
    (h : requestContentChunk req sock len = .ok (reply, req', sock')) : Lasts sock sock' := by
  unfold requestContentChunk at h
  dsimp only at h
  generalize (if req.contentLengthUnread < len then req.contentLengthUnread else len) = asked at h
  generalize (if asked > req.bufferUnread then asked else req.bufferUnread) = readable at h
  split at h
  · split at h
    · cases h
    · split at h
      · obtain ⟨-, h⟩ := Prod.mk.inj (Except.ok.inj h)
        obtain ⟨-, rfl⟩ := Prod.mk.inj h
        exact .refl sock
      · exact chunkFromSocket_lasts h
  · exact chunkFromSocket_lasts h

private theorem sendBuffer_lasts {ok : Bool} (h : sendBuffer tables res sock = .ok (ok, res', sock')) :
    Lasts sock sock' := by
  rw [sendBuffer, if_neg (Nat.not_le.mpr (statusLine_short tables _))] at h
  have hstatus := socketWrite_lasts sock (statusLine tables res.statusCode)
  generalize socketWrite sock (statusLine tables res.statusCode) = out at h hstatus
  obtain ⟨ok1, sock1⟩ := out
  cases ok1 with
  | false =>
    obtain ⟨-, h⟩ := Prod.mk.inj (Except.ok.inj h)
    obtain ⟨-, rfl⟩ := Prod.mk.inj h
    exact hstatus
  | true =>
    obtain ⟨-, h⟩ := Prod.mk.inj (Except.ok.inj h)
    obtain ⟨-, rfl⟩ := Prod.mk.inj h
    exact hstatus.trans (socketWrite_lasts sock1 _)

private theorem responseData_lasts {reqKeepalive ok : Bool} {contentLengthUnread : Nat} {date : CString} {buffer : Bytes}
    (h : responseData tables reqKeepalive contentLengthUnread date res sock buffer = .ok (ok, res', sock')) :
    Lasts sock sock' := by
  obtain ⟨res1, -, h⟩ := bind_eq_ok.mp h
  obtain ⟨⟨sent, res2, sock2⟩, hsend, h⟩ := bind_eq_ok.mp h
  have hfirst : Lasts sock sock2 := by
    unfold sendHeaders at hsend
    split at hsend
    · obtain ⟨-, hsend⟩ := Prod.mk.inj (Except.ok.inj hsend)
      obtain ⟨-, rfl⟩ := Prod.mk.inj hsend
      exact .refl sock
    · obtain ⟨res3, -, hsend⟩ := bind_eq_ok.mp hsend
      exact sendBuffer_lasts hsend
  cases sent with
  | false =>
    obtain ⟨-, h⟩ := Prod.mk.inj (Except.ok.inj h)
    obtain ⟨-, rfl⟩ := Prod.mk.inj h
    exact hfirst
  | true =>
    obtain ⟨-, h⟩ := Prod.mk.inj (Except.ok.inj h)
    obtain ⟨-, rfl⟩ := Prod.mk.inj h
    exact hfirst.trans (socketWrite_lasts sock2 buffer)

variable {s s' : Request × Socket} {action : HandlerAction} {actions : List HandlerAction}
  {reply : Option Bool × Bytes} {replies : List (Option Bool × Bytes)}

theorem handlerAction_lasts (h : handlerAction env s action = .ok (reply, s')) : Lasts s.2 s'.2 := by
  cases action with
  | chunk len =>
    obtain ⟨⟨⟨ok, bytes⟩, state⟩, hchunk, h⟩ := bind_eq_ok.mp h
    obtain ⟨-, rfl⟩ := Prod.mk.inj (Except.ok.inj h)
    exact requestContentChunk_lasts hchunk
  | respond call =>
    obtain ⟨⟨ok, res, sock⟩, hcall, h⟩ := bind_eq_ok.mp h
    obtain ⟨-, rfl⟩ := Prod.mk.inj (Except.ok.inj h)
    cases call with
    | data date buffer =>
      obtain ⟨⟨sent, res1, sock1⟩, hdata, hcall⟩ := bind_eq_ok.mp hcall
      obtain ⟨-, hcall⟩ := Prod.mk.inj (Except.ok.inj hcall)
      obtain ⟨-, rfl⟩ := Prod.mk.inj hcall
      exact responseData_lasts hdata
    | header id name value =>
      obtain ⟨res1, -, hcall⟩ := bind_eq_ok.mp hcall
      obtain ⟨-, hcall⟩ := Prod.mk.inj (Except.ok.inj hcall)
      obtain ⟨-, rfl⟩ := Prod.mk.inj hcall
      exact .refl _
    | status code =>
      obtain ⟨-, hcall⟩ := Prod.mk.inj (Except.ok.inj hcall)
      obtain ⟨-, rfl⟩ := Prod.mk.inj hcall
      exact .refl _
    | keepalive keep =>
      obtain ⟨-, hcall⟩ := Prod.mk.inj (Except.ok.inj hcall)
      obtain ⟨-, rfl⟩ := Prod.mk.inj hcall
      exact .refl _
  | file =>
    obtain ⟨-, rfl⟩ := Prod.mk.inj (Except.ok.inj h)
    exact .refl _
  | cookie => cases h

theorem handlerActions_lasts (h : runCalls (handlerAction env) s actions = .ok (replies, s')) : Lasts s.2 s'.2 :=
  runCalls_preserves (fun t => Lasts s.2 t.2) (fun _ _ _ _ _ hs ha => hs.trans (handlerAction_lasts ha)) (.refl s.2) h

theorem requestFinish_lasts {result : Option Int} {date : CString} {ret : Bool}
    (h : requestFinish env result date req sock = .ok (ret, req', sock')) : Lasts sock sock' := by
  unfold requestFinish at h
  dsimp only at h
  split at h
  · cases h
  have hqueued : Lasts sock (putBack result req sock) := by
    unfold putBack
    split
    · exact socketRequeue_lasts sock _
    · exact .refl sock
  change (if result = none then responseData env.tables _ _ _ _ (putBack result req sock) _ >>= _
    else .ok (_, _, putBack result req sock)) = _ at h
  split at h
  · obtain ⟨⟨ok, res, sock1⟩, hdata, h⟩ := bind_eq_ok.mp h
    obtain ⟨-, hstate⟩ := Prod.mk.inj (Except.ok.inj h)
    obtain ⟨-, rfl⟩ := Prod.mk.inj hstate
    exact hqueued.trans (responseData_lasts hdata)
  · obtain ⟨-, hstate⟩ := Prod.mk.inj (Except.ok.inj h)
    obtain ⟨-, rfl⟩ := Prod.mk.inj hstate
    exact hqueued

end Lasting

section Answers
variable {env : Environment} {handler : Handler} {date : CString} {req req0 req' : Request}
  {sock sock0 sock' : Socket} {ret : Bool} {s s' : Request × Socket} {answers : List HandlerAction} {out : Bytes}
  {replies : List (Option Bool × Bytes)}

private theorem FirstHead.behind (head : FirstHead env s answers)
    (hr : runCalls (handlerAction env) s answers = .ok (replies, s')) :
    ∃ rest, runCalls (handlerAction env) head.state (.respond (.data head.date head.buffer) :: head.rest) =
      .ok (rest, s') := by
  obtain ⟨first, hdone⟩ := head.run
  rw [head.split] at hr
  obtain ⟨first', s1, rest, hfirst, hrest, -⟩ := runCalls_append_eq_ok.mp hr
  rw [hdone] at hfirst
  obtain ⟨-, rfl⟩ := Prod.mk.inj (Except.ok.inj hfirst)
  exact ⟨rest, hrest⟩

/-- A connection that takes in everything gets the whole answer, and one that is lost gets nothing. -/
theorem FirstHead.all_or_nothing (head : FirstHead env s answers) (hstart : Unanswered s.1.keepalive sock true 0 [] s)
    (hr : runCalls (handlerAction env) s answers = .ok (replies, s')) (hsends : sock.peer.sends = []) :
    head.state.2.connected = true ∧ s'.2.peer.outgoing = sock.peer.outgoing ++ head.sent ∨
      head.state.2.connected = false ∧ s'.2.peer.outgoing = sock.peer.outgoing := by
  obtain ⟨first, hdone⟩ := head.run
  obtain ⟨rest, hrest⟩ := head.behind hr
  have hunanswered := hstart.run head.first hdone
  cases hc : head.state.2.connected with
  | false =>
    right
    have hpeer := ((handlerActions_lasts hrest).lost hc).2
    refine ⟨rfl, ?_⟩
    rw [hpeer]
    exact hunanswered.reads.outgoing
  | true =>
    obtain ⟨-, -, hwhole⟩ := head.ends hstart hr
    have hleft : s'.2.peer.sends = [] := (handlerActions_lasts hr).unscripted (hstart.reads.sends.trans hsends)
    exact .inl ⟨rfl, hwhole hc ⟨[], hsends.trans hleft.symm, fun send hm => absurd hm List.not_mem_nil⟩⟩

/-- A handler that finalizes, or that leaves no result, has a first finalizer, and its socket becomes the one
that the call leaves. -/
theorem firstHead_lasts (ha : requestArrive env req sock = .ok (.ready req0 sock0))
    (h : requestProcessSocket env handler date req sock = .ok (ret, req', sock'))
    (hfinal : (∃ a ∈ handler.actions, a.finalizes = true) ∨ handler.result = none) :
    ∃ head : FirstHead env (req0, sock0) (handler.answers date), Lasts sock0 head.state.2 ∧ Lasts head.state.2 sock' := by
  rw [requestProcessSocket, ha, fault_ok_bind] at h
  obtain ⟨⟨first, req1, sock1⟩, hrun, h⟩ := bind_eq_ok.mp h
  have hfinish := requestFinish_lasts h
  rcases firstHead_or hrun with hnone | ⟨⟨head⟩⟩
  · -- the server's own answer is the first one
    have hresult : handler.result = none := by
      rcases hfinal with ⟨a, hm, hf⟩ | hresult
      · rw [hnone a hm] at hf
        cases hf
      · exact hresult
    let req2 : Request := { req1 with response := responseStatus req1.response 500 }
    have hstatus : handlerAction env (req1, sock1) (.respond (.status 500)) = .ok ((none, []), req2, sock1) := rfl
    have hdone := runCalls_append_singleton hrun hstatus
    refine ⟨⟨handler.actions ++ [.respond (.status 500)], date, ascii "no request handler\n", [], (req2, sock1), ?_, ?_,
      _, hdone⟩, handlerActions_lasts hrun, hfinish⟩
    · rw [Handler.answers, ownAnswer, if_pos hresult, List.append_assoc]
      rfl
    · intro a hm
      rcases List.mem_append.mp hm with hm | hm
      · exact hnone a hm
      · obtain rfl := List.mem_singleton.mp hm
        rfl
  · obtain ⟨rest, hrest⟩ := head.behind hrun
    obtain ⟨done, hdone⟩ := head.run
    refine ⟨⟨head.done, head.date, head.buffer, head.rest ++ ownAnswer handler.result date, head.state, ?_, head.first,
      done, hdone⟩, handlerActions_lasts hdone, (handlerActions_lasts hrest).trans hfinish⟩
    refine (congrArg (· ++ ownAnswer handler.result date) head.split).trans ?_
    rw [List.append_assoc, List.cons_append]

/-- What one call sends. -/
inductive Sent (env : Environment) (handler : Handler) (date : CString) (req : Request) (sock : Socket) (ret : Bool)
    (sock' : Socket) : Bytes → Prop where
  | lost (before : LostBefore env handler date req sock) (gone : sock'.connected = false) :
    Sent env handler date req sock ret sock' []
  | refused {status : UInt32} {req1 : Request} {sock1 : Socket}
      (refuses : requestArrive env req sock = .ok (.rejected status req1 sock1)) (message : Bytes)
      (returned : ret = false) : Sent env handler date req sock ret sock' (quickResponse env status message false)
  | answered {message : Message} {text : Bytes} (answer : message.Answers env handler date)
      (nonempty : text ≠ []) (takes : Takes readMessage text message) : Sent env handler date req sock ret sock' text

private theorem quickResponse_sends (hs : SendsAll sock) (status : UInt32) (message : Bytes) :
    (quickResponseSocket env sock status message false).peer.outgoing =
      sock.peer.outgoing ++ quickResponse env status message false := by
  have hline : ∀ {sock : Socket} (bytes : Bytes), SendsAll sock → ∃ sock', socketWriteLine sock bytes = (true, sock') ∧
      SendsAll sock' ∧ sock'.peer.outgoing = sock.peer.outgoing ++ (bytes ++ [newline]) := by
    intro sock bytes hs
    obtain ⟨sock1, hw1, hs1⟩ := hs.write bytes
    obtain ⟨sock2, hw2, hs2⟩ := hs1.write [newline]
    have hboth : socketWriteLine sock bytes = (true, sock2) := by
      rw [socketWriteLine, if_neg (by rw [hs.connected]; decide), hw1]
      simp only [hw2, hs2.connected]
    have hwrote := (socketWriteLine_written sock bytes).wrote
    rw [hboth] at hwrote
    exact ⟨sock2, hboth, hs2, hwrote.whole rfl⟩
  obtain ⟨sock1, hhead, hs1, hout1⟩ := hline (quickHeaders env status message false) hs
  obtain ⟨sock2, hbody, -, hout2⟩ := hline message hs1
  have hanswer : quickResponseSocket env sock status message false =
      socketClose (socketWriteLine (socketWriteLine sock (quickHeaders env status message false)).2 message).2 := rfl
  rw [hanswer, hhead, hbody, socketClose_outgoing, hout2, hout1, quickResponse, List.append_assoc]

/-- One call on a connection that takes in everything sends one whole message, or finds it lost. -/
theorem call_sent (ht : TablesSpelled env.tables) (hreasons : env.ReasonsWhole) (hh : handler.Readable env date)
    (hw : sock.WellFormed) (hsends : sock.peer.sends = [])
    (h : requestProcessSocket env handler date req sock = .ok (ret, req', sock')) :
    ∃ written, sock'.peer.outgoing = sock.peer.outgoing ++ written ∧ Lasts sock sock' ∧
      Sent env handler date req sock ret sock' written := by
  cases ha : requestArrive env req sock with
  | error fault =>
    rw [requestProcessSocket, ha] at h
    cases h
  | ok arrival =>
    rcases requestArrive_lasts ha with
      ⟨req0, sock0, rfl, hfirst⟩ | ⟨status, message, req1, sock1, rfl, hfirst, hreads, received, req2, hreceive⟩
    · obtain ⟨bytes, st, harrived⟩ := requestArrive_ready hw ha
      obtain ⟨replies, sock2, hrun, -, hpeer⟩ := requestProcessSocket_run ha h
      have hout : sock'.peer.outgoing = sock2.peer.outgoing := congrArg Peer.outgoing hpeer
      have hstart := harrived.unanswered.from (requestArrive_reads ha)
      obtain ⟨head, hbefore, hbehind⟩ := firstHead_lasts ha h hh.answered
      have hlasts := (hfirst.trans hbefore).trans hbehind
      rcases head.all_or_nothing hstart hrun hsends with ⟨-, hsent⟩ | ⟨hgone, hnothing⟩
      · obtain ⟨message, hanswer, htakes⟩ := head.taken ht hreasons hh
        refine ⟨head.sent, hout.trans hsent, hlasts, .answered hanswer ?_ htakes⟩
        exact List.append_ne_nil_of_left_ne_nil (List.append_ne_nil_of_right_ne_nil _ (List.cons_ne_nil _ _)) _
      · refine ⟨[], ?_, hlasts, .lost (.body ha head hgone) (hbehind.lost hgone).1⟩
        rw [List.append_nil]
        exact hout.trans hnothing
    · rw [requestProcessSocket, ha] at h
      obtain ⟨hret, hstate⟩ := Prod.mk.inj (Except.ok.inj h)
      obtain ⟨-, rfl⟩ := Prod.mk.inj hstate
      have hlasts := hfirst.trans (quickResponseSocket_lasts env sock1 status message)
      cases hc : sock1.connected with
      | true =>
        refine ⟨quickResponse env status message false, ?_, hlasts, .refused ha message hret.symm⟩
        rw [quickResponse_sends ⟨hc, hfirst.unscripted hsends⟩, hreads.outgoing]
      | false =>
        obtain ⟨hgone, hpeer⟩ := (quickResponseSocket_lasts env sock1 status message).lost hc
        refine ⟨[], ?_, hlasts, .lost (.request hreceive hc) hgone⟩
        rw [hpeer, List.append_nil]
        exact hreads.outgoing

end Answers

section Connections
variable {env : Environment} {calls rest : List (Handler × CString)} {req req' : Request} {sock sock' : Socket}

theorem Exchanged.length_le {lost : Bool} {used : List (Handler × CString)} {messages : List Message}
    (h : Exchanged env lost used req sock messages) : messages.length ≤ used.length := by
  induction h with
  | done => exact Nat.le_refl 0
  | lost => exact Nat.zero_le _
  | refused => exact Nat.le_refl 1
  | answered _ _ _ ih => exact Nat.succ_le_succ ih

theorem Exchanged.length_eq {used : List (Handler × CString)} {messages : List Message}
    (h : Exchanged env false used req sock messages) : messages.length = used.length := by
  generalize hl : false = lost at h
  induction h with
  | done => rfl
  | lost => cases hl
  | refused => rfl
  | answered _ _ _ ih => exact congrArg Nat.succ (ih hl)

/-- What a run of calls exchanged, and what it did to the socket. -/
structure Conversation (env : Environment) (req : Request) (sock sock' : Socket) (used : List (Handler × CString))
    (lost : Bool) (messages : List Message) (written : Bytes) : Prop where
  exchanged : Exchanged env lost used req sock messages
  outgoing : sock'.peer.outgoing = sock.peer.outgoing ++ written
  readBack : ∀ fuel, messages.length ≤ fuel → readAll readMessage fuel written = some messages
  lasts : Lasts sock sock'
  gone : lost = true → sock'.connected = false

theorem quickResponse_ne_nil (env : Environment) (status : UInt32) (message : Bytes) :
    quickResponse env status message false ≠ [] :=
  List.append_ne_nil_of_left_ne_nil (List.append_ne_nil_of_right_ne_nil _ (List.cons_ne_nil _ _)) _

private theorem Conversation.after {req1 : Request} {sock1 : Socket} {used : List (Handler × CString)} {lost : Bool}
    {messages : List Message} {written text : Bytes} (h : Conversation env req1 sock1 sock' used lost messages written)
    (hlasts : Lasts sock sock1) (hout : sock1.peer.outgoing = sock.peer.outgoing ++ text) {message : Message}
    (hne : text ≠ []) (htakes : Takes readMessage text message) {call : Handler × CString}
    (hexchanged : Exchanged env lost (call :: used) req sock (message :: messages)) :
    Conversation env req sock sock' (call :: used) lost (message :: messages) (text ++ written) := by
  refine ⟨hexchanged, ?_, fun fuel hfuel => ?_, hlasts.trans h.lasts, h.gone⟩
  · rw [h.outgoing, hout, List.append_assoc]
  · rw [List.length_cons] at hfuel
    obtain ⟨fuel, rfl⟩ := Nat.exists_eq_add_of_le' (Nat.le_of_add_left_le hfuel)
    rw [readAll_append htakes hne, h.readBack fuel (Nat.le_of_add_le_add_right hfuel)]
    rfl

private theorem Conversation.ended (req : Request) (sock : Socket) : Conversation env req sock sock [] false [] [] :=
  ⟨.done req sock, (List.append_nil _).symm, fun fuel _ => readAll_nil fuel, .refl sock,
    fun h => absurd h Bool.false_ne_true⟩

private theorem Conversation.silent {handler : Handler} {date : CString} (hbefore : LostBefore env handler date req sock)
    (hlasts : Lasts sock sock') (hc : sock'.connected = false) (hout : sock'.peer.outgoing = sock.peer.outgoing)
    (used : List (Handler × CString)) : Conversation env req sock sock' ((handler, date) :: used) true [] [] :=
  ⟨.lost hbefore used, by rw [hout, List.append_nil], fun fuel _ => readAll_nil fuel, hlasts, fun _ => hc⟩

theorem serveRequests_exchanged (ht : TablesSpelled env.tables) (hreasons : env.ReasonsWhole)
    (hh : ∀ call ∈ calls, call.1.Readable env call.2) (hw : sock.WellFormed) (hsends : sock.peer.sends = [])
    (h : serveRequests env calls req sock = .ok (rest, req', sock')) :
    ∃ used lost messages written, calls = used ++ rest ∧
      Conversation env req sock sock' used lost messages written := by
  induction calls generalizing req sock with
  | nil => cases h
  | cons call calls ih =>
    obtain ⟨handler, date⟩ := call
    obtain ⟨⟨ret, req1, sock1⟩, hcall, h⟩ := bind_eq_ok.mp h
    obtain ⟨text, hout, hlasts, hsent⟩ := call_sent ht hreasons (hh _ List.mem_cons_self) hw hsends hcall
    cases ret with
    | false =>
      obtain ⟨rfl, hstate⟩ := Prod.mk.inj (Except.ok.inj h)
      obtain ⟨rfl, rfl⟩ := Prod.mk.inj hstate
      cases hsent with
      | lost before gone =>
        rw [List.append_nil] at hout
        exact ⟨[(handler, date)], true, [], [], rfl, .silent before hlasts gone hout _⟩
      | @refused status _ _ refuses message returned =>
        exact ⟨[(handler, date)], false, _, _, rfl,
          (Conversation.ended req1 sock1).after hlasts hout (quickResponse_ne_nil env status message)
            (quickResponse_taken hreasons status message) (.refused refuses _ message)⟩
      | answered answer nonempty takes =>
        exact ⟨[(handler, date)], false, _, _, rfl,
          (Conversation.ended req1 sock1).after hlasts hout nonempty takes (.answered hcall answer (.done req1 sock1))⟩
    | true =>
      obtain ⟨used, lost, messages, written, rfl, hrest⟩ := ih (fun c hc => hh c (List.mem_cons_of_mem _ hc))
        (hlasts.wellFormed hw) (hlasts.unscripted hsends) h
      cases hsent with
      | lost before gone =>
        obtain ⟨hgone, hpeer⟩ := hrest.lasts.lost gone
        rw [List.append_nil] at hout
        refine ⟨(handler, date) :: used, true, [], [], rfl, .silent before (hlasts.trans hrest.lasts) hgone ?_ _⟩
        rw [hpeer]
        exact hout
      | refused refuses message returned => cases returned
      | answered answer nonempty takes =>
        exact ⟨(handler, date) :: used, lost, _, _, rfl,
          hrest.after hlasts hout nonempty takes (.answered hcall answer hrest.exchanged)⟩

end Connections

/-- What a worker sends on one connection reads back as whole messages, one for each call that it made and in
their order: what the handlers answered, or at the end one refusal. There are fewer only where the connection was
lost before a call answered. The socket is closed behind them. -/
theorem responses_read_back {env : Environment} {calls rest : List (Handler × CString)} {req req' : Request}
    {sock sock' : Socket} (hs : Spelled env.table.entries) (hreasons : env.ReasonsWhole)
    (hh : ∀ call ∈ calls, call.1.Readable env call.2) (hw : sock.WellFormed) (hsends : sock.peer.sends = [])
    (h : serveSocket env calls req sock = .ok (rest, req', sock')) :
    ∃ sock1, serveRequests env calls req sock = .ok (rest, req', sock1) ∧ sock' = socketClose sock1 ∧ sock'.fd < 0 ∧
      ∃ used lost messages written, calls = used ++ rest ∧ Exchanged env lost used req sock messages ∧
        (lost = false → messages.length = used.length) ∧ (lost = true → sock1.connected = false) ∧
        sock'.peer.outgoing = sock.peer.outgoing ++ written ∧
        readAll readMessage used.length written = some messages := by
  obtain ⟨⟨rest1, req1, sock1⟩, hserve, h⟩ := bind_eq_ok.mp h
  obtain ⟨rfl, hstate⟩ := Prod.mk.inj (Except.ok.inj h)
  obtain ⟨rfl, rfl⟩ := Prod.mk.inj hstate
  obtain ⟨used, lost, messages, written, hused, hconversation⟩ :=
    serveRequests_exchanged (.of_table hs) hreasons hh hw hsends hserve
  refine ⟨sock1, hserve, rfl, (socketClose_closed sock1).1, used, lost, messages, written, hused,
    hconversation.exchanged, ?_, hconversation.gone, ?_, hconversation.readBack _ hconversation.exchanged.length_le⟩
  · rintro rfl
    exact hconversation.exchanged.length_eq
  · rw [socketClose_outgoing]
    exact hconversation.outgoing

section Readable
variable {env : Environment} {handler : Handler} {date : CString}

private theorem carries_line_length {hdr : Header} {name : Bytes} (h : hdr.Carries name) (value : CString) :
    (hdr.line value).length = name.length + 2 + value.bytes.length + 1 := by
  obtain ⟨key, hkey, hname⟩ := h
  have hlength : key.bytes.length = name.length := by
    have hboth := congrArg List.length hname
    rwa [normalizeHeader, normalizeHeader, List.length_map, List.length_map] at hboth
  rw [Header.line_eq hkey, List.length_append, List.length_append, List.length_append, hlength]
  rfl

private theorem addLine_length_le (text line : Bytes) : (addLine text line).length ≤ text.length + line.length := by
  unfold addLine
  split
  · exact Nat.le_of_eq List.length_append
  · exact Nat.le_add_right _ _

/-- Behind no headers there is room for those that a finalizer adds. -/
theorem headRoom_plain (ht : TablesSpelled env.tables) {day : CString} (hday : day.bytes.length ≤ 64) (keep : Bool)
    (body : Bytes) : HeadRoom env.tables [] keep day body := by
  have hnumber : (contentLengthText body.length).bytes.length ≤ 64 :=
    (List.length_take_le _ _).trans (by decide)
  have hvalue : (if keep then keepAliveText else closeText).bytes.length ≤ 10 := by
    cases keep <;> decide
  have hname : (ascii "Content-Length").length = 14 ∧ (ascii "Server").length = 6 ∧ (ascii "Date").length = 4 ∧
      (ascii "Connection").length = 10 ∧ serverText.bytes.length = 6 := by decide
  have hl := carries_line_length ht.contentLength (contentLengthText body.length)
  have hs := carries_line_length ht.server serverText
  have hd := carries_line_length ht.date day
  have hc : (connectionLine env.tables keep).length = _ := carries_line_length ht.connection _
  have hmax : responseMaxLength = 4096 := rfl
  have hempty : (setText []).length = 0 := rfl
  have h1 := addLine_length_le (setText []) (env.tables.common.contentLength.line (contentLengthText body.length))
  have h2 := addLine_length_le (addLine (setText []) (env.tables.common.contentLength.line
    (contentLengthText body.length))) (env.tables.common.server.line serverText)
  have h3 : (ownLines env.tables day body.length (setText [])).length ≤ _ := addLine_length_le _ _
  refine ⟨fun call hm => absurd hm List.not_mem_nil, ?_, ?_⟩
  · omega
  · omega

/-- A handler that sets no headers is readable, with a short date and a body whose length is a size. -/
theorem Handler.readable_plain (ht : TablesSpelled env.tables)
    (hfinal : (∃ a ∈ handler.actions, a.finalizes = true) ∨ handler.result = none)
    (hplain : headerCalls (handler.answers date) = [])
    (hdata : ∀ day body, .respond (.data day body) ∈ handler.answers date →
      newline ∉ day.bytes ∧ day.bytes.length ≤ 64 ∧ body.length < sizeLimit) : handler.Readable env date := by
  refine ⟨hfinal, fun done day body rest hsplit hfirst => ?_⟩
  have hm : .respond (.data day body) ∈ handler.answers date := by
    rw [hsplit]
    exact List.mem_append_right _ List.mem_cons_self
  obtain ⟨hnewline, hshort, hsize⟩ := hdata day body hm
  have hnone : headerCalls done = [] := by
    rw [hsplit, headerCalls, List.filterMap_append] at hplain
    exact (List.append_eq_nil_iff.mp hplain).1
  rw [hnone]
  exact ⟨hnewline, hsize, fun line hl => absurd hl List.not_mem_nil, fun keep => headRoom_plain ht hshort keep body⟩

end Readable

theorem helloHandler_readable : helloHandler.Readable plainEnvironment closeText := by
  refine Handler.readable_plain (.of_table commonTable_spelled) (.inl ⟨_, List.mem_singleton.mpr rfl, rfl⟩) rfl ?_
  intro day body hm
  obtain ⟨rfl, rfl⟩ : day = closeText ∧ body = ascii "hi" := by
    have hdata := List.mem_singleton.mp hm
    injection hdata with hdata
    injection hdata with hday hbody
    exact ⟨hday, hbody⟩
  decide

theorem plain_reasons : plainEnvironment.ReasonsWhole := by
  intro code text hnone
  cases hnone

theorem responses_read_back_hello : ∃ req' sock' messages written,
    serveSocket plainEnvironment [(helloHandler, closeText)] requestNew oldSocket = .ok ([], req', sock') ∧
      sock'.fd < 0 ∧ Exchanged plainEnvironment false [(helloHandler, closeText)] requestNew oldSocket messages ∧
      messages.length = 1 ∧ sock'.peer.outgoing = written ∧ readAll readMessage 1 written = some messages := by
  have hprocessed := hello_processed [] (by simp)
  obtain ⟨-, -, req1, sock1, -, -, -, hprocess, hopen, -⟩ := hprocessed
  have hloop : serveRequests plainEnvironment [(helloHandler, closeText)] requestNew oldSocket = .ok ([], req1, sock1) := by
    rw [serveRequests, oldSocket, hprocess]
    rfl
  have hserve : serveSocket plainEnvironment [(helloHandler, closeText)] requestNew oldSocket =
      .ok ([], req1, socketClose sock1) := by
    rw [serveSocket, hloop]
    rfl
  have hreadable : ∀ call ∈ [(helloHandler, closeText)], call.1.Readable plainEnvironment call.2 := by
    intro call hm
    rw [List.mem_singleton.mp hm]
    exact helloHandler_readable
  obtain ⟨sock2, hloop2, -, hclosed, used, lost, messages, written, hused, hexchanged, hall, hgone, hout, hread⟩ :=
    responses_read_back commonTable_spelled plain_reasons hreadable (socketNew_wellFormed _ _ _ _) rfl hserve
  obtain ⟨-, hstate⟩ := Prod.mk.inj (Except.ok.inj (hloop.symm.trans hloop2))
  obtain ⟨-, rfl⟩ := Prod.mk.inj hstate
  rw [List.append_nil] at hused
  subst hused
  cases lost with
  | true =>
    rw [hgone rfl] at hopen
    cases hopen
  | false => exact ⟨req1, socketClose sock1, messages, written, hserve, hclosed, hexchanged, hall rfl, hout, hread⟩

end CFlare.Http
