import CFlare.Http.Connection
import CFlare.Http.PipelinedArrival

/-! A client that does not wait for its answers: every request gets to the hook as it was written and in its
place, and every answer goes back. -/
namespace CFlare.Http
open CFlare.Library CFlare.Network

/-- An action that reads no body and leaves the connection to be kept. -/
def HandlerAction.keeps : HandlerAction → Bool
  | .chunk _ | .cookie => false
  | .respond (.keepalive keep) => keep
  | _ => true

/-- A handler of such actions, that leaves no result or zero. -/
structure Handler.Keeps (handler : Handler) : Prop where
  actions : ∀ a ∈ handler.actions, a.keeps = true
  result : handler.result = none ∨ handler.result = some 0

/-- Nothing but what is written changes. -/
def OnlyWrites (s s' : Socket) : Prop := ∃ outgoing, s' = { s with peer := { s.peer with outgoing := outgoing } }

section Writing
variable {s s' : Socket} {bytes : Bytes}

theorem OnlyWrites.refl (s : Socket) : OnlyWrites s s := ⟨s.peer.outgoing, rfl⟩

theorem OnlyWrites.trans {a b c : Socket} (h : OnlyWrites a b) (h' : OnlyWrites b c) : OnlyWrites a c := by
  obtain ⟨first, rfl⟩ := h
  obtain ⟨outgoing, rfl⟩ := h'
  exact ⟨outgoing, rfl⟩

theorem OnlyWrites.sendsAll (h : OnlyWrites s s') (hs : SendsAll s) : SendsAll s' := by
  obtain ⟨outgoing, rfl⟩ := h
  exact ⟨hs.connected, hs.sends⟩

theorem OnlyWrites.brings (h : OnlyWrites s s') (hb : Brings s bytes) : Brings s' bytes := by
  obtain ⟨outgoing, rfl⟩ := h
  exact ⟨hb.connected, hb.wellFormed, hb.pending, hb.reads, hb.sends⟩

theorem Brings.requeue (h : Brings s bytes) (queue : Bytes) : Brings (socketRequeue s queue) (queue ++ bytes) := by
  obtain ⟨hpending, hw⟩ := socketRequeue_spec h.wellFormed queue
  exact ⟨h.connected, hw, by rw [hpending, h.pending], h.reads, h.sends⟩

theorem socketWrite_only (hs : SendsAll s) (text : Bytes) : ∃ s', socketWrite s text = (true, s') ∧ OnlyWrites s s' := by
  refine ⟨{ s with peer := { s.peer with outgoing := s.peer.outgoing ++ text } }, ?_, _, rfl⟩
  rw [socketWrite, if_neg (by rw [hs.connected]; decide), hs.sends, writeBytes, ← hs.sends]

variable {tables : Tables} {res res' : Response} {reqKeepalive ok : Bool} {contentLengthUnread : Nat} {date : CString}
  {buffer : Bytes}

theorem responseData_only (hs : SendsAll s)
    (h : responseData tables reqKeepalive contentLengthUnread date res s buffer = .ok (ok, res', s')) :
    OnlyWrites s s' := by
  obtain ⟨res1, -, h⟩ := bind_eq_ok.mp h
  obtain ⟨⟨sent, res2, s2⟩, hsend, h⟩ := bind_eq_ok.mp h
  have hhead : OnlyWrites s s2 := by
    unfold sendHeaders at hsend
    split at hsend
    · obtain ⟨-, hsend⟩ := Prod.mk.inj (Except.ok.inj hsend)
      obtain ⟨-, rfl⟩ := Prod.mk.inj hsend
      exact .refl s
    · obtain ⟨res3, -, hsend⟩ := bind_eq_ok.mp hsend
      rw [sendBuffer, if_neg (Nat.not_le.mpr (statusLine_short tables _))] at hsend
      obtain ⟨s3, hstatus, hfirst⟩ := socketWrite_only hs (statusLine tables res3.statusCode)
      rw [hstatus] at hsend
      obtain ⟨s4, hbuffer, hsecond⟩ := socketWrite_only (hfirst.sendsAll hs)
        (slice (store res3.buffer res3.bufferPos [newline]) 0 (sizeAdd res3.bufferPos 1))
      dsimp only [Response.write] at hsend
      rw [hbuffer] at hsend
      obtain ⟨-, hsend⟩ := Prod.mk.inj (Except.ok.inj hsend)
      obtain ⟨-, rfl⟩ := Prod.mk.inj hsend
      exact hfirst.trans hsecond
  cases sent with
  | false =>
    obtain ⟨-, h⟩ := Prod.mk.inj (Except.ok.inj h)
    obtain ⟨-, rfl⟩ := Prod.mk.inj h
    exact hhead
  | true =>
    obtain ⟨s3, hdata, hlast⟩ := socketWrite_only (hhead.sendsAll hs) buffer
    dsimp only at h
    rw [if_pos rfl, hdata] at h
    obtain ⟨-, h⟩ := Prod.mk.inj (Except.ok.inj h)
    obtain ⟨-, rfl⟩ := Prod.mk.inj h
    exact hhead.trans hlast

end Writing

section Handling
variable (env : Environment) {s0 s : Request × Socket} {action : HandlerAction} {actions : List HandlerAction}
  {result : Option Int}

/-- What a handler that keeps the connection leaves of it: the request is as it came, but for its response,
and nothing but the answer is written. -/
structure Keeping (s0 s : Request × Socket) : Prop where
  request : ∃ res, s.1 = { s0.1 with response := res }
  keepalive : s.1.response.keepalive = true
  answer : s.1.response.sent = true ∨ s.1.response.sent = false ∧ ∃ text, Formatted s.1.response text
  socket : OnlyWrites s0.2 s.2

/-- A request that is to be kept and has no body left. -/
structure Bare (req : Request) : Prop where
  keepalive : req.keepalive = true
  noBody : req.contentLengthUnread = 0

/-- Another response, on a socket that only writes. -/
theorem Keeping.respond (h : Keeping s0 s) {res : Response} {sock : Socket} (hk : res.keepalive = true)
    (ha : res.sent = true ∨ res.sent = false ∧ ∃ text, Formatted res text) (hw : OnlyWrites s.2 sock) :
    Keeping s0 ({ s.1 with response := res }, sock) := by
  obtain ⟨before, hbefore⟩ := h.request
  refine ⟨⟨res, ?_⟩, hk, ha, h.socket.trans hw⟩
  rw [hbefore]

/-- A finalizer answers, or does nothing if there is an answer. -/
theorem Keeping.data (h : Keeping s0 s) (hbare : Bare s0.1) (hs : SendsAll s0.2) (date : CString) (buffer : Bytes) :
    ∃ ok res sock, responseData env.tables s.1.keepalive s.1.contentLengthUnread date s.1.response s.2 buffer =
        .ok (ok, res, sock) ∧ Keeping s0 ({ s.1 with response := res }, sock) := by
  have hsends := h.socket.sendsAll hs
  rcases h.answer with hsent | ⟨hunsent, text, hformatted⟩
  · obtain ⟨res, hdata, hsame⟩ : ∃ res, responseData env.tables s.1.keepalive s.1.contentLengthUnread date s.1.response
        s.2 buffer = .ok (false, res, s.2) ∧ SameChoices s.1.response res := responseData_sent hsent date s.2 buffer
    exact ⟨false, res, s.2, hdata, h.respond (hsame.keepalive.trans h.keepalive) (.inl (hsame.sent.trans hsent)) (.refl _)⟩
  · obtain ⟨res, sock, hdata⟩ := responseData_sends env.tables hformatted hunsent hsends s.1.keepalive
      s.1.contentLengthUnread date buffer
    obtain ⟨hsent, hkeep, -⟩ := responseData_writes hformatted hunsent hdata
    have hkept : res.keepalive = true := by
      obtain ⟨before, hbefore⟩ := h.request
      rw [hkeep, h.keepalive, hbefore, hbare.keepalive, hbare.noBody]
      rfl
    exact ⟨true, res, sock, hdata, h.respond hkept (.inl hsent) (responseData_only hsends hdata)⟩

theorem Keeping.step (h : Keeping s0 s) (hbare : Bare s0.1) (hs : SendsAll s0.2) (ha : action.keeps = true) :
    ∃ reply s', handlerAction env s action = .ok (reply, s') ∧ Keeping s0 s' := by
  cases action with
  | chunk len => cases ha
  | cookie => cases ha
  | file => exact ⟨_, _, rfl, h.respond h.keepalive h.answer (.refl _)⟩
  | respond call =>
    cases call with
    | header id name value =>
      have hn : (⟨id, some name⟩ : Header).name ≠ none := Option.some_ne_none name
      have hadds : ∃ res, responseHeader s.1.response ⟨id, some name⟩ value = .ok res ∧ res.keepalive = true ∧
          (res.sent = true ∨ res.sent = false ∧ ∃ text, Formatted res text) := by
        rcases h.answer with hsent | ⟨hunsent, text, hformatted⟩
        · obtain ⟨res, he, hsame⟩ := responseHeader_choices hn s.1.response value
          exact ⟨res, he, hsame.keepalive.trans h.keepalive, .inl (hsame.sent.trans hsent)⟩
        · obtain ⟨res, he, hsame, hadded⟩ := responseHeader_adds hn hformatted value
          exact ⟨res, he, hsame.keepalive.trans h.keepalive, .inr ⟨hsame.sent.trans hunsent, _, hadded⟩⟩
      obtain ⟨res, he, hkeep, hanswer⟩ := hadds
      refine ⟨(none, []), _, ?_, h.respond hkeep hanswer (.refl _)⟩
      rw [handlerAction, responseCall, he]
      rfl
    | status code =>
      refine ⟨_, _, rfl, h.respond h.keepalive ?_ (.refl _)⟩
      rcases h.answer with hsent | ⟨hunsent, text, hformatted⟩
      · exact .inl hsent
      · exact .inr ⟨hunsent, text, hformatted.pos, hformatted.room, hformatted.bytes⟩
    | keepalive keep =>
      refine ⟨_, _, rfl, h.respond ha ?_ (.refl _)⟩
      rcases h.answer with hsent | ⟨hunsent, text, hformatted⟩
      · exact .inl hsent
      · exact .inr ⟨hunsent, text, hformatted.pos, hformatted.room, hformatted.bytes⟩
    | data date buffer =>
      obtain ⟨ok, res, sock, hdata, hkeeping⟩ := h.data env hbare hs date buffer
      refine ⟨(some ok, []), _, ?_, hkeeping⟩
      rw [handlerAction, responseCall, hdata]
      rfl

theorem Keeping.run (h : Keeping s0 s) (hbare : Bare s0.1) (hs : SendsAll s0.2) (ha : ∀ a ∈ actions, a.keeps = true) :
    ∃ replies s', runCalls (handlerAction env) s actions = .ok (replies, s') ∧ Keeping s0 s' := by
  induction actions generalizing s with
  | nil => exact ⟨[], s, rfl, h⟩
  | cons action actions ih =>
    obtain ⟨reply, s1, hfirst, h1⟩ := h.step env hbare hs (ha action List.mem_cons_self)
    obtain ⟨replies, s', hrest, h'⟩ := ih h1 (fun a hm => ha a (List.mem_cons_of_mem _ hm))
    refine ⟨reply :: replies, s', ?_, h'⟩
    rw [runCalls, hfirst]
    dsimp only
    rw [hrest]

/-- The end of a call: the connection is kept, and what was received too much is put back. -/
theorem Keeping.finish (h : Keeping s0 s) (hbare : Bare s0.1) (hs : SendsAll s0.2)
    (hroom : s0.1.bufferPosition + s0.1.bufferUnread ≤ requestMaxLength) (hresult : result = none ∨ result = some 0)
    (date : CString) :
    ∃ req' sock', requestFinish env result date s.1 s.2 = .ok (true, req', sock') ∧
      OnlyWrites (putBack result s.1 s.2) sock' := by
  obtain ⟨before, hbefore⟩ := h.request
  have hinside : ¬ requestMaxLength < s.1.bufferPosition + s.1.bufferUnread := by
    rw [hbefore]
    exact Nat.not_lt.mpr hroom
  have hsends : SendsAll (putBack result s.1 s.2) := by
    have hold := h.socket.sendsAll hs
    unfold putBack
    split
    · exact ⟨hold.connected, hold.sends⟩
    · exact hold
  unfold requestFinish
  dsimp only
  rw [if_neg (fun hover => hinside hover.2.2)]
  change ∃ req' sock', (if result = none then responseData env.tables _ _ _ _ (putBack result s.1 s.2) _ >>= _
    else .ok (_, _, putBack result s.1 s.2)) = _ ∧ _
  generalize putBack result s.1 s.2 = queued at hsends ⊢
  rcases hresult with rfl | rfl
  · -- the server's own answer
    let s1 : Request × Socket := ({ s.1 with response := responseStatus s.1.response 500 }, queued)
    have hstart : Keeping ({ s.1 with response := before }, queued) s1 := by
      refine ⟨⟨_, rfl⟩, h.keepalive, ?_, .refl _⟩
      rcases h.answer with hsent | ⟨hunsent, text, hformatted⟩
      · exact .inl hsent
      · exact .inr ⟨hunsent, text, hformatted.pos, hformatted.room, hformatted.bytes⟩
    have hbare1 : Bare { s.1 with response := before } := by
      rw [hbefore]
      exact ⟨hbare.keepalive, hbare.noBody⟩
    obtain ⟨ok, res, sock, hdata, hkeeping⟩ := hstart.data env hbare1 hsends date (ascii "no request handler\n")
    rw [if_pos rfl]
    refine ⟨{ s.1 with response := res }, sock, ?_, hkeeping.socket⟩
    have hanswer : responseData env.tables s.1.keepalive s.1.contentLengthUnread date (responseStatus s.1.response 500)
        queued (ascii "no request handler\n") = .ok (ok, res, sock) := hdata
    rw [hanswer]
    have hkeep : res.keepalive = true := hkeeping.keepalive
    exact congrArg (fun keep => Except.ok (keep, { s.1 with response := res }, sock)) hkeep
  · rw [if_neg (Option.some_ne_none 0)]
    exact ⟨s.1, queued, congrArg (fun keep => Except.ok (keep, s.1, queued)) h.keepalive, .refl _⟩

end Handling

/-- A request that is sent, and what the handlers do when it is there. -/
structure Exchange (env : Environment) where
  text : RequestText env.table
  handler : Handler
  date : CString

/-- Calls of which each gets the text that is its own, and asks for the next. -/
inductive Served (env : Environment) : List (Exchange env) → Request → Socket → Request → Socket → Prop where
  | done (req : Request) (sock : Socket) : Served env [] req sock req sock
  | call {exchange : Exchange env} {exchanges : List (Exchange env)} {req req0 req1 req' : Request}
      {sock sock0 sock1 sock' : Socket} (arrive : requestArrive env req sock = .ok (.ready req0 sock0))
      (reads : ReadsAs env exchange.text req0)
      (process : requestProcessSocket env exchange.handler exchange.date req sock = .ok (true, req1, sock1))
      (rest : Served env exchanges req1 sock1 req' sock') :
      Served env (exchange :: exchanges) req sock req' sock'

def Exchange.call {env : Environment} (exchange : Exchange env) : Handler × CString := (exchange.handler, exchange.date)

section Serving
variable {env : Environment} {exchange : Exchange env} {exchanges : List (Exchange env)} {req req' : Request}
  {sock sock' : Socket}

/-- These are the turns of the worker's loop. -/
theorem Served.serveRequests (h : Served env exchanges req sock req' sock') (calls : List (Handler × CString)) :
    serveRequests env (exchanges.map Exchange.call ++ calls) req sock = serveRequests env calls req' sock' := by
  induction h with
  | done req sock => rfl
  | call arrive reads process rest ih =>
    rw [List.map_cons, List.cons_append, Exchange.call, Http.serveRequests, process, fault_ok_bind]
    exact ih

/-- One call on a stream that starts with its request: it keeps the connection, and the stream begins behind. -/
theorem call_delivers {more : Bytes} (h : Brings sock (exchange.text.render ++ more)) (hplain : exchange.text.Bodiless)
    (hkeeps : exchange.handler.Keeps) (hshort : (exchange.text.render ++ more).length < requestMaxLength)
    (req : Request) :
    ∃ req0 sock0 req' sock', requestArrive env req sock = .ok (.ready req0 sock0) ∧ ReadsAs env exchange.text req0 ∧
      requestProcessSocket env exchange.handler exchange.date req sock = .ok (true, req', sock') ∧ Brings sock' more := by
  obtain ⟨got, rest, st, req0, sock0, ha, harrived, hreads, hrest⟩ := h.arrive hplain hshort req
  have hbare : Bare req0 := ⟨hreads.keepalive, hreads.noBody⟩
  have hsends : SendsAll sock0 := ⟨hrest.connected, hrest.sends⟩
  have hstart := harrived.unanswered
  have hkeeping : Keeping (req0, sock0) (req0, sock0) :=
    ⟨⟨req0.response, rfl⟩, hstart.keepalive, .inr ⟨hstart.unsent, [], hstart.formatted⟩, .refl _⟩
  obtain ⟨replies, s1, hrun, hran⟩ := hkeeping.run env hbare hsends hkeeps.actions
  obtain ⟨req', sock', hfinish, hwrites⟩ :=
    hran.finish env hbare hsends harrived.ready.inBuffer hkeeps.result exchange.date
  refine ⟨req0, sock0, req', sock', ha, hreads, ?_, hwrites.brings ?_⟩
  · rw [requestProcessSocket, ha, fault_ok_bind]
    dsimp only
    rw [hrun, fault_ok_bind]
    exact hfinish
  · -- what was received behind the text and what was not is what there was behind it
    have hbehind : slice req0.buffer req0.bufferPosition req0.bufferUnread ++ rest = more := by
      have hunread := harrived.unread
      rw [unreadBytes, hrest.pending, h.pending] at hunread
      rw [hunread, hreads.position, List.drop_left]
    have hopen := hran.socket.brings hrest
    obtain ⟨before, hbefore⟩ := hran.request
    rw [hbefore, putBack]
    split
    · rw [← hbehind]
      exact hopen.requeue _
    · next hnot =>
      have hzero : req0.bufferUnread = 0 := by
        apply Nat.eq_zero_of_not_pos
        intro hpos
        exact hnot ⟨⟨hbare.keepalive, hbare.noBody, hkeeps.result⟩, hpos⟩
      rw [← hbehind, hzero]
      exact hopen

/-- What goes back for them. -/
structure Replied (env : Environment) (exchanges : List (Exchange env)) (sock sock' : Socket) (messages : List Message)
    (written : Bytes) : Prop where
  outgoing : sock'.peer.outgoing = sock.peer.outgoing ++ written
  answers : List.Forall₂ (fun exchange message => message.Answers env exchange.handler exchange.date) exchanges messages
  readBack : readAll readMessage exchanges.length written = some messages

theorem exchanges_served (ht : TablesSpelled env.tables) (hreasons : env.ReasonsWhole)
    (hplain : ∀ e ∈ exchanges, e.text.Bodiless ∧ e.handler.Keeps ∧ e.handler.Readable env e.date)
    (h : Brings sock (exchanges.flatMap (fun e => e.text.render)))
    (hshort : (exchanges.flatMap (fun e => e.text.render)).length < requestMaxLength) (req : Request) :
    ∃ req' sock' messages written, Served env exchanges req sock req' sock' ∧ Brings sock' [] ∧
      Replied env exchanges sock sock' messages written := by
  induction exchanges generalizing req sock with
  | nil => exact ⟨req, sock, [], [], .done req sock, h, (List.append_nil _).symm, .nil, readAll_nil 0⟩
  | cons e exchanges ih =>
    obtain ⟨hbodiless, hkeeps, hreadable⟩ := hplain e List.mem_cons_self
    rw [List.flatMap_cons] at h hshort
    obtain ⟨req0, sock0, req1, sock1, ha, hreads, hcall, hnext⟩ := call_delivers h hbodiless hkeeps hshort req
    have hleft : (exchanges.flatMap (fun e => e.text.render)).length < requestMaxLength := by
      rw [List.length_append] at hshort
      omega
    obtain ⟨req', sock', messages, written, hserved, hdone, hreplied⟩ :=
      ih (fun e hm => hplain e (List.mem_cons_of_mem _ hm)) hnext hleft req1
    obtain ⟨text, hout, -, hsent⟩ := call_sent ht hreasons hreadable h.wellFormed h.sends hcall
    cases hsent with
    | lost before gone =>
      rw [hnext.connected] at gone
      cases gone
    | refused refuses message returned => cases returned
    | @answered message text answer nonempty takes =>
      refine ⟨req', sock', message :: messages, text ++ written, .call ha hreads hcall hserved, hdone, ?_,
        .cons answer hreplied.answers, ?_⟩
      · rw [hreplied.outgoing, hout, List.append_assoc]
      · rw [List.length_cons, readAll_append takes nonempty, hreplied.readBack]
        rfl

end Serving

/-- Requests without bodies that a client sends one behind the other, in whatever fragments they come: every call
of the worker gets the next of them as it was written, until there are no more, and what is sent reads back as
their answers, one for each and in their order. -/
theorem pipeline_served {env : Environment} (hs : Spelled env.table.entries) (hreasons : env.ReasonsWhole)
    {exchanges : List (Exchange env)}
    (hplain : ∀ e ∈ exchanges, e.text.Bodiless ∧ e.handler.Keeps ∧ e.handler.Readable env e.date) {sock : Socket}
    (h : Brings sock (exchanges.flatMap (fun e => e.text.render)))
    (hshort : (exchanges.flatMap (fun e => e.text.render)).length < requestMaxLength) (req : Request) :
    ∃ req' sock' messages written, Served env exchanges req sock req' sock' ∧
      (∀ calls, serveRequests env (exchanges.map Exchange.call ++ calls) req sock = serveRequests env calls req' sock') ∧
      Brings sock' [] ∧ Replied env exchanges sock sock' messages written := by
  obtain ⟨req', sock', messages, written, hserved, hdone, hreplied⟩ :=
    exchanges_served (.of_table hs) hreasons hplain h hshort req
  exact ⟨req', sock', messages, written, hserved, hserved.serveRequests, hdone, hreplied⟩

/-- The same request, sent twice at once. -/
noncomputable def twice : List (Exchange plainEnvironment) :=
  [⟨hostRequest plainEnvironment.table, helloHandler, closeText⟩,
    ⟨hostRequest plainEnvironment.table, helloHandler, closeText⟩]

noncomputable def twiceSocket : Socket :=
  socketNew 3 [] 80 ⟨twice.flatMap (fun e => e.text.render), [.deliver 30, .deliver 20], [], []⟩

theorem pipeline_served_twice : ∃ req' sock' messages written,
    Served plainEnvironment twice requestNew twiceSocket req' sock' ∧
    (∀ calls, serveRequests plainEnvironment (twice.map Exchange.call ++ calls) requestNew twiceSocket =
      serveRequests plainEnvironment calls req' sock') ∧
    Brings sock' [] ∧ Replied plainEnvironment twice twiceSocket sock' messages written := by
  have hplain : ∀ e ∈ twice, e.text.Bodiless ∧ e.handler.Keeps ∧ e.handler.Readable plainEnvironment e.date := by
    have hone : ∀ e ∈ twice, e = ⟨hostRequest plainEnvironment.table, helloHandler, closeText⟩ := by
      intro e hm
      rcases List.mem_cons.mp hm with he | hm
      · exact he
      · exact List.mem_singleton.mp hm
    intro e hm
    rw [hone e hm]
    refine ⟨fun hdr hm => ?_, ⟨fun a hm => ?_, .inr rfl⟩, helloHandler_readable⟩
    · obtain rfl := List.mem_singleton.mp hm
      exact ⟨by decide, by decide⟩
    · obtain rfl := List.mem_singleton.mp hm
      rfl
  have hreads : Brings twiceSocket (twice.flatMap (fun e => e.text.render)) :=
    ⟨rfl, rfl, rfl, ⟨[30, 20], [], rfl, by decide, rfl⟩, rfl⟩
  exact pipeline_served commonTable_spelled plain_reasons hplain hreads (by decide) requestNew

end CFlare.Http
