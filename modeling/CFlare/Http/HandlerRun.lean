import CFlare.Http.RequestArrival
import CFlare.Http.ResponseText

/-! The run of a handler, and behind it the answer of the server if the handler leaves no result.
Only the first finalizer sends anything. -/
namespace CFlare.Http
open CFlare.Library CFlare.Network

namespace HandlerAction

def finalizes : HandlerAction → Bool
  | .respond (.data ..) => true
  | _ => false

/-- Whether the response keeps the connection, after an action that is no finalizer. -/
def kept (keep : Bool) : HandlerAction → Bool
  | .respond (.keepalive keep) => keep
  | _ => keep

def status (code : UInt32) : HandlerAction → UInt32
  | .respond (.status code) => code
  | _ => code

def fields (text : Bytes) : HandlerAction → Bytes
  | .respond (.header _ name value) => addLine text (headerLine name value)
  | _ => text

end HandlerAction

def lastKept (keep : Bool) (actions : List HandlerAction) : Bool := actions.foldl HandlerAction.kept keep
def lastStatus (code : UInt32) (actions : List HandlerAction) : UInt32 := actions.foldl HandlerAction.status code
def fieldText (text : Bytes) (actions : List HandlerAction) : Bytes := actions.foldl HandlerAction.fields text

/-- The answer that the server gives when there is no result. -/
def ownAnswer (result : Option Int) (date : CString) : List HandlerAction :=
  if result = none then [.respond (.status 500), .respond (.data date (ascii "no request handler\n"))] else []

/-- All that is done with a response in one call. -/
def Handler.answers (handler : Handler) (date : CString) : List HandlerAction :=
  handler.actions ++ ownAnswer handler.result date

section Reading
variable {req req' : Request} {sock sock' : Socket}

/-- The sending side and the descriptor are as they were. -/
structure OnlyReads (s s' : Socket) : Prop where
  outgoing : s'.peer.outgoing = s.peer.outgoing
  sends : s'.peer.sends = s.peer.sends
  fd : s'.fd = s.fd

theorem OnlyReads.refl (s : Socket) : OnlyReads s s := ⟨rfl, rfl, rfl⟩

theorem OnlyReads.trans {a b c : Socket} (h : OnlyReads a b) (h' : OnlyReads b c) : OnlyReads a c :=
  ⟨h'.outgoing.trans h.outgoing, h'.sends.trans h.sends, h'.fd.trans h.fd⟩

private theorem lthreadRecv_reads (s : Socket) (length : Nat) : OnlyReads s (lthreadRecv s length).2.2 := by
  unfold lthreadRecv
  split <;> exact ⟨rfl, rfl, rfl⟩

private theorem readFailed_reads (s : Socket) (count : Int) : OnlyReads s (readFailed s count) := by
  unfold readFailed
  split
  · exact ⟨rfl, rfl, rfl⟩
  · split <;> exact ⟨rfl, rfl, rfl⟩

private theorem requeueRead_reads (s : Socket) (length : Nat) : OnlyReads s (requeueRead s length).2 := by
  unfold requeueRead
  split
  · exact ⟨rfl, rfl, rfl⟩
  · dsimp only
    generalize (if length < s.requeueLength then length else s.requeueLength) = canRead
    split <;> exact ⟨rfl, rfl, rfl⟩

private theorem readEnd_reads {s : Socket} {count : Int} {bytes : Bytes} {reply : Option Bytes}
    (h : (if count ≤ 0 then (.ok (none, readFailed s count) : Except Fault (Option Bytes × Socket))
      else .ok (some bytes, s)) = .ok (reply, sock')) : OnlyReads s sock' := by
  split at h
  · obtain ⟨-, rfl⟩ := Prod.mk.inj (Except.ok.inj h)
    exact readFailed_reads s count
  · obtain ⟨-, rfl⟩ := Prod.mk.inj (Except.ok.inj h)
    exact ⟨rfl, rfl, rfl⟩

theorem socketRead_reads {length : Nat} {reply : Option Bytes} (h : socketRead sock length = .ok (reply, sock')) :
    OnlyReads sock sock' := by
  unfold socketRead at h
  split at h
  · obtain ⟨-, rfl⟩ := Prod.mk.inj (Except.ok.inj h)
    exact ⟨rfl, rfl, rfl⟩
  split at h
  · cases h
  split at h
  · exact ((requeueRead_reads sock length).trans (lthreadRecv_reads _ _)).trans (readEnd_reads h)
  · exact (lthreadRecv_reads sock length).trans (readEnd_reads h)

theorem socketRead_wellFormed {length : Nat} {reply : Option Bytes} (hw : sock.WellFormed)
    (h : socketRead sock length = .ok (reply, sock')) : sock'.WellFormed := by
  rcases Nat.eq_zero_or_pos length with rfl | hpos
  · rcases socketRead_zero sock with hz | hz
    · rw [hz] at h
      cases h
    · rw [hz] at h
      obtain ⟨-, rfl⟩ := Prod.mk.inj (Except.ok.inj h)
      exact hw
  · obtain ⟨reply', sock1, he, hw1, -⟩ := socketRead_spec hw hpos
    rw [he] at h
    obtain ⟨-, rfl⟩ := Prod.mk.inj (Except.ok.inj h)
    exact hw1

private theorem receive_reads {fuel nbytes newlines : Nat} {received : Except Stop Nat}
    (h : receive fuel req nbytes newlines sock = .ok (received, req', sock')) : OnlyReads sock sock' := by
  induction fuel generalizing req nbytes newlines sock with
  | zero => cases h
  | succ fuel ih =>
    obtain ⟨⟨fragment, sock1⟩, hread, h⟩ := bind_eq_ok.mp h
    have hfirst := socketRead_reads hread
    cases fragment with
    | none =>
      obtain ⟨-, h⟩ := Prod.mk.inj (Except.ok.inj h)
      obtain ⟨-, rfl⟩ := Prod.mk.inj h
      exact hfirst
    | some fragment =>
      dsimp only at h
      split at h
      · obtain ⟨-, h⟩ := Prod.mk.inj (Except.ok.inj h)
        obtain ⟨-, rfl⟩ := Prod.mk.inj h
        exact hfirst
      · cases hscan : scanFragment newlines fragment with
        | mk found newlines' =>
          rw [hscan] at h
          cases found with
          | true =>
            obtain ⟨-, h⟩ := Prod.mk.inj (Except.ok.inj h)
            obtain ⟨-, rfl⟩ := Prod.mk.inj h
            exact hfirst
          | false => exact hfirst.trans (ih h)

/-- A request is only read until the hook is called; a rejection is answered then. -/
theorem requestArrive_cases {env : Environment} {arrival : Arrival} (h : requestArrive env req sock = .ok arrival) :
    ∃ sock1, OnlyReads sock sock1 ∧ ((∃ req1, arrival = .ready req1 sock1) ∨
      ∃ status message req1, arrival = .rejected status req1 (quickResponseSocket env sock1 status message false)) := by
  obtain ⟨⟨received, req1, sock1⟩, hreceive, h⟩ := bind_eq_ok.mp h
  refine ⟨sock1, receive_reads hreceive, ?_⟩
  dsimp only at h
  cases hparsed : received.bind (parsePhases env requestMaxLength req1) with
  | error stop =>
    rw [hparsed] at h
    cases stop with
    | fault fault => cases h
    | reject status message req2 => exact .inr ⟨status, message, req2, (Except.ok.inj h).symm⟩
  | ok st =>
    rw [hparsed] at h
    exact .inl ⟨_, (Except.ok.inj h).symm⟩

theorem requestArrive_reads {env : Environment} (h : requestArrive env req sock = .ok (.ready req' sock')) :
    OnlyReads sock sock' := by
  obtain ⟨sock1, hreads, ⟨req1, harrival⟩ | ⟨status, message, req1, harrival⟩⟩ := requestArrive_cases h
  · obtain ⟨-, rfl⟩ := Arrival.ready.inj harrival
    exact hreads
  · cases harrival

theorem requestArrive_rejected {env : Environment} {status : UInt32}
    (h : requestArrive env req sock = .ok (.rejected status req' sock')) :
    ∃ sock1 message, OnlyReads sock sock1 ∧ sock' = quickResponseSocket env sock1 status message false := by
  obtain ⟨sock1, hreads, ⟨req1, harrival⟩ | ⟨status1, message, req1, harrival⟩⟩ := requestArrive_cases h
  · cases harrival
  · obtain ⟨rfl, -, rfl⟩ := Arrival.rejected.inj harrival
    exact ⟨sock1, message, hreads, rfl⟩

/-- What a chunk leaves alone: it concerns the body. -/
structure ChunkFrame (req : Request) (sock : Socket) (req' : Request) (sock' : Socket) : Prop where
  response : req'.response = req.response
  keepalive : req'.keepalive = req.keepalive
  reads : OnlyReads sock sock'
  wellFormed : sock.WellFormed → sock'.WellFormed

private theorem chunkFromSocket_frame {got : Bytes} {len : Nat} {reply : Bool × Bytes}
    (h : chunkFromSocket req sock got len = .ok (reply, req', sock')) : ChunkFrame req sock req' sock' := by
  unfold chunkFromSocket at h
  obtain ⟨⟨bytes, sock1⟩, hread, h⟩ := bind_eq_ok.mp h
  obtain ⟨-, h⟩ := Prod.mk.inj (Except.ok.inj h)
  obtain ⟨rfl, rfl⟩ := Prod.mk.inj h
  exact ⟨rfl, rfl, socketRead_reads hread, fun hw => socketRead_wellFormed hw hread⟩

theorem chunk_frame {len : Nat} {reply : Bool × Bytes}
    (h : requestContentChunk req sock len = .ok (reply, req', sock')) : ChunkFrame req sock req' sock' := by
  unfold requestContentChunk at h
  dsimp only at h
  generalize (if req.contentLengthUnread < len then req.contentLengthUnread else len) = asked at h
  generalize (if asked > req.bufferUnread then asked else req.bufferUnread) = readable at h
  split at h
  · split at h
    · cases h
    · split at h
      · obtain ⟨-, h⟩ := Prod.mk.inj (Except.ok.inj h)
        obtain ⟨rfl, rfl⟩ := Prod.mk.inj h
        exact ⟨rfl, rfl, .refl sock, id⟩
      · obtain ⟨hresponse, hkeepalive, hreads, hwell⟩ := chunkFromSocket_frame h
        exact ⟨hresponse, hkeepalive, hreads, hwell⟩
  · exact chunkFromSocket_frame h

end Reading

section Runs
variable {env : Environment} {reqKeepalive : Bool} {sock : Socket}

/-- Before the first finalizer: what the response has so far, and nothing is sent. -/
structure Unanswered (reqKeepalive : Bool) (sock : Socket) (keep : Bool) (code : UInt32) (text : Bytes)
    (s : Request × Socket) : Prop where
  request : s.1.keepalive = reqKeepalive
  unsent : s.1.response.sent = false
  keepalive : s.1.response.keepalive = keep
  statusCode : s.1.response.statusCode = code
  formatted : Formatted s.1.response text
  reads : OnlyReads sock s.2

/-- Behind it: nothing more is sent. -/
structure Answered (sock : Socket) (keep : Bool) (s : Request × Socket) : Prop where
  sent : s.1.response.sent = true
  keepalive : s.1.response.keepalive = keep
  reads : OnlyReads sock s.2

theorem Unanswered.from {s : Request × Socket} {sock0 : Socket} {keep : Bool} {code : UInt32} {text : Bytes}
    (h : Unanswered reqKeepalive sock0 keep code text s) (hr : OnlyReads sock sock0) :
    Unanswered reqKeepalive sock keep code text s :=
  ⟨h.request, h.unsent, h.keepalive, h.statusCode, h.formatted, hr.trans h.reads⟩

variable {s s' : Request × Socket} {action : HandlerAction} {actions : List HandlerAction}
  {reply : Option Bool × Bytes} {replies : List (Option Bool × Bytes)} {keep : Bool} {code : UInt32} {text : Bytes}

theorem Unanswered.step (h : Unanswered reqKeepalive sock keep code text s) (hf : action.finalizes = false)
    (ha : handlerAction env s action = .ok (reply, s')) :
    Unanswered reqKeepalive sock (action.kept keep) (action.status code) (action.fields text) s' := by
  obtain ⟨hrequest, hunsent, hkeep, hcode, hformatted, hreads⟩ := h
  cases action with
  | chunk len =>
    obtain ⟨⟨⟨ok, bytes⟩, state⟩, hchunk, ha⟩ := bind_eq_ok.mp ha
    obtain ⟨-, rfl⟩ := Prod.mk.inj (Except.ok.inj ha)
    obtain ⟨hresponse, hk, hread, -⟩ := chunk_frame hchunk
    exact ⟨hk.trans hrequest, hresponse ▸ hunsent, hresponse ▸ hkeep, hresponse ▸ hcode, hresponse ▸ hformatted,
      hreads.trans hread⟩
  | respond call =>
    cases call with
    | header id name value =>
      have hn : (⟨id, some name⟩ : Header).name ≠ none := Option.some_ne_none name
      obtain ⟨res, he, hs, hf'⟩ := responseHeader_adds hn hformatted value
      rw [handlerAction, responseCall, he] at ha
      obtain ⟨-, rfl⟩ := Prod.mk.inj (Except.ok.inj ha)
      exact ⟨hrequest, hs.sent.trans hunsent, hs.keepalive.trans hkeep, hs.statusCode.trans hcode, hf', hreads⟩
    | status status =>
      obtain ⟨-, rfl⟩ := Prod.mk.inj (Except.ok.inj ha)
      exact ⟨hrequest, hunsent, hkeep, rfl, ⟨hformatted.pos, hformatted.room, hformatted.bytes⟩, hreads⟩
    | keepalive keepalive =>
      obtain ⟨-, rfl⟩ := Prod.mk.inj (Except.ok.inj ha)
      exact ⟨hrequest, hunsent, rfl, hcode, ⟨hformatted.pos, hformatted.room, hformatted.bytes⟩, hreads⟩
    | data date buffer => cases hf
  | file =>
    obtain ⟨-, rfl⟩ := Prod.mk.inj (Except.ok.inj ha)
    exact ⟨hrequest, hunsent, hkeep, hcode, hformatted, hreads⟩
  | cookie => cases ha

/-- Any action after the first finalizer. -/
theorem Answered.step (h : Answered sock keep s) (ha : handlerAction env s action = .ok (reply, s')) :
    Answered sock (action.kept keep) s' := by
  obtain ⟨hsent, hkeep, hreads⟩ := h
  cases action with
  | chunk len =>
    obtain ⟨⟨⟨ok, bytes⟩, state⟩, hchunk, ha⟩ := bind_eq_ok.mp ha
    obtain ⟨-, rfl⟩ := Prod.mk.inj (Except.ok.inj ha)
    obtain ⟨hresponse, -, hread, -⟩ := chunk_frame hchunk
    exact ⟨hresponse ▸ hsent, hresponse ▸ hkeep, hreads.trans hread⟩
  | respond call =>
    cases call with
    | header id name value =>
      have hn : (⟨id, some name⟩ : Header).name ≠ none := Option.some_ne_none name
      obtain ⟨res, he, hs⟩ := responseHeader_choices hn s.1.response value
      rw [handlerAction, responseCall, he] at ha
      obtain ⟨-, rfl⟩ := Prod.mk.inj (Except.ok.inj ha)
      exact ⟨hs.sent.trans hsent, hs.keepalive.trans hkeep, hreads⟩
    | status status =>
      obtain ⟨-, rfl⟩ := Prod.mk.inj (Except.ok.inj ha)
      exact ⟨hsent, hkeep, hreads⟩
    | keepalive keepalive =>
      obtain ⟨-, rfl⟩ := Prod.mk.inj (Except.ok.inj ha)
      exact ⟨hsent, rfl, hreads⟩
    | data date buffer =>
      obtain ⟨res, he, hs⟩ : ∃ res, responseData env.tables s.1.keepalive s.1.contentLengthUnread date s.1.response
          s.2 buffer = .ok (false, res, s.2) ∧ SameChoices s.1.response res := responseData_sent hsent date s.2 buffer
      rw [handlerAction, responseCall, he] at ha
      obtain ⟨-, rfl⟩ := Prod.mk.inj (Except.ok.inj ha)
      exact ⟨hs.sent.trans hsent, hs.keepalive.trans hkeep, hreads⟩
  | file =>
    obtain ⟨-, rfl⟩ := Prod.mk.inj (Except.ok.inj ha)
    exact ⟨hsent, hkeep, hreads⟩
  | cookie => cases ha

theorem Unanswered.run (h : Unanswered reqKeepalive sock keep code text s)
    (hf : ∀ a ∈ actions, a.finalizes = false)
    (hr : runCalls (handlerAction env) s actions = .ok (replies, s')) :
    Unanswered reqKeepalive sock (lastKept keep actions) (lastStatus code actions) (fieldText text actions) s' := by
  induction actions generalizing s keep code text replies with
  | nil =>
    obtain ⟨-, rfl⟩ := Prod.mk.inj (Except.ok.inj hr)
    exact h
  | cons a actions ih =>
    obtain ⟨reply, s1, replies1, ha, hrest⟩ := runCalls_cons_ok hr
    exact ih (h.step (hf a List.mem_cons_self) ha) (fun b hb => hf b (List.mem_cons_of_mem _ hb)) hrest

theorem Answered.run (h : Answered sock keep s) (hr : runCalls (handlerAction env) s actions = .ok (replies, s')) :
    Answered sock (lastKept keep actions) s' := by
  induction actions generalizing s keep replies with
  | nil =>
    obtain ⟨-, rfl⟩ := Prod.mk.inj (Except.ok.inj hr)
    exact h
  | cons a actions ih =>
    obtain ⟨reply, s1, replies1, ha, hrest⟩ := runCalls_cons_ok hr
    exact ih (h.step ha) hrest

/-- The first finalizer sends its answer, as far as its writes succeed. -/
theorem Unanswered.finalize (h : Unanswered reqKeepalive sock keep code text s) {date : CString} {buffer : Bytes}
    (ha : handlerAction env s (.respond (.data date buffer)) = .ok (reply, s')) :
    ∃ ok, reply = (some ok, []) ∧
      Answered s'.2 (reqKeepalive && keep && s.1.contentLengthUnread = 0) s' ∧
      Wrote s.2 s'.2 ok (statusLine env.tables code ++ (addLine (ownLines env.tables date buffer.length text)
        (connectionLine env.tables (reqKeepalive && keep && s.1.contentLengthUnread = 0)) ++ newline :: buffer)) := by
  obtain ⟨⟨called, res, sock⟩, hcall, ha⟩ := bind_eq_ok.mp ha
  obtain ⟨rfl, rfl⟩ := Prod.mk.inj (Except.ok.inj ha)
  obtain ⟨⟨ok, res', sock'⟩, hd, hcall⟩ := bind_eq_ok.mp hcall
  obtain ⟨rfl, hstate⟩ := Prod.mk.inj (Except.ok.inj hcall)
  obtain ⟨rfl, rfl⟩ := Prod.mk.inj hstate
  obtain ⟨hsent, hkeep, hwrote⟩ := responseData_writes h.formatted h.unsent hd
  rw [h.request, h.keepalive] at hkeep
  rw [hkeep, h.statusCode] at hwrote
  exact ⟨ok, rfl, ⟨hsent, hkeep, .refl _⟩, hwrote⟩

private theorem ownAnswer_run {date : CString} {req : Request} {sock sock2 : Socket} {ok : Bool} {res : Response}
    (h : responseData env.tables req.keepalive req.contentLengthUnread date (responseStatus req.response 500) sock
      (ascii "no request handler\n") = .ok (ok, res, sock2)) :
    ∃ replies, runCalls (handlerAction env) (req, sock) (ownAnswer none date) =
      .ok (replies, { req with response := res }, sock2) := by
  let req1 : Request := { req with response := responseStatus req.response 500 }
  have hstatus : handlerAction env (req, sock) (.respond (.status 500)) = .ok ((none, []), req1, sock) := rfl
  have hdata : handlerAction env (req1, sock) (.respond (.data date (ascii "no request handler\n"))) =
      .ok ((some ok, []), { req with response := res }, sock2) := by
    rw [handlerAction, responseCall, h]
    rfl
  have hfirst : runCalls (handlerAction env) (req, sock) ([] ++ [.respond (.status 500)]) = .ok (_, req1, sock) :=
    runCalls_append_singleton rfl hstatus
  exact ⟨_, runCalls_append_singleton hfirst hdata⟩

/-- The socket with the bytes put back that were received too much. -/
def putBack (result : Option Int) (req : Request) (sock : Socket) : Socket :=
  if (req.keepalive ∧ req.contentLengthUnread = 0 ∧ (result = none ∨ result = some 0)) ∧ 0 < req.bufferUnread then
    socketRequeue sock (slice req.buffer req.bufferPosition req.bufferUnread)
  else sock

/-- The end of a call runs the server's own answer; the bytes put back before it do not concern
it. -/
theorem requestFinish_run {result : Option Int} {date : CString} {req req' : Request} {sock sock' : Socket}
    {ret : Bool} (h : requestFinish env result date req sock = .ok (ret, req', sock')) :
    ∃ replies sock2, runCalls (handlerAction env) (req, sock) (ownAnswer result date) = .ok (replies, req', sock2) ∧
      ret = req'.response.keepalive ∧ sock'.peer = sock2.peer := by
  unfold requestFinish at h
  dsimp only at h
  split at h
  · cases h
  have hqueued : putBack result req sock = sock ∨ ∃ queue, putBack result req sock = socketRequeue sock queue := by
    unfold putBack
    split
    · exact .inr ⟨_, rfl⟩
    · exact .inl rfl
  change (if result = none then responseData env.tables _ _ _ _ (putBack result req sock) _ >>= _
    else .ok (_, _, putBack result req sock)) = _ at h
  generalize putBack result req sock = queued at h hqueued
  cases result with
  | some n =>
    rw [if_neg (Option.some_ne_none n)] at h
    obtain ⟨hret, hstate⟩ := Prod.mk.inj (Except.ok.inj h)
    obtain ⟨rfl, rfl⟩ := Prod.mk.inj hstate
    refine ⟨[], sock, rfl, hret.symm, ?_⟩
    rcases hqueued with rfl | ⟨queue, rfl⟩ <;> rfl
  | none =>
    rw [if_pos rfl] at h
    obtain ⟨⟨ok, res, sock1⟩, hdata, h⟩ := bind_eq_ok.mp h
    obtain ⟨rfl, hstate⟩ := Prod.mk.inj (Except.ok.inj h)
    obtain ⟨rfl, rfl⟩ := Prod.mk.inj hstate
    rcases hqueued with rfl | ⟨queue, rfl⟩
    · obtain ⟨replies, hrun⟩ := ownAnswer_run hdata
      exact ⟨replies, sock1, hrun, rfl, rfl⟩
    · rw [responseData_requeue] at hdata
      cases hplain : responseData env.tables req.keepalive req.contentLengthUnread date
          (responseStatus req.response 500) sock (ascii "no request handler\n") with
      | error fault =>
        rw [hplain] at hdata
        cases hdata
      | ok r =>
        rw [hplain] at hdata
        obtain ⟨-, hdata⟩ := Prod.mk.inj (Except.ok.inj hdata)
        obtain ⟨rfl, rfl⟩ := Prod.mk.inj hdata
        obtain ⟨replies, hrun⟩ := ownAnswer_run hplain
        exact ⟨replies, r.2.2, hrun, rfl, rfl⟩

/-- A call that gets to the hook runs all the answers. -/
theorem requestProcessSocket_run {handler : Handler} {date : CString} {req req0 req' : Request}
    {sock sock0 sock' : Socket} {ret : Bool} (ha : requestArrive env req sock = .ok (.ready req0 sock0))
    (h : requestProcessSocket env handler date req sock = .ok (ret, req', sock')) :
    ∃ replies sock2, runCalls (handlerAction env) (req0, sock0) (handler.answers date) =
        .ok (replies, req', sock2) ∧
      ret = req'.response.keepalive ∧ sock'.peer = sock2.peer := by
  rw [requestProcessSocket, ha, fault_ok_bind] at h
  obtain ⟨⟨first, req1, sock1⟩, hrun, h⟩ := bind_eq_ok.mp h
  obtain ⟨rest, sock2, hown, hret, hout⟩ := requestFinish_run h
  exact ⟨first ++ rest, sock2, runCalls_append_eq_ok.mpr ⟨first, _, rest, hrun, hown, rfl⟩, hret, hout⟩

end Runs

end CFlare.Http
