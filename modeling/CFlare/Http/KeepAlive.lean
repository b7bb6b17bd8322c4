import CFlare.Http.ContentLength
import CFlare.Http.Persistence
import CFlare.Http.RequestRoundTrip

/-! Whether a connection that is kept is in step: the socket delivers next what follows the
request and its body. -/
namespace CFlare.Http
open CFlare.Library CFlare.Network

/-- The reading side of the socket is as it was. -/
structure SameStream (s s' : Socket) : Prop where
  pending : s'.pending = s.pending
  wellFormed : s.WellFormed → s'.WellFormed

section Writes
variable {sock sock' : Socket}

theorem SameStream.refl (s : Socket) : SameStream s s := ⟨rfl, id⟩

theorem SameStream.trans {a b c : Socket} (h : SameStream a b) (h' : SameStream b c) : SameStream a c :=
  ⟨h'.pending.trans h.pending, fun hw => h'.wellFormed (h.wellFormed hw)⟩

theorem socketWrite_stream (sock : Socket) (bytes : Bytes) : SameStream sock (socketWrite sock bytes).2 := by
  have hwrite : SameStream sock (writeBytes sock.peer.sends bytes sock).2 := by
    have hend := writeBytes_end sock.peer.sends bytes sock
    generalize writeBytes sock.peer.sends bytes sock = out at hend
    cases hend with
    | sent rest => exact ⟨rfl, id⟩
    | @failed part front rest =>
      unfold socketClose
      split
      · exact ⟨rfl, id⟩
      · exact ⟨rfl, id⟩
  unfold socketWrite
  split
  · exact .refl sock
  · exact hwrite

variable {tables : Tables} {res res' : Response} {reqKeepalive ok : Bool} {contentLengthUnread : Nat} {date : CString}
  {text buffer : Bytes}

private theorem sendBuffer_stream (h : sendBuffer tables res sock = .ok (ok, res', sock')) : SameStream sock sock' := by
  rw [sendBuffer, if_neg (Nat.not_le.mpr (statusLine_short tables _))] at h
  have hstatus := socketWrite_stream sock (statusLine tables res.statusCode)
  cases hw : socketWrite sock (statusLine tables res.statusCode) with
  | mk ok1 sock1 =>
    rw [hw] at h hstatus
    cases ok1 with
    | false =>
      obtain ⟨-, h⟩ := Prod.mk.inj (Except.ok.inj h)
      obtain ⟨-, rfl⟩ := Prod.mk.inj h
      exact hstatus
    | true =>
      obtain ⟨-, h⟩ := Prod.mk.inj (Except.ok.inj h)
      obtain ⟨-, rfl⟩ := Prod.mk.inj h
      exact hstatus.trans (socketWrite_stream sock1 _)

/-- What a finalizer leaves, whether its writes succeed or not. -/
theorem responseData_frame (h : responseData tables reqKeepalive contentLengthUnread date res sock buffer =
    .ok (ok, res', sock')) : SameStream sock sock' := by
  obtain ⟨res1, -, h⟩ := bind_eq_ok.mp h
  obtain ⟨⟨sent, res2, sock2⟩, hsend, h⟩ := bind_eq_ok.mp h
  have hstream : SameStream sock sock2 := by
    unfold sendHeaders at hsend
    split at hsend
    · obtain ⟨-, hsend⟩ := Prod.mk.inj (Except.ok.inj hsend)
      obtain ⟨-, rfl⟩ := Prod.mk.inj hsend
      exact .refl sock
    · obtain ⟨res3, -, hsend⟩ := bind_eq_ok.mp hsend
      exact sendBuffer_stream hsend
  cases sent with
  | false =>
    obtain ⟨-, h⟩ := Prod.mk.inj (Except.ok.inj h)
    obtain ⟨-, rfl⟩ := Prod.mk.inj h
    exact hstream
  | true =>
    obtain ⟨-, h⟩ := Prod.mk.inj (Except.ok.inj h)
    obtain ⟨-, rfl⟩ := Prod.mk.inj h
    exact hstream.trans (socketWrite_stream sock2 buffer)

end Writes

section Bodies
variable {env : Environment} {s0 s s' : Request × Socket} {body : Bytes} {action : HandlerAction}
  {actions : List HandlerAction} {reply : Option Bool × Bytes} {replies : List (Option Bool × Bytes)}

/-- So much of the body has been read since the start. -/
structure BodyRead (s0 s : Request × Socket) (body : Bytes) : Prop where
  next : unreadBytes s0.1 s0.2 = body ++ unreadBytes s.1 s.2
  content : s.1.contentLengthUnread + body.length = s0.1.contentLengthUnread
  leftover : s.1.bufferUnread = s0.1.bufferUnread - body.length
  stream : s.2.WellFormed
  keepalive : s.1.keepalive = s0.1.keepalive

/-- Every chunk of a run gives the handler the next bytes of the body. -/
def ChunksDeliver (env : Environment) (s : Request × Socket) (actions : List HandlerAction) : Prop :=
  ∀ done len rest, actions = done ++ .chunk len :: rest → ∀ replies s1,
    runCalls (handlerAction env) s done = .ok (replies, s1) → ∀ ok bytes req sock,
      requestContentChunk s1.1 s1.2 len = .ok ((ok, bytes), req, sock) → ChunkDelivers s1.1 s1.2 len bytes req sock

theorem ChunksDeliver.tail (h : ChunksDeliver env s (action :: actions))
    (ha : handlerAction env s action = .ok (reply, s')) : ChunksDeliver env s' actions := by
  intro done len rest he replies s1 hrun
  apply h (action :: done) len rest (by rw [he, List.cons_append]) (reply :: replies) s1
  rw [runCalls, ha]
  dsimp only
  rw [hrun]

namespace BodyRead

theorem start (hw : s.2.WellFormed) : BodyRead s s [] := ⟨rfl, rfl, rfl, hw, rfl⟩

/-- A response call leaves the body alone. -/
theorem answered (h : BodyRead s0 s body) (res : Response) {sock : Socket} (hs : SameStream s.2 sock) :
    BodyRead s0 ({ s.1 with response := res }, sock) body := by
  refine ⟨?_, h.content, h.leftover, hs.wellFormed h.stream, h.keepalive⟩
  rw [h.next, unreadBytes, unreadBytes, hs.pending]

theorem step (h : BodyRead s0 s body) (hc : ChunksDeliver env s (action :: actions))
    (ha : handlerAction env s action = .ok (reply, s')) : ∃ more, BodyRead s0 s' (body ++ more) := by
  cases action with
  | chunk len =>
    obtain ⟨⟨⟨ok, bytes⟩, state⟩, hchunk, ha⟩ := bind_eq_ok.mp ha
    obtain ⟨-, rfl⟩ := Prod.mk.inj (Except.ok.inj ha)
    have hd := hc [] len actions rfl [] s rfl ok bytes _ _ hchunk
    have hframe := chunk_frame hchunk
    refine ⟨bytes, ?_, ?_, ?_, hframe.wellFormed h.stream, hframe.keepalive.trans h.keepalive⟩
    · rw [h.next, hd.next, List.append_assoc]
    · have hbefore := h.content
      have hcount := hd.content
      rw [List.length_append]
      omega
    · rw [hd.leftover, h.leftover, List.length_append, Nat.sub_sub]
  | respond call =>
    refine ⟨[], ?_⟩
    rw [List.append_nil]
    obtain ⟨⟨ok, res, sock⟩, hcall, ha⟩ := bind_eq_ok.mp ha
    obtain ⟨-, rfl⟩ := Prod.mk.inj (Except.ok.inj ha)
    apply h.answered res
    cases call with
    | header id name value =>
      obtain ⟨res1, -, hcall⟩ := bind_eq_ok.mp hcall
      obtain ⟨-, hcall⟩ := Prod.mk.inj (Except.ok.inj hcall)
      obtain ⟨-, rfl⟩ := Prod.mk.inj hcall
      exact .refl _
    | status status =>
      obtain ⟨-, hcall⟩ := Prod.mk.inj (Except.ok.inj hcall)
      obtain ⟨-, rfl⟩ := Prod.mk.inj hcall
      exact .refl _
    | keepalive keepalive =>
      obtain ⟨-, hcall⟩ := Prod.mk.inj (Except.ok.inj hcall)
      obtain ⟨-, rfl⟩ := Prod.mk.inj hcall
      exact .refl _
    | data date buffer =>
      obtain ⟨⟨ok', res', sock'⟩, hd, hcall⟩ := bind_eq_ok.mp hcall
      obtain ⟨-, hcall⟩ := Prod.mk.inj (Except.ok.inj hcall)
      obtain ⟨-, rfl⟩ := Prod.mk.inj hcall
      exact responseData_frame hd
  | file =>
    refine ⟨[], ?_⟩
    rw [List.append_nil]
    obtain ⟨-, rfl⟩ := Prod.mk.inj (Except.ok.inj ha)
    exact h.answered _ (.refl _)
  | cookie => cases ha

/-- A run of which every chunk delivers reads on in the body. -/
theorem run (h : BodyRead s0 s body) (hc : ChunksDeliver env s actions)
    (hr : runCalls (handlerAction env) s actions = .ok (replies, s')) : ∃ body', BodyRead s0 s' body' := by
  induction actions generalizing s body replies with
  | nil =>
    obtain ⟨-, rfl⟩ := Prod.mk.inj (Except.ok.inj hr)
    exact ⟨body, h⟩
  | cons action actions ih =>
    obtain ⟨reply, s1, rest, ha, hrest⟩ := runCalls_cons_ok hr
    obtain ⟨more, hstep⟩ := h.step hc ha
    exact ih hstep (hc.tail ha) hrest

end BodyRead

end Bodies

section Returns
variable {env : Environment} {handler : Handler} {date : CString} {req req0 req' : Request}
  {sock sock0 sock' : Socket} {ret : Bool} {result : Option Int}

/-- The stream is whole again, with the bytes left over put back or none left over. -/
theorem putBack_pending (hw : sock.WellFormed) : (putBack result req sock).pending = unreadBytes req sock ↔
    req.bufferUnread = 0 ∨
      req.keepalive = true ∧ req.contentLengthUnread = 0 ∧ (result = none ∨ result = some 0) := by
  unfold putBack
  split
  · next h =>
    obtain ⟨hkeep, -⟩ := h
    rw [(socketRequeue_spec hw _).1]
    exact ⟨fun _ => .inr hkeep, fun _ => rfl⟩
  · next h =>
    rw [unreadBytes]
    constructor
    · intro hp
      have hlen := congrArg List.length hp
      rw [List.length_append, slice_length] at hlen
      exact .inl (by omega)
    · rintro (hz | hkeep)
      · rw [hz]
        rfl
      · rw [not_and, Nat.not_lt, Nat.le_zero] at h
        rw [h hkeep]
        rfl

theorem requestFinish_frame (h : requestFinish env result date req sock = .ok (ret, req', sock')) :
    SameStream (putBack result req sock) sock' ∧ req'.contentLengthUnread = req.contentLengthUnread := by
  unfold requestFinish at h
  dsimp only at h
  split at h
  · cases h
  change (if result = none then responseData env.tables _ _ _ _ (putBack result req sock) _ >>= _
    else .ok (_, _, putBack result req sock)) = _ at h
  split at h
  · obtain ⟨⟨ok, res, sock1⟩, hdata, h⟩ := bind_eq_ok.mp h
    obtain ⟨-, hstate⟩ := Prod.mk.inj (Except.ok.inj h)
    obtain ⟨rfl, rfl⟩ := Prod.mk.inj hstate
    exact ⟨responseData_frame hdata, rfl⟩
  · obtain ⟨-, hstate⟩ := Prod.mk.inj (Except.ok.inj h)
    obtain ⟨rfl, rfl⟩ := Prod.mk.inj hstate
    exact ⟨.refl _, rfl⟩

/-- The handler itself leaves the connection to be kept: its head did, or it sent none and there is a
result. -/
def KeptByHandler (env : Environment) (s : Request × Socket) (handler : Handler) : Prop :=
  (∃ head : FirstHead env s handler.actions, head.kept = true) ∨
    (∀ a ∈ handler.actions, a.finalizes = false) ∧ handler.result ≠ none ∧ lastKept true handler.actions = true

/-- The handler has read the whole body, and the bytes received behind it, if there are any, are put
back. -/
def StreamHandedOn (env : Environment) (s : Request × Socket) (handler : Handler) : Prop :=
  (∀ replies s', runCalls (handlerAction env) s handler.actions = .ok (replies, s') → s'.1.contentLengthUnread = 0) ∧
    (s.1.bufferUnread ≤ s.1.contentLengthUnread ∨
      s.1.keepalive = true ∧ (handler.result = none ∨ handler.result = some 0))

private theorem returned_iff {s1 : Request × Socket} {start : Socket} {replies : List (Option Bool × Bytes)}
    (hstart : Unanswered req0.keepalive start true 0 [] (req0, sock0))
    (hrun : runCalls (handlerAction env) (req0, sock0) handler.actions = .ok (replies, s1))
    (hfinish : requestFinish env handler.result date s1.1 s1.2 = .ok (ret, req', sock')) :
    (ret = true ↔ KeptByHandler env (req0, sock0) handler) ∨
      handler.result = none ∧ ¬ KeptByHandler env (req0, sock0) handler ∧
        (ret = true → req0.keepalive = true ∧ s1.1.contentLengthUnread = 0) := by
  obtain ⟨rest, sock2, hown, rfl, -⟩ := requestFinish_run hfinish
  rcases firstHead_or hrun with hnone | ⟨⟨head⟩⟩
  · have hunanswered := hstart.run hnone hrun
    cases hresult : handler.result with
    | some n =>
      rw [hresult] at hown
      obtain ⟨-, hstate⟩ := Prod.mk.inj (Except.ok.inj hown)
      obtain rfl : s1.1 = req' := congrArg Prod.fst hstate
      left
      rw [hunanswered.keepalive]
      constructor
      · intro hk
        exact .inr ⟨hnone, hresult ▸ Option.some_ne_none n, hk⟩
      · rintro (⟨head, -⟩ | ⟨-, -, hk⟩)
        · exact (head.not_silent hnone).elim
        · exact hk
    | none =>
      right
      refine ⟨rfl, ?_, fun hk => ?_⟩
      · rintro (⟨head, -⟩ | ⟨-, hsome, -⟩)
        · exact head.not_silent hnone
        · exact hsome hresult
      rw [hresult] at hown
      -- the server's own answer is the first finalizer
      obtain ⟨reply, s2, rest2, hstatus, hdata⟩ := runCalls_cons_ok hown
      obtain ⟨reply2, s3, rest3, hfinal, hnil⟩ := runCalls_cons_ok hdata
      obtain ⟨-, rfl⟩ := Prod.mk.inj (Except.ok.inj hnil)
      have hset := hunanswered.step rfl hstatus
      obtain ⟨-, rfl⟩ := Prod.mk.inj (Except.ok.inj hstatus)
      obtain ⟨⟨called, res, sock⟩, hcall, hfinal⟩ := bind_eq_ok.mp hfinal
      obtain ⟨-, hstate⟩ := Prod.mk.inj (Except.ok.inj hfinal)
      obtain ⟨rfl, rfl⟩ := Prod.mk.inj hstate
      obtain ⟨⟨ok, res', sock1⟩, hd, hcall⟩ := bind_eq_ok.mp hcall
      obtain ⟨-, hcall⟩ := Prod.mk.inj (Except.ok.inj hcall)
      obtain ⟨rfl, rfl⟩ := Prod.mk.inj hcall
      obtain ⟨-, hkeep, -⟩ := responseData_writes hset.formatted hset.unsent hd
      change res'.keepalive = true at hk
      rw [hkeep] at hk
      obtain ⟨hkeeps, hread⟩ := Bool.and_eq_true_iff.mp hk
      refine ⟨?_, of_decide_eq_true hread⟩
      rw [← hset.request]
      exact (Bool.and_eq_true_iff.mp hkeeps).1
  · left
    obtain ⟨hanswered, -, -⟩ := head.ends hstart hrun
    have hlast : lastKept head.kept (ownAnswer handler.result date) = head.kept := by
      unfold ownAnswer
      split <;> rfl
    have hend := hanswered.run hown
    rw [hlast] at hend
    rw [hend.keepalive]
    constructor
    · intro hk
      exact .inl ⟨head, hk⟩
    · rintro (⟨head', hk⟩ | ⟨hnone, -⟩)
      · rw [← hanswered.keepalive, (head'.ends hstart hrun).1.keepalive]
        exact hk
      · exact (head.not_silent hnone).elim

/-- A call that gets to the hook and returns true leaves the body read and the stream behind it,
exactly when a handler that keeps the connection has read the body and what lies behind it is handed
on. -/
theorem stream_in_sync_iff (hw : sock.WellFormed) (ha : requestArrive env req sock = .ok (.ready req0 sock0))
    (h : requestProcessSocket env handler date req sock = .ok (ret, req', sock'))
    (hchunks : ChunksDeliver env (req0, sock0) handler.actions) :
    (ret = true → req'.contentLengthUnread = 0 ∧
        sock'.pending = sock.pending.drop (req0.bufferPosition + req0.contentLength)) ↔
      (KeptByHandler env (req0, sock0) handler → StreamHandedOn env (req0, sock0) handler) := by
  obtain ⟨bytes, st, harrived⟩ := requestArrive_ready hw ha
  rw [requestProcessSocket, ha, fault_ok_bind] at h
  obtain ⟨⟨replies, req1, sock1⟩, hrun, hfinish⟩ := bind_eq_ok.mp h
  obtain ⟨body, hread⟩ := (BodyRead.start harrived.stream).run hchunks hrun
  obtain ⟨hstream, hunread⟩ := requestFinish_frame hfinish
  have hlength : req0.contentLength = req0.contentLengthUnread := by
    rw [harrived.finished]
    rfl
  have hcontent : req1.contentLengthUnread + body.length = req0.contentLengthUnread := hread.content
  have hleft : req1.bufferUnread = req0.bufferUnread - body.length := hread.leftover
  have hkeeps : req1.keepalive = req0.keepalive := hread.keepalive
  have hbehind : req1.contentLengthUnread = 0 →
      sock.pending.drop (req0.bufferPosition + req0.contentLength) = unreadBytes req1 sock1 := by
    intro hz
    have hnext : unreadBytes req0 sock0 = body ++ unreadBytes req1 sock1 := hread.next
    have hbody : req0.contentLength = body.length := by omega
    rw [← List.drop_drop, ← harrived.unread, hnext, hbody, List.drop_left]
  have hsync : (req'.contentLengthUnread = 0 ∧
        sock'.pending = sock.pending.drop (req0.bufferPosition + req0.contentLength)) ↔
      req1.contentLengthUnread = 0 ∧ (req0.bufferUnread ≤ req0.contentLengthUnread ∨
        req0.keepalive = true ∧ (handler.result = none ∨ handler.result = some 0)) := by
    rw [hunread]
    apply and_congr_right
    intro hz
    rw [hstream.pending, hbehind hz, putBack_pending hread.stream, hkeeps]
    apply or_congr
    · omega
    · exact ⟨fun hk => ⟨hk.1, hk.2.2⟩, fun hk => ⟨hk.1, hz, hk.2⟩⟩
  have hhanded : StreamHandedOn env (req0, sock0) handler ↔
      req1.contentLengthUnread = 0 ∧ (req0.bufferUnread ≤ req0.contentLengthUnread ∨
        req0.keepalive = true ∧ (handler.result = none ∨ handler.result = some 0)) := by
    apply and_congr_left
    intro _
    constructor
    · intro hall
      exact hall replies (req1, sock1) hrun
    · intro hz replies' s' hrun'
      obtain ⟨-, rfl⟩ := Prod.mk.inj (Except.ok.inj (hrun.symm.trans hrun'))
      exact hz
  rw [hsync, hhanded]
  rcases returned_iff harrived.unanswered hrun hfinish with hret | ⟨hresult, hnot, hret⟩
  · rw [hret]
  · constructor
    · intro _ hkept
      exact absurd hkept hnot
    · intro _ hk
      obtain ⟨hkeep, hz⟩ := hret hk
      exact ⟨hz, .inr ⟨hkeep, .inl hresult⟩⟩

def pipelinedSocket : Socket :=
  socketNew 3 [] 80 ⟨ascii "G / HTTP/1.0\n\nG / HTTP/1.0\n\n", [.deliver 28], [], []⟩

private theorem silent_chunks (s : Request × Socket) : ChunksDeliver plainEnvironment s silentHandler.actions := by
  intro done len rest he
  exact absurd he.symm (List.append_ne_nil_of_right_ne_nil _ (List.cons_ne_nil _ _))

/-- With a handler that does nothing the first call goes on, and the second request is lost. -/
theorem second_request_lost :
    ∃ req0 sock0 req' sock', requestArrive plainEnvironment requestNew pipelinedSocket = .ok (.ready req0 sock0) ∧
      requestProcessSocket plainEnvironment silentHandler closeText requestNew pipelinedSocket =
        .ok (true, req', sock') ∧
      ChunksDeliver plainEnvironment (req0, sock0) silentHandler.actions ∧
      ¬ (true = true → req'.contentLengthUnread = 0 ∧
          sock'.pending = pipelinedSocket.pending.drop (req0.bufferPosition + req0.contentLength)) := by
  refine ⟨_, _, _, _, rfl, rfl, silent_chunks _, ?_⟩
  intro hsync
  have hpending := (hsync rfl).2
  exact absurd hpending.symm (List.cons_ne_nil _ _)

end Returns

/-- A request with a body of one byte, which comes behind it. -/
noncomputable def bodyText : LengthText plainEnvironment.table :=
  { negativeText with
    length := { negativeItem with
      value := ascii "1"
      plainValue := by decide
      ended := fun _ => by decide }
    few := (List.length_filter_le _ _).trans (by decide) }

noncomputable def bodyRequest : RequestText plainEnvironment.table :=
  { hostRequest plainEnvironment.table with
    query := none
    headers := [{ hostHeader plainEnvironment.table with lineEnd := .plain },
      { name := ascii "Content-Length"
        value := ascii "1"
        lineEnd := .plain
        known := plainEnvironment.table.common_known (by simp [commonNames])
        plainName := negativeItem.plainName
        plainValue := by decide
        numeral := fun _ => by
          refine ⟨List.cons_ne_nil _ _, fun b hb => ?_⟩
          rw [List.mem_singleton.mp hb]
          decide }]
    plainQuery := by simp
    fewHeaders := Nat.le_add_left 2 30
    hosted := ⟨_, List.mem_cons_self, rfl⟩ }

def bodySocket : Socket :=
  socketNew 3 [] 80 ⟨ascii "G / HTTP/1.1\nHost: a\nContent-Length: 1\n\nx", [.deliver 40, .deliver 1], [], []⟩

def readHandler : Handler := ⟨[.chunk 8], some 0⟩

private theorem body_arrived : ∃ req0 sock0,
    requestArrive plainEnvironment requestNew bodySocket = .ok (.ready req0 sock0) ∧
    req0.bufferUnread = 0 ∧ req0.contentLengthUnread = 1 ∧ req0.response.keepalive = true ∧
    ∃ sock1, socketRead sock0 1 = .ok (some (ascii "x"), sock1) := by
  have hgot : ∃ sock0, fetchBlock (requestMaxLength + 1) 0 0 bodySocket = .ok (.got bodyText.render, sock0) ∧
      ∃ sock1, socketRead sock0 1 = .ok (some (ascii "x"), sock1) := ⟨_, rfl, _, rfl⟩
  obtain ⟨sock0, hfetch, hread⟩ := hgot
  have hw : bodySocket.WellFormed := socketNew_wellFormed _ _ _ _
  obtain ⟨hreceived, harrive⟩ := requestArrive_got plainEnvironment hw hfetch
  obtain ⟨k, st, hparsed, -, -, -, hnone⟩ :=
    phases_round_trip bodyRequest (filled_position requestNew bodyText.render) (by decide) (filled_slice _ _)
  have hphases : parsePhases plainEnvironment requestMaxLength (filled requestNew bodyText.render)
    bodyText.render.length = .ok st := hparsed
  have ha : requestArrive plainEnvironment requestNew bodySocket = .ok (.ready (finishRequest st sock0) sock0) := by
    rw [harrive requestNew, hphases]
    rfl
  have htaken : TakenWhole bodySocket bodyText.render := ⟨hw, ⟨ascii "x", rfl⟩, _, _, hfetch⟩
  obtain ⟨req2, sock2, hready, -, hunread⟩ := (bodyText.outcome htaken requestNew).2.2 1 rfl
  obtain ⟨rfl, rfl⟩ := Arrival.ready.inj (Except.ok.inj (ha.symm.trans hready))
  have hresponse := (Arrived.mk hreceived hphases rfl).response
  exact ⟨_, _, ha, hnone, hunread, congrArg Response.keepalive hresponse, hread⟩

/-- The handler reads the body, and the connection is kept with nothing left to read. -/
theorem stream_in_sync_body : ∃ req0 sock0 req' sock',
    requestArrive plainEnvironment requestNew bodySocket = .ok (.ready req0 sock0) ∧
      handlerAction plainEnvironment (req0, sock0) (.chunk 8) = .ok ((some true, ascii "x"), req', sock') ∧
      requestProcessSocket plainEnvironment readHandler closeText requestNew bodySocket = .ok (true, req', sock') ∧
      StreamHandedOn plainEnvironment (req0, sock0) readHandler ∧ req'.contentLengthUnread = 0 ∧
      sock'.pending = bodySocket.pending.drop (req0.bufferPosition + req0.contentLength) := by
  obtain ⟨req0, sock0, ha, hleft, hunread, hkeep, sock1, hread⟩ := body_arrived
  have hw : bodySocket.WellFormed := socketNew_wellFormed _ _ _ _
  let req1 : Request := { req0 with contentLengthUnread := 0 }
  have hchunk : requestContentChunk req0 sock0 8 = .ok ((true, ascii "x"), req1, sock1) := by
    have hnone : ¬ 0 < req0.bufferUnread := by
      rw [hleft]
      exact Nat.lt_irrefl 0
    rw [requestContentChunk, if_neg hnone, hunread, if_pos (by decide), chunkFromSocket, hread, fault_ok_bind, hunread]
    rfl
  have haction : handlerAction plainEnvironment (req0, sock0) (.chunk 8) = .ok ((some true, ascii "x"), req1, sock1) := by
    rw [handlerAction, hchunk]
    rfl
  have hrun : runCalls (handlerAction plainEnvironment) (req0, sock0) readHandler.actions =
      .ok ([(some true, ascii "x")], req1, sock1) := by
    have hnothing : runCalls (handlerAction plainEnvironment) (req0, sock0) [] = .ok ([], req0, sock0) := rfl
    exact runCalls_append_singleton hnothing haction
  have hnone : ¬ 0 < req1.bufferUnread := by
    change ¬ 0 < req0.bufferUnread
    rw [hleft]
    exact Nat.lt_irrefl 0
  have hfinish : requestFinish plainEnvironment (some 0) closeText req1 sock1 = .ok (true, req1, sock1) := by
    rw [requestFinish, if_neg (fun h => hnone h.2.1), if_neg (Option.some_ne_none 0), if_neg (fun h => hnone h.2)]
    exact congrArg (fun keep => Except.ok (keep, req1, sock1)) hkeep
  have hprocess : requestProcessSocket plainEnvironment readHandler closeText requestNew bodySocket =
      .ok (true, req1, sock1) := by
    rw [requestProcessSocket, ha, fault_ok_bind]
    dsimp only
    rw [hrun, fault_ok_bind]
    exact hfinish
  have hdelivers : ChunksDeliver plainEnvironment (req0, sock0) readHandler.actions := by
    intro done len rest hsplit replies s1 hdone ok bytes req sock hc
    obtain ⟨bytes0, st, harrived⟩ := requestArrive_ready hw ha
    have hdone' : done = [] := by
      rcases List.append_eq_singleton_iff.mp hsplit.symm with ⟨hnil, -⟩ | ⟨-, hnil⟩
      · exact hnil
      · exact absurd hnil (List.cons_ne_nil _ _)
    subst hdone'
    obtain ⟨-, rfl⟩ := Prod.mk.inj (Except.ok.inj hdone)
    have haligned : Aligned req0 len := .inl hleft
    rcases chunk_aligned harrived.ready haligned with hfault | ⟨ok', bytes', req2, sock2, hok, hd, -⟩
    · rw [hfault] at hc
      cases hc
    · cases hok.symm.trans hc
      exact hd
  have hhanded : StreamHandedOn plainEnvironment (req0, sock0) readHandler := by
    refine ⟨fun replies s' h => ?_, .inl (hleft.le.trans (Nat.zero_le _))⟩
    cases h.symm.trans hrun
    rfl
  have hsync := (stream_in_sync_iff hw ha hprocess hdelivers).mpr (fun _ => hhanded) rfl
  exact ⟨req0, sock0, req1, sock1, ha, haction, hprocess, hhanded, hsync⟩

end CFlare.Http
