import CFlare.Http.Persistence

/-! One call answers at most once: either the server rejects the request itself, or the first finalizer
of the hook sends its head and the others find it sent. -/
namespace CFlare.Http
open CFlare.Library CFlare.Network

def quickResponse (env : Environment) (status : UInt32) (message : Bytes) (keepAlive : Bool) : Bytes :=
  (quickHeaders env status message keepAlive ++ [newline]) ++ (message ++ [newline])

/-- What each call of a handler puts on the socket. -/
def sentBy (env : Environment) : Request × Socket → List HandlerAction → List Bytes
  | _, [] => []
  | s, action :: actions =>
    match handlerAction env s action with
    | .ok (_, s') => s'.2.peer.outgoing.drop s.2.peer.outgoing.length :: sentBy env s' actions
    | .error _ => []

/-- Bytes in front of which is a status line, or a part of one if they are fewer. -/
def beginsStatus (text : Bytes) : Bool :=
  text ≠ [] && (text.take 9).isPrefixOf (ascii "HTTP/1.1 ")

/-- The status lines that a call writes: those among what the handler's calls put on the socket, or a rejection's. -/
def statusLines (env : Environment) (handler : Handler) (date : CString) (req : Request) (sock : Socket) : Nat :=
  match requestArrive env req sock with
  | .ok (.rejected _ _ sock') => [sock'.peer.outgoing.drop sock.peer.outgoing.length].countP beginsStatus
  | .ok (.ready req sock) => (sentBy env (req, sock) (handler.answers date)).countP beginsStatus
  | .error _ => 0

/-- A rejection is answered once by the server itself; the socket is closed then, and the handlers are
not asked. -/
structure RejectedOnce (env : Environment) (req : Request) (sock : Socket) (ret : Bool) (req' : Request)
    (sock' : Socket) : Prop where
  returned : ret = false
  closed : sock'.fd < 0 ∧ (0 ≤ sock.fd → sock'.connected = false)
  answered : ∃ sock1 status message, sock1.peer.outgoing = sock.peer.outgoing ∧
    sock' = quickResponseSocket env sock1 status message false ∧
      ∃ part, part <+: quickResponse env status message false ∧
        sock'.peer.outgoing = sock.peer.outgoing ++ part
  unasked : ∀ handler date, requestProcessSocket env handler date req sock = .ok (false, req', sock')

/-- A request that gets to the hook is answered by the first finalizer only: what goes out is what its calls
send, a front part of that answer, and all of it where the writes succeed. -/
structure AnsweredOnce (env : Environment) (handler : Handler) (date : CString) (s : Request × Socket)
    (sock sock' : Socket) : Prop where
  sent : sock'.peer.outgoing = sock.peer.outgoing ++ (sentBy env s (handler.answers date)).flatten
  silent : (∀ a ∈ handler.answers date, a.finalizes = false) → sock'.peer.outgoing = sock.peer.outgoing
  front : ∀ head : FirstHead env s (handler.answers date),
    ∃ part, part <+: head.sent ∧ sock'.peer.outgoing = sock.peer.outgoing ++ part
  whole : (∃ a ∈ handler.actions, a.finalizes = true) ∨ handler.result = none →
    WritesSucceed env s (handler.answers date) sock sock' →
      ∃ head : FirstHead env s (handler.answers date), sock'.peer.outgoing = sock.peer.outgoing ++ head.sent

section Rejection

def Linked (sock : Socket) : Prop := sock.connected = true → 0 ≤ sock.fd

/-- What a write leaves: one that fails has ended the connection. -/
structure Written (sock : Socket) (out : Bool × Socket) (bytes : Bytes) : Prop where
  linked : Linked sock → Linked out.2
  failed : out.1 = false → out.2.connected = false
  wrote : Wrote sock out.2 out.1 bytes

theorem socketWrite_written (sock : Socket) (bytes : Bytes) : Written sock (socketWrite sock bytes) bytes := by
  have hwrote := socketWrite_wrote sock bytes
  unfold socketWrite at hwrote ⊢
  split
  · next hc =>
    rw [if_pos hc] at hwrote
    exact ⟨id, fun _ => hc, hwrote⟩
  next hc =>
  rw [if_neg hc] at hwrote
  have hend := writeBytes_end sock.peer.sends bytes sock
  generalize writeBytes sock.peer.sends bytes sock = out at hwrote hend
  cases hend with
  | sent rest => exact ⟨id, fun hf => absurd hf.symm Bool.false_ne_true, hwrote⟩
  | failed front rest => exact ⟨fun _ hc => absurd hc Bool.false_ne_true, fun _ => rfl, hwrote⟩

theorem socketWriteLine_written (sock : Socket) (bytes : Bytes) :
    Written sock (socketWriteLine sock bytes) (bytes ++ [newline]) := by
  unfold socketWriteLine
  split
  · next hc => exact ⟨id, fun _ => hc, .nothing hc _⟩
  have hline := socketWrite_written sock bytes
  cases hw : socketWrite sock bytes with
  | mk ok1 sock1 =>
    rw [hw] at hline
    cases ok1 with
    | false => exact ⟨hline.linked, fun _ => hline.failed rfl, hline.wrote.short _⟩
    | true =>
      have hend := socketWrite_written sock1 [newline]
      dsimp only
      cases hw2 : socketWrite sock1 [newline] with
      | mk ok2 sock2 =>
        rw [hw2] at hend
        have hlinked : Linked sock → Linked sock2 := fun h => hend.linked (hline.linked h)
        have hboth := hline.wrote.then hend.wrote
        cases ok2 with
        | false => exact ⟨hlinked, fun _ => hend.failed rfl, hboth⟩
        | true =>
          dsimp only
          rw [hend.wrote.stays rfl]
          exact ⟨hlinked, fun hf => absurd hf.symm Bool.false_ne_true, hboth⟩

/-- A closed socket has no descriptor, and is not connected if one that is connected has. -/
theorem socketClose_closed (sock : Socket) :
    (socketClose sock).fd < 0 ∧ (Linked sock → (socketClose sock).connected = false) := by
  unfold socketClose
  split
  · next hfd =>
    refine ⟨hfd, fun h => eq_false_of_ne_true (fun hc => ?_)⟩
    exact absurd (h hc) (Int.not_le.mpr hfd)
  · exact ⟨Int.negSucc_lt_zero 0, fun _ => rfl⟩

/-- The server's own answer goes out as far as its writes succeed, and the socket is closed behind it. -/
theorem quickResponse_written (env : Environment) (sock : Socket) (status : UInt32) (message : Bytes) :
    ((quickResponseSocket env sock status message false).fd < 0 ∧
        (Linked sock → (quickResponseSocket env sock status message false).connected = false)) ∧
      ∃ part, part <+: quickResponse env status message false ∧
        (quickResponseSocket env sock status message false).peer.outgoing = sock.peer.outgoing ++ part := by
  have hanswer : quickResponseSocket env sock status message false =
      socketClose (socketWriteLine (socketWriteLine sock (quickHeaders env status message false)).2 message).2 := rfl
  have hheaders := socketWriteLine_written sock (quickHeaders env status message false)
  rw [hanswer]
  cases hw : socketWriteLine sock (quickHeaders env status message false) with
  | mk ok sock1 =>
    rw [hw] at hheaders
    have hmessage := socketWriteLine_written sock1 message
    have hclosed := socketClose_closed (socketWriteLine sock1 message).2
    refine ⟨⟨hclosed.1, fun h => hclosed.2 (hmessage.linked (hheaders.linked h))⟩, ?_⟩
    rw [socketClose_outgoing]
    cases ok with
    | true => exact (hheaders.wrote.then hmessage.wrote).front
    | false =>
      -- the second line is not written then
      have hnone : socketWriteLine sock1 message = (false, sock1) := by
        rw [socketWriteLine, if_pos (hheaders.failed rfl)]
      rw [hnone]
      exact (hheaders.wrote.short _).front

end Rejection

section Answers
variable {env : Environment} {s s' : Request × Socket} {actions : List HandlerAction} {reqKeepalive keep : Bool}
  {sock : Socket} {text : Bytes} {code : UInt32} {replies : List (Option Bool × Bytes)}

theorem sentBy_cons (env : Environment) (s : Request × Socket) (action : HandlerAction) (actions : List HandlerAction) :
    (∃ fault, handlerAction env s action = .error fault ∧ sentBy env s (action :: actions) = []) ∨
      ∃ reply s', handlerAction env s action = .ok (reply, s') ∧ sentBy env s (action :: actions) =
        s'.2.peer.outgoing.drop s.2.peer.outgoing.length :: sentBy env s' actions := by
  rw [sentBy]
  cases handlerAction env s action with
  | error fault => exact .inl ⟨fault, rfl, rfl⟩
  | ok r => exact .inr ⟨r.1, r.2, rfl, rfl⟩

theorem Answered.sentBy (h : Answered sock keep s) (actions : List HandlerAction) :
    ∀ text ∈ sentBy env s actions, text = [] := by
  induction actions generalizing s keep with
  | nil => exact fun text hm => absurd hm List.not_mem_nil
  | cons action actions ih =>
    rcases sentBy_cons env s action actions with ⟨fault, -, hsent⟩ | ⟨reply, s1, ha, hsent⟩
    · rw [hsent]
      exact fun text hm => absurd hm List.not_mem_nil
    · have hstep := h.step ha
      rw [hsent, List.forall_mem_cons, hstep.reads.outgoing, h.reads.outgoing]
      exact ⟨List.drop_length, ih hstep⟩

/-- One status line is written at most, whatever the handler does and however it ends. -/
theorem Unanswered.statusLines_le (h : Unanswered reqKeepalive sock keep code text s) (actions : List HandlerAction) :
    (Http.sentBy env s actions).countP beginsStatus ≤ 1 := by
  induction actions generalizing s keep code text with
  | nil => exact Nat.zero_le 1
  | cons action actions ih =>
    rcases sentBy_cons env s action actions with ⟨fault, -, hsent⟩ | ⟨reply, s1, ha, hsent⟩
    · rw [hsent]
      exact Nat.zero_le 1
    rw [hsent, List.countP_cons]
    cases hf : action.finalizes with
    | true =>
      unfold HandlerAction.finalizes at hf
      split at hf
      · obtain ⟨ok, -, hanswered, -⟩ := h.finalize ha
        have hnone : (Http.sentBy env s1 actions).countP beginsStatus = 0 := by
          rw [List.countP_eq_zero]
          intro text hm
          rw [hanswered.sentBy actions text hm]
          exact Bool.false_ne_true
        rw [hnone, Nat.zero_add]
        split
        · exact Nat.le_refl 1
        · exact Nat.zero_le 1
      · cases hf
    | false =>
      have hstep := h.step hf ha
      rw [hstep.reads.outgoing, h.reads.outgoing, List.drop_length]
      exact ih hstep

theorem Answered.sentBy_flatten (h : Answered sock keep s)
    (hr : runCalls (handlerAction env) s actions = .ok (replies, s')) :
    s'.2.peer.outgoing = s.2.peer.outgoing ++ (Http.sentBy env s actions).flatten := by
  have hnone : (Http.sentBy env s actions).flatten = [] := List.flatten_eq_nil_iff.mpr (h.sentBy actions)
  rw [hnone, List.append_nil, (h.run hr).reads.outgoing, h.reads.outgoing]

theorem Unanswered.sentBy_flatten (h : Unanswered reqKeepalive sock keep code text s)
    (hr : runCalls (handlerAction env) s actions = .ok (replies, s')) :
    s'.2.peer.outgoing = s.2.peer.outgoing ++ (Http.sentBy env s actions).flatten := by
  induction actions generalizing s keep code text replies with
  | nil =>
    obtain ⟨-, rfl⟩ := Prod.mk.inj (Except.ok.inj hr)
    exact (List.append_nil _).symm
  | cons action actions ih =>
    obtain ⟨reply, s1, replies1, ha, hrest⟩ := runCalls_cons_ok hr
    have hsent : Http.sentBy env s (action :: actions) =
        s1.2.peer.outgoing.drop s.2.peer.outgoing.length :: Http.sentBy env s1 actions := by
      rw [Http.sentBy, ha]
    rw [hsent, List.flatten_cons]
    cases hf : action.finalizes with
    | true =>
      unfold HandlerAction.finalizes at hf
      split at hf
      · obtain ⟨ok, -, hanswered, hwrote⟩ := h.finalize ha
        obtain ⟨part, -, hout⟩ := hwrote.front
        rw [hanswered.sentBy_flatten hrest, hout, List.drop_left, List.append_assoc]
      · cases hf
    | false =>
      have hstep := h.step hf ha
      rw [ih hstep hrest, hstep.reads.outgoing, h.reads.outgoing, List.drop_length, List.nil_append]

/-- The calls of a handler that finalizes, or that leaves no result, have a first finalizer. -/
theorem Handler.finalized {handler : Handler} {date : CString}
    (h : (∃ a ∈ handler.actions, a.finalizes = true) ∨ handler.result = none) :
    ¬ ∀ a ∈ handler.answers date, a.finalizes = false := by
  intro hnone
  rcases h with ⟨a, hm, hf⟩ | hresult
  · rw [hnone a (List.mem_append_left _ hm)] at hf
    cases hf
  · have hown : .respond (.data date (ascii "no request handler\n")) ∈ handler.answers date := by
      rw [Handler.answers, hresult]
      exact List.mem_append_right _ (List.mem_cons_of_mem _ List.mem_cons_self)
    have hfinal := hnone _ hown
    cases hfinal

end Answers

section Calls
variable {env : Environment} {handler : Handler} {date : CString} {req req0 req' : Request} {sock sock0 sock' : Socket}
  {ret : Bool}

theorem rejected_once {status : UInt32} (ha : requestArrive env req sock = .ok (.rejected status req' sock')) :
    RejectedOnce env req sock false req' sock' := by
  obtain ⟨sock1, message, hreads, rfl⟩ := requestArrive_rejected ha
  obtain ⟨hclosed, part, hpart, hout⟩ := quickResponse_written env sock1 status message
  refine ⟨rfl, ⟨hclosed.1, fun hfd => hclosed.2 (fun _ => ?_)⟩,
    ⟨sock1, status, message, hreads.outgoing, rfl, part, hpart, ?_⟩,
    fun handler date => ?_⟩
  · rw [hreads.fd]
    exact hfd
  · rw [hout, hreads.outgoing]
  · rw [requestProcessSocket, ha]
    rfl

theorem answered_once (hw : sock.WellFormed) (ha : requestArrive env req sock = .ok (.ready req0 sock0))
    (h : requestProcessSocket env handler date req sock = .ok (ret, req', sock')) :
    AnsweredOnce env handler date (req0, sock0) sock sock' := by
  obtain ⟨bytes, st, harrived⟩ := requestArrive_ready hw ha
  obtain ⟨replies, sock2, hrun, -, hpeer⟩ := requestProcessSocket_run ha h
  have hout : sock'.peer.outgoing = sock2.peer.outgoing := congrArg Peer.outgoing hpeer
  have hreads := requestArrive_reads ha
  have hstart := harrived.unanswered.from hreads
  have hends : ∀ head : FirstHead env (req0, sock0) (handler.answers date),
      (∃ part, part <+: head.sent ∧ sock'.peer.outgoing = sock.peer.outgoing ++ part) ∧
        (WritesSucceed env (req0, sock0) (handler.answers date) sock sock' →
          sock'.peer.outgoing = sock.peer.outgoing ++ head.sent) := by
    intro head
    obtain ⟨-, ⟨part, hpart, hfront⟩, hwhole⟩ := head.ends hstart hrun
    refine ⟨⟨part, hpart, hout.trans hfront⟩, fun hwrites => hout.trans (hwhole (hwrites.connected head) ?_)⟩
    rw [SendsSucceed, ← hpeer]
    exact hwrites.sends
  refine ⟨?_, fun hnone => hout.trans (hstart.run hnone hrun).reads.outgoing, fun head => (hends head).1,
    fun hfinal hwrites => ?_⟩
  · rw [hout, hstart.sentBy_flatten hrun, hreads.outgoing]
  rcases firstHead_or hrun with hnone | ⟨⟨head⟩⟩
  · exact absurd hnone (Handler.finalized hfinal)
  · exact ⟨head, (hends head).2 hwrites⟩

theorem statusLines_le (hw : sock.WellFormed) : statusLines env handler date req sock ≤ 1 := by
  rw [statusLines]
  cases ha : requestArrive env req sock with
  | error fault => exact Nat.zero_le 1
  | ok arrival =>
    cases arrival with
    | rejected status req1 sock1 => exact List.countP_le_length
    | ready req0 sock0 =>
      obtain ⟨bytes, st, harrived⟩ := requestArrive_ready hw ha
      exact harrived.unanswered.statusLines_le _

end Calls

end CFlare.Http
