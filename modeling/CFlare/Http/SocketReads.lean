import CFlare.Http.Persistence

/-! The lengths that a call passes to the socket. The receiving loop asks for the room that is left in the
buffer; a chunk asks for no byte at all once the body is read. -/
namespace CFlare.Http
open CFlare.Library CFlare.Network

def receiveReads : Nat → Request → Nat → Nat → Socket → List Nat
  | 0, _, _, _, _ => []
  | fuel + 1, req, nbytes, newlines, sock =>
    sizeSub req.bufferFreespace nbytes ::
      match socketRead sock (sizeSub req.bufferFreespace nbytes) with
      | .ok (some fragment, sock) =>
        if nbytes + fragment.length = req.bufferFreespace then []
        else
          match scanFragment newlines fragment with
          | (true, _) => []
          | (false, newlines) =>
            receiveReads fuel { req with buffer := store req.buffer nbytes fragment } (nbytes + fragment.length)
              newlines sock
      | _ => []

/-- What a chunk passes, if it gets to the socket. -/
def chunkReads (req : Request) (bufferLen : Nat) : List Nat :=
  let bufferLen := if req.contentLengthUnread < bufferLen then req.contentLengthUnread else bufferLen
  if 0 < req.bufferUnread then
    let readable := if bufferLen > req.bufferUnread then bufferLen else req.bufferUnread
    if requestMaxLength < req.bufferPosition + readable then []
    else if sizeSub bufferLen readable = 0 then [] else [sizeSub bufferLen readable]
  else [bufferLen]

def HandlerAction.reads (req : Request) : HandlerAction → List Nat
  | .chunk bufferLen => chunkReads req bufferLen
  | _ => []

/-- What a handler's calls pass, as long as none of them faults. -/
def handlerReads (env : Environment) : Request × Socket → List HandlerAction → List Nat
  | _, [] => []
  | s, action :: actions =>
    action.reads s.1 ++
      match handlerAction env s action with
      | .ok (_, s) => handlerReads env s actions
      | .error _ => []

def processReads (env : Environment) (handler : Handler) (req : Request) (sock : Socket) : List Nat :=
  receiveReads (requestMaxLength + 1) (startRequest req) 0 0 sock ++
    match requestArrive env req sock with
    | .ok (.ready req sock) => handlerReads env (req, sock) handler.actions
    | _ => []

/-- At each chunk there are bytes left over, or the body has more to come. -/
def ChunksFindBody (env : Environment) (s : Request × Socket) (actions : List HandlerAction) : Prop :=
  ∀ done len rest, actions = done ++ .chunk len :: rest → ∀ replies s',
    runCalls (handlerAction env) s done = .ok (replies, s') → 0 < s'.1.bufferUnread ∨ 0 < s'.1.contentLengthUnread

section Asserts
variable {req : Request} {sock : Socket}

private theorem readEnd_returns {s : Socket} {count : Int} {bytes : Bytes} {fault : Fault} :
    (if count ≤ 0 then (.ok (none, readFailed s count) : Except Fault (Option Bytes × Socket))
      else .ok (some bytes, s)) ≠ .error fault := by
  intro h
  split at h
  · cases h
  · cases h

theorem socketRead_asserts_iff {length : Nat} :
    socketRead sock length = .error .assertion ↔ sock.connected = true ∧ length = 0 := by
  unfold socketRead
  split
  · next hclosed =>
    rw [hclosed]
    constructor
    · intro h
      cases h
    · rintro ⟨hopen, -⟩
      cases hopen
  next hopen =>
  split
  · next hzero => exact ⟨fun _ => ⟨eq_true_of_ne_false hopen, hzero⟩, fun _ => rfl⟩
  next hpos =>
  constructor
  · intro h
    split at h
    · exact absurd h readEnd_returns
    · exact absurd h readEnd_returns
  · rintro ⟨-, hzero⟩
    exact absurd hzero hpos

private theorem chunkFromSocket_asserts_iff {got : Bytes} {bufferLen : Nat} :
    chunkFromSocket req sock got bufferLen = .error .assertion ↔ sock.connected = true ∧ bufferLen = 0 := by
  rw [← socketRead_asserts_iff]
  unfold chunkFromSocket
  cases socketRead sock bufferLen with
  | error fault => exact ⟨fun h => congrArg _ (Except.error.inj h), fun h => congrArg _ (Except.error.inj h)⟩
  | ok read =>
    constructor
    · intro h
      cases h
    · intro h
      cases h

/-- Where the socket's assertion fails in a chunk, the length is zero. -/
theorem chunk_asserts_iff {bufferLen : Nat} : requestContentChunk req sock bufferLen = .error .assertion ↔
    sock.connected = true ∧ 0 ∈ chunkReads req bufferLen := by
  unfold requestContentChunk chunkReads
  dsimp only
  generalize (if req.contentLengthUnread < bufferLen then req.contentLengthUnread else bufferLen) = bufferLen
  split
  · generalize (if bufferLen > req.bufferUnread then bufferLen else req.bufferUnread) = readable
    split
    · constructor
      · intro h
        cases h
      · rintro ⟨-, hm⟩
        cases hm
    · split
      · constructor
        · intro h
          cases h
        · rintro ⟨-, hm⟩
          cases hm
      · rw [chunkFromSocket_asserts_iff, List.mem_singleton, eq_comm (a := (0 : Nat))]
  · rw [chunkFromSocket_asserts_iff, List.mem_singleton, eq_comm (a := (0 : Nat))]

theorem receive_asserts {fuel nbytes newlines : Nat} (h : receive fuel req nbytes newlines sock = .error .assertion) :
    0 ∈ receiveReads fuel req nbytes newlines sock := by
  induction fuel generalizing req nbytes newlines sock with
  | zero => cases h
  | succ fuel ih =>
    rw [receive] at h
    rw [receiveReads]
    cases hread : socketRead sock (sizeSub req.bufferFreespace nbytes) with
    | error fault =>
      rw [hread] at h
      have hassert : fault = .assertion := Except.error.inj h
      rw [hassert, socketRead_asserts_iff] at hread
      rw [hread.2]
      exact List.mem_cons_self
    | ok read =>
      obtain ⟨fragment, sock1⟩ := read
      rw [hread, fault_ok_bind] at h
      apply List.mem_cons_of_mem
      cases fragment with
      | none => cases h
      | some fragment =>
        dsimp only at h ⊢
        split at h
        · cases h
        · next hroom =>
          rw [if_neg hroom]
          cases hscan : scanFragment newlines fragment with
          | mk found newlines' =>
            rw [hscan] at h
            cases found with
            | true => cases h
            | false => exact ih h

end Asserts

section Positive
variable {env : Environment} {req : Request} {sock : Socket}

theorem receiveReads_pos {fuel nbytes newlines : Nat} (hw : sock.WellFormed)
    (hspace : req.bufferFreespace = requestMaxLength) (hroom : nbytes < requestMaxLength) :
    ∀ length ∈ receiveReads fuel req nbytes newlines sock, 0 < length := by
  induction fuel generalizing req nbytes newlines sock with
  | zero => exact fun length hm => absurd hm List.not_mem_nil
  | succ fuel ih =>
    have hsize : sizeSub req.bufferFreespace nbytes = requestMaxLength - nbytes := by
      rw [hspace]
      exact sizeSub_of_le hroom.le (by decide)
    have hpos : 0 < requestMaxLength - nbytes := Nat.sub_pos_of_lt hroom
    rw [receiveReads, hsize]
    intro length hm
    rcases List.mem_cons.mp hm with rfl | hm
    · exact hpos
    obtain ⟨reply, sock1, hread, hw1, hsome, -⟩ := socketRead_spec hw hpos
    rw [hread] at hm
    cases reply with
    | none => cases hm
    | some fragment =>
      obtain ⟨-, hle, -⟩ := hsome fragment rfl
      dsimp only at hm
      split at hm
      · cases hm
      next hnot =>
      cases hscan : scanFragment newlines fragment with
      | mk found newlines' =>
        rw [hscan] at hm
        cases found with
        | true => cases hm
        | false =>
          have hnext : ({ req with buffer := store req.buffer nbytes fragment } : Request).bufferFreespace =
            requestMaxLength := hspace
          rw [hspace] at hnot
          exact ih hw1 hnext (by omega) length hm

/-- A chunk for some bytes asks for none when nothing is left over and nothing is to come. -/
theorem chunkReads_pos_iff {len : Nat} (hlen : 0 < len) :
    (∀ length ∈ chunkReads req len, 0 < length) ↔ 0 < req.bufferUnread ∨ 0 < req.contentLengthUnread := by
  have hcut : 0 < (if req.contentLengthUnread < len then req.contentLengthUnread else len) ↔
      0 < req.contentLengthUnread := by
    split
    · exact Iff.rfl
    · exact ⟨fun _ => by omega, fun _ => hlen⟩
  unfold chunkReads
  dsimp only
  generalize (if req.contentLengthUnread < len then req.contentLengthUnread else len) = bufferLen at hcut
  generalize (if bufferLen > req.bufferUnread then bufferLen else req.bufferUnread) = readable
  split
  · next hleft =>
    refine ⟨fun _ => .inl hleft, fun _ length hm => ?_⟩
    split at hm
    · cases hm
    · split at hm
      · cases hm
      · next hne =>
        rw [List.mem_singleton.mp hm]
        exact Nat.pos_of_ne_zero hne
  · next hnone => rw [or_iff_right hnone, List.forall_mem_singleton, hcut]

private theorem zero_mem_iff {lengths : List Nat} : 0 ∈ lengths ↔ ¬ ∀ length ∈ lengths, 0 < length := by
  constructor
  · intro hm hpos
    exact Nat.lt_irrefl 0 (hpos 0 hm)
  · intro hnot
    obtain ⟨length, hm, hzero⟩ := not_forall₂.mp hnot
    rwa [Nat.eq_zero_of_not_pos hzero] at hm

theorem chunk_aborts_iff {len : Nat} (hlen : 0 < len) : handlerAction env (req, sock) (.chunk len) = .error .assertion ↔
    sock.connected = true ∧ req.bufferUnread = 0 ∧ req.contentLengthUnread = 0 := by
  have hchunk : handlerAction env (req, sock) (.chunk len) = .error .assertion ↔
      requestContentChunk req sock len = .error .assertion := by
    rw [handlerAction]
    cases requestContentChunk req sock len with
    | error fault => exact ⟨fun h => congrArg _ (Except.error.inj h), fun h => congrArg _ (Except.error.inj h)⟩
    | ok result => simp
  rw [hchunk, chunk_asserts_iff, zero_mem_iff, chunkReads_pos_iff hlen, not_or, Nat.not_lt, Nat.not_lt,
    Nat.le_zero, Nat.le_zero]

theorem handlerReads_pos_iff {s : Request × Socket} {actions : List HandlerAction}
    (hlens : ∀ len, HandlerAction.chunk len ∈ actions → 0 < len) :
    (∀ length ∈ handlerReads env s actions, 0 < length) ↔ ChunksFindBody env s actions := by
  induction actions generalizing s with
  | nil =>
    refine ⟨fun _ done len rest hsplit => ?_, fun _ length hm => absurd hm List.not_mem_nil⟩
    exact absurd hsplit.symm (List.append_ne_nil_of_right_ne_nil _ (List.cons_ne_nil _ _))
  | cons action actions ih =>
    have htail := fun s' => @ih s' (fun len hm => hlens len (List.mem_cons_of_mem _ hm))
    have hfirst : (∀ length ∈ action.reads s.1, 0 < length) ↔
        ∀ len, action = .chunk len → 0 < s.1.bufferUnread ∨ 0 < s.1.contentLengthUnread := by
      cases action with
      | chunk len =>
        have hlen := hlens len List.mem_cons_self
        constructor
        · intro h _ _
          exact (chunkReads_pos_iff hlen).mp h
        · intro h
          exact (chunkReads_pos_iff hlen).mpr (h len rfl)
      | respond call =>
        constructor
        · intro _ len he
          cases he
        · intro _ length hm
          cases hm
      | file =>
        constructor
        · intro _ len he
          cases he
        · intro _ length hm
          cases hm
      | cookie =>
        constructor
        · intro _ len he
          cases he
        · intro _ length hm
          cases hm
    rw [handlerReads, List.forall_mem_append, hfirst]
    constructor
    · rintro ⟨hhead, hrest⟩ done len rest hsplit replies s' hrun
      cases done with
      | nil =>
        obtain ⟨rfl, -⟩ := List.cons.inj hsplit
        obtain ⟨-, rfl⟩ := Prod.mk.inj (Except.ok.inj hrun)
        exact hhead len rfl
      | cons first done =>
        obtain ⟨rfl, rfl⟩ := List.cons.inj hsplit
        obtain ⟨reply, s1, replies1, haction, hbehind⟩ := runCalls_cons_ok hrun
        rw [haction] at hrest
        exact (htail s1).mp hrest done len rest rfl replies1 s' hbehind
    · intro hfind
      refine ⟨fun len he => hfind [] len actions (congrArg (· :: actions) he) [] s rfl, ?_⟩
      cases haction : handlerAction env s action with
      | error fault => exact fun length hm => absurd hm List.not_mem_nil
      | ok result =>
        obtain ⟨reply, s1⟩ := result
        apply (htail s1).mpr
        intro done len rest hsplit replies s' hrun
        have hboth : runCalls (handlerAction env) s (action :: done) = .ok (reply :: replies, s') := by
          rw [runCalls, haction]
          dsimp only
          rw [hrun]
        exact hfind (action :: done) len rest (congrArg (action :: ·) hsplit) (reply :: replies) s' hboth

variable {handler : Handler}

/-- No call asks the socket for no byte, exactly as long as every chunk that is reached finds bytes left
over or a body that has more to come. The receiving loop never fails the socket's assertion, and a chunk fails
it where it finds neither on an open socket. -/
theorem reads_positive_iff (hw : sock.WellFormed)
    (hlens : ∀ len, HandlerAction.chunk len ∈ handler.actions → 0 < len) :
    ((∀ length ∈ processReads env handler req sock, 0 < length) ↔
      ∀ req0 sock0, requestArrive env req sock = .ok (.ready req0 sock0) →
        ChunksFindBody env (req0, sock0) handler.actions) ∧
    receive (requestMaxLength + 1) (startRequest req) 0 0 sock ≠ .error .assertion ∧
    ∀ len, HandlerAction.chunk len ∈ handler.actions → ∀ s : Request × Socket,
      (handlerAction env s (.chunk len) = .error .assertion ↔
        s.2.connected = true ∧ s.1.bufferUnread = 0 ∧ s.1.contentLengthUnread = 0) := by
  have hreceive : ∀ length ∈ receiveReads (requestMaxLength + 1) (startRequest req) 0 0 sock, 0 < length :=
    receiveReads_pos hw rfl (by decide)
  refine ⟨?_, fun h => Nat.lt_irrefl 0 (hreceive 0 (receive_asserts h)), fun len hm s => chunk_aborts_iff (hlens len hm)⟩
  rw [processReads, List.forall_mem_append, and_iff_right hreceive]
  cases harrive : requestArrive env req sock with
  | error fault =>
    refine ⟨fun _ req0 sock0 h => ?_, fun _ length hm => absurd hm List.not_mem_nil⟩
    cases h
  | ok arrival =>
    cases arrival with
    | rejected status req1 sock1 =>
      refine ⟨fun _ req0 sock0 h => ?_, fun _ length hm => absurd hm List.not_mem_nil⟩
      cases h
    | ready req1 sock1 =>
      dsimp only
      rw [handlerReads_pos_iff hlens]
      constructor
      · intro hfind req0 sock0 h
        obtain ⟨rfl, rfl⟩ := Arrival.ready.inj (Except.ok.inj h)
        exact hfind
      · intro hfind
        exact hfind req1 sock1 rfl

end Positive

/-- A handler that asks for a body, and a request that has none. -/
def readingHandler : Handler := ⟨[.chunk 8], some 0⟩

/-- The server is aborted. -/
theorem empty_body_read : 0 ∈ processReads plainEnvironment readingHandler requestNew oldSocket ∧
    requestProcessSocket plainEnvironment readingHandler closeText requestNew oldSocket = .error .assertion := by
  have harrive : ∃ req0 sock0, requestArrive plainEnvironment requestNew oldSocket = .ok (.ready req0 sock0) ∧
      handlerReads plainEnvironment (req0, sock0) readingHandler.actions = [0] := ⟨_, _, rfl, rfl⟩
  obtain ⟨req0, sock0, ha, hreads⟩ := harrive
  refine ⟨?_, rfl⟩
  rw [processReads, ha]
  dsimp only
  rw [hreads]
  exact List.mem_append_right _ (List.mem_singleton.mpr rfl)

theorem reads_positive_iff_reading :
    ((∀ length ∈ processReads plainEnvironment readingHandler requestNew oldSocket, 0 < length) ↔
      ∀ req0 sock0, requestArrive plainEnvironment requestNew oldSocket = .ok (.ready req0 sock0) →
        ChunksFindBody plainEnvironment (req0, sock0) readingHandler.actions) ∧
    receive (requestMaxLength + 1) (startRequest requestNew) 0 0 oldSocket ≠ .error .assertion ∧
    ∀ s : Request × Socket, handlerAction plainEnvironment s (.chunk 8) = .error .assertion ↔
      s.2.connected = true ∧ s.1.bufferUnread = 0 ∧ s.1.contentLengthUnread = 0 := by
  have hlens : ∀ len, HandlerAction.chunk len ∈ readingHandler.actions → 0 < len := by
    intro len hm
    obtain ⟨rfl⟩ := HandlerAction.chunk.inj (List.mem_singleton.mp hm)
    decide
  obtain ⟨hiff, hreceive, hchunk⟩ := @reads_positive_iff plainEnvironment requestNew oldSocket readingHandler
    (socketNew_wellFormed _ _ _ _) hlens
  exact ⟨hiff, hreceive, hchunk 8 (List.mem_singleton.mpr rfl)⟩

end CFlare.Http
