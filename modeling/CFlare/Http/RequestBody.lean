import CFlare.Http.Request
import CFlare.Network.SocketStream
import Mathlib.Data.List.Forall2
import Mathlib.Data.List.Induction

/-! Delivery of a request's body. A chunk takes the larger of two lengths out of the left-over
bytes, so it goes right only where there are none left or the two lengths are equal. -/
namespace CFlare.Http
open CFlare.Library CFlare.Network

/-- What is still to be read: the left-over bytes of the buffer, then the socket's. -/
def unreadBytes (req : Request) (sock : Socket) : Bytes :=
  slice req.buffer req.bufferPosition req.bufferUnread ++ sock.pending

/-- The left-over bytes lie in the buffer, and the counter is a size. -/
structure BodyReady (req : Request) (sock : Socket) : Prop where
  inBuffer : req.bufferPosition + req.bufferUnread ≤ requestMaxLength
  sized : req.contentLengthUnread < sizeLimit
  stream : sock.WellFormed

/-- One chunk stores at most as many bytes as asked for, and counts them. -/
structure ChunkCounts (req : Request) (len : Nat) (bytes : Bytes) (req' : Request) : Prop where
  fits : bytes.length ≤ len
  content : req'.contentLengthUnread + bytes.length = req.contentLengthUnread
  leftover : req'.bufferUnread = req.bufferUnread - bytes.length

/-- Besides, they are the next bytes to be read. -/
structure ChunkDelivers (req : Request) (sock : Socket) (len : Nat) (bytes : Bytes) (req' : Request)
    (sock' : Socket) : Prop extends ChunkCounts req len bytes req' where
  next : unreadBytes req sock = bytes ++ unreadBytes req' sock'

/-- A call goes right when no byte is left over, or just as many as it is going to take. -/
def Aligned (req : Request) (len : Nat) : Prop :=
  req.bufferUnread = 0 ∨ min len req.contentLengthUnread = req.bufferUnread

section Chunks
variable {req : Request} {sock : Socket}

/-- Reading no bytes at all fails an assertion, unless the socket is closed. -/
theorem socketRead_zero (sock : Socket) :
    socketRead sock 0 = .error .assertion ∨ socketRead sock 0 = .ok (none, sock) := by
  unfold socketRead
  cases sock.connected with
  | false => exact .inr rfl
  | true => exact .inl rfl

theorem chunkFromSocket_spec (h : sock.WellFormed) (req : Request) (got : Bytes) {len : Nat}
    (hl : 0 < len) :
    ∃ ok bytes sock', chunkFromSocket req sock got len = .ok ((ok, got ++ bytes),
        { req with contentLengthUnread := sizeSub req.contentLengthUnread bytes.length }, sock') ∧
      sock'.WellFormed ∧ bytes.length ≤ len ∧ sock.pending = bytes ++ sock'.pending := by
  obtain ⟨reply, sock', he, hw, hsome, hnone⟩ := socketRead_spec h hl
  refine ⟨reply.isSome, reply.getD [], sock', ?_, hw, ?_⟩
  · rw [chunkFromSocket, he]
    rfl
  · cases reply with
    | none => exact ⟨Nat.zero_le _, (hnone rfl).symm⟩
    | some bytes =>
      obtain ⟨-, hle, hpend⟩ := hsome bytes rfl
      exact ⟨hle, hpend⟩

theorem chunkLen_eq (req : Request) (len : Nat) :
    (if req.contentLengthUnread < len then req.contentLengthUnread else len) =
      min len req.contentLengthUnread := by
  split <;> omega

private theorem chunk_noLeftover (h : BodyReady req sock) (len : Nat) (hu : req.bufferUnread = 0) :
    requestContentChunk req sock len = .error .assertion ∨
      ∃ ok bytes req' sock', requestContentChunk req sock len = .ok ((ok, bytes), req', sock') ∧
        ChunkDelivers req sock len bytes req' sock' ∧ BodyReady req' sock' := by
  have hchunk : requestContentChunk req sock len =
      chunkFromSocket req sock [] (min len req.contentLengthUnread) := by
    rw [requestContentChunk, chunkLen_eq, hu]
    rfl
  rw [hchunk]
  have hunread : ∀ s : Socket, unreadBytes req s = s.pending := fun s => by
    rw [unreadBytes, hu]
    rfl
  rcases Nat.eq_zero_or_pos (min len req.contentLengthUnread) with hz | hp
  · rcases socketRead_zero sock with he | he
    · exact .inl (by rw [hz, chunkFromSocket, he]; rfl)
    · refine .inr ⟨false, [], req, sock, ?_, ⟨⟨Nat.zero_le _, rfl, rfl⟩, rfl⟩, h⟩
      rw [hz, chunkFromSocket, he, fault_ok_bind]
      have hsame : sizeSub req.contentLengthUnread 0 = req.contentLengthUnread :=
        sizeSub_of_le (Nat.zero_le _) h.sized
      simp only [Option.getD_none, List.length_nil, hsame]
      rfl
  · obtain ⟨ok, bytes, sock', he, hw, hle, hpend⟩ := chunkFromSocket_spec h.stream req [] hp
    have hcontent : bytes.length ≤ req.contentLengthUnread := hle.trans (Nat.min_le_right _ _)
    have hsub : sizeSub req.contentLengthUnread bytes.length = req.contentLengthUnread - bytes.length :=
      sizeSub_of_le hcontent h.sized
    refine .inr ⟨ok, bytes, _, sock', he, ⟨⟨hle.trans (Nat.min_le_left _ _), ?_, ?_⟩, ?_⟩,
      h.inBuffer, sizeSub_lt _ _, hw⟩
    · rw [hsub]
      exact Nat.sub_add_cancel hcontent
    · rw [hu, Nat.zero_sub]
    · rw [hunread, hpend]
      congr 1
      rw [unreadBytes, hu]
      rfl

private theorem chunk_exact (h : BodyReady req sock) (len : Nat) (hu : 0 < req.bufferUnread)
    (heq : min len req.contentLengthUnread = req.bufferUnread) :
    ∃ ok bytes req' sock', requestContentChunk req sock len = .ok ((ok, bytes), req', sock') ∧
      ChunkDelivers req sock len bytes req' sock' ∧ BodyReady req' sock' := by
  have hcontent : req.bufferUnread ≤ req.contentLengthUnread := heq ▸ Nat.min_le_right _ _
  have hlimit : req.bufferUnread < sizeLimit := Nat.lt_of_le_of_lt hcontent h.sized
  have hzero : sizeSub req.bufferUnread req.bufferUnread = 0 := by
    rw [sizeSub_of_le le_rfl hlimit, Nat.sub_self]
  have hsub : sizeSub req.contentLengthUnread req.bufferUnread =
      req.contentLengthUnread - req.bufferUnread := sizeSub_of_le hcontent h.sized
  let bytes := slice req.buffer req.bufferPosition req.bufferUnread
  have hlen : bytes.length = req.bufferUnread := slice_length _ _ _
  let req' : Request := { req with
    bufferPosition := req.bufferPosition + req.bufferUnread
    bufferUnread := 0
    contentLengthUnread := req.contentLengthUnread - req.bufferUnread }
  refine ⟨true, bytes, req', sock, ?_, ⟨⟨?_, ?_, ?_⟩, rfl⟩, h.inBuffer, ?_, h.stream⟩
  · rw [requestContentChunk, chunkLen_eq, heq, if_pos hu, if_neg (lt_irrefl _),
      if_neg (Nat.not_lt.mpr h.inBuffer)]
    simp only [hzero, hsub]
    rfl
  · rw [hlen, ← heq]
    exact Nat.min_le_left _ _
  · rw [hlen]
    exact Nat.sub_add_cancel hcontent
  · rw [hlen, Nat.sub_self]
  · exact Nat.lt_of_le_of_lt (Nat.sub_le _ _) h.sized

/-- An aligned call delivers, or fails the assertion of an empty read. -/
theorem chunk_aligned (h : BodyReady req sock) {len : Nat} (ha : Aligned req len) :
    requestContentChunk req sock len = .error .assertion ∨
      ∃ ok bytes req' sock', requestContentChunk req sock len = .ok ((ok, bytes), req', sock') ∧
        ChunkDelivers req sock len bytes req' sock' ∧ BodyReady req' sock' := by
  rcases Nat.eq_zero_or_pos req.bufferUnread with hu | hu
  · exact chunk_noLeftover h len hu
  · exact .inr (chunk_exact h len hu (ha.resolve_left (Nat.ne_of_gt hu)))

/-- Any other call copies from behind the buffer, or stores too much, or miscounts. -/
theorem chunk_misaligned (h : BodyReady req sock) {len : Nat} (hlen : len < sizeLimit)
    (ha : ¬ Aligned req len) :
    requestContentChunk req sock len = .error .overrun ∨
      ∃ ok bytes req' sock', requestContentChunk req sock len = .ok ((ok, bytes), req', sock') ∧
        ¬ ChunkCounts req len bytes req' := by
  rw [Aligned, not_or] at ha
  obtain ⟨hu, hne⟩ := ha
  have hpos : 0 < req.bufferUnread := Nat.pos_of_ne_zero hu
  have hlimit : requestMaxLength < sizeLimit := by decide
  have hunread : req.bufferUnread < sizeLimit :=
    Nat.lt_of_le_of_lt ((Nat.le_add_left _ _).trans h.inBuffer) hlimit
  rw [requestContentChunk, chunkLen_eq, if_pos hpos]
  by_cases hgt : min len req.contentLengthUnread > req.bufferUnread
  · rw [if_pos hgt]
    dsimp only
    split
    · exact .inl rfl
    · have hbound : min len req.contentLengthUnread < sizeLimit :=
        Nat.lt_of_le_of_lt (Nat.min_le_left _ _) hlen
      have hzero : sizeSub (min len req.contentLengthUnread) (min len req.contentLengthUnread) = 0 := by
        rw [sizeSub_of_le le_rfl hbound, Nat.sub_self]
      rw [if_pos hzero]
      refine .inr ⟨true, _, _, sock, rfl, fun hd => ?_⟩
      have hl := hd.leftover
      simp only [slice_length, sizeSub_of_lt hgt hbound] at hl
      omega
  · have hlt : min len req.contentLengthUnread < req.bufferUnread :=
      Nat.lt_of_le_of_ne (Nat.not_lt.mp hgt) hne
    rw [if_neg hgt]
    dsimp only
    rw [if_neg (Nat.not_lt.mpr h.inBuffer)]
    have hwrap : 0 < sizeSub (min len req.contentLengthUnread) req.bufferUnread := by
      rw [sizeSub_of_lt hlt hunread]
      omega
    rw [if_neg (Nat.ne_of_gt hwrap)]
    obtain ⟨ok, bytes, sock', he, -⟩ := chunkFromSocket_spec h.stream _ _ hwrap
    refine .inr ⟨ok, _, _, sock', he, fun hd => ?_⟩
    have hfits := hd.fits
    have hcontent := hd.content
    rw [List.length_append, slice_length] at hfits hcontent
    omega

end Chunks

abbrev BufferLen := { n : Nat // 0 < n ∧ n < sizeLimit }

def chunkCall (state : Request × Socket) (len : BufferLen) :
    Except Fault ((Bool × Bytes) × Request × Socket) :=
  requestContentChunk state.1 state.2 len.1

def deliveredBytes (replies : List (Bool × Bytes)) : Bytes := (replies.map Prod.snd).flatten

/-- What a run of calls is to have done: no call stores more than its buffer holds, the bytes
delivered are the first ones of the body, and both counters say what is still to come. -/
structure Delivered (req : Request) (sock : Socket) (lens : List BufferLen)
    (replies : List (Bool × Bytes)) (req' : Request) : Prop where
  fits : List.Forall₂ (fun len reply => reply.2.length ≤ len.1) lens replies
  inOrder : deliveredBytes replies <+: (unreadBytes req sock).take req.contentLengthUnread
  content : req'.contentLengthUnread = req.contentLengthUnread - (deliveredBytes replies).length
  leftover : req'.bufferUnread = req.bufferUnread - (deliveredBytes replies).length

/-- A call with nothing left to read fails the socket's assertion, which ends the run and
delivers nothing. -/
def DeliversAfter (req : Request) (sock : Socket) (lens : List BufferLen) : Prop :=
  match runCalls chunkCall (req, sock) lens with
  | .ok (replies, req', _) => Delivered req sock lens replies req'
  | .error fault => fault = .assertion

/-- A run of which every call delivered. -/
structure Delivering (req : Request) (sock : Socket) (lens : List BufferLen)
    (replies : List (Bool × Bytes)) (req' : Request) (sock' : Socket) : Prop where
  run : runCalls chunkCall (req, sock) lens = .ok (replies, req', sock')
  ready : BodyReady req' sock'
  fits : List.Forall₂ (fun len reply => reply.2.length ≤ len.1) lens replies
  next : unreadBytes req sock = deliveredBytes replies ++ unreadBytes req' sock'
  content : req'.contentLengthUnread + (deliveredBytes replies).length = req.contentLengthUnread
  leftover : req'.bufferUnread = req.bufferUnread - (deliveredBytes replies).length

section Runs
variable {req : Request} {sock : Socket} {lens : List BufferLen}

theorem Delivering.start (h : BodyReady req sock) : Delivering req sock [] [] req sock :=
  ⟨rfl, h, .nil, rfl, rfl, rfl⟩

theorem deliveredBytes_append (replies : List (Bool × Bytes)) (reply : Bool × Bytes) :
    deliveredBytes (replies ++ [reply]) = deliveredBytes replies ++ reply.2 := by
  simp [deliveredBytes]

theorem Delivering.snoc {replies : List (Bool × Bytes)} {req1 : Request} {sock1 : Socket}
    (h : Delivering req sock lens replies req1 sock1) {len : BufferLen} {ok : Bool} {bytes : Bytes}
    {req2 : Request} {sock2 : Socket}
    (hc : requestContentChunk req1 sock1 len.1 = .ok ((ok, bytes), req2, sock2))
    (hd : ChunkDelivers req1 sock1 len.1 bytes req2 sock2) (hr : BodyReady req2 sock2) :
    Delivering req sock (lens ++ [len]) (replies ++ [(ok, bytes)]) req2 sock2 := by
  refine ⟨runCalls_append_singleton h.run hc, hr, ?_, ?_, ?_, ?_⟩
  · exact List.rel_append h.fits (.cons hd.fits .nil)
  · rw [deliveredBytes_append, h.next, hd.next, List.append_assoc]
  · rw [deliveredBytes_append, List.length_append, ← h.content, ← hd.content]
    show _ + (_ + bytes.length) = _
    omega
  · rw [deliveredBytes_append, List.length_append, hd.leftover, h.leftover, Nat.sub_sub]

theorem Delivering.delivered {replies : List (Bool × Bytes)} {req' : Request} {sock' : Socket}
    (h : Delivering req sock lens replies req' sock') : Delivered req sock lens replies req' := by
  refine ⟨h.fits, ?_, (Nat.sub_eq_of_eq_add h.content.symm).symm, h.leftover⟩
  rw [h.next, List.take_append]
  have hle : (deliveredBytes replies).length ≤ req.contentLengthUnread :=
    h.content ▸ Nat.le_add_left _ _
  rw [List.take_of_length_le hle]
  exact List.prefix_append _ _

theorem Delivered.last {replies : List (Bool × Bytes)} {req1 req2 : Request} {sock1 : Socket}
    {len : BufferLen} {ok : Bool} {bytes : Bytes}
    (hd : Delivered req sock (lens ++ [len]) (replies ++ [(ok, bytes)]) req2)
    (h : Delivering req sock lens replies req1 sock1) :
    ChunkCounts req1 len.1 bytes req2 := by
  have hlen : (deliveredBytes replies).length + bytes.length ≤ req.contentLengthUnread := by
    have hle := hd.inOrder.length_le
    rw [deliveredBytes_append, List.length_append] at hle
    exact hle.trans (List.length_take_le _ _)
  have hcontent := hd.content
  have hleft := hd.leftover
  rw [deliveredBytes_append, List.length_append] at hcontent hleft
  refine ⟨?_, ?_, ?_⟩
  · have hdrop := List.forall₂_drop_append _ _ _ hd.fits
    rw [← h.fits.length_eq, List.drop_left] at hdrop
    exact (List.forall₂_cons.mp hdrop).1
  · have hbefore := h.content
    dsimp only at hcontent
    omega
  · rw [hleft, h.leftover, Nat.sub_sub]

/-- A run that goes on with a call that is not aligned has not done what it is to do. -/
theorem not_deliversAfter {replies : List (Bool × Bytes)} {req1 : Request} {sock1 : Socket}
    (h : Delivering req sock lens replies req1 sock1) {len : BufferLen} (hnot : ¬ Aligned req1 len.1) :
    ¬ DeliversAfter req sock (lens ++ [len]) := by
  rw [DeliversAfter]
  rcases chunk_misaligned h.ready len.2.2 hnot with hc | ⟨ok, bytes, req2, sock2, hc, hcount⟩
  · rw [runCalls_append_fault h.run hc]
    intro hfault
    cases hfault
  · rw [runCalls_append_singleton h.run hc]
    exact fun hafter => hcount (hafter.last h)

/-- Chunks deliver the body over a whole run exactly as long as each call finds no left-over
byte, or as many of them as the smaller of its length and the content still unread. -/
theorem chunks_deliver_iff (h : BodyReady req sock) (lens : List BufferLen) :
    (∀ done, done <+: lens → DeliversAfter req sock done) ↔
    ∀ done len, done ++ [len] <+: lens → ∀ replies req' sock',
      runCalls chunkCall (req, sock) done = .ok (replies, req', sock') → Aligned req' len.1 := by
  have hruns : (∀ done len, done ++ [len] <+: lens → ∀ replies req' sock',
        Delivering req sock done replies req' sock' → Aligned req' len.1) →
      ∀ done, done <+: lens → runCalls chunkCall (req, sock) done = .error .assertion ∨
        ∃ replies req' sock', Delivering req sock done replies req' sock' := by
    intro ha done
    induction done using List.reverseRecOn with
    | nil => exact fun _ => .inr ⟨[], req, sock, .start h⟩
    | append_singleton done len ih =>
      intro hpre
      rcases ih ((List.prefix_append done [len]).trans hpre) with he | ⟨replies, req1, sock1, hd⟩
      · exact .inl (by simp only [runCalls_append, he])
      · rcases chunk_aligned hd.ready (ha done len hpre replies req1 sock1 hd) with
          hc | ⟨ok, bytes, req2, sock2, hc, hdel, hready⟩
        · exact .inl (runCalls_append_fault hd.run hc)
        · exact .inr ⟨_, req2, sock2, hd.snoc hc hdel hready⟩
  constructor
  · intro hall
    have ha : ∀ done len, done ++ [len] <+: lens → ∀ replies req' sock',
        Delivering req sock done replies req' sock' → Aligned req' len.1 := by
      intro done len hpre replies req1 sock1 hd
      by_contra hnot
      exact not_deliversAfter hd hnot (hall _ hpre)
    intro done len hpre replies req' sock' hrun
    rcases hruns ha done ((List.prefix_append done [len]).trans hpre) with he | ⟨replies1, req1, sock1, hd⟩
    · rw [he] at hrun
      cases hrun
    · obtain ⟨-, hstate⟩ := Prod.mk.inj (Except.ok.inj (hrun.symm.trans hd.run))
      obtain ⟨rfl, rfl⟩ := Prod.mk.inj hstate
      exact ha done len hpre replies1 req' sock' hd
  · intro ha done hpre
    rw [DeliversAfter]
    have ha' : ∀ done len, done ++ [len] <+: lens → ∀ replies req' sock',
        Delivering req sock done replies req' sock' → Aligned req' len.1 :=
      fun done len hpre replies req' sock' hd => ha done len hpre replies req' sock' hd.run
    rcases hruns ha' done hpre with he | ⟨replies, req', sock', hd⟩
    · rw [he]
    · rw [hd.run]
      exact hd.delivered

end Runs

/-- A body of one byte with two more bytes of the next request behind it in the buffer. -/
def pipelinedRequest : Request :=
  { requestNew with
    buffer := store (fun _ => 0) 0 [97, 98, 99]
    bufferUnread := 3
    contentLength := 1
    contentLengthUnread := 1 }

theorem pipelinedRequest_ready : BodyReady pipelinedRequest (socketNew 3 [] 80 ⟨[], [], [], []⟩) :=
  ⟨by decide, by decide, socketNew_wellFormed _ _ _ _⟩

/-- Any call on it takes the next request's bytes for body. -/
theorem chunk_takes_next_request :
    ¬ DeliversAfter pipelinedRequest (socketNew 3 [] 80 ⟨[], [], [], []⟩) [⟨8, by decide⟩] :=
  not_deliversAfter (.start pipelinedRequest_ready) (by simp [Aligned, pipelinedRequest])

/-- On it the calls deliver as long as none is made. -/
theorem chunks_deliver_iff_pipelined :
    (∀ done, done <+: [(⟨8, by decide⟩ : BufferLen)] →
      DeliversAfter pipelinedRequest (socketNew 3 [] 80 ⟨[], [], [], []⟩) done) ↔
    ∀ done len, done ++ [len] <+: [(⟨8, by decide⟩ : BufferLen)] → ∀ replies req' sock',
      runCalls chunkCall (pipelinedRequest, socketNew 3 [] 80 ⟨[], [], [], []⟩) done =
        .ok (replies, req', sock') → Aligned req' len.1 :=
  chunks_deliver_iff pipelinedRequest_ready _

end CFlare.Http
