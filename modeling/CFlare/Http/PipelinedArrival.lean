import CFlare.Http.RequestRoundTrip

/-! Requests that a client sends without waiting for the answers. A call receives the first of them with some
of what is behind it, and parses the first alone. -/
namespace CFlare.Http
open CFlare.Library CFlare.Network

def Delivers (peer : Peer) : Prop :=
  ∃ (counts : List Nat) (more : List Recv), peer.recvs = counts.map Recv.deliver ++ more ∧
    (∀ c ∈ counts, 0 < c) ∧ counts.sum = peer.incoming.length

/-- An open connection that brings these bytes, put back ones first, and takes in all that is written. -/
structure Brings (sock : Socket) (bytes : Bytes) : Prop where
  connected : sock.connected = true
  wellFormed : sock.WellFormed
  pending : sock.pending = bytes
  reads : Delivers sock.peer
  sends : sock.peer.sends = []

section Receiving
variable {sock s s' : Socket} {bytes received : Bytes} {r : Int} {length : Nat}

theorem lthreadRecv_delivers (h : Delivers s.peer) (hroom : s.peer.incoming.length ≤ length)
    (he : lthreadRecv s length = (r, received, s')) :
    Delivers s'.peer ∧ s'.peer.sends = s.peer.sends ∧ (s.peer.incoming ≠ [] → 0 < r) := by
  obtain ⟨counts, more, hrecvs, hpos, hsum⟩ := h
  unfold lthreadRecv at he
  cases counts with
  | nil =>
    have hempty : s.peer.incoming = [] := List.length_eq_zero_iff.mp hsum.symm
    rw [List.map_nil, List.nil_append] at hrecvs
    rw [hrecvs] at he
    cases more with
    | nil =>
      obtain ⟨-, he⟩ := Prod.mk.inj he
      obtain ⟨-, rfl⟩ := Prod.mk.inj he
      exact ⟨⟨[], [], hrecvs, hpos, hsum⟩, rfl, fun hne => absurd hempty hne⟩
    | cons recv more =>
      cases recv with
      | fail code =>
        obtain ⟨-, he⟩ := Prod.mk.inj he
        obtain ⟨-, rfl⟩ := Prod.mk.inj he
        exact ⟨⟨[], more, rfl, hpos, hsum⟩, rfl, fun hne => absurd hempty hne⟩
      | deliver count =>
        obtain ⟨-, he⟩ := Prod.mk.inj he
        obtain ⟨-, rfl⟩ := Prod.mk.inj he
        refine ⟨⟨[], more, rfl, hpos, ?_⟩, rfl, fun hne => absurd hempty hne⟩
        simp [hempty]
  | cons count counts =>
    have hcount := hpos count List.mem_cons_self
    rw [List.sum_cons] at hsum
    rw [List.map_cons, List.cons_append] at hrecvs
    rw [hrecvs] at he
    obtain ⟨rfl, hstate⟩ := Prod.mk.inj he
    obtain ⟨-, rfl⟩ := Prod.mk.inj hstate
    have htaken : (s.peer.incoming.take (min count length)).length = count := by
      rw [List.length_take]
      omega
    refine ⟨⟨counts, more, rfl, fun c hc => hpos c (List.mem_cons_of_mem _ hc), ?_⟩, rfl, fun _ => ?_⟩
    · change counts.sum = (s.peer.incoming.drop _).length
      rw [List.length_drop, htaken]
      omega
    · rw [htaken]
      omega

theorem Brings.read (h : Brings sock bytes) {room : Nat} (hb : bytes ≠ []) (hroom : bytes.length ≤ room) :
    ∃ front rest sock', socketRead sock room = .ok (some front, sock') ∧ bytes = front ++ rest ∧ front ≠ [] ∧
      Brings sock' rest := by
  have hpos := List.length_pos_iff.mpr hb
  have hlen := queued_length h.wellFormed
  have hpending : (sock.queued ++ sock.peer.incoming).length ≤ room := by
    change sock.pending.length ≤ room
    rw [h.pending]
    exact hroom
  rw [List.length_append] at hpending
  obtain ⟨reply, sock', hread, hw, hsome, -⟩ := socketRead_spec h.wellFormed (show 0 < room by omega)
  have hends : ∃ front, reply = some front ∧ sock'.connected = true ∧ Delivers sock'.peer ∧ sock'.peer.sends = [] := by
    rw [socketRead, if_neg (by rw [h.connected]; decide), if_neg (by omega)] at hread
    split at hread
    · next hqueued =>
      -- what is put back comes whole, and what one receive brings behind it
      rcases hq : requeueRead sock room with ⟨queued, mid⟩
      obtain ⟨htake, -, -, hpeer, hc⟩ := requeueRead_spec h.wellFormed hq
      have hall : queued.length = sock.requeueLength := by
        rw [htake, List.length_take]
        omega
      rcases hrecv : lthreadRecv mid (room - queued.length) with ⟨r, received, sock1⟩
      have hfits : mid.peer.incoming.length ≤ room - queued.length := by
        rw [hpeer]
        omega
      obtain ⟨hdelivers, hsends, -⟩ := lthreadRecv_delivers (hpeer ▸ h.reads) hfits hrecv
      obtain ⟨-, -, hc1, -⟩ := lthreadRecv_spec hrecv
      have hcount : ¬ (if 0 < r then (queued.length : Int) + r else queued.length) ≤ 0 := by
        split <;> omega
      simp only [hq, hrecv, if_neg hcount] at hread
      obtain ⟨rfl, rfl⟩ := Prod.mk.inj (Except.ok.inj hread)
      exact ⟨_, rfl, hc1.trans (hc.trans h.connected), hdelivers, hsends.trans ((congrArg Peer.sends hpeer).trans h.sends)⟩
    · next hnone =>
      rcases hrecv : lthreadRecv sock room with ⟨r, received, sock1⟩
      obtain ⟨hdelivers, hsends, hreads⟩ := lthreadRecv_delivers h.reads (by omega) hrecv
      obtain ⟨-, -, hc1, -⟩ := lthreadRecv_spec hrecv
      have hincoming : sock.peer.incoming ≠ [] := by
        intro hempty
        have hbytes := h.pending
        rw [Socket.pending, hempty, List.append_nil] at hbytes
        have hzero := congrArg List.length hbytes
        omega
      have hcount : ¬ r ≤ 0 := by
        have := hreads hincoming
        omega
      simp only [hrecv, if_neg hcount] at hread
      obtain ⟨rfl, rfl⟩ := Prod.mk.inj (Except.ok.inj hread)
      exact ⟨_, rfl, hc1.trans h.connected, hdelivers, hsends.trans h.sends⟩
  obtain ⟨front, rfl, hc, hdelivers, hsends⟩ := hends
  obtain ⟨hne, -, hsplit⟩ := hsome front rfl
  exact ⟨front, sock'.pending, sock', hread, h.pending.symm.trans hsplit, hne, hc, hw, rfl, hdelivers, hsends⟩

/-- The receiving loop gets the first block, in whatever fragments it comes. -/
theorem Brings.fetch {fuel nbytes newlines stop : Nat} (h : Brings sock bytes)
    (hend : blockEnd newlines bytes = some stop) (hroom : nbytes + bytes.length < requestMaxLength)
    (hfuel : bytes.length < fuel) :
    ∃ got rest sock', bytes = got ++ rest ∧ fetchBlock fuel nbytes newlines sock = .ok (.got got, sock') ∧
      Brings sock' rest := by
  induction fuel generalizing sock bytes nbytes newlines stop with
  | zero => omega
  | succ fuel ih =>
    have hsize : sizeSub requestMaxLength nbytes = requestMaxLength - nbytes := sizeSub_of_le (by omega) (by decide)
    have hne : bytes ≠ [] := by
      rintro rfl
      cases hend
    have hfits : bytes.length ≤ requestMaxLength - nbytes := by omega
    obtain ⟨front, rest, sock1, hread, rfl, hfront, hnext⟩ := h.read hne hfits
    have hpos := List.length_pos_iff.mpr hfront
    rw [List.length_append] at hroom hfuel
    rw [fetchBlock, hsize, hread, fault_ok_bind]
    dsimp only
    rw [if_neg (by omega)]
    cases hscan : scanFragment newlines front with
    | mk found newlines' =>
      cases found with
      | true => exact ⟨front, rest, sock1, rfl, rfl, hnext⟩
      | false =>
        rw [blockEnd_scanned hscan] at hend
        obtain ⟨stop', hstop, -⟩ := Option.map_eq_some_iff.mp hend
        have hroom' : nbytes + front.length + rest.length < requestMaxLength := by omega
        obtain ⟨got, behind, sock', rfl, hfetch, hdone⟩ := ih hnext hstop hroom' (by omega)
        refine ⟨front ++ got, behind, sock', (List.append_assoc _ _ _).symm, ?_, hdone⟩
        dsimp only
        rw [hfetch, fault_ok_bind, Fetched.after]

end Receiving

/-- A request without a body, that says nothing about its connection. -/
def RequestText.Bodiless {table : HeaderTable} (text : RequestText table) : Prop :=
  ∀ hdr ∈ text.headers, ¬ NameIs hdr.name (ascii "Connection") ∧ ¬ NameIs hdr.name (ascii "Content-Length")

/-- A request at the hook is the one that a text was written from, whatever is received behind it. -/
structure ReadsAs (env : Environment) (text : RequestText env.table) (req : Request) : Prop where
  line : LineReads req requestMaxLength text.method text.path text.query (ascii "HTTP/1.1")
  headers : List.Forall₂ (RecordedAs env req.buffer requestMaxLength) text.headers req.headers
  host : ∃ value start, lastHost text.headers = some value ∧ req.host = some start ∧
    Reads req.buffer requestMaxLength start req.hostLen value
  keepalive : req.keepalive = true
  noBody : req.contentLengthUnread = 0
  position : req.bufferPosition = text.render.length

section Parsing
variable {env : Environment} {m : Memory} {n : Nat} {lines : List HeaderLine} {headers : List (HeaderText env.table)}

theorem lastNamed_unnamed (h : FoundIn env m n lines headers) {name : Bytes}
    (hnone : ∀ hdr ∈ headers, ¬ NameIs hdr.name name) : lastNamed env m name lines = none := by
  have hfilter : lines.filter (HeaderLine.named env m name) = [] := by
    induction h with
    | nil => rfl
    | @cons l hdr lines headers hfound rest ih =>
      have hnot : l.named env m name ≠ true := by
        intro hnamed
        rw [HeaderLine.named, hfound.key] at hnamed
        exact hnone hdr List.mem_cons_self (of_decide_eq_true (Bool.and_eq_true_iff.mp hnamed).2)
      rw [List.filter_cons_of_neg hnot]
      exact ih (fun hdr hm => hnone hdr (List.mem_cons_of_mem _ hm))
  rw [lastNamed, hfilter]
  rfl

private theorem block_in_front (text : RequestText env.table) {more : Bytes}
    (hshort : (text.render ++ more).length < requestMaxLength)
    (hin : slice m 0 (text.render ++ more).length = text.render ++ more) :
    LineThenAt m text.method text.target (ascii "HTTP/1.1" ++ text.lineEnd.mark)
        (renderHeaders text.blankEnd text.headers ++ more) ∧
      ∃ lines blank, Block.In m (text.render ++ more).length ⟨text.method.length, text.target.length,
          (ascii "HTTP/1.1" ++ text.lineEnd.mark).length, lines, blank⟩ ∧
        FoundIn env m (text.render ++ more).length lines text.headers := by
  have hwhole : text.render ++ more = lineThen text.method text.target (ascii "HTTP/1.1" ++ text.lineEnd.mark)
      (renderHeaders text.blankEnd text.headers ++ more) := by
    simp [RequestText.render, lineThen]
  rw [hwhole] at hin hshort ⊢
  have hat := lineThen_at hin text.plainMethod.1 text.target_plain.1 text.version_plain
  have hlength := lineThen_length text.method text.target (ascii "HTTP/1.1" ++ text.lineEnd.mark)
    (renderHeaders text.blankEnd text.headers ++ more)
  have hrests : (renderHeaders text.blankEnd text.headers ++ more).length = _ := List.length_append
  have hitems := congrArg List.length (renderHeaders_eq text.blankEnd text.headers)
  obtain ⟨hrest, -⟩ := slice_append _ _ hat.atRest
  rw [renderHeaders_eq] at hrest
  obtain ⟨lines, blank, hchain, hblank, hfound⟩ := HeaderItem.items_lines
    (n := (lineThen text.method text.target (ascii "HTTP/1.1" ++ text.lineEnd.mark)
      (renderHeaders text.blankEnd text.headers ++ more)).length) hrest
    (by omega) hshort.le
  exact ⟨hat, lines, blank, ⟨hat.marks, hchain, hblank⟩, List.forall₂_map_right_iff.mp hfound⟩

/-- What the phases make of a text in front of other bytes: they stop behind it. -/
structure ParsedFirst (env : Environment) (text : RequestText env.table) (req : Request) (st : HeaderScan) : Prop where
  line : LineReads st.req requestMaxLength text.method text.path text.query (ascii "HTTP/1.1")
  headers : List.Forall₂ (RecordedAs env st.req.buffer requestMaxLength) text.headers st.req.headers
  host : ∃ value start, lastHost text.headers = some value ∧ st.host = some start ∧
    Reads st.req.buffer requestMaxLength start st.hostLen value
  keepalive : st.req.keepalive = req.keepalive
  noLength : st.contentLength = 0
  position : st.req.bufferPosition = text.render.length

theorem phases_in_front (text : RequestText env.table) (hplain : text.Bodiless) {more : Bytes} {req : Request}
    (hstart : req.bufferPosition = 0) (hshort : (text.render ++ more).length < requestMaxLength)
    (hin : slice req.buffer 0 (text.render ++ more).length = text.render ++ more) :
    ∃ st, parsePhases env requestMaxLength req (text.render ++ more).length = .ok st ∧ ParsedFirst env text req st := by
  have hwhole : text.render ++ more = lineThen text.method text.target (ascii "HTTP/1.1" ++ text.lineEnd.mark)
      (renderHeaders text.blankEnd text.headers ++ more) := by
    simp [RequestText.render, lineThen]
  obtain ⟨hat, lines, blank, hk, hfound⟩ := block_in_front text hshort hin
  -- every line of the text is read
  obtain ⟨req1, nbytes, pos, hparsed, -, hframed, hfold⟩ := parseHeaderBlock_fold env hstart hshort.le hshort.le hk
  have hposition : (HeaderScan.start req1 nbytes).req.bufferPosition = Block.firstLine ⟨text.method.length,
      text.target.length, (ascii "HTTP/1.1" ++ text.lineEnd.mark).length, lines, blank⟩ := hparsed.position
  have hfew : (HeaderScan.start req1 nbytes).req.headers.length + text.headers.length ≤ requestMaxHeaders := by
    change 0 + _ ≤ _
    rw [Nat.zero_add]
    exact text.fewHeaders
  obtain ⟨last, hlast⟩ := headers_read hframed hshort.le (hposition.symm ▸ hk.chain) hfound hfew
  rw [hlast, fault_ok_bind] at hfold
  obtain ⟨k, hblock⟩ := parseHeaderBlock_block hstart hshort.le hshort.le hfold
  obtain rfl := hblock.block.unique hk
  obtain ⟨value, hvalue⟩ := lastHost_of_mem text.hosted
  obtain ⟨start, hset, hhost⟩ := host_round_trip hblock hshort hfound hvalue
  -- the request line keeps its place
  obtain ⟨a, b, c, req2, hmarks, hparsed2, -, hloop⟩ := parseHeaderBlock_ok hstart hshort.le hfold
  rw [hwhole] at hmarks
  obtain ⟨rfl, rfl, rfl⟩ := hat.marks.unique hmarks
  rw [← hwhole] at hmarks
  have hframed2 := hparsed2.framed hshort.le hmarks
  obtain ⟨hspans, hkept⟩ := parseHeaders_keeps hframed2 hloop
  have hversion : stripReturn (ascii "HTTP/1.1" ++ text.lineEnd.mark) = ascii "HTTP/1.1" :=
    stripReturn_mark (by decide) text.lineEnd
  have hreads := hparsed2.reads rfl text.plainPath.2.2 hat hspans hkept
  rw [hversion] at hreads
  have hbound : req2.bufferPosition ≤ requestMaxLength := by
    have htotal : req2.bufferPosition + _ = _ := hframed2.total
    omega
  have hstop : (last.afterLine pos).req.bufferPosition = text.render.length := by
    have hwhole' := hfold
    rw [hwhole] at hin hshort hwhole'
    have hshape := (block_shape text.plainMethod.1 text.target_plain.1 text.line_plain hstart hin hshort.le hwhole').2
    rw [← hwhole, blockEnd_append text.render_blockEnd] at hshape
    exact (Option.some.inj hshape).symm
  refine ⟨last.afterLine pos, ?_, hreads.widen hbound, headers_round_trip hblock hshort hfound,
    ⟨value, start, hvalue, hset, hhost⟩, ?_, ?_, hstop⟩
  · rw [parsePhases_eq, hfold]
    apply checkVersion_rendered hreads.version hbound
    rw [hset]
    exact Option.some_ne_none start
  · exact hblock.silent (lastNamed_unnamed hfound (fun hdr hm => (hplain hdr hm).1))
  · exact hblock.noLength (lastNamed_unnamed hfound (fun hdr hm => (hplain hdr hm).2))

end Parsing

section Arriving
variable {env : Environment} {sock : Socket}

/-- The first text of the stream arrives, and the stream is as it was but for what is received. -/
theorem Brings.arrive {text : RequestText env.table} {more : Bytes} (h : Brings sock (text.render ++ more))
    (hplain : text.Bodiless) (hshort : (text.render ++ more).length < requestMaxLength) (req : Request) :
    ∃ got rest st req0 sock0, requestArrive env req sock = .ok (.ready req0 sock0) ∧
      Arrived env req sock got st req0 sock0 ∧ ReadsAs env text req0 ∧ Brings sock0 rest := by
  have hend := text.render_blockEnd
  have hroom : 0 + (text.render ++ more).length < requestMaxLength := by omega
  obtain ⟨got, rest, sock0, hsplit, hfetch, hrest⟩ := h.fetch (blockEnd_append hend) hroom (Nat.lt_succ_of_lt hshort)
  obtain ⟨hreceived, harrive⟩ := requestArrive_got env h.wellFormed hfetch
  have hfront : text.render <+: sock.pending := h.pending ▸ List.prefix_append _ _
  obtain ⟨behind, rfl⟩ := hreceived.whole hend hfront
  obtain ⟨st, hphases, hfirst⟩ := phases_in_front text hplain (filled_position req _) hreceived.short (filled_slice req _)
  refine ⟨text.render ++ behind, rest, st, finishRequest st sock0, sock0, ?_, ⟨hreceived, hphases, rfl⟩, ?_, hrest⟩
  · rw [harrive req, hphases]
    rfl
  · have hline := hfirst.line
    refine ⟨⟨hline.method, hline.path, hline.noQuery, hline.query, hline.version⟩, hfirst.headers, hfirst.host,
      hfirst.keepalive, ?_, hfirst.position⟩
    rw [finishRequest, hfirst.noLength]
    rfl

end Arriving

end CFlare.Http
