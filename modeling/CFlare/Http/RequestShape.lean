import CFlare.Http.RequestArrival

/-! The shape of a request: what the framing loop stopped at, and what the parser made of it. They
agree when the first line has its three parts. -/
namespace CFlare.Http
open CFlare.Library CFlare.Network

def stripReturn (line : Bytes) : Bytes := if line.getLast? = some carriageReturn then line.dropLast else line

def firstLine (stream : Bytes) : Bytes := stripReturn (stream.takeWhile (· ≠ newline))

/-- A request line of three parts, separated by one space each. -/
structure ThreeParts (line method target version : Bytes) : Prop where
  parts : line = method ++ space :: (target ++ space :: version)
  single : space ∉ method ∧ space ∉ target ∧ space ∉ version
  http : ascii "HTTP/1." <+: version

/-- The path, and the query with its question mark. -/
def requestTarget (req : Request) : Bytes :=
  slice req.buffer req.path req.pathLen ++
    req.query.elim [] (fun query => questionMark :: slice req.buffer query req.queryLen)

/-- What was parsed is the first line's parts, and the cursor is where the framing loop saw the blank
line end. -/
structure ShapeAgrees (stream : Bytes) (req : Request) (method target version : Bytes) : Prop where
  line : ThreeParts (firstLine stream) method target version
  methodText : slice req.buffer req.method req.methodLen = method
  targetText : requestTarget req = target
  versionText : slice req.buffer req.version req.versionLen = version
  oneLine : newline ∉ method ∧ newline ∉ target ∧ newline ∉ version
  block : blockEnd 0 stream = some req.bufferPosition

section Lines
variable {line front part rest : Bytes} {m : Memory} {start : Nat}

theorem firstLine_eq (h : newline ∉ line) : firstLine (line ++ newline :: rest) = stripReturn line := by
  have hall : ∀ b ∈ line, decide (b ≠ newline) = true := by
    intro b hb
    exact decide_eq_true (ne_of_mem_of_not_mem hb h)
  rw [firstLine, List.takeWhile_append_of_pos hall, List.takeWhile_cons_of_neg (by simp), List.append_nil]

theorem stripReturn_or (line : Bytes) : line = stripReturn line ∧ line.getLast? ≠ some carriageReturn ∨
    line = stripReturn line ++ [carriageReturn] := by
  unfold stripReturn
  split
  · next h =>
    obtain ⟨hne, hlast⟩ := List.getLast?_eq_some_iff.mp h
    right
    rw [hlast, List.dropLast_concat]
  · next h => exact .inl ⟨rfl, h⟩

theorem lineLength_slice (h : slice m start line.length = line) :
    lineLength m start line.length = (stripReturn line).length := by
  rcases List.eq_nil_or_concat line with rfl | ⟨front, b, rfl⟩
  · rfl
  · rw [List.concat_eq_append] at h ⊢
    have hlast : m (start + (front ++ [b]).length - 1) = b := by
      have hb := (List.cons.inj (slice_append _ _ h).2).1
      rw [List.length_append, List.length_singleton]
      exact hb
    unfold lineLength stripReturn
    rw [hlast, List.getLast?_concat, List.dropLast_concat, List.length_append, List.length_singleton]
    by_cases hr : b = carriageReturn
    · rw [if_pos ⟨Nat.succ_pos _, hr⟩, if_pos (congrArg some hr)]
      rfl
    · rw [if_neg (fun hc => hr hc.2), if_neg (fun hc => hr (Option.some.inj hc)), List.length_append]
      rfl

theorem ThreeParts.unstripped {method target version : Bytes}
    (h : ThreeParts (stripReturn line) method target version) : ∃ tail, tail ≠ [] ∧ stripReturn tail = version ∧
      line = method ++ space :: (target ++ space :: tail) := by
  obtain ⟨b, version, rfl⟩ : ∃ b rest, version = b :: rest := by
    obtain ⟨rest, hrest⟩ := h.http
    exact ⟨_, _, hrest.symm⟩
  have hparts := h.parts
  rcases stripReturn_or line with ⟨hline, hlast⟩ | hline
  · refine ⟨b :: version, List.cons_ne_nil _ _, ?_, by rw [hline, hparts]⟩
    rw [hline, hparts, List.getLast?_append_cons, ← List.cons_append, List.getLast?_append_cons,
      List.getLast?_cons_cons] at hlast
    rw [stripReturn, if_neg hlast]
  · refine ⟨(b :: version) ++ [carriageReturn], List.append_ne_nil_of_right_ne_nil _ (List.cons_ne_nil _ _), ?_, ?_⟩
    · rw [stripReturn, List.getLast?_concat, if_pos rfl, List.dropLast_concat]
    · rw [hline, hparts]
      simp only [List.append_assoc, List.cons_append]

end Lines

section RequestLine
variable {m : Memory} {method target tail rest : Bytes} {req req' : Request}

/-- A text that starts with a line of three parts. -/
def lineThen (method target tail rest : Bytes) : Bytes :=
  method ++ space :: (target ++ space :: (tail ++ newline :: rest))

theorem lineThen_eq (method target tail rest : Bytes) : lineThen method target tail rest =
    (method ++ space :: (target ++ space :: tail)) ++ newline :: rest := by
  simp only [lineThen, List.append_assoc, List.cons_append]

theorem lineThen_length (method target tail rest : Bytes) : (lineThen method target tail rest).length =
    method.length + 1 + target.length + 1 + tail.length + 1 + rest.length := by
  simp only [lineThen, List.length_append, List.length_cons]
  omega

/-- Where such a text is in memory its parts are found. -/
structure LineThenAt (m : Memory) (method target tail rest : Bytes) : Prop where
  marks : LineMarks m (lineThen method target tail rest).length method.length target.length tail.length
  atMethod : slice m 0 method.length = method
  atTarget : slice m (method.length + 1) target.length = target
  atTail : slice m (method.length + 1 + target.length + 1) tail.length = tail
  atRest : slice m (method.length + 1 + target.length + 1 + tail.length + 1) rest.length = rest

theorem lineThen_at (h : slice m 0 (lineThen method target tail rest).length = lineThen method target tail rest)
    (hmethod : space ∉ method) (htarget : space ∉ target) (htail : newline ∉ tail) :
    LineThenAt m method target tail rest := by
  obtain ⟨hm, -, hpath⟩ := slice_append_cons _ _ h
  obtain ⟨ht, -, hversion⟩ := slice_append_cons _ _ hpath
  obtain ⟨hv, -, hrest⟩ := slice_append_cons _ _ hversion
  rw [Nat.zero_add] at hpath ht hversion hv hrest
  refine ⟨⟨firstOf_slice h hmethod, ?_, ?_⟩, hm, ht, hv, hrest⟩
  · rw [← firstOf_slice hpath htarget, lineThen_length]
    congr 1
    simp only [List.length_append, List.length_cons]
    omega
  · rw [← firstOf_slice hversion htail, lineThen_length]
    congr 1
    simp only [List.length_append, List.length_cons]
    omega

/-- The texts of a request's line, over their lengths. -/
structure LineTexts (req : Request) (method target version : Bytes) : Prop where
  method : slice req.buffer req.method req.methodLen = method
  target : requestTarget req = target
  version : slice req.buffer req.version req.versionLen = version

/-- Behind the phases of the request line a span without one of their null bytes has the bytes as
received. -/
theorem LineParsed.slice_kept {a b c start count : Nat} (hp : LineParsed m a b c req)
    (hbytes : ∀ i < req.bufferPosition, req'.buffer i = req.buffer i)
    (hin : ∀ i, start ≤ i → i < start + count → i < req.bufferPosition ∧ i ≠ a ∧ i ≠ a + 1 + b ∧
      i ≠ a + 1 + req.pathLen ∧ i ≠ req.version + req.versionLen) :
    slice req'.buffer start count = slice m start count := by
  apply slice_congr
  intro i hl hu
  obtain ⟨hlt, h1, h2, h3, h4⟩ := hin i hl hu
  exact (hbytes i hlt).trans (hp.kept i h1 h2 h3 h4)

/-- The texts stay readable while the spans do, and the bytes in front of the headers. -/
theorem LineParsed.texts (hp : LineParsed m method.length target.length tail.length req)
    (hat : LineThenAt m method target tail rest)
    (hspans : lineSpans req' = lineSpans req) (hbytes : ∀ i < req.bufferPosition, req'.buffer i = req.buffer i) :
    LineTexts req' method target (stripReturn tail) := by
  obtain ⟨-, hmethod, htarget, htail, -⟩ := hat
  obtain ⟨hm, hml, hpath, hpl, hql, hver, hvl, hquery⟩ := lineSpans_eq.mp hspans
  have hposition := hp.position
  have hpathLen := hp.query.pathLen_le
  have hversionLen := hp.versionLen
  have hversion := hp.version
  have hstrip := lineLength_slice htail
  have hle := lineLength_le m (method.length + 1 + target.length + 1) tail.length
  refine ⟨?_, ?_, ?_⟩
  · rw [hm, hml, hp.method, hp.methodLen, hp.slice_kept hbytes (fun i hl hu => by omega), hmethod]
  · rw [requestTarget, hpath, hpl, hql, hquery, hp.path]
    rw [hp.slice_kept hbytes (fun i hl hu => by omega)]
    have hparsed := hp.query
    unfold QueryParsed at hparsed
    cases hq : firstOf m (method.length + 1) target.length questionMark with
    | none =>
      rw [hq] at hparsed
      obtain ⟨hnone, -, hlen⟩ := hparsed
      rw [hnone, hlen, Option.elim_none, List.append_nil, htarget]
    | some q =>
      rw [hq] at hparsed
      obtain ⟨hsome, hqlen, hlen⟩ := hparsed
      obtain ⟨hlt, hmark, -⟩ := firstOf_eq_some.mp hq
      rw [hsome, Option.elim_some, hqlen, hlen, hp.slice_kept hbytes (fun i hl hu => by omega)]
      have hsum : target.length = q + (1 + (target.length - q - 1)) := by omega
      have hcut := slice_add m (method.length + 1) q (1 + (target.length - q - 1))
      rw [← hsum, slice_add m (method.length + 1 + q) 1, slice, slice_zero, hmark, htarget] at hcut
      exact hcut.symm
  · rw [hver, hvl, hp.slice_kept hbytes (fun i hl hu => by omega), hversion, hversionLen, hstrip]
    rcases stripReturn_or tail with ⟨hsame, -⟩ | hreturn
    · rw [← hsame, htail]
    · rw [hreturn] at htail
      exact (slice_append _ _ htail).1

end RequestLine

section Header
variable {env : Environment} {limit : Nat} {st st' : HeaderScan} {m : Memory} {n : Nat}

/-- The header loop ends where the blank line does that the framing loop looks for. -/
theorem parseHeaders_blockEnd {fuel : Nat} (h : Framed m n st) (hp : parseHeaders env limit fuel st = .ok st') :
    ∃ count, blockEnd 1 (slice m st.req.bufferPosition st.nbytes) = some count ∧
      st'.req.bufferPosition = st.req.bufferPosition + count := by
  induction fuel generalizing st with
  | zero => cases hp
  | succ fuel ih =>
    have hroom := h.room
    have htotal := h.total
    have hmax : requestMaxLength + 2 < sizeLimit := by decide
    obtain ⟨pos, hpos, hcase⟩ := h.turn hp
    obtain ⟨hlt, hnewline, hbefore⟩ := firstOf_eq_some.mp hpos
    -- the line, its newline and what is behind it
    have hahead : ∀ i, st.req.bufferPosition ≤ i → m i = st.req.buffer i := fun i hi => (h.ahead i hi).symm
    let text := slice m st.req.bufferPosition pos
    have hlen : text.length = pos := slice_length _ _ _
    have hbyte : ∀ i (hi : i < text.length), st.req.buffer (st.req.bufferPosition + i) = text[i] := by
      intro i hi
      rw [h.ahead _ (Nat.le_add_right _ _)]
      exact (slice_eq_iff m _ text).mp (by rw [hlen]) i hi
    have htext : newline ∉ text := by
      intro hm
      obtain ⟨i, hi, he⟩ := List.mem_iff_getElem.mp hm
      exact hbefore i (hlen ▸ hi) ((hbyte i hi).trans he)
    have hsplit : slice m st.req.bufferPosition st.nbytes =
        text ++ newline :: slice m (st.req.bufferPosition + (pos + 1)) (st.nbytes - (pos + 1)) := by
      have hsum : st.nbytes = pos + (1 + (st.nbytes - (pos + 1))) := by omega
      have hcut := slice_add m st.req.bufferPosition pos (1 + (st.nbytes - (pos + 1)))
      rw [← hsum, slice_add m (st.req.bufferPosition + pos) 1, slice, slice_zero,
        hahead _ (Nat.le_add_right _ _), hnewline] at hcut
      exact hcut
    rw [hsplit]
    rcases hcase with ⟨hz, rfl⟩ | ⟨st1, hheader, hframed, ⟨posCol, hparsed⟩, hrest⟩
    · have hstrip : (stripReturn text).length = 0 := by
        rw [← lineLength_slice (by rw [hlen]), hlen, ← hz]
        exact lineLength_congr (fun i hi _ => hahead i hi)
      have hempty := List.eq_nil_of_length_eq_zero hstrip
      rcases stripReturn_or text with ⟨hnil, -⟩ | hreturn
      · rw [hempty] at hnil
        have hpos0 : pos = 0 := by rw [← hlen, hnil, List.length_nil]
        rw [hnil, hpos0]
        exact ⟨1, rfl, rfl⟩
      · rw [hempty, List.nil_append] at hreturn
        have hpos1 : pos = 1 := by rw [← hlen, hreturn, List.length_singleton]
        rw [hreturn, hpos1]
        exact ⟨2, rfl, rfl⟩
    · have hle := lineLength_le st.req.buffer st.req.bufferPosition pos
      obtain ⟨hcol, hcolon, -⟩ := firstOf_eq_some.mp hparsed.found
      have hin : colon ∈ text := by
        rw [afterLine_buffer_of_ne st (by omega), hbyte posCol (by omega)] at hcolon
        rw [← hcolon]
        exact List.getElem_mem _
      obtain ⟨count, hcount, hend⟩ := ih hframed hrest
      have hposition : st1.req.bufferPosition = st.req.bufferPosition + (pos + 1) := by
        rw [hparsed.req]
        rfl
      have hnbytes : st1.nbytes = st.nbytes - (pos + 1) := hparsed.nbytes
      rw [hposition, hnbytes] at hcount
      rw [hposition] at hend
      refine ⟨count + (pos + 1), ?_, by omega⟩
      rw [blockEnd_line_of_mem htext hin (by decide), hcount, hlen]
      rfl

end Header

section Shape
variable {env : Environment} {req req0 : Request} {sock sock0 : Socket}

/-- Where the first line has its parts, the parser takes it for the request line, and stops where the
framing loop did. -/
theorem block_shape {limit : Nat} {st : HeaderScan} {method target tail rest : Bytes}
    (hmethod : space ∉ method) (htarget : space ∉ target)
    (hline : newline ∉ method ++ space :: (target ++ space :: tail)) (hstart : req.bufferPosition = 0)
    (hbytes : slice req.buffer 0 (lineThen method target tail rest).length = lineThen method target tail rest)
    (hroom : (lineThen method target tail rest).length ≤ requestMaxLength)
    (h : parseHeaderBlock env limit req (lineThen method target tail rest).length = .ok st) :
    LineTexts st.req method target (stripReturn tail) ∧
      blockEnd 0 (lineThen method target tail rest) = some st.req.bufferPosition := by
  have htail : newline ∉ tail := by
    intro hm
    exact hline (by simp [hm])
  have hat := lineThen_at hbytes hmethod htarget htail
  have hlength := lineThen_length method target tail rest
  obtain ⟨a, b, c, req1, hmarks, hparsed, -, hheaders⟩ := parseHeaderBlock_ok hstart hroom h
  obtain ⟨rfl, rfl, rfl⟩ := hat.marks.unique hmarks
  have hunread : (lineThen method target tail rest).length - (method.length + 1) - (target.length + 1) -
      (tail.length + 1) = rest.length := by omega
  rw [hunread] at hheaders
  have hframed := hparsed.framed hroom hmarks
  rw [hunread] at hframed
  obtain ⟨hspans, hkept⟩ := parseHeaders_keeps hframed hheaders
  refine ⟨hparsed.texts hat hspans hkept, ?_⟩
  obtain ⟨count, hcount, hend⟩ := parseHeaders_blockEnd hframed hheaders
  have hposition : (HeaderScan.start req1 rest.length).req.bufferPosition = _ := hparsed.position
  rw [hposition] at hcount hend
  have hbehind : blockEnd 1 rest = some count := by
    rw [← hat.atRest]
    exact hcount
  rw [lineThen_eq, blockEnd_line hline, hbehind, hend, Option.map_some]
  congr 1
  simp only [List.length_append, List.length_cons]
  omega

theorem ThreeParts.stream {stream method target version : Bytes} (h : ThreeParts (firstLine stream) method target version)
    (hnewline : newline ∈ stream) : ∃ tail rest, stream = lineThen method target tail rest ∧
      stripReturn tail = version ∧ newline ∉ method ++ space :: (target ++ space :: tail) := by
  obtain ⟨line, rest, rfl, hline⟩ := List.eq_append_cons_of_mem hnewline
  rw [firstLine_eq hline] at h
  obtain ⟨tail, -, hstrip, rfl⟩ := h.unstripped
  exact ⟨tail, rest, (lineThen_eq method target tail rest).symm, hstrip, hline⟩

/-- An accepted request has the shape that the framing loop took it for exactly when its first line has
three parts and names the protocol. Outside version 1.2 the hook is given just what was parsed. -/
theorem request_shape_iff (hw : sock.WellFormed) (ha : requestArrive env req sock = .ok (.ready req0 sock0)) :
    ∃ bytes st, Received sock bytes sock0 ∧
      parseHeaderBlock env requestMaxLength (filled req bytes) bytes.length = .ok st ∧
      req0.bufferPosition = st.req.bufferPosition ∧
      (st.req.buffer (st.req.version + 7) ≠ 50 →
        lineSpans req0 = lineSpans st.req ∧ req0.buffer = st.req.buffer) ∧
      ((∃ method target version, ShapeAgrees sock.pending st.req method target version) ↔
        ∃ method target version, ThreeParts (firstLine sock.pending) method target version) := by
  obtain ⟨bytes, st', harrived⟩ := requestArrive_ready hw ha
  have hphases := harrived.phases
  rw [parsePhases_eq] at hphases
  obtain ⟨st, hblock, hcheck⟩ := bind_eq_ok.mp hphases
  obtain ⟨-, -, hpassed⟩ := checkVersion_ok hcheck
  refine ⟨bytes, st, harrived.toReceived, hblock, ?_, fun hminor => ?_, ?_⟩
  · rw [harrived.finished]
    exact hpassed.position
  · rw [harrived.finished]
    cases hpassed with
    | host minor given => exact ⟨rfl, rfl⟩
    | authority minor parsed => exact absurd minor hminor
    | close minor => exact ⟨rfl, rfl⟩
  · constructor
    · rintro ⟨method, target, version, hshape⟩
      exact ⟨method, target, version, hshape.line⟩
    · rintro ⟨method, target, version, hparts⟩
      obtain ⟨stop, hstop⟩ := harrived.block
      have hin := blockEnd_newline hstop
      have hfirst : firstLine sock.pending = firstLine bytes := by
        obtain ⟨line, rest, rfl, hline⟩ := List.eq_append_cons_of_mem hin
        rw [harrived.received, List.append_assoc, List.cons_append, firstLine_eq hline, firstLine_eq hline]
      obtain ⟨tail, rest, rfl, rfl, hline⟩ := (hfirst ▸ hparts).stream hin
      obtain ⟨htexts, hend⟩ := block_shape hparts.single.1 hparts.single.2.1 hline (filled_position req _)
        (filled_slice req _) harrived.short.le hblock
      refine ⟨method, target, stripReturn tail, hparts, htexts.method, htexts.target, htexts.version, ?_, ?_⟩
      · have hversion : newline ∉ stripReturn tail := by
          intro hm
          rcases stripReturn_or tail with ⟨hsame, -⟩ | hreturn
          · rw [← hsame] at hm
            exact hline (by simp [hm])
          · apply hline
            rw [hreturn]
            simp [hm]
        exact ⟨fun hm => hline (by simp [hm]), fun hm => hline (by simp [hm]), hversion⟩
      · rw [harrived.received]
        exact blockEnd_append hend

/-- A first line with one space; the second one is on the next line. -/
def twoLineText : Bytes := ascii "G /\nx HTTP/1.0\n\n"

def twoLineSocket : Socket := socketNew 3 [] 80 ⟨twoLineText, [.deliver 17], [], []⟩

/-- The path runs over the end of the first line. -/
theorem path_spans_lines : ∃ req0 sock0 st,
    requestArrive plainEnvironment requestNew twoLineSocket = .ok (.ready req0 sock0) ∧
      parseHeaderBlock plainEnvironment requestMaxLength (filled requestNew twoLineText) twoLineText.length = .ok st ∧
      requestTarget st.req = ascii "/\nx" ∧
      ¬ ∃ method target version, ShapeAgrees twoLineSocket.pending st.req method target version := by
  refine ⟨_, _, _, rfl, rfl, rfl, ?_⟩
  rintro ⟨method, target, version, hshape⟩
  have hcount := congrArg (List.count space) hshape.line.parts
  have hone : List.count space (firstLine twoLineSocket.pending) = 1 := by decide
  rw [hone] at hcount
  simp only [List.count_append, List.count_cons_self] at hcount
  omega

theorem request_shape_two_lines : ∃ req0 sock0 bytes st,
    requestArrive plainEnvironment requestNew twoLineSocket = .ok (.ready req0 sock0) ∧
      parseHeaderBlock plainEnvironment requestMaxLength (filled requestNew bytes) bytes.length = .ok st ∧
      ((∃ method target version, ShapeAgrees twoLineSocket.pending st.req method target version) ↔
        ∃ method target version, ThreeParts (firstLine twoLineSocket.pending) method target version) := by
  have harrive : ∃ req0 sock0, requestArrive plainEnvironment requestNew twoLineSocket = .ok (.ready req0 sock0) :=
    ⟨_, _, rfl⟩
  obtain ⟨req0, sock0, ha⟩ := harrive
  obtain ⟨bytes, st, -, hblock, -, -, hiff⟩ := request_shape_iff (socketNew_wellFormed _ _ _ _) ha
  exact ⟨req0, sock0, bytes, st, ha, hblock, hiff⟩

end Shape

end CFlare.Http
