import CFlare.Http.HeaderItems
import CFlare.Http.HeaderValues

/-! Parsing undoes rendering: a well-formed request reaches the hook with the parts it was written
from, in whatever fragments it comes. -/
namespace CFlare.Http
open CFlare.Library CFlare.Network

/-- A pointer and a length that stand for a text: it is there, with a null byte behind it, and all that
is in front of a bound. -/
structure Reads (m : Memory) (bound start len : Nat) (text : Bytes) : Prop where
  length : len = text.length
  bytes : slice m start text.length = text
  null : m (start + text.length) = 0
  inside : start + text.length < bound

theorem Reads.keep {m m' : Memory} {bound bound' start len : Nat} {text : Bytes} (h : Reads m bound start len text)
    (hm : ∀ i < bound, m' i = m i) (hb : bound ≤ bound') : Reads m' bound' start len text := by
  have hinside := h.inside
  refine ⟨h.length, ?_, (hm _ hinside).trans h.null, hinside.trans_le hb⟩
  rw [slice_congr (fun i _ hi => hm i (by omega))]
  exact h.bytes

/-- A header kept in the request is that of a rendered text. -/
structure RecordedAs (env : Environment) (m : Memory) (bound : Nat) (hdr : HeaderText env.table) (h : RequestHeader) :
    Prop where
  header : h.header = env.table.header hdr.name
  reads : Reads m bound h.value h.valueLen hdr.value

section Headers
variable {table : HeaderTable}

def HeaderText.item (hdr : HeaderText table) : HeaderItem where
  name := hdr.name
  value := hdr.value
  lineEnd := hdr.lineEnd
  plainName := hdr.plainName
  plainValue := ⟨hdr.plainValue.1, hdr.plainValue.2.1⟩
  ended := fun _ => hdr.plainValue.2.2

theorem renderHeaders_eq (blankEnd : LineEnd) (headers : List (HeaderText table)) :
    renderHeaders blankEnd headers =
      joinLines newline ((headers.map HeaderText.item).map HeaderItem.line) ++ (blankEnd.mark ++ [newline]) := by
  induction headers with
  | nil => rfl
  | cons hdr headers ih =>
    rw [renderHeaders, ih, List.map_cons, List.map_cons, joinLines_cons, List.append_assoc _ (newline :: _)]
    rfl

/-- The framing loop stops at the blank line of a rendered request. -/
theorem RequestText.render_blockEnd (text : RequestText table) : blockEnd 0 text.render = some text.render.length := by
  rw [render, renderHeaders_eq]
  apply lineThen_blockEnd text.plainMethod.2 text.target_plain.2 text.version_plain
  intro line hm
  obtain ⟨item, -, rfl⟩ := List.mem_map.mp hm
  exact item.nonBlank

variable {env : Environment} {st : HeaderScan} {m : Memory} {n q : Nat} {lines : List HeaderLine} {l : HeaderLine}
  {hdr : HeaderText env.table} {headers : List (HeaderText env.table)}

/-- The lines in which the headers are found. -/
def FoundIn (env : Environment) (m : Memory) (n : Nat) : List HeaderLine → List (HeaderText env.table) → Prop :=
  List.Forall₂ (fun l hdr => HeaderItem.Found requestMaxLength m n l hdr.item)

/-- A header that is found is known under its name. -/
theorem found_known (h : HeaderItem.Found requestMaxLength m n l hdr.item) : l.known env m = true := by
  rw [HeaderLine.known, h.key]
  exact (env.table.headersValid_iff hdr.name).mpr hdr.known

theorem found_read (h : Framed m n st) (hat : st.req.bufferPosition = l.start)
    (hfound : HeaderItem.Found requestMaxLength m n l hdr.item) (hfew : st.req.headers.length < requestMaxHeaders) :
    ∃ st', st.read env requestMaxLength m l = .ok st' ∧ st'.req.headers.length = st.req.headers.length + 1 := by
  have hknown := found_known hfound
  have hvalue := h.stringAt_line hfound.line hat hfound.text
  have hroom : ¬ requestMaxHeaders ≤ (st.cutAt l).req.headers.length := Nat.not_le.mpr hfew
  suffices hrecorded : ∃ st', recordHeader env requestMaxLength (st.cutAt l) (env.table.header (l.key m)) l.value
      l.valueLen = .ok st' by
    obtain ⟨st', hst⟩ := hrecorded
    refine ⟨st', by rw [HeaderScan.read, if_pos hknown, hst], ?_⟩
    rw [(recordHeader_ok hknown hst).req]
    exact List.length_append
  rw [recordHeader_eq hknown, if_neg hroom, hvalue]
  dsimp only
  split
  · exact ⟨_, rfl⟩
  split
  · exact ⟨_, rfl⟩
  split
  · exact ⟨_, rfl⟩
  split
  · next hname =>
    rw [hfound.key] at hname
    obtain ⟨hne, hdigits⟩ := hdr.numeral hname
    obtain ⟨number, hnumber⟩ := toInteger_numeral env.float hne hdigits
    change ∃ st', orFault (toInteger env.float hdr.value) >>= _ = .ok st'
    rw [hnumber]
    exact ⟨_, rfl⟩
  · exact ⟨_, rfl⟩

theorem headers_read (h : Framed m n st) (hn : n ≤ requestMaxLength) (hc : Lines m n st.req.bufferPosition lines q)
    (hfound : FoundIn env m n lines headers) (hfew : st.req.headers.length + headers.length ≤ requestMaxHeaders) :
    ∃ st', lines.foldlM (HeaderScan.read env requestMaxLength m) st = .ok st' := by
  induction hfound generalizing st with
  | nil => exact ⟨st, rfl⟩
  | @cons l hdr lines headers hl rest ih =>
    rw [List.length_cons] at hfew
    generalize hp : st.req.bufferPosition = p at hc
    cases hc with
    | cons here behind =>
      obtain ⟨st1, hread, hlength⟩ := found_read h hp hl (by omega)
      obtain ⟨hframed, hposition⟩ := h.read hn here hp hread
      rw [← hposition] at behind
      obtain ⟨st', hfold⟩ := ih hframed behind (by omega)
      exact ⟨st', by rw [List.foldlM_cons, hread]; exact hfold⟩

/-- In the block that is left the value of a header is a string. -/
theorem found_reads {k : Block} (hk : k.In m n) (hn : n < requestMaxLength) (hl : l ∈ k.lines)
    (hfound : HeaderItem.Found requestMaxLength m n l hdr.item) :
    Reads (k.memory m) requestMaxLength l.value l.valueLen hdr.value := by
  have hmax : requestMaxLength < sizeLimit := by decide
  have hlen : l.len = l.col + 1 + 1 + hdr.value.length := hfound.len
  have hbytes : slice m l.value hdr.value.length = hdr.value := hfound.bytes
  obtain ⟨hcol, hpos, hnext⟩ := hfound.line.inside
  have hnextIs : l.next = l.start + l.pos + 1 := rfl
  have hvalue : l.value = l.start + l.col + 1 + 1 := rfl
  have hstop : l.stop = l.value + hdr.value.length := by
    rw [HeaderLine.stop, hlen, hvalue]
    omega
  have hvalueLen : l.valueLen = hdr.value.length := by
    have hsub : l.valueLen = l.len - (l.col + 1 + 1) := sizeSub_of_le (by omega) (by omega)
    omega
  refine ⟨hvalueLen, ?_, ?_, by omega⟩
  · refine (slice_congr (fun i hi hu => ?_)).trans hbytes
    rw [hk.memory_inside hl (by omega) (by omega), if_neg (by omega)]
  · rw [← hstop, hk.memory_inside hl (by omega) (by omega), if_pos (.inr rfl)]

theorem getLast_related {α β : Type} {r : α → β → Prop} {xs : List α} {ys : List β} (h : List.Forall₂ r xs ys) {y : β}
    (hy : ys.getLast? = some y) : ∃ x, xs.getLast? = some x ∧ r x y := by
  obtain ⟨front, rfl⟩ := List.getLast?_eq_some_iff.mp hy
  have hlast := List.forall₂_drop_append xs front [y] h
  obtain ⟨x, rest, hx, hrest, hdrop⟩ := List.forall₂_cons_right_iff.mp hlast
  rw [List.forall₂_nil_right_iff.mp hrest] at hdrop
  refine ⟨x, ?_, hx⟩
  rw [← List.take_append_drop front.length xs, hdrop, List.getLast?_concat]

/-- The last host is found in the last line under that name. -/
theorem lastHost_found (h : FoundIn env m n lines headers) {value : Bytes} (hv : lastHost headers = some value) :
    ∃ (l : HeaderLine) (hdr : HeaderText env.table), lastNamed env m (ascii "Host") lines = some l ∧
      hdr.value = value ∧ HeaderItem.Found requestMaxLength m n l hdr.item := by
  obtain ⟨hdr, hlast, rfl⟩ := Option.map_eq_some_iff.mp hv
  have hnamed : ∀ (l : HeaderLine) (hdr : HeaderText env.table), HeaderItem.Found requestMaxLength m n l hdr.item →
      (l.named env m (ascii "Host") = true ↔ decide hdr.IsHost = true) := by
    intro l hdr hfound
    rw [HeaderLine.named, found_known hfound, Bool.true_and, decide_eq_true_iff, decide_eq_true_iff, hfound.key]
    rfl
  obtain ⟨l, hl, hfound⟩ := getLast_related (List.rel_filter hnamed h) hlast
  exact ⟨l, hdr, hl, rfl, hfound⟩

variable {k : Block} {keepalive : Bool}

theorem host_round_trip (h : BlockParsed env requestMaxLength m n keepalive k st) (hn : n < requestMaxLength)
    (hfound : FoundIn env m n k.lines headers) {value : Bytes} (hv : lastHost headers = some value) :
    ∃ start, st.host = some start ∧ Reads st.req.buffer requestMaxLength start st.hostLen value := by
  obtain ⟨l, hdr, hl, rfl, hf⟩ := lastHost_found hfound hv
  refine ⟨l.value, by rw [h.host, hl]; rfl, ?_⟩
  rw [h.hostLen, hl, h.buffer]
  exact found_reads h.block hn (lastNamed_mem hl).1 hf

theorem headers_round_trip (h : BlockParsed env requestMaxLength m n keepalive k st) (hn : n < requestMaxLength)
    (hfound : FoundIn env m n k.lines headers) :
    List.Forall₂ (RecordedAs env st.req.buffer requestMaxLength) headers st.req.headers := by
  have hkept : FoundIn env m n (k.lines.filter (HeaderLine.known env m)) (headers.filter (fun _ => true)) :=
    List.rel_filter (fun l hdr hf => iff_of_true (found_known hf) rfl) hfound
  rw [List.filter_true] at hkept
  have hall := (List.forall₂_and_left _ _).mpr ⟨fun l hl => (List.mem_filter.mp hl).1, hkept⟩
  rw [h.headers, h.buffer]
  apply List.Forall₂.flip
  refine List.forall₂_map_left_iff.mpr (hall.imp (fun l hdr hl => ⟨?_, found_reads h.block hn hl.1 hl.2⟩))
  exact congrArg env.table.header hl.2.key

end Headers

section RequestLine
variable {m : Memory} {method path tail rest : Bytes} {query : Option Bytes} {req req' : Request}

/-- The request line of a rendered text: the path is what comes before the query. -/
structure LineReads (req : Request) (bound : Nat) (method path : Bytes) (query : Option Bytes) (version : Bytes) :
    Prop where
  method : Reads req.buffer bound req.method req.methodLen method
  path : Reads req.buffer bound req.path req.pathLen path
  noQuery : query = none → req.query = none ∧ req.queryLen = 0
  query : ∀ text, query = some text →
    ∃ start, req.query = some start ∧ Reads req.buffer bound start req.queryLen text
  version : Reads req.buffer bound req.version req.versionLen version

private theorem QueryParsed.parts {start : Nat} {target : Bytes} (hp : QueryParsed m start target.length req)
    (htarget : target = path ++ query.elim [] (questionMark :: ·)) (hpath : questionMark ∉ path)
    (hat : slice m start target.length = target) :
    slice m start path.length = path ∧ req.pathLen = path.length ∧
      (query = none → req.query = none ∧ req.queryLen = 0) ∧
      ∀ text, query = some text → target.length = path.length + 1 + text.length ∧
        req.query = some (start + path.length + 1) ∧ req.queryLen = text.length ∧
          slice m (start + path.length + 1) text.length = text := by
  unfold QueryParsed at hp
  cases query with
  | none =>
    rw [Option.elim_none, List.append_nil] at htarget
    subst htarget
    have hnone : firstOf m start target.length questionMark = none := by
      apply firstOf_eq_none.mpr
      intro i hi he
      rw [(slice_eq_iff m _ target).mp hat i hi] at he
      exact hpath (he ▸ List.getElem_mem hi)
    rw [hnone] at hp
    exact ⟨hat, hp.2.2, fun _ => ⟨hp.1, hp.2.1⟩, fun text hq => absurd hq (Option.some_ne_none text).symm⟩
  | some text =>
    rw [Option.elim_some] at htarget
    subst htarget
    have hlength : (path ++ questionMark :: text).length = path.length + 1 + text.length := by
      rw [List.length_append, List.length_cons]
      omega
    obtain ⟨hfront, -, hbehind⟩ := slice_append_cons _ _ hat
    rw [firstOf_slice hat hpath] at hp
    obtain ⟨hquery, hqueryLen, hpathLen⟩ := hp
    refine ⟨hfront, hpathLen, fun hq => absurd hq (Option.some_ne_none text), fun text' hq => ?_⟩
    obtain rfl := Option.some.inj hq
    refine ⟨hlength, hquery, ?_, hbehind⟩
    rw [hqueryLen, hlength]
    omega

theorem LineParsed.reads {target : Bytes} (hp : LineParsed m method.length target.length tail.length req)
    (htarget : target = path ++ query.elim [] (questionMark :: ·)) (hpath : questionMark ∉ path)
    (hat : LineThenAt m method target tail rest) (hspans : lineSpans req' = lineSpans req)
    (hbytes : ∀ i < req.bufferPosition, req'.buffer i = req.buffer i) :
    LineReads req' req.bufferPosition method path query (stripReturn tail) := by
  obtain ⟨hm, hml, hpa, hpl, hql, hver, hvl, hqu⟩ := lineSpans_eq.mp hspans
  have htexts := hp.texts hat hspans hbytes
  have hposition := hp.position
  have hversion := hp.version
  have hle := lineLength_le m (method.length + 1 + target.length + 1) tail.length
  have hversionLen := hp.versionLen
  have hstrip := lineLength_slice hat.atTail
  obtain ⟨hpathAt, hpathLength, hnoQuery, hquery⟩ := hp.query.parts htarget hpath hat.atTarget
  have hpathLen := hp.query.pathLen_le
  obtain ⟨hnull1, hnull2, hnull3, hnull4⟩ := hp.nulls
  -- the null bytes are still there
  have hnull : ∀ i < req.bufferPosition, req.buffer i = 0 → req'.buffer i = 0 := fun i hi hz => (hbytes i hi).trans hz
  refine ⟨⟨hml.trans hp.methodLen, ?_, ?_, ?_⟩, ⟨hpl.trans hpathLength, ?_, ?_, ?_⟩,
    fun hq => ⟨hqu.trans (hnoQuery hq).1, hql.trans (hnoQuery hq).2⟩, fun text hq => ?_,
    ⟨hvl.trans (hversionLen.trans hstrip), ?_, ?_, ?_⟩⟩
  · rw [← hp.methodLen, ← hml]
    exact htexts.method
  · rw [hm, hp.method, Nat.zero_add]
    exact hnull _ (by omega) hnull1
  · rw [hm, hp.method]
    omega
  · rw [hpa, hp.path, hp.slice_kept hbytes (fun i hl hu => by omega)]
    exact hpathAt
  · rw [hpa, hp.path, ← hpathLength]
    exact hnull _ (by omega) hnull3
  · rw [hpa, hp.path]
    omega
  · obtain ⟨hlength, hstart, hlen, htext⟩ := hquery text hq
    refine ⟨method.length + 1 + path.length + 1, hqu.trans hstart, hql.trans hlen, ?_, ?_, by omega⟩
    · rw [hp.slice_kept hbytes (fun i hl hu => by omega)]
      exact htext
    · have hend : method.length + 1 + path.length + 1 + text.length = method.length + 1 + target.length := by omega
      rw [hend]
      exact hnull _ (by omega) hnull2
  · rw [← hstrip, ← hversionLen, ← hvl]
    exact htexts.version
  · rw [hver, ← hstrip, ← hversionLen]
    exact hnull _ (by omega) hnull4
  · rw [hver]
    omega

theorem LineReads.widen {bound bound' : Nat} {version : Bytes} (h : LineReads req bound method path query version)
    (hb : bound ≤ bound') : LineReads req bound' method path query version := by
  have hsame : ∀ i < bound, req.buffer i = req.buffer i := fun _ _ => rfl
  refine ⟨h.method.keep hsame hb, h.path.keep hsame hb, h.noQuery, fun text hq => ?_, h.version.keep hsame hb⟩
  obtain ⟨start, hs, hr⟩ := h.query text hq
  exact ⟨start, hs, hr.keep hsame hb⟩

end RequestLine

/-- A request at the hook is the one that a text was written from: the parts of its line, its headers in
order, the last host, and nothing left over. -/
structure ParsedAs (env : Environment) (text : RequestText env.table) (req : Request) : Prop where
  line : LineReads req requestMaxLength text.method text.path text.query (ascii "HTTP/1.1")
  headers : List.Forall₂ (RecordedAs env req.buffer requestMaxLength) text.headers req.headers
  host : ∃ value start, lastHost text.headers = some value ∧ req.host = some start ∧
    Reads req.buffer requestMaxLength start req.hostLen value
  unread : req.bufferUnread = 0

section RoundTrip
variable {env : Environment} {sock : Socket}

theorem checkVersion_rendered {st : HeaderScan} {bound len : Nat}
    (h : Reads st.req.buffer bound st.req.version len (ascii "HTTP/1.1")) (hb : bound ≤ requestMaxLength)
    (hhost : st.host ≠ none) : checkVersion requestMaxLength st = .ok st := by
  have hinside : st.req.version + 8 < bound := h.inside
  have hbytes := (slice_eq_iff st.req.buffer st.req.version (ascii "HTTP/1.1")).mp h.bytes
  have hmajor : st.req.buffer (st.req.version + 5) = 49 := hbytes 5 (by decide)
  have hminor : st.req.buffer (st.req.version + 7) = 49 := hbytes 7 (by decide)
  have hat5 : byteAt requestMaxLength st.req (st.req.version + 5) = .ok 49 := by
    rw [byteAt, if_pos (by omega), hmajor]
  have hat7 : byteAt requestMaxLength st.req (st.req.version + 7) = .ok 49 := by
    rw [byteAt, if_pos (by omega), hminor]
  rw [checkVersion, hat5, fault_ok_bind, hat7, fault_ok_bind, if_neg (by decide), if_pos rfl, if_neg hhost]

theorem rendered_block (text : RequestText env.table) {m : Memory} (hshort : text.render.length < requestMaxLength)
    (hin : slice m 0 text.render.length = text.render) :
    LineThenAt m text.method text.target (ascii "HTTP/1.1" ++ text.lineEnd.mark)
        (renderHeaders text.blankEnd text.headers) ∧
      ∃ lines blank, Block.In m text.render.length ⟨text.method.length, text.target.length,
          (ascii "HTTP/1.1" ++ text.lineEnd.mark).length, lines, blank⟩ ∧
        FoundIn env m text.render.length lines text.headers := by
  have hat := lineThen_at hin text.plainMethod.1 text.target_plain.1 text.version_plain
  have hlength : text.render.length = _ := lineThen_length text.method text.target
    (ascii "HTTP/1.1" ++ text.lineEnd.mark) (renderHeaders text.blankEnd text.headers)
  have hrest := hat.atRest
  rw [renderHeaders_eq] at hrest hlength
  obtain ⟨lines, blank, hchain, hblank, hfound⟩ :=
    HeaderItem.items_lines (n := text.render.length) hrest (by omega) hshort.le
  exact ⟨hat, lines, blank, ⟨hat.marks, hchain, hblank⟩, List.forall₂_map_right_iff.mp hfound⟩

/-- The phases on a rendered text in the buffer. -/
theorem phases_round_trip (text : RequestText env.table) {req : Request} (hstart : req.bufferPosition = 0)
    (hshort : text.render.length < requestMaxLength) (hin : slice req.buffer 0 text.render.length = text.render) :
    ∃ k st, parsePhases env requestMaxLength req text.render.length = .ok st ∧
      BlockParsed env requestMaxLength req.buffer text.render.length req.keepalive k st ∧
      FoundIn env req.buffer text.render.length k.lines text.headers ∧
      LineReads st.req requestMaxLength text.method text.path text.query (ascii "HTTP/1.1") ∧ st.nbytes = 0 := by
  obtain ⟨hat, lines, blank, hk, hfound⟩ := rendered_block text hshort hin
  -- every line is read
  obtain ⟨req1, nbytes, pos, hparsed, -, hframed, hfold⟩ := parseHeaderBlock_fold env hstart hshort.le hshort.le hk
  have hposition : (HeaderScan.start req1 nbytes).req.bufferPosition = Block.firstLine ⟨text.method.length,
      text.target.length, (ascii "HTTP/1.1" ++ text.lineEnd.mark).length, lines, blank⟩ := hparsed.position
  have hfew : (HeaderScan.start req1 nbytes).req.headers.length + text.headers.length ≤ requestMaxHeaders := by
    change 0 + _ ≤ _
    rw [Nat.zero_add]
    exact text.fewHeaders
  obtain ⟨last, hlast⟩ := headers_read hframed hshort.le (hposition.symm ▸ hk.chain) hfound hfew
  rw [hlast, fault_ok_bind] at hfold
  obtain ⟨k, hblock⟩ := parseHeaderBlock_block hstart hshort.le hshort.le hfold
  obtain rfl := hblock.block.unique hk
  obtain ⟨value, hvalue⟩ := lastHost_of_mem text.hosted
  obtain ⟨start, hset, -⟩ := host_round_trip hblock hshort hfound hvalue
  -- nothing is written in front of the cursor, and nothing is left behind it
  obtain ⟨a, b, c, req2, hmarks, hparsed2, -, hloop⟩ := parseHeaderBlock_ok hstart hshort.le hfold
  obtain ⟨rfl, rfl, rfl⟩ := hat.marks.unique hmarks
  have hframed2 := hparsed2.framed hshort.le hmarks
  obtain ⟨hspans, hkept⟩ := parseHeaders_keeps hframed2 hloop
  have hversion : stripReturn (ascii "HTTP/1.1" ++ text.lineEnd.mark) = ascii "HTTP/1.1" :=
    stripReturn_mark (by decide) text.lineEnd
  have hreads := hparsed2.reads rfl text.plainPath.2.2 hat hspans hkept
  rw [hversion] at hreads
  have hbound : req2.bufferPosition ≤ requestMaxLength := by
    have htotal : req2.bufferPosition + _ = _ := hframed2.total
    omega
  have hdone : (last.afterLine pos).nbytes = 0 := by
    have hshape := (block_shape text.plainMethod.1 text.target_plain.1 text.line_plain hstart hin hshort.le hfold).2
    have hend : text.render.length = _ := Option.some.inj (text.render_blockEnd.symm.trans hshape)
    have htotal := hblock.framed.total
    omega
  refine ⟨_, last.afterLine pos, ?_, hblock, hfound, hreads.widen hbound, hdone⟩
  rw [parsePhases_eq, hfold]
  apply checkVersion_rendered hreads.version hbound
  rw [hset]
  exact Option.some_ne_none start

/-- Every well-formed request that is short enough reaches the hook with the parts it was written from,
whatever the fragments it comes in and the request object holds. -/
theorem request_round_trip (text : RequestText env.table) (hshort : text.render.length < requestMaxLength)
    (h : Fragmented sock text.render) (req : Request) :
    ∃ req' sock', requestArrive env req sock = .ok (.ready req' sock') ∧ ParsedAs env text req' := by
  obtain ⟨sock', -, harrive⟩ := requestArrive_fragments env h text.render_blockEnd hshort
  obtain ⟨k, st, hphases, hblock, hfound, hline, hdone⟩ :=
    phases_round_trip text (filled_position req text.render) hshort (filled_slice req text.render)
  refine ⟨finishRequest st sock', sock', ?_, ⟨hline.method, hline.path, hline.noQuery, hline.query, hline.version⟩,
    headers_round_trip hblock hshort hfound, ?_, hdone⟩
  · rw [harrive req, hphases]
    rfl
  · obtain ⟨value, hvalue⟩ := lastHost_of_mem text.hosted
    obtain ⟨start, hset, hreads⟩ := host_round_trip hblock hshort hfound hvalue
    exact ⟨value, start, hvalue, hset, hreads⟩

end RoundTrip

/-- The smallest header that a host can be asked with. -/
def hostHeader (table : HeaderTable) : HeaderText table where
  name := ascii "Host"
  value := ascii "a"
  lineEnd := .withReturn
  known := table.common_known (by simp [commonNames])
  plainName := host_plain
  plainValue := by decide
  numeral := fun h => absurd h (by decide)

/-- A request with a query, under both line ends. -/
def hostRequest (table : HeaderTable) : RequestText table where
  method := ascii "G"
  path := ascii "/"
  query := some (ascii "q")
  lineEnd := .plain
  headers := [hostHeader table]
  blankEnd := .plain
  plainMethod := get_plain
  plainPath := by decide
  plainQuery := fun text hq => Option.some.inj hq ▸ by decide
  fewHeaders := Nat.le_add_left 1 31
  hosted := ⟨_, List.mem_cons_self, rfl⟩

noncomputable def fragmentedSocket : Socket :=
  socketNew 3 [] 80 ⟨(hostRequest plainEnvironment.table).render, [.deliver 10, .deliver 15], [], []⟩

theorem request_round_trip_fragments : ∃ req' sock',
    requestArrive plainEnvironment requestNew fragmentedSocket = .ok (.ready req' sock') ∧
      ParsedAs plainEnvironment (hostRequest plainEnvironment.table) req' := by
  have hshort : (hostRequest plainEnvironment.table).render.length < requestMaxLength := by decide
  have hreads : Fragmented fragmentedSocket (hostRequest plainEnvironment.table).render :=
    ⟨rfl, ⟨rfl, rfl⟩, rfl, [10, 15], [], rfl, by decide, rfl⟩
  exact request_round_trip (hostRequest plainEnvironment.table) hshort hreads requestNew

end CFlare.Http
