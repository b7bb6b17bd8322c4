import CFlare.Http.RequestArrival

/-! The lines of a header block. They are read off the bytes received, and what the header loop
leaves is said line by line: which headers are kept, and which null bytes are written. -/
namespace CFlare.Http
open CFlare.Library CFlare.Network

/-- A header line in memory: where it starts, how far behind that its newline is, its length without
the line's end, and where its colon is. -/
structure HeaderLine where
  start : Nat
  pos : Nat
  len : Nat
  col : Nat
  deriving DecidableEq, Repr

namespace HeaderLine

/-- The line is found in the first `n` bytes. -/
structure At (m : Memory) (n : Nat) (l : HeaderLine) : Prop where
  newline : firstOf m l.start (n - l.start) newline = some l.pos
  length : lineLength m l.start l.pos = l.len
  fresh : m l.start ≠ space ∧ m l.start ≠ tab
  colon : firstOf m l.start l.len colon = some l.col

def next (l : HeaderLine) : Nat := l.start + l.pos + 1

def stop (l : HeaderLine) : Nat := l.start + l.len

/-- The name in front of the colon, as a string. -/
def key (m : Memory) (l : HeaderLine) : Bytes := (slice m l.start l.col).takeWhile (· ≠ 0)

def value (l : HeaderLine) : Nat := valueStart l.start l.col
def valueLen (l : HeaderLine) : Nat := valueLength l.len l.col

variable (env : Environment)

/-- Lines under names that the table does not know are passed over. -/
def known (m : Memory) (l : HeaderLine) : Bool := headersValid (env.table.header (l.key m))

def recorded (m : Memory) (l : HeaderLine) : RequestHeader := ⟨env.table.header (l.key m), l.value, l.valueLen⟩

def named (m : Memory) (name : Bytes) (l : HeaderLine) : Bool := l.known env m && decide (NameIs (l.key m) name)

/-- The string that the header loop finds at the value: of the line the last null byte is written, of
what is behind it none. -/
def text (limit : Nat) (m : Memory) (l : HeaderLine) : Option Bytes :=
  cstring (Function.update m l.stop 0) l.value (limit - l.value)

end HeaderLine

/-- Header lines one behind the other. -/
inductive Lines (m : Memory) (n : Nat) : Nat → List HeaderLine → Nat → Prop where
  | nil (p : Nat) : Lines m n p [] p
  | cons {l : HeaderLine} {lines : List HeaderLine} {q : Nat} (here : l.At m n) (rest : Lines m n l.next lines q) :
      Lines m n l.start (l :: lines) q

namespace Lines
variable {m : Memory} {n p q r : Nat} {lines more : List HeaderLine} {l : HeaderLine}

theorem append (h : Lines m n p lines q) (h' : Lines m n q more r) : Lines m n p (lines ++ more) r := by
  induction h with
  | nil p => exact h'
  | cons here rest ih => exact .cons here (ih h')

theorem snoc (h : Lines m n p lines l.start) (here : l.At m n) : Lines m n p (lines ++ [l]) l.next :=
  h.append (.cons here (.nil l.next))

end Lines

namespace HeaderLine.At
variable {m : Memory} {n : Nat} {l : HeaderLine}

/-- The colon is in the line, and the line's end in front of its newline or at it. -/
theorem inside (h : l.At m n) : l.col < l.len ∧ l.len ≤ l.pos ∧ l.next ≤ n := by
  have hcol := (firstOf_eq_some.mp h.colon).1
  have hpos := (firstOf_eq_some.mp h.newline).1
  have hlen := lineLength_le m l.start l.pos
  rw [h.length] at hlen
  unfold HeaderLine.next
  omega

theorem unique {l' : HeaderLine} (h : l.At m n) (h' : l'.At m n) (hs : l.start = l'.start) : l = l' := by
  obtain ⟨start, pos, len, col⟩ := l
  obtain ⟨start', pos', len', col'⟩ := l'
  obtain rfl : start = start' := hs
  obtain rfl := Option.some.inj (h.newline.symm.trans h'.newline)
  obtain rfl := h.length.symm.trans h'.length
  obtain rfl := Option.some.inj (h.colon.symm.trans h'.colon)
  rfl

end HeaderLine.At

/-- A line with nothing in it, at which the header lines end. -/
def BlankAt (m : Memory) (n p : Nat) : Prop :=
  ∃ pos, firstOf m p (n - p) newline = some pos ∧ lineLength m p pos = 0

theorem BlankAt.no_line {m : Memory} {n p : Nat} (h : BlankAt m n p) {l : HeaderLine} (hl : l.At m n) :
    l.start ≠ p := by
  rintro rfl
  obtain ⟨pos, hpos, hblank⟩ := h
  obtain rfl := Option.some.inj (hpos.symm.trans hl.newline)
  have hcol := hl.inside.1
  have hlen := hblank.symm.trans hl.length
  omega

/-- The lines up to a blank one are decided by the bytes. -/
theorem Lines.unique {m : Memory} {n p q q' : Nat} {lines lines' : List HeaderLine} (h : Lines m n p lines q)
    (hb : BlankAt m n q) (h' : Lines m n p lines' q') (hb' : BlankAt m n q') : lines = lines' ∧ q = q' := by
  induction h generalizing lines' with
  | nil p =>
    cases h' with
    | nil => exact ⟨rfl, rfl⟩
    | cons here rest => exact absurd rfl (hb.no_line here)
  | @cons l lines q here rest ih =>
    generalize hp : l.start = p at h'
    cases h' with
    | nil => exact absurd hp (hb'.no_line here)
    | cons here' rest' =>
      obtain rfl := here.unique here' hp
      obtain ⟨rfl, rfl⟩ := ih hb rest'
      exact ⟨rfl, rfl⟩

/-- Lines lie between where the first one starts and where the last one ends. -/
theorem Lines.bounds {m : Memory} {n p q : Nat} {lines : List HeaderLine} (h : Lines m n p lines q) :
    p ≤ q ∧ ∀ l ∈ lines, l.At m n ∧ p ≤ l.start ∧ l.next ≤ q := by
  induction h with
  | nil p => exact ⟨Nat.le_refl p, fun l hl => absurd hl List.not_mem_nil⟩
  | @cons l lines q here rest ih =>
    obtain ⟨hle, hall⟩ := ih
    have hnext : l.start ≤ l.next := Nat.le_succ_of_le (Nat.le_add_right _ _)
    refine ⟨hnext.trans hle, fun l' hl => ?_⟩
    rcases List.mem_cons.mp hl with rfl | hl
    · exact ⟨here, Nat.le_refl _, hle⟩
    · obtain ⟨hat, hstart, hend⟩ := hall l' hl
      exact ⟨hat, hnext.trans hstart, hend⟩

theorem Lines.length_le {m : Memory} {n p q : Nat} {lines : List HeaderLine} (h : Lines m n p lines q) :
    p + lines.length ≤ q := by
  induction h with
  | nil p => exact Nat.le_refl p
  | @cons l lines q here rest ih =>
    rw [List.length_cons]
    unfold HeaderLine.next at ih
    omega

/-- The null bytes written for these lines. -/
def cuts (lines : List HeaderLine) : List Nat := lines.flatMap (fun l => [l.start + l.col, l.stop])

theorem mem_cuts {lines : List HeaderLine} {i : Nat} :
    i ∈ cuts lines ↔ ∃ l ∈ lines, i = l.start + l.col ∨ i = l.stop := by
  simp [cuts]

theorem cuts_concat (lines : List HeaderLine) (l : HeaderLine) :
    cuts (lines ++ [l]) = cuts lines ++ [l.start + l.col, l.stop] := by
  simp [cuts]

def lastNamed (env : Environment) (m : Memory) (name : Bytes) (lines : List HeaderLine) : Option HeaderLine :=
  (lines.filter (HeaderLine.named env m name)).getLast?

section Last
variable {env : Environment} {m : Memory} {name : Bytes} {lines : List HeaderLine} {l : HeaderLine}

theorem lastNamed_concat (env : Environment) (m : Memory) (name : Bytes) (lines : List HeaderLine) (l : HeaderLine) :
    lastNamed env m name (lines ++ [l]) = if l.named env m name then some l else lastNamed env m name lines := by
  unfold lastNamed
  rw [List.filter_append]
  cases h : l.named env m name with
  | true => rw [List.filter_cons_of_pos h, List.filter_nil, List.getLast?_concat, if_pos rfl]
  | false =>
    rw [List.filter_cons_of_neg (by rw [h]; exact Bool.false_ne_true), List.filter_nil, List.append_nil,
      if_neg Bool.false_ne_true]

theorem lastNamed_skip (hk : l.known env m = false) (name : Bytes) (lines : List HeaderLine) :
    lastNamed env m name (lines ++ [l]) = lastNamed env m name lines := by
  rw [lastNamed_concat, HeaderLine.named, hk, Bool.false_and, if_neg Bool.false_ne_true]

theorem lastNamed_keep (hk : l.known env m = true) (name : Bytes) (lines : List HeaderLine) :
    lastNamed env m name (lines ++ [l]) = if NameIs (l.key m) name then some l else lastNamed env m name lines := by
  rw [lastNamed_concat, HeaderLine.named, hk, Bool.true_and]
  simp only [decide_eq_true_eq]

theorem lastNamed_mem (h : lastNamed env m name lines = some l) : l ∈ lines ∧ l.named env m name = true :=
  List.mem_filter.mp (List.mem_of_getLast? h)

end Last

/-- What the header loop keeps of the lines, and what it derives from them. -/
structure Collected (env : Environment) (limit : Nat) (m : Memory) (keepalive : Bool) (lines : List HeaderLine)
    (st : HeaderScan) : Prop where
  headers : st.req.headers = (lines.filter (HeaderLine.known env m)).map (HeaderLine.recorded env m)
  few : st.req.headers.length ≤ requestMaxHeaders
  host : st.host = (lastNamed env m (ascii "Host") lines).map HeaderLine.value
  hostLen : st.hostLen = ((lastNamed env m (ascii "Host") lines).map HeaderLine.valueLen).getD 0
  silent : lastNamed env m (ascii "Connection") lines = none → st.req.keepalive = keepalive
  connection : ∀ l, lastNamed env m (ascii "Connection") lines = some l → ∃ text, l.text limit m = some text ∧
    st.req.keepalive = (occurrence text (ascii "keep-alive")).isSome
  noLength : lastNamed env m (ascii "Content-Length") lines = none → st.contentLength = 0
  length : ∀ l, lastNamed env m (ascii "Content-Length") lines = some l → ∃ text, l.text limit m = some text ∧
    toInteger env.float text = .ok (some st.contentLength)

/-- The header loop at its cursor, with the lines so far, in a buffer that held `m`. -/
structure Scanned (env : Environment) (limit : Nat) (m : Memory) (n first : Nat) (keepalive : Bool)
    (lines : List HeaderLine) (st : HeaderScan) : Prop extends Collected env limit m keepalive lines st where
  chain : Lines m n first lines st.req.bufferPosition
  buffer : ∀ i, first ≤ i → st.req.buffer i = if i ∈ cuts lines then 0 else m i

section Recording
variable {env : Environment} {limit : Nat} {st st' : HeaderScan} {m : Memory} {keepalive : Bool}
  {lines : List HeaderLine} {l : HeaderLine}

theorem Collected.skip (h : Collected env limit m keepalive lines st) (hk : l.known env m = false) :
    Collected env limit m keepalive (lines ++ [l]) st := by
  have hlast := fun name => lastNamed_skip hk name lines
  refine ⟨?_, h.few, ?_, ?_, ?_, fun l' => ?_, ?_, fun l' => ?_⟩
  · rw [h.headers, List.filter_append, List.filter_cons_of_neg (by rw [hk]; exact Bool.false_ne_true),
      List.filter_nil, List.append_nil]
  · rw [hlast]
    exact h.host
  · rw [hlast]
    exact h.hostLen
  · rw [hlast]
    exact h.silent
  · rw [hlast]
    exact h.connection l'
  · rw [hlast]
    exact h.noLength
  · rw [hlast]
    exact h.length l'

/-- A line that is recorded adds its header, and decides what is derived under its name. -/
theorem Collected.keep (h : Collected env limit m keepalive lines st) (hk : l.known env m = true)
    (hrecorded : Recorded env limit (l.key m) l.value l.valueLen st st')
    (hheaders : st'.req.headers = st.req.headers ++ [l.recorded env m])
    (hread : ∀ text, stringAt limit st.req.buffer l.value = .ok text → l.text limit m = some text) :
    Collected env limit m keepalive (lines ++ [l]) st' := by
  have hlast := fun name => lastNamed_keep hk name lines
  refine ⟨?_, ?_, ?_, ?_, ?_, fun l' => ?_, ?_, fun l' => ?_⟩
  · rw [hheaders, h.headers, List.filter_append, List.filter_cons_of_pos hk, List.filter_nil, List.map_append]
    rfl
  · rw [hheaders, List.length_append]
    exact hrecorded.room
  · rw [hlast]
    split
    · next hname => exact (hrecorded.host hname).1
    · next hname => rw [(hrecorded.noHost hname).1, h.host]
  · rw [hlast]
    split
    · next hname => exact (hrecorded.host hname).2
    · next hname => rw [(hrecorded.noHost hname).2, h.hostLen]
  · rw [hlast]
    split
    · intro hnone
      cases hnone
    · next hname =>
      rw [hrecorded.noConnection hname]
      exact h.silent
  · rw [hlast]
    split
    · next hname =>
      intro he
      obtain rfl := Option.some.inj he
      obtain ⟨text, htext, hkeep⟩ := hrecorded.connection hname
      exact ⟨text, hread text htext, hkeep⟩
    · next hname =>
      rw [hrecorded.noConnection hname]
      exact h.connection l'
  · rw [hlast]
    split
    · intro hnone
      cases hnone
    · next hname =>
      rw [hrecorded.noLength hname]
      exact h.noLength
  · rw [hlast]
    split
    · next hname =>
      intro he
      obtain rfl := Option.some.inj he
      obtain ⟨text, htext, hnumber⟩ := hrecorded.length hname
      exact ⟨text, hread text htext, hnumber⟩
    · next hname =>
      rw [hrecorded.noLength hname]
      exact h.length l'

end Recording

section Turn
variable {env : Environment} {limit : Nat} {st st' : HeaderScan} {m : Memory} {n first pos : Nat} {keepalive : Bool}
  {lines : List HeaderLine}

theorem Framed.raw (h : Framed m n st) :
    firstOf st.req.buffer st.req.bufferPosition st.nbytes newline =
      firstOf m st.req.bufferPosition (n - st.req.bufferPosition) newline ∧
      ∀ pos, lineLength st.req.buffer st.req.bufferPosition pos = lineLength m st.req.bufferPosition pos := by
  have htotal := h.total
  have hn : n - st.req.bufferPosition = st.nbytes := by omega
  constructor
  · rw [hn]
    exact firstOf_congr (fun i hi _ => h.ahead i hi)
  · exact fun pos => lineLength_congr (fun i hi _ => h.ahead i hi)

/-- The string at a line's value, in any buffer that has the line's end and what is behind it. -/
theorem HeaderLine.text_eq (l : HeaderLine) {m' : Memory}
    (h : ∀ i, l.value ≤ i → m' i = Function.update m l.stop 0 i) :
    cstring m' l.value (limit - l.value) = l.text limit m := cstring_congr_above h

/-- The line at the cursor, for a newline and a colon. -/
def lineAt (st : HeaderScan) (pos col : Nat) : HeaderLine :=
  ⟨st.req.bufferPosition, pos, lineLength st.req.buffer st.req.bufferPosition pos, col⟩

/-- The state behind a line, with the line ended and cut at its colon. -/
def HeaderScan.cutAt (st : HeaderScan) (l : HeaderLine) : HeaderScan :=
  (st.afterLine l.pos).cutLine l.start l.len l.col

/-- A line is recorded under its name, or passed over. -/
def HeaderScan.read (env : Environment) (limit : Nat) (m : Memory) (st : HeaderScan) (l : HeaderLine) :
    Except Stop HeaderScan :=
  if l.known env m then
    recordHeader env limit (st.cutAt l) (env.table.header (l.key m)) l.value l.valueLen
  else .ok (st.cutAt l)

theorem known_of_name {l : HeaderLine} {name : Bytes} (hk : NameIs (l.key m) name) (hn : name ∈ commonNames) :
    l.known env m = true := by
  apply (env.table.headersValid_iff (l.key m)).mpr
  rw [env.table.lookup_ne_none, hk]
  exact env.table.known name hn

/-- A line under one of the common names is known under it. -/
theorem named_of_key {l : HeaderLine} {name : Bytes} (hk : l.key m = name) (hn : name ∈ commonNames) (other : Bytes) :
    l.known env m = true ∧ l.named env m other = decide (NameIs name other) := by
  have hknown : l.known env m = true := known_of_name (congrArg normalizeHeader hk) hn
  exact ⟨hknown, by rw [HeaderLine.named, hknown, hk, Bool.true_and]⟩

/-- A line that asks for no number and no connection is kept, or passed over. -/
theorem read_plain {l : HeaderLine} (hroom : l.known env m = true → st.req.headers.length < requestMaxHeaders)
    (hc : ¬ NameIs (l.key m) (ascii "Connection")) (hn : ¬ NameIs (l.key m) (ascii "Content-Length")) :
    ∃ st', st.read env limit m l = .ok st' ∧
      st'.req.headers.length = st.req.headers.length + if l.known env m then 1 else 0 := by
  have hkept : ((st.cutAt l).keep (l.recorded env m)).req.headers.length = st.req.headers.length + 1 :=
    List.length_append
  rw [HeaderScan.read]
  split
  · next hk =>
    have hfew : ¬ requestMaxHeaders ≤ (st.cutAt l).req.headers.length := Nat.not_le.mpr (hroom hk)
    rw [recordHeader_eq hk, if_neg hfew]
    dsimp only
    rw [if_neg hc, if_neg hn]
    split
    · exact ⟨_, rfl, hkept⟩
    · split <;> exact ⟨_, rfl, hkept⟩
  · exact ⟨_, rfl, rfl⟩

theorem lines_plain (hfew : st.req.headers.length + lines.length ≤ requestMaxHeaders)
    (h : ∀ l ∈ lines, ¬ NameIs (l.key m) (ascii "Connection") ∧ ¬ NameIs (l.key m) (ascii "Content-Length")) :
    ∃ st', lines.foldlM (HeaderScan.read env limit m) st = .ok st' := by
  induction lines generalizing st with
  | nil => exact ⟨st, rfl⟩
  | cons l lines ih =>
    rw [List.length_cons] at hfew
    obtain ⟨hc, hn⟩ := h l List.mem_cons_self
    have hroom : st.req.headers.length < requestMaxHeaders := by omega
    obtain ⟨st1, hread, hlength⟩ := read_plain (fun _ => hroom) hc hn
    have hrest : st1.req.headers.length + lines.length ≤ requestMaxHeaders := by
      split at hlength <;> omega
    obtain ⟨st', hfold⟩ := ih hrest (fun l' hl => h l' (List.mem_cons_of_mem _ hl))
    exact ⟨st', by rw [List.foldlM_cons, hread]; exact hfold⟩

private theorem afterLine_raw (h : Framed m n st) {i : Nat} (hi : st.req.bufferPosition ≤ i)
    (hu : i < st.req.bufferPosition + lineLength st.req.buffer st.req.bufferPosition pos) :
    (st.afterLine pos).req.buffer i = m i := by
  rw [afterLine_buffer_of_ne st (by omega)]
  exact h.ahead i hi

/-- What the header loop does with a line that has a colon and continues none. -/
theorem parseHeader_line (h : Framed m n st) (hn : n ≤ limit)
    (hf : firstOf st.req.buffer st.req.bufferPosition st.nbytes newline = some pos) {col : Nat}
    (hat : (lineAt st pos col).At m n) :
    parseHeader env limit (st.afterLine pos) (lineAt st pos col).start (lineAt st pos col).len =
      st.read env limit m (lineAt st pos col) := by
  have hmax : requestMaxLength + 2 < sizeLimit := by decide
  have hroom := h.room
  have htotal := h.total
  have hpos := (firstOf_eq_some.mp hf).1
  obtain ⟨hcol, hlen, -⟩ := hat.inside
  have hstart : (lineAt st pos col).start = st.req.bufferPosition := rfl
  have hposition : (lineAt st pos col).pos = pos := rfl
  have hlength : (lineAt st pos col).len = lineLength st.req.buffer st.req.bufferPosition pos := rfl
  generalize lineAt st pos col = l at *
  have hraw : ∀ i, l.start ≤ i → i < l.start + l.len → (st.afterLine pos).req.buffer i = m i := by
    intro i hi hu
    exact afterLine_raw h (hstart ▸ hi) (hlength ▸ hstart ▸ hu)
  have hfresh : (st.afterLine pos).req.buffer l.start ≠ space ∧ (st.afterLine pos).req.buffer l.start ≠ tab := by
    rw [hraw l.start (Nat.le_refl _) (by omega)]
    exact hat.fresh
  have hcolon : firstOf (st.afterLine pos).req.buffer l.start l.len colon = some l.col := by
    rw [← hat.colon]
    exact firstOf_congr hraw
  have hname : slice (cutHeader (st.afterLine pos).req.buffer l.start l.len l.col) l.start l.col =
      slice m l.start l.col := by
    apply slice_congr
    intro i hi hu
    rw [cutHeader_of_ne (by omega) (by omega), hraw i hi (by omega)]
  have hkey : cstring (cutHeader (st.afterLine pos).req.buffer l.start l.len l.col) l.start (limit - l.start) =
      some (l.key m) := by
    have hslice : (slice m l.start l.col).length = l.col := slice_length _ _ _
    apply cstring_takeWhile (slice m l.start l.col)
    · rw [hslice, hname]
    · rw [hslice]
      exact cutHeader_colon _ _ _ _
    · rw [hslice]
      omega
  rw [parseHeader_eq (by omega) (by omega) hfresh hcolon hkey, HeaderScan.read, HeaderScan.cutAt, hposition]
  rfl

/-- A line at the cursor that has a colon and continues none is one in the bytes received. -/
theorem lineAt_of_colon (h : Framed m n st)
    (hf : firstOf st.req.buffer st.req.bufferPosition st.nbytes newline = some pos) {col : Nat}
    (hfresh : (st.afterLine pos).req.buffer st.req.bufferPosition ≠ space ∧
      (st.afterLine pos).req.buffer st.req.bufferPosition ≠ tab)
    (hcolon : firstOf (st.afterLine pos).req.buffer st.req.bufferPosition
      (lineLength st.req.buffer st.req.bufferPosition pos) colon = some col) : (lineAt st pos col).At m n := by
  have hcol := (firstOf_eq_some.mp hcolon).1
  obtain ⟨hnewline, hlength⟩ := h.raw
  refine ⟨hnewline.symm.trans hf, (hlength pos).symm, ?_, ?_⟩
  · rw [afterLine_raw h (Nat.le_refl _) (by omega)] at hfresh
    exact hfresh
  · change firstOf m st.req.bufferPosition (lineLength st.req.buffer st.req.bufferPosition pos) colon = some col
    rw [← hcolon]
    apply firstOf_congr
    intro i hi hu
    exact (afterLine_raw h hi hu).symm

theorem lineAt_of_parsed (h : Framed m n st)
    (hf : firstOf st.req.buffer st.req.bufferPosition st.nbytes newline = some pos)
    (hp : parseHeader env limit (st.afterLine pos) st.req.bufferPosition
      (lineLength st.req.buffer st.req.bufferPosition pos) = .ok st') :
    ∃ col, (lineAt st pos col).At m n := by
  have hmax : requestMaxLength + 2 < sizeLimit := by decide
  have hroom := h.room
  have htotal := h.total
  have hpos := (firstOf_eq_some.mp hf).1
  have hlen := lineLength_le st.req.buffer st.req.bufferPosition pos
  obtain ⟨col, key, hfresh, hcolon, -⟩ := parseHeader_named (by omega) (by omega) hp
  exact ⟨col, lineAt_of_colon h hf hfresh hcolon⟩

theorem lineAt_eq (h : Framed m n st) {l : HeaderLine} (hl : l.At m n) (hs : st.req.bufferPosition = l.start) :
    firstOf st.req.buffer st.req.bufferPosition st.nbytes newline = some l.pos ∧ lineAt st l.pos l.col = l := by
  obtain ⟨hnewline, hlength⟩ := h.raw
  refine ⟨hnewline.trans (hs ▸ hl.newline), ?_⟩
  rw [lineAt, hlength l.pos, hs, hl.length]

theorem Framed.read (h : Framed m n st) (hn : n ≤ limit) {l : HeaderLine} (hl : l.At m n)
    (hs : st.req.bufferPosition = l.start) (hp : st.read env limit m l = .ok st') :
    Framed m n st' ∧ st'.req.bufferPosition = l.next := by
  obtain ⟨hpos, hline⟩ := lineAt_eq h hl hs
  have hparse : parseHeader env limit (st.afterLine l.pos) st.req.bufferPosition
      (lineLength st.req.buffer st.req.bufferPosition l.pos) = _ := parseHeader_line h hn hpos (hline.symm ▸ hl)
  rw [hline, hp, ← hline] at hparse
  change parseHeader env limit (st.afterLine l.pos) st.req.bufferPosition
    (lineLength st.req.buffer st.req.bufferPosition l.pos) = .ok st' at hparse
  obtain ⟨hframed, posCol, hparsed⟩ := h.lineParsed hpos hparse
  refine ⟨hframed, ?_⟩
  have hposition : st'.req.bufferPosition = (st.afterLine l.pos).req.bufferPosition := by rw [hparsed.req]
  rw [hposition, afterLine_position, hs]
  rfl

/-- What is behind the colon of a line just cut is as received, but for the null byte at its end. -/
theorem cutAt_buffer (h : Framed m n st) {col i : Nat} (hi : st.req.bufferPosition ≤ i)
    (hne : i ≠ st.req.bufferPosition + col) :
    (st.cutAt (lineAt st pos col)).req.buffer i = Function.update m (lineAt st pos col).stop 0 i := by
  have hstop : (lineAt st pos col).stop = st.req.bufferPosition + lineLength st.req.buffer st.req.bufferPosition pos :=
    rfl
  change cutHeader (st.afterLine pos).req.buffer st.req.bufferPosition
    (lineLength st.req.buffer st.req.bufferPosition pos) col i = _
  rw [hstop]
  by_cases hend : i = st.req.bufferPosition + lineLength st.req.buffer st.req.bufferPosition pos
  · rw [hend, cutHeader_end, Function.update_self]
  · rw [cutHeader_of_ne hne hend, afterLine_buffer_of_ne st hend, h.ahead i hi]
    exact (Function.update_of_ne hend _ _).symm

/-- The header loop reads this string for the line's value. -/
theorem stringAt_value (h : Framed m n st) {col : Nat} {text : Bytes} :
    stringAt limit (st.cutAt (lineAt st pos col)).req.buffer (lineAt st pos col).value = .ok text ↔
      (lineAt st pos col).text limit m = some text := by
  rw [stringAt_eq_ok, HeaderLine.text_eq]
  intro i hi
  have hvalue : (lineAt st pos col).value = st.req.bufferPosition + col + 1 + 1 := rfl
  exact cutAt_buffer h (by omega) (by omega)

private theorem cutAt_cuts (h : Scanned env limit m n first keepalive lines st) {col i : Nat} (hi : first ≤ i) :
    (st.cutAt (lineAt st pos col)).req.buffer i = if i ∈ cuts (lines ++ [lineAt st pos col]) then 0 else m i := by
  have hmem : i ∈ cuts (lines ++ [lineAt st pos col]) ↔ i ∈ cuts lines ∨ i = st.req.bufferPosition + col ∨
      i = (lineAt st pos col).stop := by
    rw [cuts_concat, List.mem_append, List.mem_cons, List.mem_singleton]
    rfl
  change cutHeader (st.afterLine pos).req.buffer st.req.bufferPosition (lineAt st pos col).len col i = _
  by_cases hname : i = st.req.bufferPosition + col
  · rw [if_pos (hmem.mpr (.inr (.inl hname))), hname, cutHeader_colon]
  by_cases hend : i = (lineAt st pos col).stop
  · rw [if_pos (hmem.mpr (.inr (.inr hend))), hend]
    exact cutHeader_end _ _ _ _
  · rw [cutHeader_of_ne hname hend, afterLine_buffer_of_ne st hend, h.buffer i hi]
    congr 1
    rw [hmem, or_iff_left (not_or.mpr ⟨hname, hend⟩)]

theorem Scanned.line (h : Scanned env limit m n first keepalive lines st) (hf : Framed m n st) {col : Nat}
    (hat : (lineAt st pos col).At m n) (hp : st.read env limit m (lineAt st pos col) = .ok st') :
    Scanned env limit m n first keepalive (lines ++ [lineAt st pos col]) st' := by
  have hchain : Lines m n first (lines ++ [lineAt st pos col]) (lineAt st pos col).next := h.chain.snoc hat
  have hcut : Collected env limit m keepalive lines (st.cutAt (lineAt st pos col)) :=
    ⟨h.headers, h.few, h.host, h.hostLen, h.silent, h.connection, h.noLength, h.length⟩
  have hbuffer : ∀ i, first ≤ i → (st.cutAt (lineAt st pos col)).req.buffer i =
      if i ∈ cuts (lines ++ [lineAt st pos col]) then 0 else m i := fun _ hi => cutAt_cuts h hi
  rw [HeaderScan.read] at hp
  cases hk : (lineAt st pos col).known env m with
  | false =>
    rw [hk, if_neg Bool.false_ne_true] at hp
    obtain rfl := Except.ok.inj hp
    exact ⟨hcut.skip hk, hchain, hbuffer⟩
  | true =>
    rw [hk, if_pos rfl] at hp
    have hrecorded := recordHeader_ok hk hp
    have hreq := hrecorded.req
    have hread : ∀ text, stringAt limit (st.cutAt (lineAt st pos col)).req.buffer (lineAt st pos col).value = .ok text →
        (lineAt st pos col).text limit m = some text := fun text => (stringAt_value hf).mp
    have hheaders : st'.req.headers = (st.cutAt (lineAt st pos col)).req.headers ++
        [(lineAt st pos col).recorded env m] := by
      rw [hreq]
      rfl
    have hkept : Collected env limit m keepalive (lines ++ [lineAt st pos col]) st' :=
      hcut.keep hk hrecorded hheaders hread
    have hbuffer' : st'.req.buffer = (st.cutAt (lineAt st pos col)).req.buffer := by rw [hreq]
    have hposition : st'.req.bufferPosition = (lineAt st pos col).next := by
      rw [hreq]
      rfl
    exact ⟨hkept, hposition ▸ hchain, hbuffer' ▸ hbuffer⟩

theorem Framed.stringAt_line (h : Framed m n st) {l : HeaderLine} (hl : l.At m n)
    (hs : st.req.bufferPosition = l.start) {text : Bytes} (ht : l.text limit m = some text) :
    stringAt limit (st.cutAt l).req.buffer l.value = .ok text := by
  obtain ⟨-, hline⟩ := lineAt_eq h hl hs
  rw [← hline] at ht ⊢
  exact (stringAt_value h).mpr ht

theorem Framed.read_connection (h : Framed m n st) {l : HeaderLine} (hl : l.At m n)
    (hs : st.req.bufferPosition = l.start) (hroom : st.req.headers.length < requestMaxHeaders)
    (hname : NameIs (l.key m) (ascii "Connection")) {text : Bytes} (ht : l.text limit m = some text) :
    ∃ st', st.read env limit m l = .ok st' ∧ st'.req.headers.length = st.req.headers.length + 1 := by
  have hk : l.known env m = true := known_of_name hname (by simp [commonNames])
  have hfew : ¬ requestMaxHeaders ≤ (st.cutAt l).req.headers.length := Nat.not_le.mpr hroom
  have hhost : ¬ NameIs (l.key m) (ascii "Host") := hname.other (by decide)
  have hstring := h.stringAt_line hl hs ht
  rw [HeaderScan.read, if_pos hk, recordHeader_eq hk, if_neg hfew]
  dsimp only
  rw [if_neg hhost, if_pos hname, hstring]
  exact ⟨_, rfl, List.length_append⟩

/-- A length line is kept with the number that its value is taken for. -/
theorem Framed.read_length (h : Framed m n st) {l : HeaderLine} (hl : l.At m n)
    (hs : st.req.bufferPosition = l.start) (hroom : st.req.headers.length < requestMaxHeaders)
    (hname : NameIs (l.key m) (ascii "Content-Length")) {text : Bytes} (ht : l.text limit m = some text) :
    st.read env limit m l = orFault (toInteger env.float text) >>= fun number =>
      number.elim (.error (.reject 400 (ascii "bad content-length") ((st.cutAt l).keep (l.recorded env m)).req))
        (fun contentLength => .ok { (st.cutAt l).keep (l.recorded env m) with contentLength := contentLength }) := by
  have hk : l.known env m = true := known_of_name hname (by simp [commonNames])
  have hfew : ¬ requestMaxHeaders ≤ (st.cutAt l).req.headers.length := Nat.not_le.mpr hroom
  have hhost : ¬ NameIs (l.key m) (ascii "Host") := hname.other (by decide)
  have hconnection : ¬ NameIs (l.key m) (ascii "Connection") := hname.other (by decide)
  have htype : ¬ NameIs (l.key m) (ascii "Content-Type") := hname.other (by decide)
  have hstring := h.stringAt_line hl hs ht
  rw [HeaderScan.read, if_pos hk, recordHeader_eq hk, if_neg hfew]
  dsimp only
  rw [if_neg hhost, if_neg hconnection, if_neg htype, if_pos hname, hstring]
  rfl

theorem parseHeaders_line {fuel : Nat} (h : Framed m n st) (hn : n ≤ limit) {l : HeaderLine} (hl : l.At m n)
    (hs : st.req.bufferPosition = l.start) :
    parseHeaders env limit (fuel + 1) st = st.read env limit m l >>= parseHeaders env limit fuel := by
  have hmax : requestMaxLength + 2 < sizeLimit := by decide
  have hroom := h.room
  have htotal := h.total
  obtain ⟨hpos, hline⟩ := lineAt_eq h hl hs
  have hparse : parseHeader env limit (st.afterLine l.pos) st.req.bufferPosition
      (lineLength st.req.buffer st.req.bufferPosition l.pos) = _ := parseHeader_line h hn hpos (hline.symm ▸ hl)
  have hlen : lineLength st.req.buffer st.req.bufferPosition l.pos = l.len := congrArg HeaderLine.len hline
  have hcol := hl.inside.1
  rw [hline, hlen, hs] at hparse
  rw [parseHeaders, takeLine_eq hpos h.before (by omega), fault_ok_bind]
  dsimp only
  rw [hlen, if_neg (by omega), hs, hparse]

theorem parseHeaders_blank {fuel : Nat} (h : Framed m n st)
    (hpos : firstOf st.req.buffer st.req.bufferPosition st.nbytes newline = some pos)
    (hz : lineLength st.req.buffer st.req.bufferPosition pos = 0) :
    parseHeaders env limit (fuel + 1) st = .ok (st.afterLine pos) := by
  have hmax : requestMaxLength < sizeLimit := by decide
  have hroom := h.room
  have htotal := h.total
  rw [parseHeaders, takeLine_eq hpos h.before (by omega), fault_ok_bind]
  dsimp only
  rw [if_pos hz]

theorem parseHeaders_fold {fuel q : Nat} (h : Framed m n st) (hn : n ≤ limit)
    (hc : Lines m n st.req.bufferPosition lines q) :
    parseHeaders env limit (lines.length + fuel) st =
      lines.foldlM (HeaderScan.read env limit m) st >>= parseHeaders env limit fuel := by
  generalize hp : st.req.bufferPosition = p at hc
  induction hc generalizing st with
  | nil p =>
    rw [List.length_nil, Nat.zero_add]
    rfl
  | @cons l lines q here rest ih =>
    rw [List.length_cons, Nat.add_right_comm, parseHeaders_line h hn here hp, List.foldlM_cons, bind_assoc]
    cases hr : st.read env limit m l with
    | error stop => rfl
    | ok st1 =>
      obtain ⟨hframed, hposition⟩ := h.read hn here hp hr
      exact ih hframed hposition

theorem Framed.fold {q : Nat} (h : Framed m n st) (hn : n ≤ limit) (hc : Lines m n st.req.bufferPosition lines q)
    (hp : lines.foldlM (HeaderScan.read env limit m) st = .ok st') : Framed m n st' ∧ st'.req.bufferPosition = q := by
  generalize hpos : st.req.bufferPosition = p at hc
  induction hc generalizing st with
  | nil p =>
    obtain rfl := Except.ok.inj hp
    exact ⟨h, hpos⟩
  | @cons l lines q here rest ih =>
    rw [List.foldlM_cons] at hp
    obtain ⟨st1, hr, hp⟩ := bind_eq_ok.mp hp
    obtain ⟨hframed, hposition⟩ := h.read hn here hpos hr
    exact ih hframed hp hposition

/-- The header loop at its blank line, whose newline is `pos` behind the cursor. -/
structure Ended (env : Environment) (limit : Nat) (m : Memory) (n first : Nat) (keepalive : Bool)
    (lines : List HeaderLine) (st : HeaderScan) (pos : Nat) : Prop where
  scanned : Scanned env limit m n first keepalive lines st
  framed : Framed m n st
  newline : firstOf st.req.buffer st.req.bufferPosition st.nbytes newline = some pos
  blank : lineLength st.req.buffer st.req.bufferPosition pos = 0

/-- The header loop that returns has gone over lines, up to a blank one. -/
theorem parseHeaders_lines {fuel : Nat} (hn : n ≤ limit) (h : Scanned env limit m n first keepalive lines st)
    (hf : Framed m n st) (hp : parseHeaders env limit fuel st = .ok st') :
    ∃ all last pos, Ended env limit m n first keepalive all last pos ∧ st' = last.afterLine pos := by
  induction fuel generalizing st lines with
  | zero => cases hp
  | succ fuel ih =>
    obtain ⟨pos, hpos, ⟨hz, rfl⟩ | ⟨st1, hheader, hframed, -, hrest⟩⟩ := hf.turn hp
    · exact ⟨lines, st, pos, ⟨h, hf, hpos, hz⟩, rfl⟩
    · obtain ⟨col, hat⟩ := lineAt_of_parsed hf hpos hheader
      have hline := (parseHeader_line hf hn hpos hat).symm.trans hheader
      exact ih (h.line hf hat hline) hframed hrest

end Turn

theorem Scanned.start (env : Environment) (limit : Nat) {m : Memory} {req : Request} (n nbytes : Nat)
    (h : ∀ i, req.bufferPosition ≤ i → req.buffer i = m i) :
    Scanned env limit m n req.bufferPosition req.keepalive [] (.start req nbytes) := by
  refine ⟨⟨rfl, ?_, rfl, rfl, fun _ => rfl, fun l hl => ?_, fun _ => rfl, fun l hl => ?_⟩, .nil _, h⟩
  · exact Nat.zero_le _
  · cases hl
  · cases hl

end CFlare.Http
