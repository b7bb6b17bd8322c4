import CFlare.Http.HeaderLines
import CFlare.Http.RequestText

/-! A request as it stands in the bytes received: a request line, header lines and a blank line.
Every field that parsing leaves is said of these, the buffer included. -/
namespace CFlare.Http
open CFlare.Library CFlare.Network

/-- The lengths of the request line's parts, the header lines, and where the blank line is. -/
structure Block where
  method : Nat
  path : Nat
  version : Nat
  lines : List HeaderLine
  blank : Nat
  deriving DecidableEq, Repr

/-- The path of a request target, as a string: what is in front of its question mark and its null byte. -/
def pathOf (target : Bytes) : Bytes := (target.takeWhile (· ≠ questionMark)).takeWhile (· ≠ 0)

namespace Block
variable (env : Environment) (m : Memory) (k : Block)

def pathStart : Nat := k.method + 1
def versionStart : Nat := k.pathStart + k.path + 1
def firstLine : Nat := k.versionStart + k.version + 1

def pathLen : Nat := (firstOf m k.pathStart k.path questionMark).getD k.path

def versionLen : Nat := lineLength m k.versionStart k.version

/-- The block is the one that `n` bytes start with. -/
structure In (m : Memory) (n : Nat) (k : Block) : Prop where
  marks : LineMarks m n k.method k.path k.version
  chain : Lines m n k.firstLine k.lines k.blank
  blank : BlankAt m n k.blank

/-- Where parsing writes null bytes. -/
def zeros : List Nat :=
  [k.method, k.pathStart + k.path, k.pathStart + k.pathLen m, k.versionStart + k.versionLen m] ++
    cuts k.lines ++ [k.blank]

/-- The bytes received, with the separators overwritten. -/
def memory : Memory := fun i => if i ∈ k.zeros m then 0 else m i

/-- The path, as the string that it is. -/
def pathText : Bytes := (slice m k.pathStart (k.pathLen m)).takeWhile (· ≠ 0)

def hostLine : Option HeaderLine := lastNamed env m (ascii "Host") k.lines

def hostLen : Nat := ((k.hostLine env m).map HeaderLine.valueLen).getD 0

/-- The two numbers of the version, wherever they are. -/
def major : UInt8 := k.memory m (k.versionStart + 5)
def minor : UInt8 := k.memory m (k.versionStart + 7)

/-- Where the authority is in an HTTP/1.2 request's path. -/
def hostPart : Option Nat :=
  if k.minor m = 50 then (occurrence (k.pathText m) (ascii "://")).map (fun protocol => k.pathStart + protocol + 3)
  else none

end Block

/-- The bytes from `low` on, each moved down by one, with a null byte at `last`. -/
def pulled (m : Memory) (low last : Nat) : Memory := fun i =>
  if i = last then 0 else if low ≤ i ∧ i < last then m (i + 1) else m i

/-- The buffer that the hook finds: an authority is moved, over the length of the last host header. -/
def Block.handed (env : Environment) (m : Memory) (k : Block) : Memory :=
  (k.hostPart m).elim (k.memory m)
    (fun hostPart => pulled (k.memory m) (hostPart - 1) (hostPart - 1 + k.hostLen env m))

section Pulled
variable {m : Memory} {low last i : Nat}

theorem pulled_last : pulled m low last last = 0 := if_pos rfl

theorem pulled_inside (hl : low ≤ i) (hu : i < last) : pulled m low last i = m (i + 1) := by
  rw [pulled, if_neg (Nat.ne_of_lt hu), if_pos ⟨hl, hu⟩]

theorem pulled_behind (h : last < i) : pulled m low last i = m i := by
  rw [pulled, if_neg (Nat.ne_of_gt h), if_neg (fun hin => Nat.lt_asymm h hin.2)]

theorem movedAuthority_buffer (st : HeaderScan) {hostPart : Nat} (hostPartLen : Nat) (h : 0 < hostPart) :
    (movedAuthority st hostPart hostPartLen).req.buffer =
      pulled st.req.buffer (hostPart - 1) (hostPart - 1 + st.hostLen) := by
  funext i
  change Function.update (store st.req.buffer (hostPart - 1) (slice st.req.buffer hostPart st.hostLen))
    (hostPart - 1 + st.hostLen) 0 i = _
  by_cases hlast : i = hostPart - 1 + st.hostLen
  · rw [hlast, Function.update_self, pulled_last]
  rw [Function.update_of_ne hlast]
  by_cases hin : hostPart - 1 ≤ i ∧ i < hostPart - 1 + st.hostLen
  · obtain ⟨j, rfl⟩ := Nat.exists_eq_add_of_le hin.1
    have hj : j < (slice st.req.buffer hostPart st.hostLen).length := by
      rw [slice_length]
      omega
    have hbyte := slice_getElem? st.req.buffer hostPart st.hostLen j (by omega)
    rw [store_at hj, pulled_inside hin.1 hin.2]
    rw [List.getElem?_eq_getElem hj] at hbyte
    rw [Option.some.inj hbyte]
    congr 1
    omega
  · rw [pulled, if_neg hlast, if_neg hin]
    rcases Nat.lt_or_ge i (hostPart - 1) with hlt | hge
    · exact store_before hlt
    · apply store_after
      rw [slice_length]
      omega

end Pulled

section Authority
variable {limit : Nat} {st : HeaderScan}

theorem parseAuthority_eq {path : Bytes} (h : cstring st.req.buffer st.req.path (limit - st.req.path) = some path) :
    parseAuthority limit st = (occurrence path (ascii "://")).elim (.ok st) (fun protocol =>
      (occurrence (path.drop (protocol + 3)) (ascii "/")).elim (.error (.fault .undefined)) (fun hostPartLen =>
        if limit < st.req.path + protocol + 3 + st.hostLen then .error (.fault .overrun)
        else .ok (movedAuthority st (st.req.path + protocol + 3) hostPartLen))) := by
  rw [parseAuthority, stringAt_eq_ok.mpr h, fault_ok_bind]
  cases hp : occurrence path (ascii "://") with
  | none => rfl
  | some protocol =>
    have hle : protocol + 3 ≤ path.length := occurrence_le hp
    have htext := cstring_drop h hle
    rw [← Nat.add_assoc, Nat.sub_sub, ← Nat.add_assoc] at htext
    rw [Option.elim_some]
    dsimp only
    rw [stringAt_eq_ok.mpr htext, fault_ok_bind]
    cases occurrence (path.drop (protocol + 3)) (ascii "/") with
    | none => rfl
    | some hostPartLen => rfl

end Authority

/-- What parsing leaves of a block, before the version is looked at. -/
structure BlockParsed (env : Environment) (limit : Nat) (m : Memory) (n : Nat) (keepalive : Bool) (k : Block)
    (st : HeaderScan) : Prop extends Collected env limit m keepalive k.lines st where
  block : k.In m n
  buffer : st.req.buffer = k.memory m
  path : st.req.path = k.pathStart
  pathLen : st.req.pathLen = k.pathLen m
  version : st.req.version = k.versionStart
  framed : Framed m n st

section Parsing
variable {env : Environment} {limit n : Nat} {m : Memory} {keepalive : Bool} {k : Block} {st st' : HeaderScan}

theorem QueryParsed.pathLen_eq {path b : Nat} {req : Request} (h : QueryParsed m path b req) :
    req.pathLen = (firstOf m path b questionMark).getD b := by
  unfold QueryParsed at h
  cases hf : firstOf m path b questionMark with
  | none =>
    rw [hf] at h
    exact h.2.2
  | some q =>
    rw [hf] at h
    exact h.2.2

theorem Block.pathLen_le (k : Block) (m : Memory) : k.pathLen m ≤ k.path := by
  unfold Block.pathLen
  cases hf : firstOf m k.pathStart k.path questionMark with
  | none => exact Nat.le_refl _
  | some q => exact (firstOf_eq_some.mp hf).1.le

theorem Block.pathText_eq {target : Bytes} (h : slice m k.pathStart k.path = target) : k.pathText m = pathOf target := by
  rw [Block.pathText, Block.pathLen, slice_firstOf, h, pathOf]

theorem Block.In.unique {k' : Block} (h : k.In m n) (h' : k'.In m n) : k = k' := by
  obtain ⟨method, path, version, lines, blank⟩ := k
  obtain ⟨method', path', version', lines', blank'⟩ := k'
  obtain ⟨rfl, rfl, rfl⟩ := h.marks.unique h'.marks
  obtain ⟨rfl, rfl⟩ := h.chain.unique h.blank h'.chain h'.blank
  rfl

/-- Only the request line's null bytes are in front of the header lines. -/
theorem Block.In.zeros_before (h : k.In m n) {i : Nat} (hi : i < k.firstLine) :
    i ∈ k.zeros m ↔ i = k.method ∨ i = k.pathStart + k.path ∨ i = k.pathStart + k.pathLen m ∨
      i = k.versionStart + k.versionLen m := by
  obtain ⟨hle, hlines⟩ := h.chain.bounds
  have hcuts : i ∉ cuts k.lines := by
    intro hmem
    obtain ⟨l, hl, hcut⟩ := mem_cuts.mp hmem
    have hstart := (hlines l hl).2.1
    rcases hcut with rfl | rfl
    · omega
    · unfold HeaderLine.stop at hi
      omega
  have hblank : i ≠ k.blank := by omega
  simp only [Block.zeros, List.mem_append, List.mem_cons, List.not_mem_nil, or_false, hcuts, hblank]

theorem Block.zeros_behind (k : Block) (m : Memory) {i : Nat} (hi : k.firstLine ≤ i) :
    i ∈ k.zeros m ↔ i ∈ cuts k.lines ∨ i = k.blank := by
  have hpath := k.pathLen_le m
  have hversion := lineLength_le m k.versionStart k.version
  simp only [Block.firstLine, Block.versionStart, Block.pathStart] at hi hversion
  have hmethod : i ≠ k.method := by omega
  have hspace : i ≠ k.pathStart + k.path := by
    unfold Block.pathStart
    omega
  have hquery : i ≠ k.pathStart + k.pathLen m := by
    unfold Block.pathStart
    omega
  have hend : i ≠ k.versionStart + k.versionLen m := by
    simp only [Block.versionStart, Block.pathStart, Block.versionLen]
    omega
  simp only [Block.zeros, List.mem_append, List.mem_cons, List.not_mem_nil, or_false, hmethod, hspace, hquery, hend,
    false_or]

private theorem lineEnd_char {line len pos : Nat} (h : firstOf m line len newline = some pos) :
    m (line + lineLength m line pos) = newline ∨ m (line + lineLength m line pos) = carriageReturn := by
  unfold lineLength
  split
  · next hreturn =>
    right
    rw [← Nat.add_sub_assoc hreturn.1]
    exact hreturn.2
  · exact .inl (firstOf_eq_some.mp h).2.1

theorem Block.In.zeros_char (h : k.In m n) {i : Nat} (hi : k.firstLine ≤ i) (hz : i ∈ k.zeros m) :
    m i = colon ∨ m i = newline ∨ m i = carriageReturn := by
  obtain ⟨-, hlines⟩ := h.chain.bounds
  rcases (k.zeros_behind m hi).mp hz with hcut | rfl
  · obtain ⟨l, hl, rfl | rfl⟩ := mem_cuts.mp hcut
    · exact .inl (firstOf_eq_some.mp (hlines l hl).1.colon).2.1
    · have hat := (hlines l hl).1
      have hend := lineEnd_char hat.newline
      rw [hat.length] at hend
      exact .inr hend
  · obtain ⟨pos, hpos, hblank⟩ := h.blank
    have hend := lineEnd_char hpos
    rw [hblank] at hend
    exact .inr hend

/-- The string at a value is cut where the separators behind it are overwritten. -/
theorem Block.In.text_cut (h : k.In m n) {l : HeaderLine} (hl : l ∈ k.lines) {text : Bytes}
    (ht : l.text limit m = some text) :
    ∃ d, d ≤ text.length ∧ cstring (k.memory m) l.value (limit - l.value) = some (text.take d) ∧
      (∀ j < d, l.value + j ∉ k.zeros m) ∧ (d < text.length → l.value + d ∈ k.zeros m) := by
  obtain ⟨-, hlines⟩ := h.chain.bounds
  have hfirst := (hlines l hl).2.1
  have hstart : l.value = l.start + l.col + 1 + 1 := rfl
  have hstop : l.stop ∈ k.zeros m :=
    (k.zeros_behind m (hfirst.trans (Nat.le_add_right _ _))).mpr (.inl (mem_cuts.mpr ⟨l, hl, .inr rfl⟩))
  have hcut : ∀ i, l.value ≤ i → k.memory m i = 0 ∨ k.memory m i = Function.update m l.stop 0 i := by
    intro i _
    by_cases hz : i ∈ k.zeros m
    · exact .inl (if_pos hz)
    · right
      have hne : i ≠ l.stop := fun he => hz (he ▸ hstop)
      rw [Function.update_of_ne hne]
      exact if_neg hz
  obtain ⟨d, hd, hstring, hsame, hend⟩ := cstring_cut ht hcut
  refine ⟨d, hd, hstring, fun j hj hz => ?_, fun hlt => ?_⟩
  · apply (cstring_byte ht (hj.trans_le hd)).2
    rw [← hsame j hj]
    exact if_pos hz
  · obtain ⟨hnull, hbyte⟩ := hend hlt
    by_contra hz
    have hraw : k.memory m (l.value + d) = m (l.value + d) := if_neg hz
    have hne : l.value + d ≠ l.stop := fun he => hz (he ▸ hstop)
    rw [Function.update_of_ne hne] at hbyte
    exact hbyte (hraw.symm.trans hnull)

/-- A block that was parsed is one of the bytes received, and the buffer has its separators overwritten. -/
theorem parseHeaderBlock_block {req : Request} (hstart : req.bufferPosition = 0) (hn : n ≤ requestMaxLength)
    (hlimit : n ≤ limit) (h : parseHeaderBlock env limit req n = .ok st) :
    ∃ k, BlockParsed env limit req.buffer n req.keepalive k st := by
  obtain ⟨a, b, c, req', hmarks, hparsed, hkeep, hloop⟩ := parseHeaderBlock_ok hstart hn h
  have hframed := hparsed.framed hn hmarks
  have hscanned := Scanned.start env limit n (n - (a + 1) - (b + 1) - (c + 1)) hframed.ahead
  obtain ⟨lines, last, pos, hended, hst⟩ := parseHeaders_lines hlimit hscanned hframed hloop
  obtain ⟨hspans, hbytes⟩ := parseHeaders_keeps hframed hloop
  have hspans := lineSpans_eq.mp hspans
  have hposition : (HeaderScan.start req' (n - (a + 1) - (b + 1) - (c + 1))).req.bufferPosition =
    a + 1 + b + 1 + c + 1 := hparsed.position
  rw [hposition] at hbytes hended
  have hcollected := hended.scanned.toCollected
  change Collected env limit req.buffer req'.keepalive lines last at hcollected
  rw [hkeep] at hcollected
  obtain ⟨hnewline, hblank⟩ := hended.framed.raw
  have hin : Block.In req.buffer n ⟨a, b, c, lines, last.req.bufferPosition⟩ :=
    ⟨hmarks, hended.scanned.chain, pos, hnewline.symm.trans hended.newline, (hblank pos).symm.trans hended.blank⟩
  have hpathLen : req'.pathLen = Block.pathLen req.buffer ⟨a, b, c, lines, last.req.bufferPosition⟩ :=
    hparsed.query.pathLen_eq
  have hversion : req'.version + req'.versionLen = Block.versionStart ⟨a, b, c, lines, last.req.bufferPosition⟩ +
      Block.versionLen req.buffer ⟨a, b, c, lines, last.req.bufferPosition⟩ := by
    rw [hparsed.version, hparsed.versionLen]
    rfl
  refine ⟨⟨a, b, c, lines, last.req.bufferPosition⟩, ?_, hin, ?_, hspans.2.2.1.trans hparsed.path,
    hspans.2.2.2.1.trans hpathLen, hspans.2.2.2.2.2.1.trans hparsed.version, (parseHeaders_framed hframed hloop).1⟩
  · rw [hst]
    exact ⟨hcollected.headers, hcollected.few, hcollected.host, hcollected.hostLen, hcollected.silent,
      hcollected.connection, hcollected.noLength, hcollected.length⟩
  · funext i
    rw [Block.memory]
    rcases Nat.lt_or_ge i (a + 1 + b + 1 + c + 1) with hi | hi
    · have hzeros := hin.zeros_before (i := i) hi
      rw [hbytes i hi]
      change req'.buffer i = _
      split
      · next hmem =>
        rcases hzeros.mp hmem with rfl | rfl | hquery | hend
        · exact hparsed.nulls.1
        · exact hparsed.nulls.2.1
        · rw [hquery, ← hpathLen]
          exact hparsed.nulls.2.2.1
        · rw [hend, ← hversion]
          exact hparsed.nulls.2.2.2
      · next hmem =>
        simp only [hzeros, not_or] at hmem
        obtain ⟨h1, h2, h3, h4⟩ := hmem
        exact hparsed.kept i h1 h2 (hpathLen ▸ h3) (hversion ▸ h4)
    · have hzeros := Block.zeros_behind ⟨a, b, c, lines, last.req.bufferPosition⟩ req.buffer hi
      have hstop : last.req.bufferPosition + lineLength last.req.buffer last.req.bufferPosition pos =
          last.req.bufferPosition := by rw [hended.blank, Nat.add_zero]
      rw [hst]
      by_cases hat : i = last.req.bufferPosition
      · rw [if_pos (hzeros.mpr (.inr hat)), hat]
        change Function.update last.req.buffer _ 0 last.req.bufferPosition = 0
        rw [hstop, Function.update_self]
      · rw [afterLine_buffer_of_ne last (by rwa [hstop]), hended.scanned.buffer i hi]
        congr 1
        rw [hzeros, or_iff_left hat]

theorem parseHeaderBlock_fold (env : Environment) {req : Request} (hstart : req.bufferPosition = 0)
    (hn : n ≤ requestMaxLength) (hlimit : n ≤ limit) (hk : k.In req.buffer n) :
    ∃ req' nbytes pos, LineParsed req.buffer k.method k.path k.version req' ∧ req'.keepalive = req.keepalive ∧
      Framed req.buffer n (.start req' nbytes) ∧
      parseHeaderBlock env limit req n =
        k.lines.foldlM (HeaderScan.read env limit req.buffer) (.start req' nbytes) >>= fun st =>
          .ok (st.afterLine pos) := by
  have hmax : requestMaxLength < sizeLimit := by decide
  obtain ⟨pos, hpos, hblank⟩ := hk.blank
  have hlt := (firstOf_eq_some.mp hpos).1
  have hinside := hk.marks.inside
  have hlines := hk.chain.length_le
  obtain ⟨req', hline, hparsed, hkeep⟩ := parseRequestLine_of_marks hstart (by omega) hk.marks
  have hframed := hparsed.framed hn hk.marks
  have hposition : (HeaderScan.start req' (n - (k.method + 1) - (k.path + 1) - (k.version + 1))).req.bufferPosition =
    k.firstLine := hparsed.position
  have hfirst : k.firstLine = k.method + 1 + k.path + 1 + k.version + 1 := rfl
  obtain ⟨fuel, hfuel⟩ : ∃ fuel, n - (k.method + 1) - (k.path + 1) - (k.version + 1) + 1 = k.lines.length + (fuel + 1) :=
    ⟨n - (k.method + 1) - (k.path + 1) - (k.version + 1) - k.lines.length, by omega⟩
  refine ⟨req', _, pos, hparsed, hkeep, hframed, ?_⟩
  rw [parseHeaderBlock, hline, fault_ok_bind]
  dsimp only
  rw [hfuel, parseHeaders_fold hframed hlimit (hposition.symm ▸ hk.chain)]
  cases hread : k.lines.foldlM (HeaderScan.read env limit req.buffer)
    (.start req' (n - (k.method + 1) - (k.path + 1) - (k.version + 1))) with
  | error stop => rfl
  | ok st =>
    obtain ⟨hend, hat⟩ := hframed.fold hlimit (hposition.symm ▸ hk.chain) hread
    obtain ⟨hraw, hlength⟩ := hend.raw
    apply parseHeaders_blank hend
    · rw [hraw, hat, hpos]
    · rw [hlength, hat, hblank]

theorem BlockParsed.pathText (h : BlockParsed env limit m n keepalive k st) (hlimit : n ≤ limit) :
    cstring st.req.buffer st.req.path (limit - st.req.path) = some (k.pathText m) := by
  have hinside := h.block.marks.inside
  have hle := k.pathLen_le m
  have hlen : (slice m k.pathStart (k.pathLen m)).length = k.pathLen m := slice_length _ _ _
  have hstart : k.pathStart = k.method + 1 := rfl
  have hline : k.firstLine = k.pathStart + k.path + 1 + k.version + 1 := rfl
  rw [h.buffer, h.path]
  apply cstring_takeWhile
  · rw [hlen]
    apply slice_congr
    intro i hi hu
    have hnone : i ∉ k.zeros m := by
      rw [h.block.zeros_before (by omega)]
      simp only [Block.versionStart, not_or]
      omega
    exact if_neg hnone
  · rw [hlen]
    exact if_pos ((h.block.zeros_before (by omega)).mpr (.inr (.inr (.inl rfl))))
  · rw [hlen]
    omega

theorem BlockParsed.version_eq (h : BlockParsed env limit m n keepalive k st) :
    checkVersion limit st =
      if limit ≤ k.versionStart + 7 then .error (.fault .overrun)
      else if k.major m ≠ 49 then .error (.reject 400 (ascii "HTTP version not supported") st.req)
      else if k.minor m = 49 then
        if k.hostLine env m = none then .error (.reject 400 (ascii "HTTP version requires host") st.req) else .ok st
      else if k.minor m = 50 then parseAuthority limit st
      else .ok { st with req := { st.req with keepalive := false } } := by
  have hmajor : st.req.buffer (st.req.version + 5) = k.major m := by rw [h.buffer, h.version, Block.major]
  have hminor : st.req.buffer (st.req.version + 7) = k.minor m := by rw [h.buffer, h.version, Block.minor]
  have hhost : st.host = none ↔ k.hostLine env m = none := by
    rw [h.host, Option.map_eq_none_iff]
    rfl
  unfold checkVersion byteAt
  rw [hmajor, hminor, h.version]
  by_cases hinside : limit ≤ k.versionStart + 7
  · rw [if_pos hinside, if_neg (Nat.not_lt.mpr hinside)]
    by_cases hfive : k.versionStart + 5 < limit
    · rw [if_pos hfive]
      rfl
    · rw [if_neg hfive]
      rfl
  · rw [if_neg hinside, if_pos (by omega), if_pos (by omega), fault_ok_bind, fault_ok_bind]
    simp only [hhost]

/-- A block of version 1.1 with a host passes, if its header lines do. -/
theorem Block.In.passes {req : Request} (hk : k.In req.buffer n) (hstart : req.bufferPosition = 0)
    (hn : n ≤ requestMaxLength) (hlimit : n ≤ limit) (hinside : k.versionStart + 7 < limit)
    (hversion : k.major req.buffer = 49 ∧ k.minor req.buffer = 49) (hhost : k.hostLine env req.buffer ≠ none)
    (hlines : ∀ st, st.req.headers = [] → ∃ st', k.lines.foldlM (HeaderScan.read env limit req.buffer) st = .ok st') :
    ∃ st, parsePhases env limit req n = .ok st := by
  obtain ⟨req', nbytes, pos, -, -, -, hfold⟩ := parseHeaderBlock_fold env hstart hn hlimit hk
  obtain ⟨last, hlast⟩ := hlines (.start req' nbytes) rfl
  rw [hlast, fault_ok_bind] at hfold
  obtain ⟨k', hparsed⟩ := parseHeaderBlock_block hstart hn hlimit hfold
  obtain rfl := hparsed.block.unique hk
  have hcheck := hparsed.version_eq
  rw [if_neg (Nat.not_le.mpr hinside), if_neg (not_not.mpr hversion.1), if_pos hversion.2, if_neg hhost] at hcheck
  refine ⟨last.afterLine pos, ?_⟩
  rw [parsePhases_eq, hfold]
  exact hcheck

/-- The version check moves the authority, and keeps what the headers gave. -/
theorem BlockParsed.handed (h : BlockParsed env limit m n keepalive k st) (hlimit : n ≤ limit)
    (hc : checkVersion limit st = .ok st') :
    st'.req.buffer = k.handed env m ∧ st'.req.headers = st.req.headers ∧ st'.contentLength = st.contentLength := by
  obtain ⟨-, -, hpassed⟩ := checkVersion_ok hc
  have hminor : st.req.buffer (st.req.version + 7) = k.minor m := by rw [h.buffer, h.version, Block.minor]
  have hstay : k.hostPart m = none → st.req.buffer = k.handed env m := by
    intro hnone
    rw [Block.handed, hnone, h.buffer]
    rfl
  cases hpassed with
  | host minor given =>
    refine ⟨hstay ?_, rfl, rfl⟩
    rw [Block.hostPart, if_neg]
    rw [← hminor, minor]
    decide
  | close minor =>
    refine ⟨hstay ?_, rfl, rfl⟩
    rw [Block.hostPart, if_neg]
    rw [← hminor]
    exact minor.2
  | authority minor parsed =>
    rw [hminor] at minor
    rw [parseAuthority_eq (h.pathText hlimit)] at parsed
    cases hp : occurrence (k.pathText m) (ascii "://") with
    | none =>
      rw [hp] at parsed
      obtain rfl := Except.ok.inj parsed
      refine ⟨hstay ?_, rfl, rfl⟩
      rw [Block.hostPart, if_pos minor, hp]
      rfl
    | some protocol =>
      rw [hp, Option.elim_some] at parsed
      cases hs : occurrence ((k.pathText m).drop (protocol + 3)) (ascii "/") with
      | none =>
        rw [hs] at parsed
        cases parsed
      | some hostPartLen =>
        rw [hs, Option.elim_some] at parsed
        split at parsed
        · cases parsed
        · obtain rfl := Except.ok.inj parsed
          refine ⟨?_, rfl, rfl⟩
          rw [movedAuthority_buffer st hostPartLen (Nat.succ_pos _), Block.handed, Block.hostPart, if_pos minor, hp, h.path,
            h.buffer, h.hostLen]
          rfl

/-- A request that arrived is a block of the bytes received. -/
theorem Arrived.headerBlock {req req' : Request} {sock sock' : Socket} {bytes : Bytes}
    (h : Arrived env req sock bytes st' req' sock') :
    ∃ k st, BlockParsed env requestMaxLength (filled req bytes).buffer bytes.length true k st ∧
      checkVersion requestMaxLength st = .ok st' := by
  have hphases := h.phases
  rw [parsePhases_eq] at hphases
  obtain ⟨st, hblock, hversion⟩ := bind_eq_ok.mp hphases
  obtain ⟨k, hparsed⟩ := parseHeaderBlock_block (filled_position req bytes) h.short.le h.short.le hblock
  exact ⟨k, st, hparsed, hversion⟩

/-- A block of version 1.1 with a host arrives, if its lines ask for no number and no connection. -/
theorem Block.In.arrives {req : Request} {sock : Socket} {bytes : Bytes} (hk : k.In (filled req bytes).buffer bytes.length)
    (hreads : Fragmented sock bytes) (hend : blockEnd 0 bytes = some bytes.length)
    (hshort : bytes.length < requestMaxLength)
    (hinside : k.versionStart + 7 < requestMaxLength)
    (hversion : k.major (filled req bytes).buffer = 49 ∧ k.minor (filled req bytes).buffer = 49)
    (hhost : k.hostLine env (filled req bytes).buffer ≠ none) (hfew : k.lines.length ≤ requestMaxHeaders)
    (hplain : ∀ l ∈ k.lines, ¬ NameIs (l.key (filled req bytes).buffer) (ascii "Connection") ∧
      ¬ NameIs (l.key (filled req bytes).buffer) (ascii "Content-Length")) :
    ∃ st req' sock', requestArrive env req sock = .ok (.ready req' sock') ∧
      Arrived env req sock bytes st req' sock' := by
  have hlines : ∀ st, st.req.headers = [] →
      ∃ st', k.lines.foldlM (HeaderScan.read env requestMaxLength (filled req bytes).buffer) st = .ok st' := by
    intro st hnone
    apply lines_plain _ hplain
    rw [hnone, List.length_nil, Nat.zero_add]
    exact hfew
  obtain ⟨st, hst⟩ := hk.passes rfl hshort.le hshort.le hinside hversion hhost hlines
  exact ⟨st, hreads.arrived hend hshort hst⟩

end Parsing

end CFlare.Http
