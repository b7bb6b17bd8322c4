import CFlare.Http.RequestArrival
import CFlare.Library.Simulation

/-! Two parses side by side. The first has a buffer of `l` bytes; the second has the same bytes
in front, `d` more received ones, and whatever else behind them. They agree phase by phase as
long as the first one neither leaves its buffer nor misses a separator that might be further on. -/
namespace CFlare.Http
open CFlare.Library CFlare.Network

/-- Two stops with the same answer to the client. -/
inductive SameStop : Stop → Stop → Prop where
  | fault (fault : Fault) : SameStop (.fault fault) (.fault fault)
  | reject (status : UInt32) (message : Bytes) (req req' : Request) :
      SameStop (.reject status message req) (.reject status message req')

theorem SameStop.span (stop stop₁ stop₂ : Stop) (h₁ : SameStop stop stop₁) (h₂ : SameStop stop stop₂) :
    SameStop stop₁ stop₂ := by
  cases h₁ with
  | fault fault =>
    cases h₂ with
    | fault => exact .fault fault
  | reject status message req req₁ =>
    cases h₂ with
    | reject _ _ _ req₂ => exact .reject status message req₁ req₂

theorem SameStop.refl (stop : Stop) : SameStop stop stop := by
  cases stop with
  | fault fault => exact .fault fault
  | reject status message req => exact .reject status message req req

/-- A separator was looked for in all the bytes received, and not found. -/
inductive Stop.Unfound : Stop → Prop where
  | method (req : Request) : Unfound (.reject 400 (ascii "invalid request") req)
  | path (req : Request) : Unfound (.reject 414 (ascii "request URI too long") req)
  | version (req : Request) : Unfound (.reject 400 (ascii "invalid version") req)
  | line (req : Request) : Unfound (.reject 400 (ascii "invalid header 1") req)

/-- Two requests with counts of bytes still to parse: the first one's bytes are those below `l`. -/
structure Follows (d l : Nat) (a b : Request × Nat) : Prop where
  memory : ∀ i < l, a.1.buffer i = b.1.buffer i
  position : a.1.bufferPosition = b.1.bufferPosition
  room : a.1.bufferPosition + a.2 ≤ l
  rest : b.2 = a.2 + d
  keepalive : a.1.keepalive = b.1.keepalive

structure FollowsMethod (d l : Nat) (a b : Request × Nat) : Prop extends Follows d l a b where
  method : a.1.method = b.1.method
  methodLen : a.1.methodLen = b.1.methodLen

structure FollowsPath (d l : Nat) (a b : Request × Nat) : Prop extends FollowsMethod d l a b where
  path : a.1.path = b.1.path
  pathLen : a.1.pathLen = b.1.pathLen
  query : a.1.query = b.1.query
  queryLen : a.1.queryLen = b.1.queryLen

structure FollowsLine (d l : Nat) (a b : Request × Nat) : Prop extends Follows d l a b where
  spans : lineSpans a.1 = lineSpans b.1

section Memories
variable {m m' : Memory} {l : Nat}

theorem update_agree (h : ∀ i < l, m i = m' i) (j : Nat) :
    ∀ i < l, Function.update m j 0 i = Function.update m' j 0 i := by
  intro i hi
  by_cases hij : i = j
  · rw [hij, Function.update_self, Function.update_self]
  · rw [Function.update_of_ne hij, Function.update_of_ne hij, h i hi]

private theorem endLine_agree {m m' : Memory} (h : ∀ i < l, m i = m' i) {line pos : Nat} (hl : line + pos < l) :
    (∀ i < l, (endLine m line pos).1 i = (endLine m' line pos).1 i) ∧
      (endLine m line pos).2 = (endLine m' line pos).2 := by
  unfold endLine
  rw [h (line + pos - 1) (by omega)]
  split
  · exact ⟨update_agree h _, rfl⟩
  · exact ⟨update_agree h _, rfl⟩

/-- A string that ends below `l` is read alike; where none does, either that is bad already, or
there is no null byte further on. -/
theorem stringAt_agrees {bad : Stop → Prop} {l' : Nat} (h : ∀ i < l, m i = m' i) (hl : l ≤ l')
    (hs : bad (.fault .overrun) ∨ ∀ i, l ≤ i → i < l' → m' i ≠ 0) (start : Nat) :
    Agrees bad SameStop Eq (stringAt l m start) (stringAt l' m' start) := by
  unfold stringAt
  cases hc : cstring m start (l - start) with
  | none =>
    rcases hs with hbad | hs
    · exact .bad hbad
    · have hnone : cstring m' start (l' - start) = none := by
        rw [cstring_eq_none] at hc ⊢
        intro i hi
        rcases Nat.lt_or_ge (start + i) l with hlt | hge
        · rw [← h _ hlt]
          exact hc i (by omega)
        · exact hs _ hge (by omega)
      rw [hnone]
      exact .error (.fault _)
  | some text =>
    have hnull : ∃ z, start ≤ z ∧ z < l ∧ m z = 0 := by
      by_contra hno
      have hall : ∀ i < l - start, m (start + i) ≠ 0 := fun i hi hz =>
        hno ⟨start + i, Nat.le_add_right _ _, by omega, hz⟩
      rw [← cstring_eq_none, hc] at hall
      cases hall
    have hsame : cstring m start (l - start) = cstring m' start (l' - start) :=
      cstring_congr (fun i _ hi => h i hi) hnull (by omega) (by omega)
    rw [← hsame, hc]
    exact .ok rfl

end Memories

section RequestLine
variable {d l : Nat} {a b : Request × Nat} {bad : Stop → Prop}

theorem Follows.firstOf_some (h : Follows d l a b) {value : UInt8} {k : Nat}
    (hf : firstOf a.1.buffer a.1.bufferPosition a.2 value = some k) :
    firstOf b.1.buffer b.1.bufferPosition b.2 value = some k := by
  have hroom := h.room
  have hsame : firstOf a.1.buffer a.1.bufferPosition a.2 value =
      firstOf b.1.buffer a.1.bufferPosition a.2 value :=
    firstOf_congr (fun i _ hi => h.memory i (by omega))
  rw [hsame, h.position] at hf
  exact firstOf_longer hf (h.rest ▸ Nat.le_add_right _ _)

theorem Follows.firstOf_none (h : Follows d l a b) (hd : d = 0) {value : UInt8}
    (hf : firstOf a.1.buffer a.1.bufferPosition a.2 value = none) :
    firstOf b.1.buffer b.1.bufferPosition b.2 value = none := by
  have hroom := h.room
  rw [h.rest, hd, Nat.add_zero, ← h.position, ← hf]
  exact firstOf_congr (fun i _ hi => (h.memory i (by omega)).symm)

private theorem Follows.advance (h : Follows d l a b) {value : UInt8} {pos : Nat}
    (hf : firstOf a.1.buffer a.1.bufferPosition a.2 value = some pos) :
    a.1.bufferPosition + pos + 1 + (a.2 - (pos + 1)) ≤ l ∧
      b.2 - (pos + 1) = a.2 - (pos + 1) + d := by
  have hlt := (firstOf_eq_some.mp hf).1
  have hroom := h.room
  have hrest := h.rest
  omega

variable (hfind : d = 0 ∨ ∀ stop : Stop, stop.Unfound → bad stop)
include hfind

theorem parseMethod_agrees (h : Follows d l a b) :
    Agrees bad SameStop (FollowsMethod d l) (parseMethod a.1 a.2) (parseMethod b.1 b.2) := by
  rw [parseMethod, parseMethod]
  dsimp only
  cases hf : firstOf a.1.buffer a.1.bufferPosition a.2 space with
  | none =>
    rcases hfind with hd | hbad
    · rw [h.firstOf_none hd hf]
      exact .error (.reject _ _ _ _)
    · exact .bad (hbad _ (.method _))
  | some pos =>
    obtain ⟨hroom, hrest⟩ := h.advance hf
    rw [h.firstOf_some hf]
    refine .ok ⟨⟨?_, ?_, hroom, hrest, h.keepalive⟩, h.position, rfl⟩
    · rw [← h.position]
      exact update_agree h.memory _
    · exact congrArg (· + pos + 1) h.position

theorem parsePath_agrees (h : FollowsMethod d l a b) :
    Agrees bad SameStop (FollowsPath d l) (parsePath a.1 a.2) (parsePath b.1 b.2) := by
  rw [parsePath, parsePath]
  dsimp only
  cases hf : firstOf a.1.buffer a.1.bufferPosition a.2 space with
  | none =>
    rcases hfind with hd | hbad
    · rw [h.firstOf_none hd hf]
      exact .error (.reject _ _ _ _)
    · exact .bad (hbad _ (.path _))
  | some pos =>
    obtain ⟨hroom, hrest⟩ := h.advance hf
    have hlt := (firstOf_eq_some.mp hf).1
    have hl := h.room
    have hmemory := update_agree h.memory (a.1.bufferPosition + pos)
    have hposition : a.1.bufferPosition + pos + 1 = b.1.bufferPosition + pos + 1 := by rw [h.position]
    have hquery : firstOf (Function.update a.1.buffer (a.1.bufferPosition + pos) 0) a.1.bufferPosition pos
          questionMark =
        firstOf (Function.update b.1.buffer (b.1.bufferPosition + pos) 0) b.1.bufferPosition pos
          questionMark := by
      rw [← h.position]
      exact firstOf_congr (fun i _ hi => hmemory i (by omega))
    rw [h.firstOf_some hf]
    dsimp only
    rw [hquery]
    cases firstOf (Function.update b.1.buffer (b.1.bufferPosition + pos) 0) b.1.bufferPosition pos
      questionMark with
    | none =>
      refine .ok ⟨⟨⟨?_, hposition, hroom, hrest, h.keepalive⟩, h.method, h.methodLen⟩,
        h.position, rfl, rfl, rfl⟩
      rw [← h.position]
      exact hmemory
    | some q =>
      refine .ok ⟨⟨⟨?_, hposition, hroom, hrest, h.keepalive⟩, h.method, h.methodLen⟩,
        h.position, rfl, ?_, rfl⟩
      · rw [← h.position]
        exact update_agree hmemory _
      · exact congrArg (fun p => some (p + q + 1)) h.position

theorem parseVersion_agrees (h : FollowsPath d l a b) :
    Agrees bad SameStop (FollowsLine d l) (parseVersion a.1 a.2) (parseVersion b.1 b.2) := by
  rw [parseVersion, parseVersion]
  dsimp only
  cases hf : firstOf a.1.buffer a.1.bufferPosition a.2 newline with
  | none =>
    rcases hfind with hd | hbad
    · rw [h.firstOf_none hd hf]
      exact .error (.reject _ _ _ _)
    · exact .bad (hbad _ (.version _))
  | some pos =>
    obtain ⟨hroom, hrest⟩ := h.advance hf
    have hlt := (firstOf_eq_some.mp hf).1
    have hl := h.room
    obtain ⟨hmemory, hlen⟩ := endLine_agree h.memory (show a.1.bufferPosition + pos < l by omega)
    rw [h.firstOf_some hf]
    refine .ok ⟨⟨?_, ?_, hroom, hrest, h.keepalive⟩, ?_⟩
    · rw [← h.position]
      exact hmemory
    · exact congrArg (· + pos + 1) h.position
    · simp only [lineSpans, h.method, h.methodLen, h.path, h.pathLen, h.query, h.queryLen, ← h.position, hlen]

theorem parseRequestLine_agrees (h : Follows d l a b) :
    Agrees bad SameStop (FollowsLine d l) (parseRequestLine a.1 a.2) (parseRequestLine b.1 b.2) := by
  rw [parseRequestLine, parseRequestLine]
  apply (parseMethod_agrees hfind h).bind
  intro x y hxy
  apply (parsePath_agrees hfind hxy).bind
  intro x y hxy
  exact parseVersion_agrees hfind hxy

end RequestLine

/-- Two scans side by side; behind `la` the second one's buffer may be without null bytes. -/
structure FollowsScan (bad : Stop → Prop) (d la lb : Nat) (s t : HeaderScan) : Prop where
  memory : ∀ i < la, s.req.buffer i = t.req.buffer i
  position : s.req.bufferPosition = t.req.bufferPosition
  room : s.req.bufferPosition + s.nbytes ≤ la
  rest : t.nbytes = s.nbytes + d
  keepalive : s.req.keepalive = t.req.keepalive
  spans : lineSpans s.req = lineSpans t.req
  headers : s.req.headers = t.req.headers
  contentLength : s.contentLength = t.contentLength
  host : s.host = t.host
  hostLen : s.hostLen = t.hostLen
  strings : bad (.fault .overrun) ∨ ∀ i, la ≤ i → i < lb → t.req.buffer i ≠ 0

theorem FollowsScan.follows {bad : Stop → Prop} {d la lb : Nat} {s t : HeaderScan}
    (h : FollowsScan bad d la lb s t) : Follows d la (s.req, s.nbytes) (t.req, t.nbytes) :=
  ⟨h.memory, h.position, h.room, h.rest, h.keepalive⟩

section HeaderLoop
variable {bad : Stop → Prop} {d la lb : Nat} {s t : HeaderScan} {env : Environment}

theorem recordHeader_agrees (hlimit : la ≤ lb) (h : FollowsScan bad d la lb s t) (hdr : Header)
    (value valueLen : Nat) :
    Agrees bad SameStop (FollowsScan bad d la lb) (recordHeader env la s hdr value valueLen)
      (recordHeader env lb t hdr value valueLen) := by
  rw [recordHeader, recordHeader, ← h.headers]
  split
  · exact .error (.reject _ _ _ _)
  dsimp only
  have hrecorded : FollowsScan bad d la lb
      { s with req := { s.req with headers := s.req.headers ++ [⟨hdr, value, valueLen⟩] } }
      { t with req := { t.req with headers := s.req.headers ++ [⟨hdr, value, valueLen⟩] } } :=
    ⟨h.memory, h.position, h.room, h.rest, h.keepalive, h.spans, rfl, h.contentLength, h.host, h.hostLen,
      h.strings⟩
  apply (Agrees.refl SameStop.refl).bind
  rintro isHost _ rfl
  split
  · exact .ok ⟨h.memory, h.position, h.room, h.rest, h.keepalive, h.spans, rfl, h.contentLength, rfl, rfl,
      h.strings⟩
  apply (Agrees.refl SameStop.refl).bind
  rintro isConnection _ rfl
  split
  · apply (stringAt_agrees h.memory hlimit h.strings value).bind
    rintro connection _ rfl
    exact .ok ⟨h.memory, h.position, h.room, h.rest, rfl, h.spans, rfl, h.contentLength, h.host, h.hostLen,
      h.strings⟩
  apply (Agrees.refl SameStop.refl).bind
  rintro isType _ rfl
  split
  · exact .ok hrecorded
  apply (Agrees.refl SameStop.refl).bind
  rintro isLength _ rfl
  split
  · apply (stringAt_agrees h.memory hlimit h.strings value).bind
    rintro text _ rfl
    apply (Agrees.refl SameStop.refl).bind
    rintro number _ rfl
    cases number with
    | none => exact .error (.reject _ _ _ _)
    | some contentLength =>
      exact .ok ⟨h.memory, h.position, h.room, h.rest, h.keepalive, h.spans, rfl, rfl, h.host, h.hostLen,
        h.strings⟩
  · exact .ok hrecorded

theorem parseHeader_agrees (hlimit : la ≤ lb) (hsize : la + 2 < sizeLimit) (h : FollowsScan bad d la lb s t)
    {line lineLen : Nat} (hl : line + lineLen < la) :
    Agrees bad SameStop (FollowsScan bad d la lb) (parseHeader env la s line lineLen)
      (parseHeader env lb t line lineLen) := by
  rw [parseHeader, parseHeader, ← h.memory line (by omega)]
  split
  · exact .error (.reject _ _ _ _)
  have hfirst : firstOf t.req.buffer line lineLen colon = firstOf s.req.buffer line lineLen colon :=
    firstOf_congr (fun i _ hi => (h.memory i (by omega)).symm)
  rw [hfirst]
  cases hf : firstOf s.req.buffer line lineLen colon with
  | none => exact .error (.reject _ _ _ _)
  | some posCol =>
    have hcol := (firstOf_eq_some.mp hf).1
    have hend : sizeAdd (line + posCol + 1 + 1) (sizeSub lineLen (posCol + 1 + 1)) = line + lineLen := by
      rw [show line + posCol + 1 + 1 = line + (posCol + 1 + 1) by omega]
      exact sizeAdd_sizeSub (by omega) (by omega)
    dsimp only
    rw [hend]
    have hmemory := update_agree (update_agree h.memory (line + posCol)) (line + lineLen)
    have hstrings : bad (.fault .overrun) ∨ ∀ i, la ≤ i → i < lb →
        cutHeader t.req.buffer line lineLen posCol i ≠ 0 := by
      refine h.strings.imp id (fun hs i hi hi' => ?_)
      rw [cutHeader_of_ne (by omega) (by omega)]
      exact hs i hi hi'
    apply (stringAt_agrees hmemory hlimit hstrings line).bind
    rintro key _ rfl
    apply (Agrees.refl SameStop.refl).bind
    rintro hdr _ rfl
    have hcut : FollowsScan bad d la lb
        { s with req := { s.req with buffer := cutHeader s.req.buffer line lineLen posCol } }
        { t with req := { t.req with buffer := cutHeader t.req.buffer line lineLen posCol } } :=
      ⟨hmemory, h.position, h.room, h.rest, h.keepalive, h.spans, h.headers, h.contentLength, h.host,
        h.hostLen, hstrings⟩
    split
    · exact recordHeader_agrees hlimit hcut _ _ _
    · exact .ok hcut

variable (hfind : d = 0 ∨ ∀ stop : Stop, stop.Unfound → bad stop)
include hfind

theorem takeLine_agrees (h : FollowsScan bad d la lb s t)
    (hbefore : s.req.buffer (s.req.bufferPosition - 1) ≠ carriageReturn) (hsize : la + d < sizeLimit) :
    Agrees bad SameStop (fun x y => ∃ pos,
        firstOf s.req.buffer s.req.bufferPosition s.nbytes newline = some pos ∧
        x = (s.req.bufferPosition, lineLength s.req.buffer s.req.bufferPosition pos, s.afterLine pos) ∧
        y = (s.req.bufferPosition, lineLength s.req.buffer s.req.bufferPosition pos, t.afterLine pos) ∧
        FollowsScan bad d la lb (s.afterLine pos) (t.afterLine pos))
      (takeLine s) (takeLine t) := by
  have hroom := h.room
  have hrest := h.rest
  cases hf : firstOf s.req.buffer s.req.bufferPosition s.nbytes newline with
  | none =>
    have hs : takeLine s = .error (.reject 400 (ascii "invalid header 1") s.req) := by
      rw [takeLine]
      dsimp only
      rw [hf]
    rw [hs]
    rcases hfind with hd | hbad
    · have ht : takeLine t = .error (.reject 400 (ascii "invalid header 1") t.req) := by
        rw [takeLine]
        dsimp only
        rw [h.follows.firstOf_none hd hf]
      rw [ht]
      exact .error (.reject _ _ _ _)
    · exact .bad (hbad _ (.line _))
  | some pos =>
    have hlt := (firstOf_eq_some.mp hf).1
    have hft := h.follows.firstOf_some hf
    have hbefore' : t.req.buffer (t.req.bufferPosition - 1) ≠ carriageReturn := by
      rw [← h.position, ← h.memory _ (by omega)]
      exact hbefore
    have hlen : lineLength t.req.buffer t.req.bufferPosition pos =
        lineLength s.req.buffer s.req.bufferPosition pos := by
      rw [← h.position]
      exact lineLength_congr (fun i _ hi => (h.memory i (by omega)).symm)
    have hle := lineLength_le s.req.buffer s.req.bufferPosition pos
    have htake := takeLine_eq hft hbefore' (by omega)
    rw [hlen, ← h.position] at htake
    rw [takeLine_eq hf hbefore (by omega), htake]
    refine .ok ⟨pos, rfl, rfl, rfl, ?_, ?_, ?_, ?_, h.keepalive, h.spans, h.headers, h.contentLength, h.host,
      h.hostLen, ?_⟩
    · rw [HeaderScan.afterLine, HeaderScan.afterLine, hlen, ← h.position]
      exact update_agree h.memory _
    · rw [afterLine_position, afterLine_position, h.position]
    · rw [afterLine_position, afterLine_nbytes]
      omega
    · rw [afterLine_nbytes, afterLine_nbytes]
      omega
    · refine h.strings.imp id (fun hs i hi hi' => ?_)
      rw [afterLine_buffer_of_ne t (by rw [hlen, ← h.position]; omega)]
      exact hs i hi hi'

/-- The header loops agree; neither runs out of turns, as each line takes bytes away. -/
theorem parseHeaders_agrees {m : Memory} {n : Nat} (hlimit : la ≤ lb) (hsize : la + d + 2 < sizeLimit)
    {fa fb : Nat} (h : FollowsScan bad d la lb s t) (hframed : Framed m n s) (ha : s.nbytes < fa)
    (hb : t.nbytes < fb) :
    Agrees bad SameStop (FollowsScan bad d la lb) (parseHeaders env la fa s) (parseHeaders env lb fb t) := by
  induction fa generalizing fb s t with
  | zero => exact absurd ha (Nat.not_lt_zero _)
  | succ fa ih =>
    obtain ⟨fb, rfl⟩ : ∃ f, fb = f + 1 := ⟨fb - 1, by omega⟩
    rw [parseHeaders, parseHeaders]
    apply (takeLine_agrees hfind h hframed.before (by omega)).bind
    rintro _ _ ⟨pos, hpos, rfl, rfl, hafter⟩
    have hlt := (firstOf_eq_some.mp hpos).1
    have hle := lineLength_le s.req.buffer s.req.bufferPosition pos
    have hroom := h.room
    have hrest := h.rest
    dsimp only
    split
    · exact .ok hafter
    · have hline := hframed.afterLine hpos
      have hinside : s.req.bufferPosition + lineLength s.req.buffer s.req.bufferPosition pos < la := by
        omega
      apply (parseHeader_agrees hlimit (by omega) hafter hinside).returned.bind
      rintro s1 t1 ⟨hfollows, hreturned, -⟩
      obtain ⟨posCol, hp⟩ := parseHeader_ok (by omega) (by omega) hreturned
      refine ih hfollows (hline.headerParsed hp hframed.version ?_) ?_ ?_
      · rw [afterLine_position]
        omega
      · rw [hp.nbytes, afterLine_nbytes]
        omega
      · rw [hfollows.rest, hp.nbytes, afterLine_nbytes]
        omega

end HeaderLoop

section Version
variable {bad : Stop → Prop} {d la lb : Nat} {s t : HeaderScan} {env : Environment}

theorem parseAuthority_agrees (hlimit : la ≤ lb) (h : FollowsScan bad d la lb s t)
    (hmove : bad (.fault .overrun) ∨ lb < s.hostLen) :
    Agrees bad SameStop (FollowsScan bad d la lb) (parseAuthority la s) (parseAuthority lb t) := by
  obtain ⟨hmethod, hmethodLen, hpath, hpathLen, hqueryLen, hversion, hversionLen, hquery⟩ :=
    lineSpans_eq.mp h.spans
  rw [parseAuthority, parseAuthority, ← hpath]
  apply (stringAt_agrees h.memory hlimit h.strings _).bind
  rintro path _ rfl
  cases occurrence path (ascii "://") with
  | none => exact .ok h
  | some protocol =>
    apply (stringAt_agrees h.memory hlimit h.strings _).bind
    rintro text _ rfl
    cases occurrence text (ascii "/") with
    | none => exact .error (.fault _)
    | some hostPartLen =>
      dsimp only
      rw [← h.hostLen]
      split
      · rcases hmove with hbad | hlong
        · exact .bad hbad
        · rw [if_pos (by omega)]
          exact .error (.fault _)
      · next hroom =>
        have hslice : slice t.req.buffer (s.req.path + protocol + 3) s.hostLen =
            slice s.req.buffer (s.req.path + protocol + 3) s.hostLen :=
          slice_congr (fun i _ hi => (h.memory i (by omega)).symm)
        rw [if_neg (by omega), hslice]
        refine .ok ⟨update_agree (fun i hi => ?_) _, h.position, h.room, h.rest, h.keepalive, ?_, h.headers,
          h.contentLength, rfl, rfl, h.strings.imp id (fun hs i hi hi' => ?_)⟩
        · rw [store, store, h.memory i hi]
        · simp only [lineSpans, hmethod, hmethodLen, hpath, hpathLen, hqueryLen, hversion, hversionLen, hquery]
        · dsimp only
          rw [Function.update_of_ne (by omega), store_after (by rw [slice_length]; omega)]
          exact hs i hi hi'

variable (hbad : bad (.fault .overrun))
include hbad

private theorem byteAt_agrees (hlimit : la ≤ lb) (h : FollowsScan bad d la lb s t) (i : Nat) :
    Agrees bad SameStop Eq (byteAt la s.req i) (byteAt lb t.req i) := by
  unfold byteAt
  split
  · next hi =>
    rw [if_pos (by omega), h.memory i hi]
    exact .ok rfl
  · exact .bad hbad

theorem checkVersion_agrees (hlimit : la ≤ lb) (h : FollowsScan bad d la lb s t) :
    Agrees bad SameStop (FollowsScan bad d la lb) (checkVersion la s) (checkVersion lb t) := by
  obtain ⟨-, -, -, -, -, hversion, -, -⟩ := lineSpans_eq.mp h.spans
  rw [checkVersion, checkVersion, ← hversion]
  apply (byteAt_agrees hbad hlimit h _).bind
  rintro major _ rfl
  apply (byteAt_agrees hbad hlimit h _).bind
  rintro minor _ rfl
  split
  · exact .error (.reject _ _ _ _)
  split
  · rw [← h.host]
    split
    · exact .error (.reject _ _ _ _)
    · exact .ok h
  split
  · exact parseAuthority_agrees hlimit h (.inl hbad)
  · exact .ok ⟨h.memory, h.position, h.room, h.rest, rfl, h.spans, h.headers, h.contentLength, h.host,
      h.hostLen, .inl hbad⟩

end Version

section Phases
variable {bad : Stop → Prop} {d la lb na : Nat} {a b : Request} {env : Environment}

/-- Both are parsed up to the version check alike. -/
theorem parseHeaderBlock_agrees (hfind : d = 0 ∨ ∀ stop : Stop, stop.Unfound → bad stop)
    (hstart : a.bufferPosition = 0) (hlimit : la ≤ lb) (hsize : la + d + 2 < sizeLimit)
    (hmax : la ≤ requestMaxLength) (h : Follows d la (a, na) (b, na + d))
    (hstrings : bad (.fault .overrun) ∨ ∀ i, la ≤ i → i < lb → b.buffer i ≠ 0) :
    Agrees bad SameStop (FollowsScan bad d la lb) (parseHeaderBlock env la a na)
      (parseHeaderBlock env lb b (na + d)) := by
  have hroom := h.room
  dsimp only at hroom
  apply (parseRequestLine_agrees hfind h).returned.bind
  rintro ⟨a', na'⟩ ⟨b', nb'⟩ ⟨hline, hra, hrb⟩
  obtain ⟨i, j, k, hmarks, hparsed, rfl, -⟩ := parseRequestLine_ok hstart (by omega) hra
  obtain ⟨i', j', k', hmarks', hparsed', -, -⟩ :=
    parseRequestLine_ok (h.position.symm.trans hstart) (by omega) hrb
  obtain ⟨rfl, rfl, rfl⟩ :=
    (hmarks.extend (fun p hp => h.memory p (by omega)) (Nat.le_add_right _ _)).unique hmarks'
  have hframed := hparsed.framed (by omega) hmarks
  refine parseHeaders_agrees hfind hlimit hsize ⟨hline.memory, hline.position, hline.room, hline.rest,
    hline.keepalive, hline.spans, rfl, rfl, rfl, rfl, ?_⟩ hframed (Nat.lt_succ_self _) (Nat.lt_succ_self _)
  have hinside := hmarks.inside
  have hpathLen := hparsed'.query.pathLen_le
  have hend : b'.version + b'.versionLen ≤ i + 1 + j + 1 + k := by
    rw [hparsed'.version, hparsed'.versionLen]
    exact Nat.add_le_add_left (lineLength_le _ _ _) _
  refine hstrings.imp id (fun hs p hp hp' => ?_)
  have hkept := hparsed'.kept p (by omega) (by omega) (by omega) (by omega)
  simp only [HeaderScan.start]
  rw [hkept]
  exact hs p hp hp'

/-- And with the version check. -/
theorem parsePhases_agrees (hbad : bad (.fault .overrun))
    (hfind : d = 0 ∨ ∀ stop : Stop, stop.Unfound → bad stop) (hstart : a.bufferPosition = 0)
    (hlimit : la ≤ lb) (hsize : la + d + 2 < sizeLimit) (hmax : la ≤ requestMaxLength)
    (h : Follows d la (a, na) (b, na + d)) :
    Agrees bad SameStop (FollowsScan bad d la lb) (parsePhases env la a na) (parsePhases env lb b (na + d)) := by
  rw [parsePhases_eq, parsePhases_eq]
  apply (parseHeaderBlock_agrees hfind hstart hlimit hsize hmax h (.inl hbad)).bind
  intro s t hst
  exact checkVersion_agrees hbad hlimit hst

end Phases

end CFlare.Http
