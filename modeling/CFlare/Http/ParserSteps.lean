import CFlare.Http.ContentLength
import CFlare.Library.Steps

/-! Parsing as a machine: a phase of the request line or a turn of the header loop is a step. Every
step counts off what the cursor passes, and writes into the received bytes only. -/
namespace CFlare.Http
open CFlare.Library CFlare.Network StateTransition

/-- Which phase is next, or how parsing came to its end. -/
inductive ParseState where
  | method (req : Request) (nbytes : Nat)
  | path (req : Request) (nbytes : Nat)
  | version (req : Request) (nbytes : Nat)
  | headers (st : HeaderScan)
  | blank (st : HeaderScan)
  | stopped (stop : Stop)

/-- A phase that returns is followed by the next one. -/
def goOn {α : Type} (x : Except Stop α) (next : α → ParseState) : ParseState :=
  match x with
  | .ok a => next a
  | .error stop => .stopped stop

section Machine
variable (env : Environment) (limit : Nat)

def headerTurn (st : HeaderScan) : ParseState :=
  goOn (takeLine st) (fun r =>
    if r.2.1 = 0 then .blank r.2.2 else goOn (parseHeader env limit r.2.2 r.1 r.2.1) .headers)

def parseStep : ParseState → Option ParseState
  | .method req nbytes => some (goOn (parseMethod req nbytes) (fun r => .path r.1 r.2))
  | .path req nbytes => some (goOn (parsePath req nbytes) (fun r => .version r.1 r.2))
  | .version req nbytes => some (goOn (parseVersion req nbytes) (fun r => .headers (.start r.1 r.2)))
  | .headers st => some (headerTurn env limit st)
  | .blank _ => none
  | .stopped _ => none

end Machine

/-- The cursor is in the first `n` bytes, none behind them has been written, and the slots for headers
are as they were or not overfull. -/
structure InBytes (req0 : Request) (n : Nat) (req : Request) : Prop where
  cursor : req.bufferPosition ≤ n
  kept : ∀ i, n ≤ i → req.buffer i = req0.buffer i
  slots : req.headers = req0.headers ∨ req.headers.length ≤ requestMaxHeaders

/-- And what is left to parse is what is behind the cursor. -/
structure Counted (req0 : Request) (n : Nat) (req : Request) (nbytes : Nat) : Prop extends InBytes req0 n req where
  total : req.bufferPosition + nbytes = n

/-- A state of a parser that was started on `n` bytes in a request's buffer. -/
def ParseState.Safe (req0 : Request) (n : Nat) : ParseState → Prop
  | .method req nbytes => Counted req0 n req nbytes
  | .path req nbytes => Counted req0 n req nbytes
  | .version req nbytes => Counted req0 n req nbytes
  | .headers st => Counted req0 n st.req st.nbytes ∧ st.req.headers.length ≤ requestMaxHeaders
  | .blank st => Counted req0 n st.req st.nbytes ∧ st.req.headers.length ≤ requestMaxHeaders
  | .stopped (.reject _ _ req) => InBytes req0 n req
  | .stopped (.fault _) => True

section RequestLine
variable {req0 req : Request} {n nbytes : Nat}

/-- Behind a separator that was found the count is of what is behind it. -/
theorem Counted.advance (h : Counted req0 n req nbytes) {pos : Nat} (hpos : pos < nbytes) {req' : Request}
    (hposition : req'.bufferPosition = req.bufferPosition + pos + 1) (hheaders : req'.headers = req.headers)
    (hbuffer : ∀ i, n ≤ i → req'.buffer i = req.buffer i) : Counted req0 n req' (nbytes - (pos + 1)) := by
  have htotal := h.total
  refine ⟨⟨by omega, fun i hi => (hbuffer i hi).trans (h.kept i hi), ?_⟩, by omega⟩
  rw [hheaders]
  exact h.slots

theorem parseMethod_safe (h : Counted req0 n req nbytes) :
    (goOn (parseMethod req nbytes) (fun r => .path r.1 r.2)).Safe req0 n := by
  have htotal := h.total
  unfold parseMethod
  dsimp only
  split
  · exact ⟨h.cursor, h.kept, h.slots⟩
  · next pos hpos =>
    have hlt := (firstOf_eq_some.mp hpos).1
    refine h.advance hlt rfl rfl ?_
    intro i hi
    exact Function.update_of_ne (by omega) _ _

theorem parsePath_safe (h : Counted req0 n req nbytes) :
    (goOn (parsePath req nbytes) (fun r => .version r.1 r.2)).Safe req0 n := by
  have htotal := h.total
  unfold parsePath
  dsimp only
  split
  · exact ⟨h.cursor, h.kept, h.slots⟩
  · next pos hpos =>
    have hlt := (firstOf_eq_some.mp hpos).1
    split
    · refine h.advance hlt rfl rfl ?_
      intro i hi
      exact Function.update_of_ne (by omega) _ _
    · next queryPos hquery =>
      have hinside := (firstOf_eq_some.mp hquery).1
      refine h.advance hlt rfl rfl ?_
      intro i hi
      dsimp only
      rw [Function.update_of_ne (by omega), Function.update_of_ne (by omega)]

theorem parseVersion_safe (h : Counted req0 n req nbytes) :
    (goOn (parseVersion req nbytes) (fun r => .headers (.start r.1 r.2))).Safe req0 n := by
  have htotal := h.total
  unfold parseVersion
  dsimp only
  split
  · exact ⟨h.cursor, h.kept, h.slots⟩
  · next pos hpos =>
    have hlt := (firstOf_eq_some.mp hpos).1
    have hbuffer : ∀ i, n ≤ i → (endLine req.buffer req.bufferPosition pos).1 i = req.buffer i := by
      intro i hi
      unfold endLine
      split
      · exact Function.update_of_ne (by omega) _ _
      · exact Function.update_of_ne (by omega) _ _
    refine ⟨?_, Nat.zero_le _⟩
    have hcounted : Counted req0 n { req with bufferPosition := req.bufferPosition + pos + 1 } (nbytes - (pos + 1)) :=
      h.advance hlt rfl rfl (fun i _ => rfl)
    exact ⟨⟨hcounted.cursor, fun i hi => (hbuffer i hi).trans (h.kept i hi), .inr (Nat.zero_le _)⟩, hcounted.total⟩

end RequestLine

/-- The value of a line that is read as a string ends in the buffer, and a length does not hit the
assertion on its digits. -/
structure HeaderLine.Readable (env : Environment) (m : Memory) (l : HeaderLine) : Prop where
  connection : NameIs (l.key m) (ascii "Connection") → ∃ text, l.text requestMaxLength m = some text
  length : NameIs (l.key m) (ascii "Content-Length") → ∃ text number, l.text requestMaxLength m = some text ∧
    toInteger env.float text = .ok number

/-- The line at the cursor can be read, if there is a line and a slot for its header. -/
def TurnReadable (env : Environment) (m : Memory) (n : Nat) (st : HeaderScan) : Prop :=
  ∀ l : HeaderLine, l.At m n → st.req.bufferPosition = l.start → st.req.headers.length < requestMaxHeaders →
    l.Readable env m

/-- How reading a line ends. -/
inductive ReadEnds (env : Environment) (m : Memory) (st : HeaderScan) (l : HeaderLine) :
    Except Stop HeaderScan → Prop where
  | kept (st' : HeaderScan)
      (slots : st.req.headers.length ≤ requestMaxHeaders → st'.req.headers.length ≤ requestMaxHeaders)
      (readable : st.req.headers.length < requestMaxHeaders → l.Readable env m) : ReadEnds env m st l (.ok st')
  | full (status : UInt32) (message : Bytes) (full : requestMaxHeaders ≤ st.req.headers.length) :
      ReadEnds env m st l (.error (.reject status message (st.cutAt l).req))
  | badLength (status : UInt32) (message : Bytes) (slot : st.req.headers.length < requestMaxHeaders)
      (readable : l.Readable env m) :
      ReadEnds env m st l (.error (.reject status message ((st.cutAt l).keep (l.recorded env m)).req))
  | fault (fault : Fault) (slot : st.req.headers.length < requestMaxHeaders) (unreadable : ¬ l.Readable env m) :
      ReadEnds env m st l (.error (.fault fault))

section HeaderLines
variable {env : Environment} {m : Memory} {n : Nat} {st st' : HeaderScan} {l : HeaderLine} {req0 : Request}

/-- A line is readable if it is neither a connection nor a length. -/
theorem HeaderLine.Readable.plain (hc : ¬ NameIs (l.key m) (ascii "Connection"))
    (hn : ¬ NameIs (l.key m) (ascii "Content-Length")) : l.Readable env m :=
  ⟨fun h => absurd h hc, fun h => absurd h hn⟩

/-- A value that does not end in the buffer is read over the buffer's end. -/
theorem Framed.read_endless (h : Framed m n st) (hl : l.At m n) (hs : st.req.bufferPosition = l.start)
    (hroom : st.req.headers.length < requestMaxHeaders)
    (hname : NameIs (l.key m) (ascii "Connection") ∨ NameIs (l.key m) (ascii "Content-Length"))
    (ht : l.text requestMaxLength m = none) : st.read env requestMaxLength m l = .error (.fault .overrun) := by
  have hknown : l.known env m = true := by
    rcases hname with hname | hname
    · exact known_of_name hname (by simp [commonNames])
    · exact known_of_name hname (by simp [commonNames])
  have hfew : ¬ requestMaxHeaders ≤ (st.cutAt l).req.headers.length := Nat.not_le.mpr hroom
  have hstring : stringAt requestMaxLength (st.cutAt l).req.buffer l.value = .error (.fault .overrun) := by
    cases hstring : stringAt requestMaxLength (st.cutAt l).req.buffer l.value with
    | ok text =>
      obtain ⟨-, hline⟩ := lineAt_eq h hl hs
      rw [← hline] at hstring ht
      rw [(stringAt_value h).mp hstring] at ht
      cases ht
    | error stop =>
      unfold stringAt at hstring
      split at hstring
      · exact hstring.symm
      · cases hstring
  have hhost : ¬ NameIs (l.key m) (ascii "Host") := by
    rcases hname with hname | hname
    · exact hname.other (by decide)
    · exact hname.other (by decide)
  rw [HeaderScan.read, if_pos hknown, recordHeader_eq hknown, if_neg hfew]
  dsimp only
  rw [if_neg hhost, hstring]
  rcases hname with hname | hname
  · rw [if_pos hname]
    rfl
  · have hconnection : ¬ NameIs (l.key m) (ascii "Connection") := hname.other (by decide)
    have htype : ¬ NameIs (l.key m) (ascii "Content-Type") := hname.other (by decide)
    rw [if_neg hconnection, if_neg htype, if_pos hname]
    rfl

/-- Reading a line keeps it or passes over it, refuses it, or faults because it is unreadable. -/
theorem Framed.read_ends (h : Framed m n st) (hl : l.At m n) (hs : st.req.bufferPosition = l.start) :
    ReadEnds env m st l (st.read env requestMaxLength m l) := by
  by_cases hroom : st.req.headers.length < requestMaxHeaders
  · by_cases hconnection : NameIs (l.key m) (ascii "Connection")
    · have hlength : ¬ NameIs (l.key m) (ascii "Content-Length") := hconnection.other (by decide)
      cases ht : l.text requestMaxLength m with
      | none =>
        rw [h.read_endless hl hs hroom (.inl hconnection) ht]
        refine .fault _ hroom (fun hread => ?_)
        obtain ⟨text, htext⟩ := hread.connection hconnection
        rw [ht] at htext
        cases htext
      | some text =>
        obtain ⟨st', hread, hcount⟩ := h.read_connection hl hs hroom hconnection ht
        rw [hread]
        refine .kept st' (fun _ => ?_) (fun _ => ⟨fun _ => ⟨text, ht⟩, fun hn => absurd hn hlength⟩)
        rw [hcount]
        exact hroom
    by_cases hlength : NameIs (l.key m) (ascii "Content-Length")
    · cases ht : l.text requestMaxLength m with
      | none =>
        rw [h.read_endless hl hs hroom (.inr hlength) ht]
        refine .fault _ hroom (fun hread => ?_)
        obtain ⟨text, number, htext, -⟩ := hread.length hlength
        rw [ht] at htext
        cases htext
      | some text =>
        rw [h.read_length hl hs hroom hlength ht]
        cases hnumber : toInteger env.float text with
        | error fault =>
          refine .fault fault hroom (fun hread => ?_)
          obtain ⟨text', number, htext, hok⟩ := hread.length hlength
          obtain rfl := Option.some.inj (ht.symm.trans htext)
          rw [hnumber] at hok
          cases hok
        | ok number =>
          have hreadable : l.Readable env m :=
            ⟨fun hc => absurd hc hconnection, fun _ => ⟨text, number, ht, hnumber⟩⟩
          cases number with
          | none => exact .badLength _ _ hroom hreadable
          | some contentLength =>
            refine .kept _ (fun _ => ?_) (fun _ => hreadable)
            change (st.req.headers ++ [_]).length ≤ _
            rw [List.length_append]
            exact hroom
    · obtain ⟨st', hread, hcount⟩ : ∃ st', st.read env requestMaxLength m l = .ok st' ∧ _ :=
        read_plain (fun _ => hroom) hconnection hlength
      rw [hread]
      refine .kept st' (fun _ => ?_) (fun _ => .plain hconnection hlength)
      rw [hcount]
      split <;> omega
  · rw [HeaderScan.read]
    split
    · next hk =>
      have hfull : requestMaxHeaders ≤ (st.cutAt l).req.headers.length := Nat.not_lt.mp hroom
      rw [recordHeader_eq hk, if_pos hfull]
      exact .full _ _ hfull
    · exact .kept _ id (fun hslot => absurd hslot hroom)

/-- Behind the newline of a line nothing is written, and the cursor is in the bytes received. -/
theorem Framed.afterLine_inBytes (h : Framed req0.buffer n st) (hslots : st.req.headers.length ≤ requestMaxHeaders)
    {pos : Nat} (hpos : firstOf st.req.buffer st.req.bufferPosition st.nbytes newline = some pos) :
    InBytes req0 n (st.afterLine pos).req := by
  have hframed := h.afterLine hpos
  have htotal := hframed.total
  exact ⟨by omega, fun i hi => hframed.ahead i (by omega), .inr hslots⟩

theorem Framed.cutAt_inBytes (h : Framed req0.buffer n st) (hl : l.At req0.buffer n)
    (hs : st.req.bufferPosition = l.start) (hslots : st.req.headers.length ≤ requestMaxHeaders) :
    InBytes req0 n (st.cutAt l).req := by
  obtain ⟨hpos, -⟩ := lineAt_eq h hl hs
  obtain ⟨hcursor, hkept, -⟩ := h.afterLine_inBytes hslots hpos
  obtain ⟨hcol, hlen, hnext⟩ := hl.inside
  unfold HeaderLine.next at hnext
  refine ⟨hcursor, fun i hi => ?_, .inr hslots⟩
  change cutHeader (st.afterLine l.pos).req.buffer l.start l.len l.col i = _
  rw [cutHeader_of_ne (by omega) (by omega)]
  exact hkept i hi

/-- What a turn of the header loop comes to. -/
inductive TurnEnds (env : Environment) (req0 : Request) (n : Nat) (st : HeaderScan) : ParseState → Prop where
  | refused (status : UInt32) (message : Bytes) (req : Request) (inBytes : InBytes req0 n req)
      (readable : TurnReadable env req0.buffer n st) : TurnEnds env req0 n st (.stopped (.reject status message req))
  | blank (st' : HeaderScan) (framed : Framed req0.buffer n st') (slots : st'.req.headers.length ≤ requestMaxHeaders)
      (down : st'.nbytes < st.nbytes) (readable : TurnReadable env req0.buffer n st) : TurnEnds env req0 n st (.blank st')
  | line (st' : HeaderScan) (framed : Framed req0.buffer n st') (slots : st'.req.headers.length ≤ requestMaxHeaders)
      (down : st'.nbytes < st.nbytes) (readable : TurnReadable env req0.buffer n st) : TurnEnds env req0 n st (.headers st')
  | fault (fault : Fault) (unreadable : ¬ TurnReadable env req0.buffer n st) :
      TurnEnds env req0 n st (.stopped (.fault fault))

theorem TurnReadable.of_noLine (h : ∀ l : HeaderLine, l.At m n → st.req.bufferPosition ≠ l.start) :
    TurnReadable env m n st :=
  fun l hl hs => absurd hs (h l hl)

theorem TurnReadable.of_line (hl : l.At m n) (hs : st.req.bufferPosition = l.start)
    (h : st.req.headers.length < requestMaxHeaders → l.Readable env m) : TurnReadable env m n st := by
  intro l' hl' hs' hroom
  obtain rfl := hl.unique hl' (hs.symm.trans hs')
  exact h hroom

private theorem turn_over_line (h : Framed req0.buffer n st) (hn : n ≤ requestMaxLength)
    (hslots : st.req.headers.length ≤ requestMaxHeaders) (hl : l.At req0.buffer n) (hs : st.req.bufferPosition = l.start) :
    TurnEnds env req0 n st (goOn (st.read env requestMaxLength req0.buffer l) .headers) := by
  have hcut := h.cutAt_inBytes hl hs hslots
  have hends : ReadEnds env req0.buffer st l (st.read env requestMaxLength req0.buffer l) := h.read_ends hl hs
  generalize hread : st.read env requestMaxLength req0.buffer l = result at hends
  cases hends with
  | kept st' slots readable =>
    obtain ⟨hframed, hposition⟩ := h.read hn hl hs hread
    have htotal := h.total
    have htotal' := hframed.total
    unfold HeaderLine.next at hposition
    exact .line st' hframed (slots hslots) (by omega) (.of_line hl hs readable)
  | full status message full =>
    exact .refused _ _ _ hcut (.of_line hl hs (fun hroom => absurd full (Nat.not_le.mpr hroom)))
  | badLength status message slot readable =>
    refine .refused _ _ _ ⟨hcut.cursor, hcut.kept, .inr ?_⟩ (.of_line hl hs (fun _ => readable))
    change (st.req.headers ++ [_]).length ≤ _
    rw [List.length_append]
    exact slot
  | fault fault slot unreadable =>
    exact .fault _ (fun hreadable => unreadable (hreadable l hl hs slot))

theorem Framed.turn_ends (h : Framed req0.buffer n st) (hn : n ≤ requestMaxLength)
    (hslots : st.req.headers.length ≤ requestMaxHeaders) : TurnEnds env req0 n st (headerTurn env requestMaxLength st) := by
  have hmax : requestMaxLength < sizeLimit := by decide
  have htotal := h.total
  obtain ⟨hraw, -⟩ := h.raw
  rw [headerTurn]
  cases hpos : firstOf st.req.buffer st.req.bufferPosition st.nbytes newline with
  | none =>
    have htake : takeLine st = .error (.reject 400 (ascii "invalid header 1") st.req) := by
      rw [takeLine]
      dsimp only
      rw [hpos]
    rw [htake]
    refine .refused _ _ _ ⟨by omega, fun i hi => h.ahead i (by omega), .inr hslots⟩ (.of_noLine (fun l hl hs => ?_))
    rw [hraw, hs, hl.newline] at hpos
    cases hpos
  | some pos =>
    have hlt := (firstOf_eq_some.mp hpos).1
    have hframed := h.afterLine hpos
    have hinside := h.afterLine_inBytes hslots hpos
    have hdown : (st.afterLine pos).nbytes < st.nbytes := by
      rw [afterLine_nbytes]
      omega
    rw [takeLine_eq hpos h.before (by omega)]
    dsimp only [goOn]
    have hwhere : ∀ l : HeaderLine, l.At req0.buffer n → st.req.bufferPosition = l.start → lineAt st pos l.col = l := by
      intro l hl hs
      obtain ⟨hpos', hline⟩ := lineAt_eq h hl hs
      obtain rfl := Option.some.inj (hpos.symm.trans hpos')
      exact hline
    split
    · next hz =>
      refine .blank _ hframed hslots hdown (.of_noLine (fun l hl hs => ?_))
      have hlen := congrArg HeaderLine.len (hwhere l hl hs)
      have hcol := hl.inside.1
      rw [← hlen] at hcol
      exact absurd hcol (by rw [lineAt, hz]; exact Nat.not_lt_zero _)
    next hz =>
    have hbytes : ∀ i, st.req.bufferPosition ≤ i → i < st.req.bufferPosition +
        lineLength st.req.buffer st.req.bufferPosition pos → (st.afterLine pos).req.buffer i = req0.buffer i := by
      intro i hi hu
      rw [afterLine_buffer_of_ne st (by omega)]
      exact h.ahead i hi
    by_cases hstart : (st.afterLine pos).req.buffer st.req.bufferPosition = space ∨
        (st.afterLine pos).req.buffer st.req.bufferPosition = tab
    · rw [parseHeader, if_pos hstart]
      refine .refused _ _ _ hinside (.of_noLine (fun l hl hs => ?_))
      rw [hbytes _ (Nat.le_refl _) (by omega), hs] at hstart
      exact hstart.elim hl.fresh.1 hl.fresh.2
    · cases hcolon : firstOf (st.afterLine pos).req.buffer st.req.bufferPosition
        (lineLength st.req.buffer st.req.bufferPosition pos) colon with
      | none =>
        rw [parseHeader, if_neg hstart, hcolon]
        refine .refused _ _ _ hinside (.of_noLine (fun l hl hs => ?_))
        have hlen : lineLength st.req.buffer st.req.bufferPosition pos = l.len := congrArg HeaderLine.len (hwhere l hl hs)
        rw [firstOf_congr hbytes, hlen, hs, hl.colon] at hcolon
        cases hcolon
      | some col =>
        have hat := lineAt_of_colon h hpos (not_or.mp hstart) hcolon
        have hparse : parseHeader env requestMaxLength (st.afterLine pos) st.req.bufferPosition
            (lineLength st.req.buffer st.req.bufferPosition pos) = _ := parseHeader_line h hn hpos hat
        rw [hparse]
        exact turn_over_line h hn hslots hat rfl

end HeaderLines

section Runs
variable {env : Environment} {req0 req : Request} {n : Nat} {s t : ParseState} {st st' : HeaderScan} {fault : Fault}

/-- Where a parser that was started on `n` bytes is. -/
def ParseState.Follows (req0 : Request) (n : Nat) : ParseState → Prop
  | .method req nbytes => req = req0 ∧ nbytes = n
  | .path req nbytes => parseMethod req0 n = .ok (req, nbytes)
  | .version req nbytes => ∃ req1 n1, parseMethod req0 n = .ok (req1, n1) ∧ parsePath req1 n1 = .ok (req, nbytes)
  | .headers st => Framed req0.buffer n st
  | .blank st => Framed req0.buffer n st
  | .stopped _ => True

def ParseState.stepsLeft (n : Nat) : ParseState → Nat
  | .method _ _ => n + 4
  | .path _ _ => n + 3
  | .version _ _ => n + 2
  | .headers st => st.nbytes + 1
  | .blank _ => 0
  | .stopped _ => 0

theorem parseMethod_no_fault (req : Request) (nbytes : Nat) : parseMethod req nbytes ≠ .error (.fault fault) := by
  intro h
  unfold parseMethod at h
  dsimp only at h
  split at h
  · cases h
  · cases h

theorem parsePath_no_fault (req : Request) (nbytes : Nat) : parsePath req nbytes ≠ .error (.fault fault) := by
  intro h
  unfold parsePath at h
  dsimp only at h
  split at h
  · cases h
  · split at h
    · cases h
    · cases h

theorem parseVersion_no_fault (req : Request) (nbytes : Nat) : parseVersion req nbytes ≠ .error (.fault fault) := by
  intro h
  unfold parseVersion at h
  dsimp only at h
  split at h
  · cases h
  · cases h

/-- The run so far is safe, and is one from its start. -/
structure ParseState.OnRun (req0 : Request) (n : Nat) (s : ParseState) : Prop where
  safe : s.Safe req0 n
  follows : s.Follows req0 n

/-- A step goes on from where the parser is, and there are fewer to come. -/
theorem parse_step (hstart : req0.bufferPosition = 0) (hn : n ≤ requestMaxLength)
    (hs : s.OnRun req0 n) (h : parseStep env requestMaxLength s = some t) :
    t.OnRun req0 n ∧ t.stepsLeft n < s.stepsLeft n := by
  obtain ⟨hsafe, hfollows⟩ := hs
  cases s with
  | method req nbytes =>
    obtain ⟨rfl, rfl⟩ := hfollows
    have hnext := parseMethod_safe hsafe
    obtain rfl := Option.some.inj h
    cases hp : parseMethod req nbytes with
    | error stop =>
      rw [hp] at hnext
      exact ⟨⟨hnext, trivial⟩, Nat.succ_pos _⟩
    | ok r =>
      rw [hp] at hnext
      exact ⟨⟨hnext, hp⟩, Nat.lt_succ_self _⟩
  | path req nbytes =>
    have hnext := parsePath_safe hsafe
    obtain rfl := Option.some.inj h
    cases hp : parsePath req nbytes with
    | error stop =>
      rw [hp] at hnext
      exact ⟨⟨hnext, trivial⟩, Nat.succ_pos _⟩
    | ok r =>
      rw [hp] at hnext
      exact ⟨⟨hnext, req, nbytes, hfollows, hp⟩, Nat.lt_succ_self _⟩
  | version req nbytes =>
    have hnext := parseVersion_safe hsafe
    obtain rfl := Option.some.inj h
    cases hp : parseVersion req nbytes with
    | error stop =>
      rw [hp] at hnext
      exact ⟨⟨hnext, trivial⟩, Nat.succ_pos _⟩
    | ok r =>
      obtain ⟨req3, n3⟩ := r
      rw [hp] at hnext
      obtain ⟨req1, n1, hmethod, hpath⟩ := hfollows
      have hline : parseRequestLine req0 n = .ok (req3, n3) := by
        rw [parseRequestLine, hmethod, fault_ok_bind]
        dsimp only
        rw [hpath, fault_ok_bind]
        exact hp
      have hsize : n < sizeLimit := Nat.lt_of_le_of_lt hn (by decide)
      obtain ⟨a, b, c, hmarks, hparsed, rfl, -⟩ := parseRequestLine_ok hstart hsize hline
      have htotal := hnext.1.total
      refine ⟨⟨hnext, hparsed.framed hn hmarks⟩, ?_⟩
      change n - (a + 1) - (b + 1) - (c + 1) + 1 < n + 2
      omega
  | headers st =>
    have hends : TurnEnds env req0 n st (headerTurn env requestMaxLength st) := hfollows.turn_ends hn hsafe.2
    obtain rfl := Option.some.inj h
    generalize headerTurn env requestMaxLength st = next at hends
    have hcounted : ∀ st', Framed req0.buffer n st' → st'.req.headers.length ≤ requestMaxHeaders →
        Counted req0 n st'.req st'.nbytes := by
      intro st' hframed hslots
      have htotal := hframed.total
      exact ⟨⟨by omega, fun i hi => hframed.ahead i (by omega), .inr hslots⟩, htotal⟩
    cases hends with
    | refused status message req inBytes readable => exact ⟨⟨inBytes, trivial⟩, Nat.succ_pos _⟩
    | blank st' framed slots down readable => exact ⟨⟨⟨hcounted st' framed slots, slots⟩, framed⟩, Nat.succ_pos _⟩
    | line st' framed slots down readable =>
      exact ⟨⟨⟨hcounted st' framed slots, slots⟩, framed⟩, Nat.succ_lt_succ down⟩
    | fault fault unreadable => exact ⟨⟨trivial, trivial⟩, Nat.succ_pos _⟩
  | blank st => cases h
  | stopped stop => cases h

theorem parse_start (hstart : req0.bufferPosition = 0) : (ParseState.method req0 n).OnRun req0 n := by
  refine ⟨⟨⟨?_, fun i _ => rfl, .inl rfl⟩, ?_⟩, rfl, rfl⟩
  · rw [hstart]
    exact Nat.zero_le n
  · rw [hstart, Nat.zero_add]

theorem parse_reached (hstart : req0.bufferPosition = 0) (hn : n ≤ requestMaxLength)
    (h : Reaches (parseStep env requestMaxLength) (.method req0 n) s) : s.OnRun req0 n :=
  reaches_invariant (fun _ _ hs hstep => (parse_step hstart hn hs hstep).1) (parse_start hstart) h

/-- A fault comes from the phase itself, if the next one is not the end. -/
theorem goOn_fault {α : Type} {x : Except Stop α} {next : α → ParseState} (h : goOn x next = .stopped (.fault fault))
    (hnext : ∀ a, next a ≠ .stopped (.fault fault)) : x = .error (.fault fault) := by
  cases x with
  | ok a => exact absurd h (hnext a)
  | error stop =>
    obtain rfl := ParseState.stopped.inj h
    rfl

/-- A parser that faults does so in a turn over a line that cannot be read. -/
theorem parse_fault (hstart : req0.bufferPosition = 0) (hn : n ≤ requestMaxLength)
    (h : Reaches (parseStep env requestMaxLength) (.method req0 n) (.stopped (.fault fault))) :
    ∃ st, Reaches (parseStep env requestMaxLength) (.method req0 n) (.headers st) ∧
      ¬ TurnReadable env req0.buffer n st := by
  rcases reaches_last h with heq | ⟨u, hu, hlast⟩
  · cases heq
  cases u with
  | method req nbytes =>
    have hp := goOn_fault (Option.some.inj hlast) (fun r he => by cases he)
    exact absurd hp (parseMethod_no_fault req nbytes)
  | path req nbytes =>
    have hp := goOn_fault (Option.some.inj hlast) (fun r he => by cases he)
    exact absurd hp (parsePath_no_fault req nbytes)
  | version req nbytes =>
    have hp := goOn_fault (Option.some.inj hlast) (fun r he => by cases he)
    exact absurd hp (parseVersion_no_fault req nbytes)
  | headers st =>
    obtain ⟨hsafe, hframed⟩ := parse_reached hstart hn hu
    have hends : TurnEnds env req0 n st (headerTurn env requestMaxLength st) := hframed.turn_ends hn hsafe.2
    rw [Option.some.inj hlast] at hends
    cases hends with
    | fault _ unreadable => exact ⟨st, hu, unreadable⟩
  | blank st => cases hlast
  | stopped stop => cases hlast

theorem parseHeaders_reaches {fuel : Nat} (h : Framed req0.buffer n st) (hn : n ≤ requestMaxLength)
    (hslots : st.req.headers.length ≤ requestMaxHeaders) (hfuel : st.nbytes < fuel) :
    Reaches (parseStep env requestMaxLength) (.headers st) (goOn (parseHeaders env requestMaxLength fuel st) .blank) := by
  induction fuel generalizing st with
  | zero => exact absurd hfuel (Nat.not_lt_zero _)
  | succ fuel ih =>
    have hends : TurnEnds env req0 n st (headerTurn env requestMaxLength st) := h.turn_ends hn hslots
    have hstep : parseStep env requestMaxLength (.headers st) = some (headerTurn env requestMaxLength st) := rfl
    apply reaches_head hstep
    rw [parseHeaders]
    unfold headerTurn at hends ⊢
    cases htake : takeLine st with
    | error stop => exact .refl
    | ok r =>
      obtain ⟨line, lineLen, st1⟩ := r
      rw [htake] at hends
      dsimp only [goOn] at hends ⊢
      rw [fault_ok_bind]
      dsimp only
      split
      · exact .refl
      · next hz =>
        rw [if_neg hz] at hends
        cases hparse : parseHeader env requestMaxLength st1 line lineLen with
        | error stop => exact .refl
        | ok st2 =>
          rw [hparse] at hends
          cases hends with
          | line _ framed slots down readable => exact ih framed slots (by omega)

theorem parseHeaderBlock_reaches (hstart : req0.bufferPosition = 0) (hn : n ≤ requestMaxLength) :
    Reaches (parseStep env requestMaxLength) (.method req0 n)
      (goOn (parseHeaderBlock env requestMaxLength req0 n) .blank) := by
  have hfirst : parseStep env requestMaxLength (.method req0 n) = some _ := rfl
  apply reaches_head hfirst
  rw [parseHeaderBlock, parseRequestLine]
  cases hmethod : parseMethod req0 n with
  | error stop => exact .refl
  | ok r1 =>
    obtain ⟨req1, n1⟩ := r1
    have hsecond : parseStep env requestMaxLength (.path req1 n1) = some _ := rfl
    apply reaches_head hsecond
    rw [fault_ok_bind]
    dsimp only
    cases hpath : parsePath req1 n1 with
    | error stop => exact .refl
    | ok r2 =>
      obtain ⟨req2, n2⟩ := r2
      have hthird : parseStep env requestMaxLength (.version req2 n2) = some _ := rfl
      apply reaches_head hthird
      rw [fault_ok_bind]
      dsimp only
      cases hversion : parseVersion req2 n2 with
      | error stop => exact .refl
      | ok r3 =>
        obtain ⟨req3, n3⟩ := r3
        have hline : parseRequestLine req0 n = .ok (req3, n3) := by
          rw [parseRequestLine, hmethod, fault_ok_bind]
          dsimp only
          rw [hpath, fault_ok_bind]
          exact hversion
        have hsize : n < sizeLimit := Nat.lt_of_le_of_lt hn (by decide)
        obtain ⟨a, b, c, hmarks, hparsed, rfl, -⟩ := parseRequestLine_ok hstart hsize hline
        rw [fault_ok_bind]
        exact parseHeaders_reaches (hparsed.framed hn hmarks) hn (Nat.zero_le _) (Nat.lt_succ_self _)

/-- Parsing ends as it should: at the blank line, or with a rejection. -/
def ParseState.Ended : ParseState → Prop
  | .blank _ => True
  | .stopped (.reject _ _ _) => True
  | _ => False

theorem ParseState.Ended.stop (h : s.Ended) : parseStep env requestMaxLength s = none := by
  cases s with
  | blank st => rfl
  | stopped stop => rfl
  | method req nbytes => cases h
  | path req nbytes => cases h
  | version req nbytes => cases h
  | headers st => cases h

theorem ParseState.Ended.no_fault (h : s.Ended) (hs : Reaches (parseStep env requestMaxLength) (.method req0 n) s) :
    ¬ Reaches (parseStep env requestMaxLength) (.method req0 n) (.stopped (.fault fault)) := by
  intro hfault
  obtain rfl := reaches_stop_unique hs h.stop hfault rfl
  cases h

/-- The parser keeps its count and writes inside the received bytes, each turn of its header loop takes
some of them, and it comes to a proper end. -/
structure ParserSafe (env : Environment) (req0 : Request) (n : Nat) : Prop where
  safe : ∀ s, Reaches (parseStep env requestMaxLength) (.method req0 n) s → s.Safe req0 n
  down : ∀ st st', Reaches (parseStep env requestMaxLength) (.method req0 n) (.headers st) →
    headerTurn env requestMaxLength st = .headers st' ∨ headerTurn env requestMaxLength st = .blank st' →
      st'.nbytes < st.nbytes
  ends : ∃ s, Reaches (parseStep env requestMaxLength) (.method req0 n) s ∧ s.Ended

theorem headerTurn_down (h : Framed req0.buffer n st) (hn : n ≤ requestMaxLength)
    (hslots : st.req.headers.length ≤ requestMaxHeaders)
    (ht : headerTurn env requestMaxLength st = .headers st' ∨ headerTurn env requestMaxLength st = .blank st') :
    st'.nbytes < st.nbytes := by
  have hends : TurnEnds env req0 n st (headerTurn env requestMaxLength st) := h.turn_ends hn hslots
  rcases ht with ht | ht
  · rw [ht] at hends
    cases hends with
    | line _ framed slots down readable => exact down
  · rw [ht] at hends
    cases hends with
    | blank _ framed slots down readable => exact down

/-- For all received bytes the parser is safe exactly when every header line that its loop gets to can be
read. -/
theorem parser_safe_iff (env : Environment) (req : Request) (bytes : Bytes) (hshort : bytes.length < requestMaxLength) :
    ParserSafe env (filled req bytes) bytes.length ↔
      ∀ st, Reaches (parseStep env requestMaxLength) (.method (filled req bytes) bytes.length) (.headers st) →
        TurnReadable env (filled req bytes).buffer bytes.length st := by
  have hstart := filled_position req bytes
  have hn := hshort.le
  constructor
  · rintro ⟨-, -, s, hreach, hended⟩ st hst
    obtain ⟨hsafe, hframed⟩ := parse_reached hstart hn hst
    have hends : TurnEnds env (filled req bytes) bytes.length st (headerTurn env requestMaxLength st) :=
      hframed.turn_ends hn hsafe.2
    have hstep : parseStep env requestMaxLength (.headers st) = some (headerTurn env requestMaxLength st) := rfl
    generalize headerTurn env requestMaxLength st = next at hends hstep
    cases hends with
    | refused status message req inBytes readable => exact readable
    | blank st' framed slots down readable => exact readable
    | line st' framed slots down readable => exact readable
    | fault fault unreadable => exact absurd (Relation.ReflTransGen.tail hst hstep) (hended.no_fault hreach)
  · intro hreadable
    refine ⟨fun s hs => (parse_reached hstart hn hs).1, fun st st' hst ht => ?_, ?_⟩
    · obtain ⟨hsafe, hframed⟩ := parse_reached hstart hn hst
      exact headerTurn_down hframed hn hsafe.2 ht
    · obtain ⟨s, hreach, hstop⟩ := reaches_stop _ (fun s t hs hstep => parse_step hstart hn hs hstep) (parse_start hstart)
      refine ⟨s, hreach, ?_⟩
      cases s with
      | blank st => trivial
      | stopped stop =>
        cases stop with
        | reject status message req => trivial
        | fault fault =>
          obtain ⟨st, hst, hunreadable⟩ := parse_fault hstart hn hreach
          exact absurd (hreadable st hst) hunreadable
      | method req nbytes => cases hstop
      | path req nbytes => cases hstop
      | version req nbytes => cases hstop
      | headers st => cases hstop

end Runs

def unreadableItem : HeaderItem where
  name := ascii "Content-Length"
  value := ascii "!"
  lineEnd := .plain
  plainName := negativeItem.plainName
  plainValue := by decide
  ended := fun _ => by decide

noncomputable def unreadableText : LengthText plainEnvironment.table where
  method := ascii "G"
  target := ascii "/"
  minor := 48
  lineEnd := .plain
  before := []
  length := unreadableItem
  after := []
  blankEnd := .plain
  plainMethod := get_plain
  plainTarget := root_plain
  digit := by decide
  named := rfl
  single := fun item hm => absurd hm List.not_mem_nil
  hosted := fun h => absurd h (by decide)
  rooted := fun h => absurd h (by decide)
  few := (List.length_filter_le _ _).trans (by decide)

/-- The program ends where the request should be refused. -/
theorem unreadable_length_aborts : unreadableText.render = ascii "G / HTTP/1.0\nContent-Length: !\n\n" ∧
    ¬ ParserSafe plainEnvironment (filled requestNew unreadableText.render) unreadableText.render.length := by
  refine ⟨rfl, ?_⟩
  rintro ⟨-, -, s, hreach, hended⟩
  have hshort : unreadableText.render.length < requestMaxLength := by decide
  obtain ⟨k, before, l, after, hk⟩ := unreadableText.placed (List.prefix_refl _) hshort requestNew
  obtain ⟨hfault, -, -⟩ := unreadableText.headers hshort requestNew hk
  have hstop : Reaches (parseStep plainEnvironment requestMaxLength) _ _ :=
    parseHeaderBlock_reaches (filled_position requestNew unreadableText.render) hshort.le
  rw [hfault .assertion rfl] at hstop
  exact hended.no_fault hreach hstop

theorem parser_safe_iff_unreadable :
    ParserSafe plainEnvironment (filled requestNew unreadableText.render) unreadableText.render.length ↔
      ∀ st, Reaches (parseStep plainEnvironment requestMaxLength)
          (.method (filled requestNew unreadableText.render) unreadableText.render.length) (.headers st) →
        TurnReadable plainEnvironment (filled requestNew unreadableText.render).buffer unreadableText.render.length st :=
  parser_safe_iff plainEnvironment requestNew unreadableText.render (by decide)

end CFlare.Http
