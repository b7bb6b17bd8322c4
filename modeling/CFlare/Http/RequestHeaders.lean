import CFlare.Http.RequestLine

/-! The header loop and the version check. Each line is ended and cut behind the cursor, so the
bytes ahead stay as received; every pointer kept points to a string that ends behind it. -/
namespace CFlare.Http
open CFlare.Library CFlare.Network
variable {env : Environment} {limit : Nat} {st st' : HeaderScan}

theorem orFault_eq_ok {α : Type} {x : Except Fault α} {a : α} : orFault x = .ok a ↔ x = .ok a := by
  cases x <;> simp [orFault, Except.mapError]

theorem stringAt_eq_ok {m : Memory} {start : Nat} {text : Bytes} :
    stringAt limit m start = .ok text ↔ cstring m start (limit - start) = some text := by
  unfold stringAt
  cases cstring m start (limit - start) <;> simp

/-- Where a header's value starts: behind the colon and one more byte. -/
def valueStart (line posCol : Nat) : Nat := line + posCol + 1 + 1

def valueLength (lineLen posCol : Nat) : Nat := sizeSub lineLen (posCol + 1 + 1)

/-- The value ends with its line; behind a colon at the line's end its length wraps around. -/
theorem valueLength_end (line : Nat) {lineLen posCol : Nat} (hcol : posCol < lineLen) (hlen : lineLen + 1 < sizeLimit) :
    valueStart line posCol + valueLength lineLen posCol = line + lineLen ∨
      valueLength lineLen posCol = sizeLimit - 1 := by
  rw [valueStart, valueLength]
  rcases Nat.lt_or_ge lineLen (posCol + 1 + 1) with hshort | hlong
  · rw [sizeSub_of_lt hshort (by omega)]
    exact .inr (by omega)
  · rw [sizeSub_of_le hlong (by omega)]
    exact .inl (by omega)

/-- The null bytes of a header line: in place of the colon, and behind the value. -/
def cutHeader (m : Memory) (line lineLen posCol : Nat) : Memory :=
  Function.update (Function.update m (line + posCol) 0) (line + lineLen) 0

theorem cutHeader_of_ne {m : Memory} {line lineLen posCol i : Nat} (hc : i ≠ line + posCol)
    (he : i ≠ line + lineLen) : cutHeader m line lineLen posCol i = m i := by
  rw [cutHeader, Function.update_of_ne he, Function.update_of_ne hc]

theorem cutHeader_end (m : Memory) (line lineLen posCol : Nat) :
    cutHeader m line lineLen posCol (line + lineLen) = 0 :=
  Function.update_self _ _ _

theorem cutHeader_colon (m : Memory) (line lineLen posCol : Nat) :
    cutHeader m line lineLen posCol (line + posCol) = 0 := by
  by_cases h : line + posCol = line + lineLen
  · rw [h]
    exact cutHeader_end _ _ _ _
  · rw [cutHeader, Function.update_of_ne h, Function.update_self]

def NameIs (key name : Bytes) : Prop := normalizeHeader key = normalizeHeader name

instance (key name : Bytes) : Decidable (NameIs key name) := inferInstanceAs (Decidable (_ = _))

def HeaderScan.keep (st : HeaderScan) (h : RequestHeader) : HeaderScan :=
  { st with req := { st.req with headers := st.req.headers ++ [h] } }

/-- The headers that the program looks at are told apart by their names. -/
theorem recordHeader_eq {key : Bytes} (hv : headersValid (env.table.header key) = true) (value valueLen : Nat) :
    recordHeader env limit st (env.table.header key) value valueLen =
      if requestMaxHeaders ≤ st.req.headers.length then
        .error (.reject 413 (ascii "reached max number of headers") st.req)
      else
        let kept := st.keep ⟨env.table.header key, value, valueLen⟩
        if NameIs key (ascii "Host") then .ok { kept with host := some value, hostLen := valueLen }
        else if NameIs key (ascii "Connection") then
          stringAt limit st.req.buffer value >>= fun text =>
            .ok { kept with req := { kept.req with keepalive := (occurrence text (ascii "keep-alive")).isSome } }
        else if NameIs key (ascii "Content-Type") then .ok kept
        else if NameIs key (ascii "Content-Length") then
          stringAt limit st.req.buffer value >>= fun text =>
            orFault (toInteger env.float text) >>= fun number =>
              number.elim (.error (.reject 400 (ascii "bad content-length") kept.req))
                (fun contentLength => .ok { kept with contentLength := contentLength })
        else .ok kept := by
  have hknown := (env.table.headersValid_iff key).mp hv
  have hequals : ∀ name ∈ commonNames, headersEquals (env.table.header key) (env.table.header name) =
      .ok (decide (NameIs key name)) :=
    fun name hn => env.table.headersEquals_eq hknown (env.table.common_known hn)
  have hhost := hequals (ascii "Host") (by simp [commonNames])
  have hconnection := hequals (ascii "Connection") (by simp [commonNames])
  have htype := hequals (ascii "Content-Type") (by simp [commonNames])
  have hlength := hequals (ascii "Content-Length") (by simp [commonNames])
  unfold recordHeader
  rw [env.table.common_eq]
  split
  · rfl
  dsimp only
  rw [hhost, hconnection, htype, hlength]
  by_cases h1 : NameIs key (ascii "Host")
  · rw [decide_eq_true h1, if_pos h1]
    rfl
  rw [decide_eq_false h1, if_neg h1]
  by_cases h2 : NameIs key (ascii "Connection")
  · rw [decide_eq_true h2, if_pos h2]
    rfl
  rw [decide_eq_false h2, if_neg h2]
  by_cases h3 : NameIs key (ascii "Content-Type")
  · rw [decide_eq_true h3, if_pos h3]
    rfl
  rw [decide_eq_false h3, if_neg h3]
  by_cases h4 : NameIs key (ascii "Content-Length")
  · rw [decide_eq_true h4, if_pos h4]
    change (stringAt limit st.req.buffer value >>= _) = _
    cases stringAt limit st.req.buffer value with
    | error stop => rfl
    | ok text =>
      change (orFault (toInteger env.float text) >>= _) = (orFault (toInteger env.float text) >>= _)
      cases orFault (toInteger env.float text) with
      | error stop => rfl
      | ok number => cases number <;> rfl
  · rw [decide_eq_false h4, if_neg h4]
    rfl

/-- What recording a header under a known name does. -/
structure Recorded (env : Environment) (limit : Nat) (key : Bytes) (value valueLen : Nat)
    (st st' : HeaderScan) : Prop where
  room : st.req.headers.length < requestMaxHeaders
  req : st'.req = { st.req with
    headers := st.req.headers ++ [⟨env.table.header key, value, valueLen⟩]
    keepalive := st'.req.keepalive }
  nbytes : st'.nbytes = st.nbytes
  host : NameIs key (ascii "Host") → st'.host = some value ∧ st'.hostLen = valueLen
  noHost : ¬ NameIs key (ascii "Host") → st'.host = st.host ∧ st'.hostLen = st.hostLen
  connection : NameIs key (ascii "Connection") → ∃ text, stringAt limit st.req.buffer value = .ok text ∧
    st'.req.keepalive = (occurrence text (ascii "keep-alive")).isSome
  noConnection : ¬ NameIs key (ascii "Connection") → st'.req.keepalive = st.req.keepalive
  length : NameIs key (ascii "Content-Length") → ∃ text, stringAt limit st.req.buffer value = .ok text ∧
    toInteger env.float text = .ok (some st'.contentLength)
  noLength : ¬ NameIs key (ascii "Content-Length") → st'.contentLength = st.contentLength

theorem NameIs.other {key a b : Bytes} (h : NameIs key a) (hab : normalizeHeader a ≠ normalizeHeader b) :
    ¬ NameIs key b := fun h' => hab (h.symm.trans h')

theorem recordHeader_ok {key : Bytes} {value valueLen : Nat} (hv : headersValid (env.table.header key) = true)
    (h : recordHeader env limit st (env.table.header key) value valueLen = .ok st') :
    Recorded env limit key value valueLen st st' := by
  rw [recordHeader_eq hv] at h
  dsimp only at h
  split at h
  · cases h
  next hroom =>
  have hroom := Nat.not_le.mp hroom
  split at h
  · next hhost =>
    obtain rfl := Except.ok.inj h
    have hnoConnection : ¬ NameIs key (ascii "Connection") := hhost.other (by decide)
    have hnoLength : ¬ NameIs key (ascii "Content-Length") := hhost.other (by decide)
    exact ⟨hroom, rfl, rfl, fun _ => ⟨rfl, rfl⟩, fun hno => absurd hhost hno,
      fun hyes => absurd hyes hnoConnection, fun _ => rfl, fun hyes => absurd hyes hnoLength, fun _ => rfl⟩
  next hhost =>
  have hnoHost : NameIs key (ascii "Host") → st'.host = some value ∧ st'.hostLen = valueLen :=
    fun hyes => absurd hyes hhost
  split at h
  · next hconnection =>
    obtain ⟨text, htext, h⟩ := bind_eq_ok.mp h
    obtain rfl := Except.ok.inj h
    have hnoLength : ¬ NameIs key (ascii "Content-Length") := hconnection.other (by decide)
    exact ⟨hroom, rfl, rfl, hnoHost, fun _ => ⟨rfl, rfl⟩, fun _ => ⟨text, htext, rfl⟩,
      fun hno => absurd hconnection hno, fun hyes => absurd hyes hnoLength, fun _ => rfl⟩
  next hconnection =>
  have hnoConnection : NameIs key (ascii "Connection") → ∃ text, stringAt limit st.req.buffer value = .ok text ∧
      st'.req.keepalive = (occurrence text (ascii "keep-alive")).isSome := fun hyes => absurd hyes hconnection
  split at h
  · next htype =>
    obtain rfl := Except.ok.inj h
    have hnoLength : ¬ NameIs key (ascii "Content-Length") := htype.other (by decide)
    exact ⟨hroom, rfl, rfl, hnoHost, fun _ => ⟨rfl, rfl⟩, hnoConnection, fun _ => rfl,
      fun hyes => absurd hyes hnoLength, fun _ => rfl⟩
  split at h
  · next hlength =>
    obtain ⟨text, htext, h⟩ := bind_eq_ok.mp h
    obtain ⟨number, hnumber, h⟩ := bind_eq_ok.mp h
    rw [orFault_eq_ok] at hnumber
    cases number with
    | none => cases h
    | some contentLength =>
      obtain rfl := Except.ok.inj h
      exact ⟨hroom, rfl, rfl, hnoHost, fun _ => ⟨rfl, rfl⟩, hnoConnection, fun _ => rfl,
        fun _ => ⟨text, htext, hnumber⟩, fun hno => absurd hlength hno⟩
  · next hlength =>
    obtain rfl := Except.ok.inj h
    exact ⟨hroom, rfl, rfl, hnoHost, fun _ => ⟨rfl, rfl⟩, hnoConnection, fun _ => rfl,
      fun hyes => absurd hyes hlength, fun _ => rfl⟩

/-- What a header line can do: cut the line, and perhaps record the header under its name. -/
structure HeaderParsed (env : Environment) (line lineLen posCol : Nat) (st st' : HeaderScan) : Prop where
  found : firstOf st.req.buffer line lineLen colon = some posCol
  req : st'.req = { st.req with
    buffer := cutHeader st.req.buffer line lineLen posCol
    headers := st'.req.headers
    keepalive := st'.req.keepalive }
  nbytes : st'.nbytes = st.nbytes
  headers : st'.req.headers = st.req.headers ∨
    ∃ hdr, st'.req.headers = st.req.headers ++ [⟨hdr, valueStart line posCol, valueLength lineLen posCol⟩]
  host : st'.host = st.host ∧ st'.hostLen = st.hostLen ∨
    st'.host = some (valueStart line posCol) ∧ st'.hostLen = valueLength lineLen posCol ∧ 4 ≤ posCol

private theorem host_name_length {key : Bytes} (h : NameIs key (ascii "Host")) : key.length = 4 := by
  have hlen := congrArg List.length h
  rw [normalizeHeader, normalizeHeader, List.length_map, List.length_map] at hlen
  exact hlen

def HeaderScan.cutLine (st : HeaderScan) (line lineLen posCol : Nat) : HeaderScan :=
  { st with req := { st.req with buffer := cutHeader st.req.buffer line lineLen posCol } }

/-- A header line with a colon, under the name in front of it. -/
theorem parseHeader_eq {line lineLen posCol : Nat} {key : Bytes} (hl : line + lineLen < sizeLimit)
    (h2 : lineLen + 2 < sizeLimit) (hstart : st.req.buffer line ≠ space ∧ st.req.buffer line ≠ tab)
    (hf : firstOf st.req.buffer line lineLen colon = some posCol)
    (hkey : cstring (cutHeader st.req.buffer line lineLen posCol) line (limit - line) = some key) :
    parseHeader env limit st line lineLen =
      if headersValid (env.table.header key) then
        recordHeader env limit (st.cutLine line lineLen posCol) (env.table.header key) (valueStart line posCol)
          (valueLength lineLen posCol)
      else .ok (st.cutLine line lineLen posCol) := by
  have hend : sizeAdd (line + posCol + 1 + 1) (sizeSub lineLen (posCol + 1 + 1)) = line + lineLen := by
    have hlt := (firstOf_eq_some.mp hf).1
    rw [show line + posCol + 1 + 1 = line + (posCol + 1 + 1) by omega]
    exact sizeAdd_sizeSub (by omega) hl
  unfold parseHeader
  rw [if_neg (not_or.mpr hstart), hf]
  dsimp only
  rw [hend]
  change (stringAt limit (cutHeader st.req.buffer line lineLen posCol) line >>= _) = _
  rw [stringAt_eq_ok.mpr hkey, fault_ok_bind, env.table.headersGet_eq]
  rfl

/-- A header line that is accepted has a colon, and a name in front of it. -/
theorem parseHeader_named {line lineLen : Nat} (hl : line + lineLen < sizeLimit) (h2 : lineLen + 2 < sizeLimit)
    (h : parseHeader env limit st line lineLen = .ok st') :
    ∃ posCol key, (st.req.buffer line ≠ space ∧ st.req.buffer line ≠ tab) ∧
      firstOf st.req.buffer line lineLen colon = some posCol ∧
      cstring (cutHeader st.req.buffer line lineLen posCol) line (limit - line) = some key := by
  unfold parseHeader at h
  split at h
  · cases h
  next hstart =>
  cases hf : firstOf st.req.buffer line lineLen colon with
  | none =>
    rw [hf] at h
    cases h
  | some posCol =>
    rw [hf] at h
    dsimp only at h
    have hend : sizeAdd (line + posCol + 1 + 1) (sizeSub lineLen (posCol + 1 + 1)) = line + lineLen := by
      have hlt := (firstOf_eq_some.mp hf).1
      rw [show line + posCol + 1 + 1 = line + (posCol + 1 + 1) by omega]
      exact sizeAdd_sizeSub (by omega) hl
    rw [hend] at h
    obtain ⟨key, hkey, -⟩ := bind_eq_ok.mp h
    exact ⟨posCol, key, not_or.mp hstart, rfl, stringAt_eq_ok.mp hkey⟩

theorem parseHeader_ok {line lineLen : Nat} (hl : line + lineLen < sizeLimit) (h2 : lineLen + 2 < sizeLimit)
    (h : parseHeader env limit st line lineLen = .ok st') :
    ∃ posCol, HeaderParsed env line lineLen posCol st st' := by
  obtain ⟨posCol, key, hstart, hf, hkey⟩ := parseHeader_named hl h2 h
  rw [parseHeader_eq hl h2 hstart hf hkey] at h
  refine ⟨posCol, ?_⟩
  split at h
  · next hv =>
    have hrecorded := recordHeader_ok hv h
    have hreq := hrecorded.req
    refine ⟨hf, by rw [hreq]; rfl, hrecorded.nbytes, .inr ⟨_, congrArg (fun req => req.headers) hreq⟩, ?_⟩
    by_cases hname : NameIs key (ascii "Host")
    · obtain ⟨hhost, hhostLen⟩ := hrecorded.host hname
      refine .inr ⟨hhost, hhostLen, ?_⟩
      rw [← host_name_length hname]
      exact cstring_length_le hkey (cutHeader_colon _ _ _ _)
    · exact .inl (hrecorded.noHost hname)
  · obtain rfl := Except.ok.inj h
    exact ⟨hf, rfl, rfl, .inl rfl, .inl ⟨rfl, rfl⟩⟩

/-- The state behind a line whose newline is at `pos`, with the line ended. -/
def HeaderScan.afterLine (st : HeaderScan) (pos : Nat) : HeaderScan :=
  { st with
    req := { st.req with
      buffer := Function.update st.req.buffer
        (st.req.bufferPosition + lineLength st.req.buffer st.req.bufferPosition pos) 0
      bufferPosition := st.req.bufferPosition + pos + 1 }
    nbytes := st.nbytes - (pos + 1) }

@[simp] theorem afterLine_position (st : HeaderScan) (pos : Nat) :
    (st.afterLine pos).req.bufferPosition = st.req.bufferPosition + (pos + 1) := rfl

@[simp] theorem afterLine_nbytes (st : HeaderScan) (pos : Nat) :
    (st.afterLine pos).nbytes = st.nbytes - (pos + 1) := rfl

theorem afterLine_buffer_of_ne (st : HeaderScan) {pos i : Nat}
    (h : i ≠ st.req.bufferPosition + lineLength st.req.buffer st.req.bufferPosition pos) :
    (st.afterLine pos).req.buffer i = st.req.buffer i :=
  Function.update_of_ne h _ _

theorem takeLine_eq {pos : Nat} (h : firstOf st.req.buffer st.req.bufferPosition st.nbytes newline = some pos)
    (hbefore : st.req.buffer (st.req.bufferPosition - 1) ≠ carriageReturn) (hn : st.nbytes < sizeLimit) :
    takeLine st = .ok (st.req.bufferPosition, lineLength st.req.buffer st.req.bufferPosition pos,
      st.afterLine pos) := by
  rw [takeLine]
  dsimp only
  rw [h]
  dsimp only
  rw [endLine_eq hbefore (Nat.lt_trans (firstOf_eq_some.mp h).1 hn)]
  rfl

/-- One turn of the header loop: the blank line, or a header line and the lines behind it. -/
theorem parseHeaders_turn {fuel : Nat} (hbefore : st.req.buffer (st.req.bufferPosition - 1) ≠ carriageReturn)
    (hn : st.req.bufferPosition + st.nbytes ≤ requestMaxLength)
    (h : parseHeaders env limit (fuel + 1) st = .ok st') :
    ∃ pos, firstOf st.req.buffer st.req.bufferPosition st.nbytes newline = some pos ∧
      (lineLength st.req.buffer st.req.bufferPosition pos = 0 ∧ st' = st.afterLine pos ∨
        ∃ st1, parseHeader env limit (st.afterLine pos) st.req.bufferPosition
            (lineLength st.req.buffer st.req.bufferPosition pos) = .ok st1 ∧
          parseHeaders env limit fuel st1 = .ok st') := by
  have hmax : requestMaxLength + 2 < sizeLimit := by decide
  rw [parseHeaders] at h
  obtain ⟨⟨line, lineLen, st1⟩, htake, h⟩ := bind_eq_ok.mp h
  cases hf : firstOf st.req.buffer st.req.bufferPosition st.nbytes newline with
  | none =>
    rw [takeLine] at htake
    dsimp only at htake
    rw [hf] at htake
    cases htake
  | some pos =>
    refine ⟨pos, rfl, ?_⟩
    rw [takeLine_eq hf hbefore (by omega)] at htake
    obtain ⟨rfl, hrest⟩ := Prod.mk.inj (Except.ok.inj htake)
    obtain ⟨rfl, rfl⟩ := Prod.mk.inj hrest
    dsimp only at h
    split at h
    · next hz => exact .inl ⟨hz, (Except.ok.inj h).symm⟩
    · obtain ⟨st2, hheader, h⟩ := bind_eq_ok.mp h
      exact .inr ⟨st2, hheader, h⟩

/-- The header loop's invariant. Behind the cursor are the request line, with the path's null
byte still in place, and the values kept; ahead of it are the bytes as received. -/
structure Framed (m : Memory) (n : Nat) (st : HeaderScan) : Prop where
  room : n ≤ requestMaxLength
  total : st.req.bufferPosition + st.nbytes = n
  ahead : ∀ i, st.req.bufferPosition ≤ i → st.req.buffer i = m i
  before : st.req.buffer (st.req.bufferPosition - 1) ≠ carriageReturn
  version : st.req.version < st.req.bufferPosition
  method : st.req.method < st.req.version
  path : st.req.path < st.req.version ∧ st.req.buffer (st.req.version - 1) = 0
  query : ∀ q, st.req.query = some q → q < st.req.version
  headers : ∀ h ∈ st.req.headers, h.value ≤ st.req.bufferPosition
  host : st.host = none ∧ st.hostLen = 0 ∨
    ∃ v, st.host = some v ∧ st.req.version + 7 ≤ v ∧ v ≤ st.req.bufferPosition ∧
      (v + st.hostLen < st.req.bufferPosition ∨ st.hostLen = sizeLimit - 1)

namespace Framed
variable {m : Memory} {n : Nat}

private theorem update_ne_return {m : Memory} {i : Nat} (j : Nat) (h : m i ≠ carriageReturn) :
    Function.update m j 0 i ≠ carriageReturn := by
  by_cases hij : i = j
  · rw [hij, Function.update_self]
    decide
  · rwa [Function.update_of_ne hij]

theorem afterLine (h : Framed m n st) {pos : Nat}
    (hp : firstOf st.req.buffer st.req.bufferPosition st.nbytes newline = some pos) :
    Framed m n (st.afterLine pos) := by
  obtain ⟨hlt, hv, -⟩ := firstOf_eq_some.mp hp
  have hle := lineLength_le st.req.buffer st.req.bufferPosition pos
  have htotal := h.total
  have hversion := h.version
  have hpos := afterLine_position st pos
  refine ⟨h.room, ?_, fun i hi => ?_, ?_, ?_, h.method, ⟨h.path.1, ?_⟩, h.query, fun hd hm => ?_,
    h.host.imp id ?_⟩
  · rw [hpos, afterLine_nbytes]
    omega
  · rw [hpos] at hi
    rw [afterLine_buffer_of_ne st (by omega)]
    exact h.ahead i (by omega)
  · rw [hpos, ← Nat.add_assoc, Nat.add_sub_cancel]
    apply update_ne_return
    rw [hv]
    decide
  · rw [hpos]
    exact Nat.lt_add_right _ hversion
  · have hkeep : st.req.version - 1 ≠
        st.req.bufferPosition + lineLength st.req.buffer st.req.bufferPosition pos := by omega
    exact (afterLine_buffer_of_ne st hkeep).trans h.path.2
  · rw [hpos]
    exact (h.headers hd hm).trans (Nat.le_add_right _ _)
  · rintro ⟨v, hhost, hlow, hup, hlen⟩
    rw [hpos]
    exact ⟨v, hhost, hlow, hup.trans (Nat.le_add_right _ _), hlen.imp (Nat.lt_add_right _) id⟩

theorem headerParsed (h : Framed m n st) {line lineLen posCol : Nat}
    (hp : HeaderParsed env line lineLen posCol st st') (hl : st.req.version < line)
    (hu : line + lineLen < st.req.bufferPosition) : Framed m n st' := by
  have hmax : requestMaxLength + 2 < sizeLimit := by decide
  have hcol := (firstOf_eq_some.mp hp.found).1
  have htotal := h.total
  have hroom := h.room
  obtain ⟨hfound, hreq, hn, hheaders, hhost⟩ := hp
  have hposition : st'.req.bufferPosition = st.req.bufferPosition := by rw [hreq]
  have hversion : st'.req.version = st.req.version := by rw [hreq]
  have hpath : st'.req.path = st.req.path := by rw [hreq]
  have hbuffer : st'.req.buffer = cutHeader st.req.buffer line lineLen posCol := by rw [hreq]
  have hmethod : st'.req.method = st.req.method := by rw [hreq]
  have hquery : st'.req.query = st.req.query := by rw [hreq]
  refine ⟨h.room, by rw [hposition, hn]; exact h.total, fun i hi => ?_, ?_, ?_, ?_, ⟨?_, ?_⟩,
    ?_, fun hd hm => ?_, ?_⟩
  · rw [hposition] at hi
    rw [hbuffer, cutHeader_of_ne (by omega) (by omega)]
    exact h.ahead i hi
  · rw [hposition, hbuffer]
    exact update_ne_return _ (update_ne_return _ h.before)
  · rw [hposition, hversion]
    exact h.version
  · rw [hmethod, hversion]
    exact h.method
  · rw [hpath, hversion]
    exact h.path.1
  · rw [hversion, hbuffer, cutHeader_of_ne (by omega) (by omega)]
    exact h.path.2
  · rw [hquery, hversion]
    exact h.query
  · rw [hposition]
    rcases hheaders with heq | ⟨hdr, heq⟩
    · exact h.headers hd (heq ▸ hm)
    · rw [heq, List.mem_append, List.mem_singleton] at hm
      rcases hm with hold | rfl
      · exact h.headers hd hold
      · show line + posCol + 1 + 1 ≤ _
        omega
  · rw [hposition, hversion]
    rcases hhost with ⟨hkeep, hlen⟩ | ⟨hset, hlen, hfour⟩
    · rw [hkeep, hlen]
      exact h.host
    · refine .inr ⟨_, hset, ?_, ?_, ?_⟩
      · unfold valueStart
        omega
      · unfold valueStart
        omega
      · rw [hlen]
        have hend := valueLength_end line hcol (by omega)
        exact hend.imp (fun he => by omega) id

/-- The line that the cursor is at, read as a header. -/
theorem lineParsed (h : Framed m n st) {pos : Nat}
    (hpos : firstOf st.req.buffer st.req.bufferPosition st.nbytes newline = some pos)
    (hp : parseHeader env limit (st.afterLine pos) st.req.bufferPosition
      (lineLength st.req.buffer st.req.bufferPosition pos) = .ok st') :
    Framed m n st' ∧ ∃ posCol, HeaderParsed env st.req.bufferPosition
      (lineLength st.req.buffer st.req.bufferPosition pos) posCol (st.afterLine pos) st' := by
  have hmax : requestMaxLength + 2 < sizeLimit := by decide
  have hroom := h.room
  have htotal := h.total
  have hlt := (firstOf_eq_some.mp hpos).1
  have hle := lineLength_le st.req.buffer st.req.bufferPosition pos
  obtain ⟨posCol, hparsed⟩ := parseHeader_ok (by omega) (by omega) hp
  exact ⟨(h.afterLine hpos).headerParsed hparsed h.version (Nat.lt_succ_of_le (Nat.add_le_add_left hle _)),
    posCol, hparsed⟩

/-- A turn of the header loop, and what it does when it goes on. -/
theorem turn (h : Framed m n st) {fuel : Nat} (hp : parseHeaders env limit (fuel + 1) st = .ok st') :
    ∃ pos, firstOf st.req.buffer st.req.bufferPosition st.nbytes newline = some pos ∧
      (lineLength st.req.buffer st.req.bufferPosition pos = 0 ∧ st' = st.afterLine pos ∨
        ∃ st1, parseHeader env limit (st.afterLine pos) st.req.bufferPosition
            (lineLength st.req.buffer st.req.bufferPosition pos) = .ok st1 ∧ Framed m n st1 ∧
          (∃ posCol, HeaderParsed env st.req.bufferPosition
            (lineLength st.req.buffer st.req.bufferPosition pos) posCol (st.afterLine pos) st1) ∧
          parseHeaders env limit fuel st1 = .ok st') := by
  have hroom := h.room
  have htotal := h.total
  obtain ⟨pos, hpos, hblank | ⟨st1, hheader, hrest⟩⟩ := parseHeaders_turn h.before (by omega) hp
  · exact ⟨pos, hpos, .inl hblank⟩
  · obtain ⟨hframed, hparsed⟩ := h.lineParsed hpos hheader
    exact ⟨pos, hpos, .inr ⟨st1, hheader, hframed, hparsed, hrest⟩⟩

end Framed

/-- The pointers into the buffer that the hook is given. -/
def HeaderScan.pointers (st : HeaderScan) : List Nat :=
  [st.req.method, st.req.path, st.req.version] ++ st.req.query.toList ++ st.host.toList ++
    st.req.headers.map RequestHeader.value

/-- There is a null byte behind the cursor at which every string ends at the latest. -/
structure Closed (st : HeaderScan) (z : Nat) : Prop where
  inside : z < st.req.bufferPosition
  null : st.req.buffer z = 0
  pointers : ∀ p ∈ st.pointers, p ≤ z

private theorem Framed.closed {m : Memory} {n pos : Nat} (h : Framed m n st)
    (hz : lineLength st.req.buffer st.req.bufferPosition pos = 0) :
    Closed (st.afterLine pos) st.req.bufferPosition := by
  refine ⟨?_, ?_, fun p hp => ?_⟩
  · exact Nat.lt_succ_of_le (Nat.le_add_right _ _)
  · simp only [HeaderScan.afterLine, hz, Nat.add_zero]
    exact Function.update_self _ _ _
  · have hmethod := h.method
    have hpath := h.path.1
    have hversion := h.version
    simp only [HeaderScan.pointers, HeaderScan.afterLine, List.mem_append, List.mem_cons, List.not_mem_nil,
      or_false, Option.mem_toList, List.mem_map] at hp
    rcases hp with ((hline | hquery) | hhost) | ⟨hd, hm, rfl⟩
    · omega
    · have := h.query p hquery
      omega
    · rcases h.host with ⟨hnone, -⟩ | ⟨v, hv, -, hup, -⟩
      · rw [hnone] at hhost
        cases hhost
      · rw [hv] at hhost
        obtain rfl := Option.some.inj hhost
        exact hup
    · exact h.headers hd hm

/-- The invariant over the whole header loop, and where it ends. -/
theorem parseHeaders_framed {m : Memory} {n fuel : Nat} (h : Framed m n st)
    (hp : parseHeaders env limit fuel st = .ok st') :
    Framed m n st' ∧ ∃ z, st'.req.version < z ∧ Closed st' z := by
  induction fuel generalizing st with
  | zero => cases hp
  | succ fuel ih =>
    obtain ⟨pos, hpos, ⟨hz, rfl⟩ | ⟨st1, -, hframed, -, hrest⟩⟩ := h.turn hp
    · exact ⟨h.afterLine hpos, st.req.bufferPosition, h.version, h.closed hz⟩
    · exact ih hframed hrest

/-- The host of the URL moved down by a byte, with its null byte behind the length that the
headers gave. -/
def movedAuthority (st : HeaderScan) (hostPart hostPartLen : Nat) : HeaderScan :=
  { st with
    req := { st.req with
      buffer := Function.update
        (store st.req.buffer (hostPart - 1) (slice st.req.buffer hostPart st.hostLen))
        (hostPart - 1 + st.hostLen) 0
      pathLen := sizeSub (st.req.path + st.req.pathLen) (hostPart + hostPartLen)
      path := hostPart + hostPartLen }
    host := some (hostPart - 1)
    hostLen := hostPartLen }

/-- The move, for a host part found in front of the path's end. -/
structure AuthorityMoved (limit : Nat) (st : HeaderScan) (hostPart hostPartLen : Nat) (st' : HeaderScan) :
    Prop where
  behind : st.req.path < hostPart
  slash : hostPart + hostPartLen + 1 < st.req.version
  room : hostPart + st.hostLen ≤ limit
  moved : st' = movedAuthority st hostPart hostPartLen

theorem AuthorityMoved.buffer_of_ge {hostPart hostPartLen i : Nat}
    (h : AuthorityMoved limit st hostPart hostPartLen st') (hi : hostPart + st.hostLen ≤ i) :
    st'.req.buffer i = st.req.buffer i := by
  have hb := h.behind
  rw [h.moved]
  dsimp only [movedAuthority]
  rw [Function.update_of_ne (by omega), store_after (by rw [slice_length]; omega)]

theorem AuthorityMoved.buffer_end {hostPart hostPartLen : Nat}
    (h : AuthorityMoved limit st hostPart hostPartLen st') :
    st'.req.buffer (hostPart - 1 + st.hostLen) = 0 := by
  rw [h.moved]
  exact Function.update_self _ _ _

/-- What the authority phase can do, when the path's null byte is in place: nothing for a path
without an authority; else subtract from a null pointer, or move a host found in the path. -/
theorem parseAuthority_spec (hp : st.req.path < st.req.version) (hz : st.req.buffer (st.req.version - 1) = 0)
    (hl : st.req.version ≤ limit) :
    ∃ path, cstring st.req.buffer st.req.path (limit - st.req.path) = some path ∧
      (occurrence path (ascii "://") = none ∧ parseAuthority limit st = .ok st ∨
        occurrence path (ascii "://") ≠ none ∧ (parseAuthority limit st = .error (.fault .undefined) ∨
          ∃ hostPart hostPartLen, st.req.path < hostPart ∧ hostPart + hostPartLen + 1 < st.req.version ∧
            parseAuthority limit st = if limit < hostPart + st.hostLen then .error (.fault .overrun) else
              .ok (movedAuthority st hostPart hostPartLen))) := by
  have hstring : ∀ start, start < st.req.version → ∃ text,
      stringAt limit st.req.buffer start = .ok text ∧ start + text.length ≤ st.req.version - 1 := by
    intro start hs
    have hnull : st.req.buffer (start + (st.req.version - 1 - start)) = 0 := by
      rw [← hz]
      congr 1
      omega
    cases hc : cstring st.req.buffer start (limit - start) with
    | none => exact absurd hnull (cstring_eq_none.mp hc _ (by omega))
    | some text =>
      have hle := cstring_length_le hc hnull
      exact ⟨text, stringAt_eq_ok.mpr hc, by omega⟩
  obtain ⟨path, hpath, hpathEnd⟩ := hstring st.req.path hp
  refine ⟨path, stringAt_eq_ok.mp hpath, ?_⟩
  rw [parseAuthority, hpath, fault_ok_bind]
  cases hproto : occurrence path (ascii "://") with
  | none => exact .inl ⟨rfl, rfl⟩
  | some protocol =>
    have hprotoEnd : protocol + 3 ≤ path.length := occurrence_le hproto
    obtain ⟨text, htext, htextEnd⟩ := hstring (st.req.path + protocol + 3) (by omega)
    refine .inr ⟨Option.some_ne_none _, ?_⟩
    dsimp only
    rw [htext, fault_ok_bind]
    cases hslash : occurrence text (ascii "/") with
    | none => exact .inl rfl
    | some hostPartLen =>
      have hslashEnd : hostPartLen + 1 ≤ text.length := occurrence_le hslash
      exact .inr ⟨st.req.path + protocol + 3, hostPartLen, by omega, by omega, rfl⟩

theorem parseAuthority_ok (hp : st.req.path < st.req.version) (hz : st.req.buffer (st.req.version - 1) = 0)
    (hl : st.req.version ≤ limit) (h : parseAuthority limit st = .ok st') :
    ∃ path, cstring st.req.buffer st.req.path (limit - st.req.path) = some path ∧
      (occurrence path (ascii "://") = none ∧ st' = st ∨
        occurrence path (ascii "://") ≠ none ∧
          ∃ hostPart hostPartLen, AuthorityMoved limit st hostPart hostPartLen st') := by
  obtain ⟨path, hpath, ⟨hnone, heq⟩ | ⟨hsome, heq | ⟨hostPart, hostPartLen, hlow, hup, heq⟩⟩⟩ :=
    parseAuthority_spec hp hz hl
  · rw [heq] at h
    exact ⟨path, hpath, .inl ⟨hnone, (Except.ok.inj h).symm⟩⟩
  · rw [heq] at h
    cases h
  · rw [heq] at h
    split at h
    · cases h
    · next hroom =>
      exact ⟨path, hpath, .inr ⟨hsome, hostPart, hostPartLen, hlow, hup, Nat.not_lt.mp hroom,
        (Except.ok.inj h).symm⟩⟩

/-- A version that is accepted, with what it asks for. -/
inductive VersionPassed (limit : Nat) (st : HeaderScan) : HeaderScan → Prop where
  | host (minor : st.req.buffer (st.req.version + 7) = 49) (given : st.host ≠ none) :
      VersionPassed limit st st
  | authority {st' : HeaderScan} (minor : st.req.buffer (st.req.version + 7) = 50)
      (parsed : parseAuthority limit st = .ok st') : VersionPassed limit st st'
  | close (minor : st.req.buffer (st.req.version + 7) ≠ 49 ∧ st.req.buffer (st.req.version + 7) ≠ 50) :
      VersionPassed limit st { st with req := { st.req with keepalive := false } }

theorem checkVersion_ok (h : checkVersion limit st = .ok st') :
    st.req.version + 7 < limit ∧ st.req.buffer (st.req.version + 5) = 49 ∧ VersionPassed limit st st' := by
  unfold checkVersion at h
  obtain ⟨major, hmajor, h⟩ := bind_eq_ok.mp h
  obtain ⟨minor, hminor, h⟩ := bind_eq_ok.mp h
  unfold byteAt at hmajor hminor
  split at hminor
  · next hlt =>
    rw [if_pos (by omega)] at hmajor
    obtain rfl := Except.ok.inj hmajor
    obtain rfl := Except.ok.inj hminor
    split at h
    · cases h
    · next hone =>
      refine ⟨hlt, not_not.mp hone, ?_⟩
      split at h
      · next hm =>
        split at h
        · cases h
        · next hhost =>
          obtain rfl := Except.ok.inj h
          exact .host hm hhost
      · next hm =>
        split at h
        · next hm2 => exact .authority hm2 h
        · next hm2 =>
          obtain rfl := Except.ok.inj h
          exact .close ⟨hm, hm2⟩
  · cases hminor

/-- What parsing leaves: the bytes ahead of the cursor are those received, and all strings kept
end behind it. -/

structure Parsed (m : Memory) (n : Nat) (st : HeaderScan) : Prop where
  room : n ≤ requestMaxLength
  total : st.req.bufferPosition + st.nbytes = n
  ahead : ∀ i, st.req.bufferPosition ≤ i → st.req.buffer i = m i
  closed : ∃ z, Closed st z

theorem mem_pointers {p : Nat} : p ∈ st.pointers ↔
    p = st.req.method ∨ p = st.req.path ∨ p = st.req.version ∨ st.req.query = some p ∨ st.host = some p ∨
      ∃ h ∈ st.req.headers, h.value = p := by
  simp only [HeaderScan.pointers, List.mem_append, List.mem_cons, List.not_mem_nil, or_false,
    Option.mem_toList, List.mem_map, or_assoc]

private theorem authorityMoved_parsed {m : Memory} {n z hostPart hostPartLen : Nat} (hlimit : limit ≤ requestMaxLength)
    (h : Framed m n st) (hc : Closed st z) (hv : st.req.version < z)
    (hm : AuthorityMoved limit st hostPart hostPartLen st') : Parsed m n st' := by
  have hbehind := hm.behind
  have hslash := hm.slash
  have hroom := hm.room
  have hversion := h.version
  have hinside := hc.inside
  have hend : hostPart + st.hostLen ≤ st.req.bufferPosition := by
    rcases h.host with ⟨-, hlen⟩ | ⟨v, -, hlow, -, hlen | hlen⟩
    · omega
    · omega
    · have hbig : requestMaxLength < sizeLimit - 1 := by decide
      omega
  have hposition : st'.req.bufferPosition = st.req.bufferPosition := by rw [hm.moved, movedAuthority]
  have hnbytes : st'.nbytes = st.nbytes := by rw [hm.moved, movedAuthority]
  refine ⟨h.room, by rw [hposition, hnbytes]; exact h.total, fun i hi => ?_, ?_⟩
  · rw [hposition] at hi
    rw [hm.buffer_of_ge (hend.trans hi)]
    exact h.ahead i hi
  · have hpointers : ∀ p ∈ st'.pointers, p ≤ z := by
      intro p hp
      rw [mem_pointers, hm.moved] at hp
      dsimp only [movedAuthority] at hp
      rcases hp with rfl | rfl | rfl | hquery | hhost | hheader
      · exact hc.pointers _ (mem_pointers.mpr (.inl rfl))
      · omega
      · exact hc.pointers _ (mem_pointers.mpr (.inr (.inr (.inl rfl))))
      · exact hc.pointers _ (mem_pointers.mpr (.inr (.inr (.inr (.inl hquery)))))
      · obtain rfl := Option.some.inj hhost
        omega
      · exact hc.pointers _ (mem_pointers.mpr (.inr (.inr (.inr (.inr (.inr hheader))))))
    -- the move may have overwritten the blank line's null byte, and then put one behind it
    rcases Nat.lt_or_ge (hostPart - 1 + st.hostLen) z with hlt | hge
    · exact ⟨z, hposition ▸ hinside, by rw [hm.buffer_of_ge (by omega)]; exact hc.null, hpointers⟩
    · exact ⟨hostPart - 1 + st.hostLen, by rw [hposition]; omega, hm.buffer_end,
        fun p hp => (hpointers p hp).trans hge⟩

theorem checkVersion_parsed {m : Memory} {n z : Nat} (hlimit : limit ≤ requestMaxLength)
    (h : Framed m n st) (hc : Closed st z) (hv : st.req.version < z)
    (hp : checkVersion limit st = .ok st') : Parsed m n st' := by
  have hsame : Parsed m n st := ⟨h.room, h.total, h.ahead, z, hc⟩
  obtain ⟨hinside, -, hpassed⟩ := checkVersion_ok hp
  cases hpassed with
  | host minor given => exact hsame
  | authority minor parsed =>
    obtain ⟨-, -, ⟨-, rfl⟩ | ⟨-, hostPart, hostPartLen, hm⟩⟩ :=
      parseAuthority_ok h.path.1 h.path.2 (by omega) parsed
    · exact hsame
    · exact authorityMoved_parsed hlimit h hc hv hm
  | close minor => exact ⟨h.room, h.total, h.ahead, z, hc.inside, hc.null, hc.pointers⟩

def lineSpans (req : Request) : List Nat × Option Nat :=
  ([req.method, req.methodLen, req.path, req.pathLen, req.queryLen, req.version, req.versionLen], req.query)

theorem lineSpans_eq {a b : Request} : lineSpans a = lineSpans b ↔
    a.method = b.method ∧ a.methodLen = b.methodLen ∧ a.path = b.path ∧ a.pathLen = b.pathLen ∧
      a.queryLen = b.queryLen ∧ a.version = b.version ∧ a.versionLen = b.versionLen ∧ a.query = b.query := by
  simp [lineSpans, and_assoc]

/-- The header loop leaves the request line and every byte behind its first line alone. -/
theorem parseHeaders_keeps {m : Memory} {n fuel : Nat} (h : Framed m n st)
    (hp : parseHeaders env limit fuel st = .ok st') :
    lineSpans st'.req = lineSpans st.req ∧
      ∀ i < st.req.bufferPosition, st'.req.buffer i = st.req.buffer i := by
  induction fuel generalizing st with
  | zero => cases hp
  | succ fuel ih =>
    obtain ⟨pos, hpos, hcase⟩ := h.turn hp
    have hkeep : ∀ i < st.req.bufferPosition, (st.afterLine pos).req.buffer i = st.req.buffer i :=
      fun i hi => afterLine_buffer_of_ne st (by omega)
    rcases hcase with ⟨-, rfl⟩ | ⟨st1, -, hframed, ⟨posCol, hheader⟩, hrest⟩
    · exact ⟨rfl, hkeep⟩
    · have hafter := afterLine_position st pos
      have hposition : st1.req.bufferPosition = (st.afterLine pos).req.bufferPosition := by
        rw [hheader.req]
      obtain ⟨hspans, hbytes⟩ := ih hframed hrest
      refine ⟨hspans.trans ?_, fun i hi => ?_⟩
      · rw [hheader.req]
        rfl
      · rw [hbytes i (by omega), hheader.req]
        dsimp only
        rw [cutHeader_of_ne (by omega) (by omega)]
        exact hkeep i hi

theorem parseHeaders_response {m : Memory} {n fuel : Nat} (h : Framed m n st)
    (hp : parseHeaders env limit fuel st = .ok st') : st'.req.response = st.req.response := by
  induction fuel generalizing st with
  | zero => cases hp
  | succ fuel ih =>
    obtain ⟨pos, hpos, ⟨-, rfl⟩ | ⟨st1, -, hframed, ⟨posCol, hheader⟩, hrest⟩⟩ := h.turn hp
    · rfl
    · rw [ih hframed hrest, hheader.req]
      rfl

/-- The authority phase moves the host and the path, and nothing else. -/
theorem parseAuthority_keeps (h : parseAuthority limit st = .ok st') :
    st'.req.keepalive = st.req.keepalive ∧ st'.req.response = st.req.response ∧
      st'.req.bufferPosition = st.req.bufferPosition := by
  unfold parseAuthority at h
  obtain ⟨path, -, h⟩ := bind_eq_ok.mp h
  split at h
  · obtain rfl := Except.ok.inj h
    exact ⟨rfl, rfl, rfl⟩
  · obtain ⟨text, -, h⟩ := bind_eq_ok.mp h
    split at h
    · cases h
    · split at h
      · cases h
      · obtain rfl := Except.ok.inj h
        exact ⟨rfl, rfl, rfl⟩

theorem VersionPassed.response (h : VersionPassed limit st st') : st'.req.response = st.req.response := by
  cases h with
  | host minor given => rfl
  | authority minor parsed => exact (parseAuthority_keeps parsed).2.1
  | close minor => rfl

theorem VersionPassed.position (h : VersionPassed limit st st') :
    st'.req.bufferPosition = st.req.bufferPosition := by
  cases h with
  | host minor given => rfl
  | authority minor parsed => exact (parseAuthority_keeps parsed).2.2
  | close minor => rfl

/-- The state in which the header loop starts. -/
def HeaderScan.start (req : Request) (nbytes : Nat) : HeaderScan :=
  ⟨{ req with headers := [] }, nbytes, 0, none, 0⟩

/-- The request line leaves the header loop's invariant. -/
theorem LineParsed.framed {req req' : Request} {n a b c : Nat} (hn : n ≤ requestMaxLength)
    (hm : LineMarks req.buffer n a b c) (hp : LineParsed req.buffer a b c req') :
    Framed req.buffer n (.start req' (n - (a + 1) - (b + 1) - (c + 1))) := by
  have hinside := hm.inside
  have hle := lineLength_le req.buffer (a + 1 + b + 1) c
  have hpathLen := hp.query.pathLen_le
  have hversion := hp.version
  have hposition := hp.position
  have hlen := hp.versionLen
  refine ⟨hn, ?_, fun i hi => ?_, ?_, ?_, ?_, ⟨?_, ?_⟩, fun q hq => ?_, fun h hh => ?_, .inl ⟨rfl, rfl⟩⟩
  · simp only [HeaderScan.start]
    omega
  · simp only [HeaderScan.start] at hi ⊢
    exact hp.kept i (by omega) (by omega) (by omega) (by omega)
  · simp only [HeaderScan.start]
    rw [hposition, Nat.add_sub_cancel]
    by_cases hend : a + 1 + b + 1 + c = req'.version + req'.versionLen
    · rw [hend, hp.nulls.2.2.2]
      decide
    · rw [hp.kept _ (by omega) (by omega) (by omega) hend, (firstOf_eq_some.mp hm.version).2.1]
      decide
  · simp only [HeaderScan.start]
    omega
  · simp only [HeaderScan.start, hp.method]
    omega
  · simp only [HeaderScan.start, hp.path]
    omega
  · simp only [HeaderScan.start]
    rw [hversion, Nat.add_sub_cancel]
    exact hp.nulls.2.1
  · rcases hp.query.cases with ⟨hnone, -, -⟩ | ⟨hsome, hsum⟩
    · simp only [HeaderScan.start, hnone] at hq
      cases hq
    · simp only [HeaderScan.start, hsome] at hq ⊢
      obtain rfl := Option.some.inj hq
      omega
  · cases hh

def parseHeaderBlock (env : Environment) (limit : Nat) (req : Request) (nbytes : Nat) :
    Except Stop HeaderScan := do
  let (req, nbytes) ← parseRequestLine req nbytes
  parseHeaders env limit (nbytes + 1) (.start req nbytes)

theorem parsePhases_eq (env : Environment) (limit : Nat) (req : Request) (n : Nat) :
    parsePhases env limit req n = parseHeaderBlock env limit req n >>= checkVersion limit := by
  rw [parsePhases, parseHeaderBlock, bind_assoc]
  rfl

/-- What a header block that ends has in it, and what it leaves. -/
theorem parseHeaderBlock_ok {req : Request} {n : Nat} (hstart : req.bufferPosition = 0)
    (hn : n ≤ requestMaxLength) (h : parseHeaderBlock env limit req n = .ok st) :
    ∃ a b c req', LineMarks req.buffer n a b c ∧ LineParsed req.buffer a b c req' ∧
      req'.keepalive = req.keepalive ∧
      parseHeaders env limit (n - (a + 1) - (b + 1) - (c + 1) + 1)
        (.start req' (n - (a + 1) - (b + 1) - (c + 1))) = .ok st := by
  have hsize : n < sizeLimit := Nat.lt_of_le_of_lt hn (by decide)
  obtain ⟨⟨req', n'⟩, hline, hheaders⟩ := bind_eq_ok.mp h
  obtain ⟨a, b, c, hmarks, hparsed, rfl, hkeep⟩ := parseRequestLine_ok hstart hsize hline
  exact ⟨a, b, c, req', hmarks, hparsed, hkeep, hheaders⟩

theorem parseHeaderBlock_framed {req : Request} {n : Nat} (hstart : req.bufferPosition = 0)
    (hn : n ≤ requestMaxLength) (h : parseHeaderBlock env limit req n = .ok st) :
    Framed req.buffer n st ∧ ∃ z, st.req.version < z ∧ Closed st z := by
  obtain ⟨a, b, c, req', hmarks, hparsed, -, hheaders⟩ := parseHeaderBlock_ok hstart hn h
  exact parseHeaders_framed (hparsed.framed hn hmarks) hheaders

/-- The parsing phases do not concern the response. -/
theorem parsePhases_response {req : Request} {n : Nat} (hstart : req.bufferPosition = 0)
    (hn : n ≤ requestMaxLength) (h : parsePhases env limit req n = .ok st) :
    st.req.response = req.response := by
  rw [parsePhases_eq] at h
  obtain ⟨st', hblock, hversion⟩ := bind_eq_ok.mp h
  have hsize : n < sizeLimit := Nat.lt_of_le_of_lt hn (by decide)
  obtain ⟨⟨req', n'⟩, hline, hheaders⟩ := bind_eq_ok.mp hblock
  obtain ⟨a, b, c, hmarks, hparsed, rfl, -⟩ := parseRequestLine_ok hstart hsize hline
  have hloop := parseHeaders_response (hparsed.framed hn hmarks) hheaders
  have hfirst : req'.response = req.response := parseRequestLine_response hline
  exact (checkVersion_ok hversion).2.2.response.trans (hloop.trans hfirst)

theorem parsePhases_parsed {req : Request} {n : Nat} (hstart : req.bufferPosition = 0)
    (hn : n ≤ requestMaxLength) (hlimit : limit ≤ requestMaxLength)
    (h : parsePhases env limit req n = .ok st) : Parsed req.buffer n st := by
  rw [parsePhases_eq] at h
  obtain ⟨st', hblock, hversion⟩ := bind_eq_ok.mp h
  obtain ⟨hframed, z, hz, hclosed⟩ := parseHeaderBlock_framed hstart hn hblock
  exact checkVersion_parsed hlimit hframed hclosed hz hversion

end CFlare.Http
