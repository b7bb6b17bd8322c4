import CFlare.Http.HandlerRun
import CFlare.Http.HeaderBlock

/-! What a handler is given beside the headers. Each field is set while the header lines are read,
and has to say what the recorded headers say. -/
namespace CFlare.Http
open CFlare.Library CFlare.Network

/-- The last of the recorded headers under a name. -/
def lastHeader (env : Environment) (name : Bytes) (headers : List RequestHeader) : Option RequestHeader :=
  (headers.filter (fun h => headersEquals h.header (env.table.header name) = .ok true)).getLast?

/-- The fields say what the recorded headers say. -/
structure DerivedAgree (env : Environment) (req : Request) : Prop where
  host : req.host = (lastHeader env (ascii "Host") req.headers).map RequestHeader.value
  contentType : req.contentType = (lastHeader env (ascii "Content-Type") req.headers).map RequestHeader.value
  noLength : lastHeader env (ascii "Content-Length") req.headers = none → req.contentLength = 0
  length : ∀ h, lastHeader env (ascii "Content-Length") req.headers = some h →
    ∃ text n, stringOf req h.value = some text ∧ toInteger env.float text = .ok (some n) ∧ (req.contentLength : Int) = n
  keepalive : req.keepalive = true ↔ ∀ h, lastHeader env (ascii "Connection") req.headers = some h →
    ∃ text, stringOf req h.value = some text ∧ (occurrence text (ascii "keep-alive")).isSome = true

/-- What the header lines have to be for that: no content type, no negative content length, and no
`keep-alive` of the last Connection header that a separator is in or in front of. -/
structure DerivedKept (env : Environment) (m : Memory) (k : Block) : Prop where
  noType : lastNamed env m (ascii "Content-Type") k.lines = none
  length : ∀ l text n, lastNamed env m (ascii "Content-Length") k.lines = some l →
    l.text requestMaxLength m = some text → toInteger env.float text = .ok (some n) → 0 ≤ n
  connection : ∀ l text j, lastNamed env m (ascii "Connection") k.lines = some l →
    l.text requestMaxLength m = some text → occurrence text (ascii "keep-alive") = some j →
    ∀ i, l.value ≤ i → i < l.value + j + 10 → i ∉ k.zeros m

/-- A request object between two calls: a fresh one, or one that a call has left. -/
inductive Reused (env : Environment) : Request → Prop where
  | fresh : Reused env requestNew
  | next {req req' : Request} {sock sock' : Socket} {handler : Handler} {date : CString} {ret : Bool}
      (before : Reused env req) (stream : sock.WellFormed)
      (call : requestProcessSocket env handler date req sock = .ok (ret, req', sock')) : Reused env req'

section ContentType
variable {env : Environment} {limit : Nat} {t : Option Nat} {α β : Type} {get : α → Request} {get' : β → Request}

/-- However a phase ends, its request has this content type. -/
def TypeKept (t : Option Nat) (get : α → Request) : Except Stop α → Prop
  | .error (.fault _) => True
  | .error (.reject _ _ req) => req.contentType = t
  | .ok a => (get a).contentType = t

theorem TypeKept.bind {x : Except Stop α} {f : α → Except Stop β} (h : TypeKept t get x)
    (hf : ∀ a, (get a).contentType = t → TypeKept t get' (f a)) : TypeKept t get' (x >>= f) := by
  cases x with
  | error stop => cases stop <;> exact h
  | ok a => exact hf a h

theorem TypeKept.orFault {x : Except Fault α} {f : α → Except Stop β} (hf : ∀ a, TypeKept t get' (f a)) :
    TypeKept t get' (Http.orFault x >>= f) := by
  cases x with
  | error fault => trivial
  | ok a => exact hf a

theorem TypeKept.string {m : Memory} {start : Nat} {f : Bytes → Except Stop β} (hf : ∀ text, TypeKept t get' (f text)) :
    TypeKept t get' (stringAt limit m start >>= f) := by
  unfold stringAt
  cases cstring m start (limit - start) with
  | none => trivial
  | some text => exact hf text

theorem TypeKept.byte {req : Request} {i : Nat} {f : UInt8 → Except Stop β} (hf : ∀ b, TypeKept t get' (f b)) :
    TypeKept t get' (byteAt limit req i >>= f) := by
  unfold byteAt
  split
  · exact hf _
  · trivial

private theorem parseMethod_type (req : Request) (n : Nat) : TypeKept req.contentType Prod.fst (parseMethod req n) := by
  unfold parseMethod
  dsimp only
  split <;> exact rfl

private theorem parsePath_type (req : Request) (n : Nat) : TypeKept req.contentType Prod.fst (parsePath req n) := by
  unfold parsePath
  dsimp only
  split
  · exact rfl
  · split <;> exact rfl

private theorem parseVersion_type (req : Request) (n : Nat) : TypeKept req.contentType Prod.fst (parseVersion req n) := by
  unfold parseVersion
  dsimp only
  split <;> exact rfl

theorem parseRequestLine_type (req : Request) (n : Nat) : TypeKept req.contentType Prod.fst (parseRequestLine req n) := by
  unfold parseRequestLine
  apply (parseMethod_type req n).bind
  rintro ⟨req1, n1⟩ h1
  rw [← h1]
  apply (parsePath_type req1 n1).bind
  rintro ⟨req2, n2⟩ h2
  rw [← h2]
  exact parseVersion_type req2 n2

private theorem recordHeader_type {st : HeaderScan} (h : st.req.contentType = t) (hdr : Header) (value valueLen : Nat) :
    TypeKept t HeaderScan.req (recordHeader env limit st hdr value valueLen) := by
  unfold recordHeader
  split
  · exact h
  apply TypeKept.orFault
  intro isHost
  split
  · exact h
  apply TypeKept.orFault
  intro isConnection
  split
  · apply TypeKept.string
    intro connection
    exact h
  apply TypeKept.orFault
  intro isType
  split
  · exact h
  apply TypeKept.orFault
  intro isLength
  split
  · apply TypeKept.string
    intro text
    apply TypeKept.orFault
    intro number
    cases number <;> exact h
  · exact h

private theorem parseHeader_type (st : HeaderScan) (line lineLen : Nat) :
    TypeKept st.req.contentType HeaderScan.req (parseHeader env limit st line lineLen) := by
  unfold parseHeader
  split
  · exact rfl
  cases firstOf st.req.buffer line lineLen colon with
  | none => exact rfl
  | some posCol =>
    apply TypeKept.string
    intro key
    apply TypeKept.orFault
    intro hdr
    split
    · apply recordHeader_type
      rfl
    · exact rfl

theorem parseHeaders_type (fuel : Nat) (st : HeaderScan) :
    TypeKept st.req.contentType HeaderScan.req (parseHeaders env limit fuel st) := by
  induction fuel generalizing st with
  | zero => trivial
  | succ fuel ih =>
    have htake : TypeKept st.req.contentType (fun r => r.2.2.req) (takeLine st) := by
      unfold takeLine
      dsimp only
      split <;> exact rfl
    rw [parseHeaders]
    apply htake.bind
    rintro ⟨line, lineLen, st1⟩ h1
    dsimp only at h1 ⊢
    rw [← h1]
    split
    · exact rfl
    apply TypeKept.bind (parseHeader_type st1 line lineLen)
    intro st2 h2
    rw [← h2]
    exact ih st2

private theorem checkVersion_type (st : HeaderScan) :
    TypeKept st.req.contentType HeaderScan.req (checkVersion limit st) := by
  unfold checkVersion
  apply TypeKept.byte
  intro major
  apply TypeKept.byte
  intro minor
  split
  · exact rfl
  split
  · split <;> exact rfl
  split
  · unfold parseAuthority
    apply TypeKept.string
    intro path
    split
    · exact rfl
    apply TypeKept.string
    intro text
    split
    · trivial
    split
    · trivial
    · exact rfl
  · exact rfl

theorem parsePhases_type (env : Environment) (limit : Nat) (req : Request) (n : Nat) :
    TypeKept req.contentType HeaderScan.req (parsePhases env limit req n) := by
  unfold parsePhases
  apply TypeKept.bind (parseRequestLine_type req n)
  rintro ⟨req1, n1⟩ h1
  rw [← h1]
  apply TypeKept.bind (parseHeaders_type (n1 + 1) ⟨{ req1 with headers := [] }, n1, 0, none, 0⟩)
  intro st h2
  change st.req.contentType = req1.contentType at h2
  change TypeKept req1.contentType HeaderScan.req (checkVersion limit st)
  rw [← h2]
  exact checkVersion_type st

theorem requestArrive_type (env : Environment) (req : Request) {sock : Socket} (hw : sock.WellFormed) :
    (∀ status req' sock', requestArrive env req sock = .ok (.rejected status req' sock') →
      req'.contentType = req.contentType) ∧
      ∀ req' sock', requestArrive env req sock = .ok (.ready req' sock') → req'.contentType = req.contentType := by
  obtain ⟨fetched, sock1, -, -, -, -, harrive⟩ := requestArrive_spec env hw
  have hkept : TypeKept req.contentType HeaderScan.req (fetched.parsed env req) := by
    cases fetched with
    | failed bytes => exact rfl
    | tooLong bytes => exact rfl
    | got bytes => exact parsePhases_type env requestMaxLength (filled req bytes) bytes.length
  rw [harrive req]
  cases hp : fetched.parsed env req with
  | error stop =>
    rw [hp] at hkept
    cases stop with
    | fault fault =>
      refine ⟨fun status req' sock' h => ?_, fun req' sock' h => ?_⟩
      · cases h
      · cases h
    | reject status message req1 =>
      refine ⟨fun status req' sock' h => ?_, fun req' sock' h => ?_⟩
      · obtain ⟨-, rfl, -⟩ := Arrival.rejected.inj (Except.ok.inj h)
        exact hkept
      · cases h
  | ok st =>
    rw [hp] at hkept
    refine ⟨fun status req' sock' h => ?_, fun req' sock' h => ?_⟩
    · cases h
    · obtain ⟨rfl, -⟩ := Arrival.ready.inj (Except.ok.inj h)
      exact hkept

private theorem chunkFromSocket_type {req req' : Request} {sock sock' : Socket} {got : Bytes} {len : Nat}
    {reply : Bool × Bytes} (h : chunkFromSocket req sock got len = .ok (reply, req', sock')) :
    req'.contentType = req.contentType := by
  unfold chunkFromSocket at h
  obtain ⟨⟨bytes, sock1⟩, -, h⟩ := bind_eq_ok.mp h
  obtain ⟨-, h⟩ := Prod.mk.inj (Except.ok.inj h)
  obtain ⟨rfl, -⟩ := Prod.mk.inj h
  rfl

private theorem handlerAction_type {s s' : Request × Socket} {action : HandlerAction} {reply : Option Bool × Bytes}
    (h : handlerAction env s action = .ok (reply, s')) : s'.1.contentType = s.1.contentType := by
  cases action with
  | chunk len =>
    obtain ⟨⟨⟨ok, bytes⟩, req', sock'⟩, hchunk, h⟩ := bind_eq_ok.mp h
    obtain ⟨-, rfl⟩ := Prod.mk.inj (Except.ok.inj h)
    unfold requestContentChunk at hchunk
    dsimp only at hchunk
    generalize (if s.1.contentLengthUnread < len then s.1.contentLengthUnread else len) = asked at hchunk
    generalize (if asked > s.1.bufferUnread then asked else s.1.bufferUnread) = readable at hchunk
    split at hchunk
    · split at hchunk
      · cases hchunk
      · split at hchunk
        · obtain ⟨-, h⟩ := Prod.mk.inj (Except.ok.inj hchunk)
          obtain ⟨rfl, -⟩ := Prod.mk.inj h
          rfl
        · have hkept := chunkFromSocket_type hchunk
          exact hkept
    · exact chunkFromSocket_type hchunk
  | respond call =>
    obtain ⟨⟨ok, res, sock'⟩, -, h⟩ := bind_eq_ok.mp h
    obtain ⟨-, rfl⟩ := Prod.mk.inj (Except.ok.inj h)
    rfl
  | file =>
    obtain ⟨-, rfl⟩ := Prod.mk.inj (Except.ok.inj h)
    rfl
  | cookie =>
    obtain ⟨res, -, h⟩ := bind_eq_ok.mp h
    obtain ⟨-, rfl⟩ := Prod.mk.inj (Except.ok.inj h)
    rfl

theorem Reused.noType {req : Request} (h : Reused env req) : req.contentType = none := by
  induction h with
  | fresh => rfl
  | @next req req' sock sock' handler date ret before stream call ih =>
    obtain ⟨hrejected, hready⟩ := requestArrive_type env req stream
    rw [requestProcessSocket] at call
    obtain ⟨arrival, harrive, call⟩ := bind_eq_ok.mp call
    cases arrival with
    | rejected status req1 sock1 =>
      obtain ⟨-, h⟩ := Prod.mk.inj (Except.ok.inj call)
      obtain ⟨rfl, -⟩ := Prod.mk.inj h
      exact (hrejected status req1 sock1 harrive).trans ih
    | ready req1 sock1 =>
      have hprocess : requestProcessSocket env handler date req sock = .ok (ret, req', sock') := by
        rw [requestProcessSocket, harrive]
        exact call
      obtain ⟨replies, sock2, hrun, -⟩ := requestProcessSocket_run harrive hprocess
      have hkept := runCalls_preserves (fun s => s.1.contentType = none)
        (fun s action reply s' _ hs hc => (handlerAction_type hc).trans hs) ((hready req1 sock1 harrive).trans ih) hrun
      exact hkept

end ContentType

section Agreement
variable {env : Environment} {m : Memory} {n : Nat} {k : Block} {l : HeaderLine} {text : Bytes}

/-- The last recorded header under one of the common names is that of the last line under it. -/
theorem lastHeader_recorded {name : Bytes} (hname : name ∈ commonNames) (lines : List HeaderLine) :
    lastHeader env name ((lines.filter (HeaderLine.known env m)).map (HeaderLine.recorded env m)) =
      (lastNamed env m name lines).map (HeaderLine.recorded env m) := by
  unfold lastHeader lastNamed
  rw [List.filter_map, List.getLast?_map, List.filter_filter]
  congr 2
  apply List.filter_congr
  intro l _
  cases hk : l.known env m with
  | false => rw [HeaderLine.named, hk, Bool.and_false, Bool.false_and]
  | true =>
    have hequals := env.table.headersEquals_eq ((env.table.headersValid_iff _).mp hk) (env.table.common_known hname)
    rw [HeaderLine.named, hk, Bool.and_true, Bool.true_and, Function.comp_apply, HeaderLine.recorded, hequals]
    apply decide_eq_decide.mpr
    rw [Except.ok.injEq, decide_eq_true_eq]
    rfl

/-- A text that is taken for a number has no separator in it. -/
theorem Block.In.number_whole (h : k.In m n) (hl : l ∈ k.lines) (ht : l.text requestMaxLength m = some text) {c : Int}
    (hc : toInteger env.float text = .ok (some c)) :
    cstring (k.memory m) l.value (requestMaxLength - l.value) = some text := by
  obtain ⟨d, hd, hstring, -, hend⟩ := h.text_cut hl ht
  rcases Nat.eq_or_lt_of_le hd with rfl | hlt
  · rwa [List.take_length] at hstring
  · obtain ⟨-, hlines⟩ := h.chain.bounds
    have hfirst : k.firstLine ≤ l.value + d := by
      have hstart : l.value = l.start + l.col + 1 + 1 := rfl
      have hle := (hlines l hl).2.1
      omega
    have hbyte := cstring_byte ht hlt
    have hne : l.value + d ≠ l.stop := by
      intro he
      rw [he, Function.update_self] at hbyte
      exact hbyte.2 rfl
    have hchar := h.zeros_char hfirst (hend hlt)
    have hmem : text[d] ∈ text := List.getElem_mem hlt
    have hplain := toInteger_chars hc _ hmem
    rw [hbyte.1, Function.update_of_ne hne] at hplain
    rcases hchar with hchar | hchar | hchar
    · rw [hchar] at hplain
      exact absurd hplain (by decide)
    · rw [hchar] at hplain
      exact absurd hplain (by decide)
    · rw [hchar] at hplain
      exact absurd hplain (by decide)

/-- The handler finds `keep-alive` in a value where the header loop did when no separator is in the way. -/
theorem Block.In.kept_whole (h : k.In m n) (hl : l ∈ k.lines) (ht : l.text requestMaxLength m = some text) :
    ((occurrence text (ascii "keep-alive")).isSome = true ↔ ∃ final,
        cstring (k.memory m) l.value (requestMaxLength - l.value) = some final ∧
          (occurrence final (ascii "keep-alive")).isSome = true) ↔
      ∀ j, occurrence text (ascii "keep-alive") = some j → ∀ i, l.value ≤ i → i < l.value + j + 10 → i ∉ k.zeros m := by
  obtain ⟨d, hd, hstring, hclear, hend⟩ := h.text_cut hl ht
  have hlength : (ascii "keep-alive").length = 10 := rfl
  have hfinal : (∃ final, cstring (k.memory m) l.value (requestMaxLength - l.value) = some final ∧
      (occurrence final (ascii "keep-alive")).isSome = true) ↔
      ∃ j, occurrence text (ascii "keep-alive") = some j ∧ j + 10 ≤ d := by
    constructor
    · rintro ⟨final, hf, hsome⟩
      obtain rfl := Option.some.inj (hstring.symm.trans hf)
      obtain ⟨j, hj⟩ := Option.isSome_iff_exists.mp hsome
      exact ⟨j, occurrence_take.mp hj⟩
    · rintro ⟨j, hj⟩
      exact ⟨text.take d, hstring, Option.isSome_iff_exists.mpr ⟨j, occurrence_take.mpr hj⟩⟩
  rw [hfinal]
  constructor
  · intro hiff j hj i hlow hup
    obtain ⟨j', hj', hle⟩ := hiff.mp (Option.isSome_iff_exists.mpr ⟨j, hj⟩)
    obtain rfl := Option.some.inj (hj.symm.trans hj')
    obtain ⟨i, rfl⟩ := Nat.exists_eq_add_of_le hlow
    exact hclear i (by omega)
  · intro hwhole
    constructor
    · intro hsome
      obtain ⟨j, hj⟩ := Option.isSome_iff_exists.mp hsome
      refine ⟨j, hj, ?_⟩
      by_contra hshort
      have hinside := occurrence_le hj
      rw [hlength] at hinside
      exact hwhole j hj (l.value + d) (by omega) (by omega) (hend (by omega))
    · rintro ⟨j, hj, -⟩
      exact Option.isSome_iff_exists.mpr ⟨j, hj⟩

/-- A signed length is the same as a size when it is not negative. -/
theorem sizeOfInt_eq_iff {c : Int} (h : -2^63 ≤ c ∧ c < 2^63) : (sizeOfInt c : Int) = c ↔ 0 ≤ c := by
  unfold sizeOfInt
  omega

variable {req req' : Request} {sock sock' : Socket} {bytes : Bytes} {st : HeaderScan}

private theorem forall_map_some {α β : Type} {o : Option α} {f : α → β} {p : β → Prop} :
    (∀ b, o.map f = some b → p b) ↔ ∀ a, o = some a → p (f a) := by
  cases o with
  | none =>
    constructor
    · intro _ a ha
      cases ha
    · intro _ b hb
      cases hb
  | some a => simp

private theorem length_agrees (h : k.In m n) (hc : Collected env requestMaxLength m true k.lines st)
    (hl : lastNamed env m (ascii "Content-Length") k.lines = some l) :
    (∃ text c, cstring (k.memory m) l.value (requestMaxLength - l.value) = some text ∧
        toInteger env.float text = .ok (some c) ∧ (sizeOfInt st.contentLength : Int) = c) ↔
      ∀ text c, l.text requestMaxLength m = some text → toInteger env.float text = .ok (some c) → 0 ≤ c := by
  obtain ⟨text, htext, hnumber⟩ := hc.length l hl
  have hwhole := h.number_whole (lastNamed_mem hl).1 htext hnumber
  have hsize := sizeOfInt_eq_iff (toInteger_range hnumber)
  constructor
  · rintro ⟨text', c, hstring, hc', heq⟩ text2 c2 htext2 hc2
    obtain rfl := Option.some.inj (hwhole.symm.trans hstring)
    obtain rfl := Option.some.inj (htext.symm.trans htext2)
    obtain rfl := Option.some.inj (Except.ok.inj (hnumber.symm.trans hc'))
    obtain rfl := Option.some.inj (Except.ok.inj (hnumber.symm.trans hc2))
    exact hsize.mp heq
  · intro hpositive
    exact ⟨text, st.contentLength, hwhole, hnumber, hsize.mpr (hpositive text _ htext hnumber)⟩

private theorem keepalive_agrees (h : k.In m n) (hc : Collected env requestMaxLength m true k.lines st) :
    (st.req.keepalive = true ↔ ∀ l, lastNamed env m (ascii "Connection") k.lines = some l →
        ∃ text, cstring (k.memory m) l.value (requestMaxLength - l.value) = some text ∧
          (occurrence text (ascii "keep-alive")).isSome = true) ↔
      ∀ l text j, lastNamed env m (ascii "Connection") k.lines = some l → l.text requestMaxLength m = some text →
        occurrence text (ascii "keep-alive") = some j → ∀ i, l.value ≤ i → i < l.value + j + 10 → i ∉ k.zeros m := by
  cases hl : lastNamed env m (ascii "Connection") k.lines with
  | none =>
    rw [hc.silent hl]
    constructor
    · intro _ l text j hsome
      cases hsome
    · intro _
      constructor
      · intro _ l hsome
        cases hsome
      · exact fun _ => rfl
  | some l =>
    obtain ⟨text, htext, hkept⟩ := hc.connection l hl
    have hwhole := h.kept_whole (lastNamed_mem hl).1 htext
    rw [hkept]
    constructor
    · intro hiff l' text' j hl' htext' hj
      obtain rfl := Option.some.inj hl'
      obtain rfl := Option.some.inj (htext.symm.trans htext')
      refine hwhole.mp (hiff.trans ⟨fun hall => hall l rfl, fun hfinal l' hl' => ?_⟩) j hj
      obtain rfl := Option.some.inj hl'
      exact hfinal
    · intro hcond
      refine (hwhole.mpr fun j hj => hcond l text j rfl htext hj).trans ⟨fun hfinal l' hl' => ?_, fun hall => hall l rfl⟩
      obtain rfl := Option.some.inj hl'
      exact hfinal

private theorem Arrived.derived (h : Arrived env req sock bytes st req' sock') (hreq : req.contentType = none) :
    ∃ k : Block, k.In (filled req bytes).buffer bytes.length ∧
      (k.minor (filled req bytes).buffer = 49 →
        (DerivedAgree env req' ↔ DerivedKept env (filled req bytes).buffer k)) := by
  obtain ⟨k, st0, hparsed, hversion⟩ := h.headerBlock
  refine ⟨k, hparsed.block, fun hminor => ?_⟩
  have hst : st = st0 := by
    have hcheck := hparsed.version_eq
    rw [hversion] at hcheck
    split at hcheck
    · cases hcheck
    split at hcheck
    · cases hcheck
    split at hcheck
    · cases hcheck
    · exact Except.ok.inj hcheck
  subst hst
  have htype : st.req.contentType = none := by
    have hkept := parsePhases_type env requestMaxLength (filled req bytes) bytes.length
    rw [h.phases] at hkept
    exact hkept.trans hreq
  obtain ⟨hbuffer, -, -⟩ := hparsed.handed h.short.le hversion
  have hmemory : req'.buffer = k.memory (filled req bytes).buffer := by
    rw [h.finished]
    exact hparsed.buffer
  have hnumber : req'.contentLength = sizeOfInt st.contentLength := by rw [h.finished]; rfl
  have hheaders : req'.headers = (k.lines.filter (HeaderLine.known env (filled req bytes).buffer)).map
      (HeaderLine.recorded env (filled req bytes).buffer) := by
    rw [h.finished]
    exact hparsed.headers
  have hlast : ∀ name ∈ commonNames, lastHeader env name req'.headers =
      (lastNamed env (filled req bytes).buffer name k.lines).map (HeaderLine.recorded env (filled req bytes).buffer) := by
    intro name hname
    rw [hheaders]
    exact lastHeader_recorded hname k.lines
  have hstring : ∀ start, stringOf req' start = cstring (k.memory (filled req bytes).buffer) start
      (requestMaxLength - start) := fun start => congrArg (cstring · start (requestMaxLength - start)) hmemory
  have hhost : req'.host = (lastHeader env (ascii "Host") req'.headers).map RequestHeader.value := by
    rw [hlast (ascii "Host") (by simp [commonNames]), h.finished, Option.map_map]
    exact hparsed.host
  have hcontent : req'.contentType = (lastHeader env (ascii "Content-Type") req'.headers).map RequestHeader.value ↔
      lastNamed env (filled req bytes).buffer (ascii "Content-Type") k.lines = none := by
    have hnone : req'.contentType = none := by
      rw [h.finished]
      exact htype
    rw [hlast (ascii "Content-Type") (by simp [commonNames]), hnone, Option.map_map, eq_comm, Option.map_eq_none_iff]
  have hlengthLast := hlast (ascii "Content-Length") (by simp [commonNames])
  have hconnectionLast := hlast (ascii "Connection") (by simp [commonNames])
  have hkept : req'.keepalive = st.req.keepalive := by rw [h.finished]; rfl
  have hkeepalive := keepalive_agrees hparsed.block hparsed.toCollected
  constructor
  · intro hagree
    refine ⟨hcontent.mp hagree.contentType, fun l text c hl => ?_, hkeepalive.mp ?_⟩
    · apply (length_agrees hparsed.block hparsed.toCollected hl).mp
      rw [← hnumber, ← hstring]
      apply hagree.length (l.recorded env (filled req bytes).buffer)
      rw [hlengthLast, hl]
      rfl
    · rw [← hkept, hagree.keepalive, hconnectionLast, forall_map_some]
      simp only [← hstring]
      rfl
  · intro hcond
    refine ⟨hhost, hcontent.mpr hcond.noType, fun hnone => ?_, ?_, ?_⟩
    · rw [hlengthLast, Option.map_eq_none_iff] at hnone
      rw [hnumber, hparsed.noLength hnone]
      rfl
    · rw [hlengthLast, forall_map_some]
      intro l hl
      have hagrees := (length_agrees hparsed.block hparsed.toCollected hl).mpr (fun text c => hcond.length l text c hl)
      rw [← hnumber, ← hstring] at hagrees
      exact hagrees
    · have hiff := hkeepalive.mpr hcond.connection
      rw [hkept, hiff, hconnectionLast, forall_map_some]
      simp only [← hstring]
      rfl

/-- For every request of version 1.1 on a reused object the handler is given what the recorded headers
say, exactly when there is no content type, no negative length, and no separator in the way of the last
Connection header's `keep-alive`. -/
theorem derived_fields_iff (hreused : Reused env req) (hw : sock.WellFormed)
    (h : requestArrive env req sock = .ok (.ready req' sock')) :
    ∃ bytes k, Received sock bytes sock' ∧ Block.In (filled req bytes).buffer bytes.length k ∧
      (k.minor (filled req bytes).buffer = 49 →
        (DerivedAgree env req' ↔ DerivedKept env (filled req bytes).buffer k)) := by
  obtain ⟨bytes, st, harrived⟩ := requestArrive_ready hw h
  obtain ⟨k, hin, hiff⟩ := harrived.derived hreused.noType
  exact ⟨bytes, k, harrived.toReceived, hin, hiff⟩

end Agreement

/-- A request with a content type. -/
def typedText : Bytes := ascii "G / HTTP/1.1\nHost: a\nContent-Type: b\n\n"

def typedBlock : Block := ⟨1, 1, 8, [⟨13, 7, 7, 4⟩, ⟨21, 15, 15, 12⟩], 37⟩

def typedSocket : Socket := socketNew 3 [] 80 ⟨typedText, [.deliver 38], [], []⟩

private theorem typed_in : typedBlock.In (filled requestNew typedText).buffer typedText.length := by
  have hhost : (filled requestNew typedText).buffer 13 ≠ space ∧ (filled requestNew typedText).buffer 13 ≠ tab := by
    decide
  have htype : (filled requestNew typedText).buffer 21 ≠ space ∧ (filled requestNew typedText).buffer 21 ≠ tab := by
    decide
  have hfirst : HeaderLine.At (filled requestNew typedText).buffer typedText.length ⟨13, 7, 7, 4⟩ :=
    ⟨rfl, rfl, hhost, rfl⟩
  have hsecond : HeaderLine.At (filled requestNew typedText).buffer typedText.length ⟨21, 15, 15, 12⟩ :=
    ⟨rfl, rfl, htype, rfl⟩
  exact ⟨⟨rfl, rfl, rfl⟩, .cons hfirst (.cons hsecond (.nil 37)), 0, rfl, rfl⟩

private theorem typed_named (name : Bytes) :
    HeaderLine.named plainEnvironment (filled requestNew typedText).buffer name ⟨13, 7, 7, 4⟩ =
        decide (NameIs (ascii "Host") name) ∧
      HeaderLine.named plainEnvironment (filled requestNew typedText).buffer name ⟨21, 15, 15, 12⟩ =
        decide (NameIs (ascii "Content-Type") name) := by
  have hhost : HeaderLine.key (filled requestNew typedText).buffer ⟨13, 7, 7, 4⟩ = ascii "Host" := rfl
  have htype : HeaderLine.key (filled requestNew typedText).buffer ⟨21, 15, 15, 12⟩ = ascii "Content-Type" := rfl
  exact ⟨(named_of_key hhost (by simp [commonNames]) name).2, (named_of_key htype (by simp [commonNames]) name).2⟩

private theorem typed_arrived : ∃ st req' sock',
    requestArrive plainEnvironment requestNew typedSocket = .ok (.ready req' sock') ∧
      Arrived plainEnvironment requestNew typedSocket typedText st req' sock' := by
  have hreads : Fragmented typedSocket typedText := ⟨rfl, ⟨rfl, rfl⟩, rfl, [38], [], rfl, by decide, rfl⟩
  have hhost : typedBlock.hostLine plainEnvironment (filled requestNew typedText).buffer ≠ none := by
    have hnamed := (typed_named (ascii "Host")).1
    rw [decide_eq_true (show NameIs (ascii "Host") (ascii "Host") from rfl)] at hnamed
    rw [Block.hostLine, lastNamed, typedBlock, List.filter_cons_of_pos hnamed, List.getLast?_cons]
    exact Option.some_ne_none _
  exact typed_in.arrives hreads rfl (by decide) (by decide) ⟨rfl, rfl⟩ hhost (by decide) (by decide)

/-- Its content type is recorded, and the handler is given none. -/
theorem content_type_lost : ∃ req' sock', Reused plainEnvironment requestNew ∧
    requestArrive plainEnvironment requestNew typedSocket = .ok (.ready req' sock') ∧
      typedBlock.In (filled requestNew typedText).buffer typedText.length ∧
      typedBlock.minor (filled requestNew typedText).buffer = 49 ∧ ¬ DerivedAgree plainEnvironment req' := by
  obtain ⟨st, req', sock', hready, harrived⟩ := typed_arrived
  obtain ⟨k, hin, hiff⟩ := harrived.derived rfl
  obtain rfl := hin.unique typed_in
  refine ⟨req', sock', .fresh, hready, hin, rfl, fun hagree => ?_⟩
  have hnone := ((hiff rfl).mp hagree).noType
  have hnamed := (typed_named (ascii "Content-Type")).2
  rw [decide_eq_true (show NameIs (ascii "Content-Type") (ascii "Content-Type") from rfl)] at hnamed
  rw [lastNamed, List.getLast?_eq_none_iff] at hnone
  exact absurd hnone (List.ne_nil_of_mem (List.mem_filter.mpr ⟨List.mem_cons_of_mem _ List.mem_cons_self, hnamed⟩))

theorem derived_fields_iff_typed : ∃ req' sock' bytes k,
    requestArrive plainEnvironment requestNew typedSocket = .ok (.ready req' sock') ∧
      Received typedSocket bytes sock' ∧ Block.In (filled requestNew bytes).buffer bytes.length k ∧
      (k.minor (filled requestNew bytes).buffer = 49 →
        (DerivedAgree plainEnvironment req' ↔ DerivedKept plainEnvironment (filled requestNew bytes).buffer k)) := by
  obtain ⟨st, req', sock', hready, -⟩ := typed_arrived
  obtain ⟨bytes, k, hreceived, hin, hiff⟩ :=
    derived_fields_iff .fresh (socketNew_wellFormed _ _ _ _) hready
  exact ⟨req', sock', bytes, k, hready, hreceived, hin, hiff⟩

end CFlare.Http
