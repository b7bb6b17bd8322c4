import CFlare.Http.HeaderBlock
import CFlare.Library.Lines

/-! A target with a scheme and an authority. In HTTP/1.2 the authority becomes the host: to make room for
its null byte it is moved down in the buffer, over as many bytes as the host header's value has. -/
namespace CFlare.Http
open CFlare.Library CFlare.Network

def slash : UInt8 := 47

def isLetter (b : UInt8) : Bool := 65 ≤ b && b ≤ 90 || 97 ≤ b && b ≤ 122

/-- A letter, a digit, `+`, `-` or `.`. -/
def isSchemeByte (b : UInt8) : Bool := isLetter b || 48 ≤ b && b ≤ 57 || b = 43 || b = 45 || b = 46

/-- `scheme://authority`, and perhaps a path behind it. -/
structure AbsoluteTarget where
  first : UInt8
  more : Bytes
  authority : Bytes
  rest : Bytes
  letter : isLetter first = true
  spelled : ∀ b ∈ more, isSchemeByte b = true
  plainAuthority : slash ∉ authority ∧ (0 : UInt8) ∉ authority
  rooted : rest = [] ∨ ∃ tail, rest = slash :: tail
  plainRest : (0 : UInt8) ∉ rest

namespace AbsoluteTarget
variable (t : AbsoluteTarget)

def scheme : Bytes := t.first :: t.more

def text : Bytes := t.scheme ++ (ascii "://" ++ (t.authority ++ t.rest))

theorem scheme_byte {b : UInt8} (h : b ∈ t.scheme) : isSchemeByte b = true := by
  rcases List.mem_cons.mp h with rfl | hm
  · rw [isSchemeByte, t.letter]
    rfl
  · exact t.spelled b hm

theorem text_noNull : (0 : UInt8) ∉ t.text := by
  intro hm
  rcases List.mem_append.mp hm with hm | hm
  · exact absurd (t.scheme_byte hm) (by decide)
  rcases List.mem_append.mp hm with hm | hm
  · exact absurd hm (by decide)
  rcases List.mem_append.mp hm with hm | hm
  · exact t.plainAuthority.2 hm
  · exact t.plainRest hm

theorem text_length : t.text.length = t.scheme.length + 3 + t.authority.length + t.rest.length := by
  rw [text, List.length_append, List.length_append, List.length_append]
  change t.scheme.length + (3 + _) = _
  omega

theorem text_drop : t.text.drop (t.scheme.length + 3) = t.authority ++ t.rest := by
  rw [text, ← List.append_assoc]
  exact List.drop_left' (List.length_append)

theorem protocol_at : occurrence t.text (ascii "://") = some t.scheme.length := by
  apply occurrence_behind
  intro hm
  exact absurd (t.scheme_byte hm) (by decide)

theorem path_at : occurrence (t.authority ++ t.rest) (ascii "/") =
    if t.rest = [] then none else some t.authority.length := by
  rcases t.rooted with hnone | ⟨tail, hrest⟩
  · rw [if_pos hnone, hnone, List.append_nil]
    exact occurrence_not_mem [] t.plainAuthority.1
  · rw [if_neg (hrest ▸ List.cons_ne_nil slash tail), hrest]
    exact occurrence_behind [] tail t.plainAuthority.1

end AbsoluteTarget

/-- The path without its query, null bytes and all. -/
def Block.target (m : Memory) (k : Block) : Bytes := slice m k.pathStart (k.pathLen m)

/-- The version is inside the buffer, and is one of HTTP/1.2. -/
structure Block.MinorTwo (m : Memory) (k : Block) : Prop where
  inside : k.versionStart + 7 < requestMaxLength
  major : k.major m = 49
  minor : k.minor m = 50

/-- The handler is given the authority as the host, and what is behind it as the path. -/
structure GivesAuthority (req : Request) (t : AbsoluteTarget) : Prop where
  host : ∃ host, req.host = some host ∧ stringOf req host = some t.authority
  hostLen : req.hostLen = t.authority.length
  path : t.rest ≠ [] → stringOf req req.path = some t.rest ∧ req.pathLen = t.rest.length

/-- The handler is given the host of the headers and the path of the request line, and nothing has been
moved. -/
structure GivesHeaders (env : Environment) (m : Memory) (k : Block) (req : Request) : Prop where
  buffer : req.buffer = k.memory m
  host : req.host = (k.hostLine env m).map HeaderLine.value
  hostLen : req.hostLen = k.hostLen env m
  path : req.path = k.pathStart ∧ stringOf req req.path = some (k.pathText m)
  pathLen : req.pathLen = k.pathLen m

/-- An absolute target gives the host and the path; any other one leaves them. -/
structure AuthorityHandled (env : Environment) (req : Request) (sock : Socket) (m : Memory) (k : Block) : Prop where
  absolute : ∀ t : AbsoluteTarget, k.target m = t.text → ∃ req' sock',
    requestArrive env req sock = .ok (.ready req' sock') ∧ GivesAuthority req' t
  other : (∀ t : AbsoluteTarget, k.target m ≠ t.text) → ∃ req' sock',
    requestArrive env req sock = .ok (.ready req' sock') ∧ GivesHeaders env m k req'

/-- There is a path behind an authority, and the host header's value is as long as the authority; a target
that is not absolute has no `://` in it. -/
structure AuthorityFits (env : Environment) (m : Memory) (k : Block) : Prop where
  absolute : ∀ t : AbsoluteTarget, k.target m = t.text →
    t.rest ≠ [] ∧ k.hostLen env m = t.authority.length
  other : (∀ t : AbsoluteTarget, k.target m ≠ t.text) → occurrence (k.pathText m) (ascii "://") = none

section Strings
variable {m m' : Memory} {low room : Nat} {authority rest : Bytes}

/-- The authority and the path that is behind it, where they were received. -/
structure AuthorityAt (m : Memory) (hostPart room : Nat) (authority rest : Bytes) : Prop where
  string : cstring m hostPart room = some (authority ++ rest)
  rooted : ∃ tail, rest = slash :: tail
  plain : (0 : UInt8) ∉ authority

theorem AuthorityAt.byte (h : AuthorityAt m (low + 1) room authority rest) {j : Nat} (hj : j < authority.length) :
    m (low + j + 1) = authority[j] := by
  have hlong : j < (authority ++ rest).length := by
    rw [List.length_append]
    exact Nat.lt_add_right _ hj
  obtain ⟨hbyte, -⟩ := cstring_byte h.string hlong
  rw [List.getElem_append_left hj] at hbyte
  rw [hbyte]
  congr 1
  omega

theorem AuthorityAt.slash_ne (h : AuthorityAt m (low + 1) room authority rest) : m (low + authority.length + 1) ≠ 0 := by
  obtain ⟨tail, hrest⟩ := h.rooted
  have hlong : authority.length < (authority ++ rest).length := by
    rw [List.length_append, hrest, List.length_cons]
    omega
  obtain ⟨-, hnull⟩ := cstring_byte h.string hlong
  rwa [Nat.add_right_comm] at hnull

/-- The string that is moved is the authority exactly when as many bytes are moved. -/
theorem AuthorityAt.moved_iff (h : AuthorityAt m (low + 1) room authority rest) (count : Nat) {room' : Nat}
    (hroom : authority.length < room') :
    cstring (pulled m low (low + count)) low room' = some authority ↔ count = authority.length := by
  constructor
  · intro hs
    have hle := cstring_length_le hs pulled_last
    rcases Nat.eq_or_lt_of_le hle with heq | hlt
    · exact heq.symm
    -- more is moved: the slash stands where the null byte should
    · have hend := cstring_null hs
      rw [pulled_inside (Nat.le_add_right _ _) (Nat.add_lt_add_left hlt low)] at hend
      exact absurd hend h.slash_ne
  · rintro rfl
    apply cstring_of_slice authority _ h.plain pulled_last hroom
    apply (slice_eq_iff _ _ _).mpr
    intro j hj
    rw [pulled_inside (Nat.le_add_right _ _) (Nat.add_lt_add_left hj low)]
    exact h.byte hj

theorem AuthorityAt.rest_kept (h : AuthorityAt m (low + 1) room authority rest) :
    cstring (pulled m low (low + authority.length)) (low + 1 + authority.length) (room - authority.length) =
      some rest := by
  have hdrop := cstring_drop h.string (k := authority.length) (by rw [List.length_append]; omega)
  rw [List.drop_left] at hdrop
  rw [← hdrop]
  apply cstring_congr_above
  intro i hi
  exact pulled_behind (by omega)

end Strings

section Handling
variable {env : Environment} {n : Nat} {m : Memory} {keepalive : Bool} {k : Block} {st st' : HeaderScan}

/-- The path of an absolute target is the target. -/
theorem Block.pathText_absolute {t : AbsoluteTarget} (h : k.target m = t.text) : k.pathText m = t.text := by
  change (k.target m).takeWhile (· ≠ 0) = _
  rw [h, List.takeWhile_eq_self_iff]
  intro b hb
  simpa using ne_of_mem_of_not_mem hb t.text_noNull

theorem Block.pathLen_absolute {t : AbsoluteTarget} (h : k.target m = t.text) :
    k.pathLen m = t.scheme.length + 3 + t.authority.length + t.rest.length := by
  rw [← t.text_length, ← h, Block.target, slice_length]

theorem BlockParsed.parseAuthority_absolute (h : BlockParsed env requestMaxLength m n keepalive k st)
    (hn : n ≤ requestMaxLength) {t : AbsoluteTarget} (ht : k.target m = t.text) :
    parseAuthority requestMaxLength st =
      if t.rest = [] then .error (.fault .undefined)
      else if requestMaxLength < k.pathStart + t.scheme.length + 3 + k.hostLen env m then .error (.fault .overrun)
      else .ok (movedAuthority st (k.pathStart + t.scheme.length + 3) t.authority.length) := by
  have hpath := h.pathText hn
  rw [Block.pathText_absolute ht] at hpath
  have hhost : st.hostLen = k.hostLen env m := h.hostLen
  rw [parseAuthority_eq hpath, t.protocol_at, Option.elim_some, t.text_drop, t.path_at, h.path, hhost]
  split
  · rfl
  · rfl

/-- Where the authority of a block is, before it is moved. -/
theorem BlockParsed.authorityAt (h : BlockParsed env requestMaxLength m n keepalive k st)
    (hn : n ≤ requestMaxLength) {t : AbsoluteTarget} (ht : k.target m = t.text) (hrest : t.rest ≠ []) :
    AuthorityAt (k.memory m) (k.pathStart + t.scheme.length + 2 + 1)
      (requestMaxLength - k.pathStart - (t.scheme.length + 3)) t.authority t.rest := by
  have hpath := h.pathText hn
  rw [Block.pathText_absolute ht, h.path, h.buffer] at hpath
  have hdrop := cstring_drop hpath (k := t.scheme.length + 3) (by rw [t.text_length]; omega)
  rw [t.text_drop] at hdrop
  exact ⟨hdrop, t.rooted.resolve_left hrest, t.plainAuthority.2⟩

/-- What the handler is given of an authority that was moved. -/
theorem BlockParsed.givesAuthority_iff (h : BlockParsed env requestMaxLength m n keepalive k st)
    (hn : n ≤ requestMaxLength) {t : AbsoluteTarget} (ht : k.target m = t.text) (hrest : t.rest ≠ []) (sock : Socket) :
    GivesAuthority (finishRequest (movedAuthority st (k.pathStart + t.scheme.length + 3) t.authority.length) sock) t ↔
      k.hostLen env m = t.authority.length := by
  have hat := h.authorityAt hn ht hrest
  have hmax : requestMaxLength < sizeLimit := by decide
  have hinside := h.block.marks.inside
  have hle := k.pathLen_le m
  have hlen := Block.pathLen_absolute ht
  have hstart : k.pathStart = k.method + 1 := rfl
  have hhost : st.hostLen = k.hostLen env m := h.hostLen
  have hbuffer : (movedAuthority st (k.pathStart + t.scheme.length + 3) t.authority.length).req.buffer =
      pulled (k.memory m) (k.pathStart + t.scheme.length + 2)
        (k.pathStart + t.scheme.length + 2 + k.hostLen env m) := by
    rw [movedAuthority_buffer st _ (Nat.succ_pos _), h.buffer, hhost]
    rfl
  have hroom : t.authority.length < requestMaxLength - (k.pathStart + t.scheme.length + 2) := by omega
  have hmoved := hat.moved_iff (k.hostLen env m) hroom
  rw [← hbuffer] at hmoved
  constructor
  · rintro ⟨⟨host, hsome, hstring⟩, -, -⟩
    obtain rfl := Option.some.inj hsome
    exact hmoved.mp hstring
  · intro hcount
    refine ⟨⟨_, rfl, hmoved.mpr hcount⟩, rfl, fun _ => ⟨?_, ?_⟩⟩
    · have hkept := hat.rest_kept
      have hleft : requestMaxLength - k.pathStart - (t.scheme.length + 3) - t.authority.length =
          requestMaxLength - (k.pathStart + t.scheme.length + 3 + t.authority.length) := by omega
      rw [← hcount, ← hbuffer, hcount, hleft] at hkept
      exact hkept
    · change sizeSub (st.req.path + st.req.pathLen) (k.pathStart + t.scheme.length + 3 + t.authority.length) = _
      rw [h.path, h.pathLen, sizeSub_of_le (by omega) (by omega)]
      omega

/-- An absolute target gives what it should, if it has a path and the lengths agree. -/
theorem BlockParsed.absolute_iff (h : BlockParsed env requestMaxLength m n keepalive k st)
    (hn : n ≤ requestMaxLength) {t : AbsoluteTarget} (ht : k.target m = t.text) (sock : Socket) :
    (∃ req' sock', arrive env sock (parseAuthority requestMaxLength st) = .ok (.ready req' sock') ∧
        GivesAuthority req' t) ↔
      t.rest ≠ [] ∧ k.hostLen env m = t.authority.length := by
  have hinside := h.block.marks.inside
  have hle := k.pathLen_le m
  have hlen := Block.pathLen_absolute ht
  have hstart : k.pathStart = k.method + 1 := rfl
  rw [h.parseAuthority_absolute hn ht]
  by_cases hrest : t.rest = []
  · rw [if_pos hrest]
    constructor
    · rintro ⟨req', sock', hready, -⟩
      cases hready
    · exact fun hfits => absurd hrest hfits.1
  rw [if_neg hrest]
  by_cases hroom : requestMaxLength < k.pathStart + t.scheme.length + 3 + k.hostLen env m
  · rw [if_pos hroom]
    constructor
    · rintro ⟨req', sock', hready, -⟩
      cases hready
    · intro hfits
      have hcount := hfits.2
      omega
  rw [if_neg hroom]
  constructor
  · rintro ⟨req', sock', hready, hgives⟩
    obtain ⟨rfl, rfl⟩ := Arrival.ready.inj (Except.ok.inj hready)
    exact ⟨hrest, (h.givesAuthority_iff hn ht hrest sock).mp hgives⟩
  · intro hfits
    exact ⟨_, _, rfl, (h.givesAuthority_iff hn ht hrest sock).mpr hfits.2⟩

/-- And the host and the path are left alone exactly when the path has no `://` in it. -/
theorem BlockParsed.untouched_iff (h : BlockParsed env requestMaxLength m n keepalive k st)
    (hn : n ≤ requestMaxLength) (sock : Socket) :
    (∃ req' sock', arrive env sock (parseAuthority requestMaxLength st) = .ok (.ready req' sock') ∧
        GivesHeaders env m k req') ↔
      occurrence (k.pathText m) (ascii "://") = none := by
  have hpath := h.pathText hn
  rw [parseAuthority_eq hpath]
  constructor
  · rintro ⟨req', sock', hready, hgives⟩
    cases hp : occurrence (k.pathText m) (ascii "://") with
    | none => rfl
    | some protocol =>
      rw [hp, Option.elim_some] at hready
      cases hs : occurrence ((k.pathText m).drop (protocol + 3)) (ascii "/") with
      | none =>
        rw [hs] at hready
        cases hready
      | some hostPartLen =>
        rw [hs, Option.elim_some] at hready
        split at hready
        · cases hready
        · obtain ⟨rfl, rfl⟩ := Arrival.ready.inj (Except.ok.inj hready)
          -- the path that is left starts behind the authority
          have hmoved : st.req.path + protocol + 3 + hostPartLen = k.pathStart := hgives.path.1
          rw [h.path] at hmoved
          omega
  · intro hnone
    rw [hnone]
    exact ⟨_, _, rfl, h.buffer, h.host, h.hostLen, ⟨h.path, hpath⟩, h.pathLen⟩

theorem BlockParsed.minorTwo_eq (h : BlockParsed env requestMaxLength m n keepalive k st) (hv : k.MinorTwo m) :
    checkVersion requestMaxLength st = parseAuthority requestMaxLength st := by
  have hminor : k.minor m ≠ 49 := by
    rw [hv.minor]
    decide
  rw [h.version_eq, if_neg (Nat.not_le.mpr hv.inside), if_neg (not_not.mpr hv.major), if_neg hminor, if_pos hv.minor]

variable {req : Request} {sock sock' : Socket} {bytes : Bytes}

/-- The host and the path of an HTTP/1.2 request are those of its target exactly when an absolute target
has a path and an authority as long as the host header's value, and another target has no `://` in it. -/
theorem absolute_target_iff (hw : sock.WellFormed)
    (hgot : fetchBlock (requestMaxLength + 1) 0 0 sock = .ok (.got bytes, sock'))
    (hparse : parseHeaderBlock env requestMaxLength (filled req bytes) bytes.length = .ok st)
    (hk : k.In (filled req bytes).buffer bytes.length) (hv : k.MinorTwo (filled req bytes).buffer) :
    AuthorityHandled env req sock (filled req bytes).buffer k ↔ AuthorityFits env (filled req bytes).buffer k := by
  obtain ⟨hreceived, harrive⟩ := requestArrive_got env hw hgot
  have hn := hreceived.short.le
  obtain ⟨k', hparsed⟩ := parseHeaderBlock_block (filled_position req bytes) hn hn hparse
  obtain rfl := hparsed.block.unique hk
  have houtcome : requestArrive env req sock = arrive env sock' (parseAuthority requestMaxLength st) := by
    rw [harrive req, parsePhases_eq, hparse, fault_ok_bind, hparsed.minorTwo_eq hv]
  constructor
  · rintro ⟨habsolute, hother⟩
    rw [houtcome] at habsolute hother
    exact ⟨fun t ht => (hparsed.absolute_iff hn ht sock').mp (habsolute t ht),
      fun hnot => (hparsed.untouched_iff hn sock').mp (hother hnot)⟩
  · rintro ⟨habsolute, hother⟩
    refine ⟨fun t ht => ?_, fun hnot => ?_⟩
    · rw [houtcome]
      exact (hparsed.absolute_iff hn ht sock').mpr (habsolute t ht)
    · rw [houtcome]
      exact (hparsed.untouched_iff hn sock').mpr (hother hnot)

end Handling

/-- A target with an authority of one byte, in a request without a host header. -/
def shortTarget : AbsoluteTarget where
  first := 104
  more := ascii "ttp"
  authority := ascii "a"
  rest := ascii "/b"
  letter := rfl
  spelled := by
    have hall : (ascii "ttp").all isSchemeByte = true := rfl
    exact List.all_eq_true.mp hall
  plainAuthority := by decide
  rooted := .inr ⟨ascii "b", rfl⟩
  plainRest := by decide

def hostlessRequest : Bytes := ascii "G " ++ shortTarget.text ++ ascii " HTTP/1.2\n\n"

def hostlessSocket : Socket := socketNew 3 [] 80 ⟨hostlessRequest, [.deliver 23], [], []⟩

def hostlessMemory : Memory := (filled requestNew hostlessRequest).buffer

def hostlessBlock : Block := ⟨1, 10, 8, [], 22⟩

/-- The host is cut to the length of the host header that there is not. -/
theorem hostless_authority_cut : hostlessRequest = ascii "G http://a/b HTTP/1.2\n\n" ∧
    ¬ AuthorityHandled plainEnvironment requestNew hostlessSocket hostlessMemory hostlessBlock := by
  refine ⟨rfl, fun hhandled => ?_⟩
  obtain ⟨req', sock', hready, hgives⟩ := hhandled.absolute shortTarget rfl
  have hrun : requestArrive plainEnvironment requestNew hostlessSocket = .ok (.ready _ _) := rfl
  obtain ⟨rfl, rfl⟩ := Arrival.ready.inj (Except.ok.inj (hrun.symm.trans hready))
  obtain ⟨host, hhost, hstring⟩ := hgives.host
  obtain rfl := Option.some.inj hhost
  have hcut : shortTarget.authority.length ≤ 0 := cstring_length_le hstring rfl
  exact absurd hcut (by decide)

theorem absolute_target_iff_hostless :
    AuthorityHandled plainEnvironment requestNew hostlessSocket hostlessMemory hostlessBlock ↔
      AuthorityFits plainEnvironment hostlessMemory hostlessBlock :=
  absolute_target_iff (socketNew_wellFormed _ _ _ _) rfl rfl ⟨⟨rfl, rfl, rfl⟩, .nil 22, 0, rfl, rfl⟩ ⟨by decide, rfl, rfl⟩

end CFlare.Http
