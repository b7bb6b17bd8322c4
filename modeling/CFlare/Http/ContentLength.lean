import CFlare.Http.HeaderItems

/-! The content length of a request. Its header's value is taken for a number in general notation, and
the number for a size. -/
namespace CFlare.Http
open CFlare.Library CFlare.Network

/-- A request with one content length, of any value. -/
structure LengthText (table : HeaderTable) where
  method : Bytes
  target : Bytes
  minor : UInt8
  lineEnd : LineEnd
  before : List HeaderItem
  length : HeaderItem
  after : List HeaderItem
  blankEnd : LineEnd
  plainMethod : space ∉ method ∧ newline ∉ method
  plainTarget : space ∉ target ∧ newline ∉ target
  digit : 48 ≤ minor ∧ minor ≤ 57
  named : NameIs length.name (ascii "Content-Length")
  single : ∀ item ∈ before ++ after, ¬ NameIs item.name (ascii "Content-Length")
  hosted : minor = 49 → ∃ item ∈ before ++ after, NameIs item.name (ascii "Host")
  rooted : minor = 50 → ∀ protocol, occurrence (pathOf target) (ascii "://") = some protocol →
    ∃ hostPartLen, occurrence ((pathOf target).drop (protocol + 3)) (ascii "/") = some hostPartLen
  few : ((before ++ length :: after).filter (fun item => headersValid (table.header item.name))).length ≤ requestMaxHeaders

namespace LengthText
variable {table : HeaderTable} (text : LengthText table)

def items : List HeaderItem := text.before ++ text.length :: text.after

def version : Bytes := ascii "HTTP/1." ++ [text.minor]

def render : Bytes :=
  lineThen text.method text.target (text.version ++ text.lineEnd.mark)
    (joinLines newline (text.items.map HeaderItem.line) ++ (text.blankEnd.mark ++ [newline]))

theorem version_plain : newline ∉ text.version ++ text.lineEnd.mark ∧ text.version.getLast? ≠ some carriageReturn := by
  constructor
  · intro hm
    rcases List.mem_append.mp hm with hm | hm
    · rcases List.mem_append.mp hm with hm | hm
      · exact absurd hm (by decide)
      · have hdigit := text.digit.1
        rw [← List.mem_singleton.mp hm] at hdigit
        exact absurd hdigit (by decide)
    · exact mark_no_newline _ hm
  · intro hlast
    have hdigit := text.digit.1
    rw [version, List.getLast?_concat] at hlast
    rw [Option.some.inj hlast] at hdigit
    exact absurd hdigit (by decide)

end LengthText

/-- One or more decimal digits, for a number of 64 signed bits. -/
def IsLength (value : Bytes) : Prop := value ≠ [] ∧ (∀ b ∈ value, 48 ≤ b ∧ b ≤ 57) ∧ decimalOf value < 2^63

/-- A length is read as its number; for anything else the request is answered with 400. -/
structure LengthHandled (env : Environment) (req : Request) (sock : Socket) (value : Bytes) : Prop where
  accepted : IsLength value → ∃ req' sock', requestArrive env req sock = .ok (.ready req' sock') ∧
    req'.contentLength = decimalOf value ∧ req'.contentLengthUnread = decimalOf value
  rejected : ¬ IsLength value → ∃ req' sock', requestArrive env req sock = .ok (.rejected 400 req' sock') ∧
    ∀ handler date, requestProcessSocket env handler date req sock = .ok (false, req', sock')

/-- Summed in double precision the digits of a length come to its number; and what is no length has no
digits, or a letter that is none of its base in front of anything else than digits. -/
structure LengthRead (float : FloatArith) (value : Bytes) : Prop where
  exact : IsLength value →
    (sumDigits float 10 value 0).map (fun ret => ret.map int64) = .ok (some (decimalOf value : Int))
  refused : ¬ IsLength value → Refused value

section Lines
variable {env : Environment} {limit : Nat} {m : Memory} {n p q : Nat} {st : HeaderScan} {lines more : List HeaderLine}
  {l : HeaderLine} {items : List HeaderItem}

theorem Lines.split (h : Lines m n p (lines ++ l :: more) q) :
    Lines m n p lines l.start ∧ l.At m n ∧ Lines m n l.next more q := by
  induction lines generalizing p with
  | nil =>
    cases h with
    | cons here rest => exact ⟨.nil _, here, rest⟩
  | cons head lines ih =>
    cases h with
    | cons here rest =>
      obtain ⟨hfront, hat, hback⟩ := ih rest
      exact ⟨.cons here hfront, hat, hback⟩

/-- How many of the items are kept. -/
def keptCount (env : Environment) (items : List HeaderItem) : Nat :=
  (items.filter (fun item => headersValid (env.table.header item.name))).length

/-- Lines that give no content length are read, if there is room for those that are kept. -/
theorem Framed.fold_others (h : Framed m n st) (hn : n ≤ limit) (hc : Lines m n st.req.bufferPosition lines q)
    (hfound : List.Forall₂ (HeaderItem.Found limit m n) lines items)
    (hnames : ∀ item ∈ items, ¬ NameIs item.name (ascii "Content-Length"))
    (hfew : st.req.headers.length + keptCount env items ≤ requestMaxHeaders) :
    ∃ st', lines.foldlM (HeaderScan.read env limit m) st = .ok st' ∧
      st'.req.headers.length = st.req.headers.length + keptCount env items := by
  induction hfound generalizing st with
  | nil => exact ⟨st, rfl, rfl⟩
  | @cons l item lines items hl rest ih =>
    generalize hp : st.req.bufferPosition = p at hc
    cases hc with
    | cons here behind =>
      have hvalid : headersValid (env.table.header item.name) = l.known env m := by rw [HeaderLine.known, hl.key]
      have hcount : keptCount env (item :: items) = (if l.known env m then 1 else 0) + keptCount env items := by
        unfold keptCount
        rw [List.filter_cons, hvalid]
        split
        · rw [List.length_cons, Nat.add_comm]
        · rw [Nat.zero_add]
      have hname : ¬ NameIs (l.key m) (ascii "Content-Length") := hl.key ▸ hnames item List.mem_cons_self
      have hroom : l.known env m = true → st.req.headers.length < requestMaxHeaders := by
        intro hk
        rw [hcount, if_pos hk] at hfew
        omega
      have hread : ∃ st1, st.read env limit m l = .ok st1 ∧
          st1.req.headers.length = st.req.headers.length + if l.known env m then 1 else 0 := by
        by_cases hconnection : NameIs (l.key m) (ascii "Connection")
        · have hk : l.known env m = true := known_of_name hconnection (by simp [commonNames])
          rw [if_pos hk]
          exact h.read_connection here hp (hroom hk) hconnection hl.text
        · exact read_plain hroom hconnection hname
      obtain ⟨st1, hread, hlength⟩ := hread
      obtain ⟨hframed, hposition⟩ := h.read hn here hp hread
      rw [← hposition] at behind
      obtain ⟨st', hfold, hlast⟩ := ih hframed behind (fun item' hm => hnames item' (List.mem_cons_of_mem _ hm)) (by omega)
      exact ⟨st', by rw [List.foldlM_cons, hread]; exact hfold, by omega⟩

end Lines

section Outcome
variable {env : Environment} {sock : Socket}

/-- Where the parts of such a request are, once it is received. -/
structure LengthText.Placed (text : LengthText env.table) (m : Memory) (n : Nat) (k : Block) (before : List HeaderLine)
    (l : HeaderLine) (after : List HeaderLine) : Prop where
  block : k.In m n
  lines : k.lines = before ++ l :: after
  before : List.Forall₂ (HeaderItem.Found requestMaxLength m n) before text.before
  length : HeaderItem.Found requestMaxLength m n l text.length
  after : List.Forall₂ (HeaderItem.Found requestMaxLength m n) after text.after
  target : slice m k.pathStart k.path = text.target
  version : k.major m = 49 ∧ k.minor m = text.minor
  inside : k.versionStart + 7 < requestMaxLength

theorem LengthText.placed (text : LengthText env.table) {bytes : Bytes} (hwhole : text.render <+: bytes)
    (hshort : bytes.length < requestMaxLength) (req : Request) :
    ∃ k before l after, text.Placed (filled req bytes).buffer bytes.length k before l after := by
  have hversion := text.version_plain.1
  have hlonger := hwhole.length_le
  have hslice : slice (filled req bytes).buffer 0 text.render.length = text.render := by
    obtain ⟨more, rfl⟩ := hwhole
    exact (slice_append _ _ (filled_slice req (text.render ++ more))).1
  have hat := lineThen_at hslice text.plainMethod.1 text.plainTarget.1 hversion
  have hlength : text.render.length = _ := lineThen_length text.method text.target (text.version ++ text.lineEnd.mark)
    (joinLines newline (text.items.map HeaderItem.line) ++ (text.blankEnd.mark ++ [newline]))
  obtain ⟨lines, q, hchain, hblank, hfound⟩ :=
    HeaderItem.items_lines (n := bytes.length) hat.atRest (by omega) hshort.le
  have hbefore := List.forall₂_take_append lines text.before (text.length :: text.after) hfound
  have hbehind := List.forall₂_drop_append lines text.before (text.length :: text.after) hfound
  have hsplit := List.take_append_drop text.before.length lines
  obtain ⟨l, after, hl, hafter, hdrop⟩ := List.forall₂_cons_right_iff.mp hbehind
  rw [hdrop] at hsplit
  have hin : Block.In (filled req bytes).buffer bytes.length
      ⟨text.method.length, text.target.length, (text.version ++ text.lineEnd.mark).length, lines, q⟩ :=
    ⟨hat.marks.extend (fun i _ => rfl) hlonger, hchain, hblank⟩
  have hnumber : ∀ i < 8, Block.memory (filled req bytes).buffer
      ⟨text.method.length, text.target.length, (text.version ++ text.lineEnd.mark).length, lines, q⟩
      (text.method.length + 1 + text.target.length + 1 + i) = text.version.getD i 0 := by
    intro i hi
    have hstrip := lineLength_slice hat.atTail
    rw [stripReturn_mark text.version_plain.2] at hstrip
    have hsize : text.version.length = 8 := rfl
    have hlong : (text.version ++ text.lineEnd.mark).length = 8 + text.lineEnd.mark.length := by
      rw [List.length_append, hsize]
    have hfirst : text.method.length + 1 + text.target.length + 1 + i < Block.firstLine
        ⟨text.method.length, text.target.length, (text.version ++ text.lineEnd.mark).length, lines, q⟩ := by
      simp only [Block.firstLine, Block.versionStart, Block.pathStart]
      omega
    have hkept := (hin.zeros_before hfirst).not.mpr (by
      have hpath := Block.pathLen_le
        ⟨text.method.length, text.target.length, (text.version ++ text.lineEnd.mark).length, lines, q⟩
        (filled req bytes).buffer
      simp only [Block.versionStart, Block.pathStart, Block.versionLen, not_or] at hpath ⊢
      omega)
    have hbyte := (slice_eq_iff _ _ _).mp hat.atTail i (by omega)
    rw [List.getElem_append_left (by omega)] at hbyte
    rw [Block.memory, if_neg hkept, hbyte, List.getD_eq_getElem _ _ (by omega)]
  refine ⟨_, lines.take text.before.length, l, after, hin, hsplit.symm, hbefore, hl, hafter, hat.atTarget, ⟨?_, ?_⟩, ?_⟩
  · exact hnumber 5 (by decide)
  · exact hnumber 7 (by decide)
  · have hsize : 8 ≤ (text.version ++ text.lineEnd.mark).length := by
      rw [List.length_append]
      exact Nat.le_add_right 8 _
    change text.method.length + 1 + text.target.length + 1 + 7 < requestMaxLength
    omega

theorem LengthText.render_blockEnd (text : LengthText env.table) : blockEnd 0 text.render = some text.render.length := by
  apply lineThen_blockEnd text.plainMethod.2 text.plainTarget.2 text.version_plain.1
  · intro line hm
    obtain ⟨item, -, rfl⟩ := List.mem_map.mp hm
    exact item.nonBlank

/-- The header loop on such a request: it comes to the length, and goes on if that is taken for a number. -/
theorem LengthText.headers (text : LengthText env.table) {bytes : Bytes} (hshort : bytes.length < requestMaxLength)
    (req : Request) {k : Block} {before after : List HeaderLine} {l : HeaderLine}
    (hk : text.Placed (filled req bytes).buffer bytes.length k before l after) :
    (∀ fault, toInteger env.float text.length.value = .error fault →
      parseHeaderBlock env requestMaxLength (filled req bytes) bytes.length = .error (.fault fault)) ∧
    (toInteger env.float text.length.value = .ok none → ∃ message req',
      parseHeaderBlock env requestMaxLength (filled req bytes) bytes.length =
        .error (.reject 400 message req')) ∧
    (∀ c, toInteger env.float text.length.value = .ok (some c) → ∃ st,
      parseHeaderBlock env requestMaxLength (filled req bytes) bytes.length = .ok st) := by
  obtain ⟨req', nbytes, pos, hparsed, -, hframed, hfold⟩ :=
    parseHeaderBlock_fold env (filled_position req bytes) hshort.le hshort.le hk.block
  have hposition : (HeaderScan.start req' nbytes).req.bufferPosition = k.firstLine := hparsed.position
  have hchain := hk.block.chain
  rw [hk.lines] at hchain
  obtain ⟨hfront, hat, hback⟩ := hchain.split
  have hcount : keptCount env text.before + (1 + keptCount env text.after) ≤ requestMaxHeaders := by
    have hvalid : headersValid (env.table.header text.length.name) = true := by
      have hknown : l.known env (filled req bytes).buffer = true :=
        known_of_name (hk.length.key ▸ text.named) (by simp [commonNames])
      rw [HeaderLine.known, hk.length.key] at hknown
      exact hknown
    have hfew := text.few
    rw [List.filter_append, List.filter_cons, hvalid, if_pos rfl, List.length_append, List.length_cons] at hfew
    unfold keptCount
    omega
  have hnone : (HeaderScan.start req' nbytes).req.headers.length = 0 := rfl
  rw [← hposition] at hfront
  have hroom : (HeaderScan.start req' nbytes).req.headers.length + keptCount env text.before ≤ requestMaxHeaders := by
    omega
  obtain ⟨st1, hbefore, hlength1⟩ := hframed.fold_others hshort.le hfront hk.before
    (fun item hm => text.single item (List.mem_append_left _ hm)) hroom
  obtain ⟨hframed1, hposition1⟩ := hframed.fold hshort.le hfront hbefore
  have hread : st1.read env requestMaxLength (filled req bytes).buffer l = _ :=
    hframed1.read_length hat hposition1 (by omega) (hk.length.key ▸ text.named) hk.length.text
  rw [hk.lines, List.foldlM_append, hbefore, fault_ok_bind, List.foldlM_cons, hread] at hfold
  refine ⟨fun fault hf => ?_, fun hf => ?_, fun c hf => ?_⟩
  · rw [hfold, hf]
    rfl
  · rw [hf] at hfold
    exact ⟨_, _, hfold⟩
  · rw [hf] at hfold hread
    obtain ⟨hframed2, hposition2⟩ := hframed1.read hshort.le hat hposition1 hread
    have hlength2 : ({ (st1.cutAt l).keep (l.recorded env (filled req bytes).buffer) with
        contentLength := c } : HeaderScan).req.headers.length = st1.req.headers.length + 1 := List.length_append
    rw [← hposition2] at hback
    have hroom2 : ({ (st1.cutAt l).keep (l.recorded env (filled req bytes).buffer) with
        contentLength := c } : HeaderScan).req.headers.length + keptCount env text.after ≤ requestMaxHeaders := by omega
    obtain ⟨st3, hafter, -⟩ := hframed2.fold_others hshort.le hback hk.after
      (fun item hm => text.single item (List.mem_append_right _ hm)) hroom2
    change _ = (List.foldlM _ _ after >>= _) at hfold
    rw [hafter] at hfold
    exact ⟨_, hfold⟩

private theorem named_found {m : Memory} {n : Nat} {lines : List HeaderLine} {items : List HeaderItem} {name : Bytes}
    (h : List.Forall₂ (HeaderItem.Found requestMaxLength m n) lines items) (hn : name ∈ commonNames)
    (hitem : ∃ item ∈ items, NameIs item.name name) : ∃ l ∈ lines, l.named env m name = true := by
  induction h with
  | nil =>
    obtain ⟨item, hm, -⟩ := hitem
    cases hm
  | @cons l item lines items hl rest ih =>
    obtain ⟨item', hm, hname⟩ := hitem
    rcases List.mem_cons.mp hm with rfl | hm
    · have hkey : NameIs (l.key m) name := hl.key ▸ hname
      refine ⟨l, List.mem_cons_self, ?_⟩
      rw [HeaderLine.named, known_of_name hkey hn, Bool.true_and]
      exact decide_eq_true hkey
    · obtain ⟨l', hl', hnamed⟩ := ih ⟨item', hm, hname⟩
      exact ⟨l', List.mem_cons_of_mem _ hl', hnamed⟩

private theorem lastNamed_some {m : Memory} {lines : List HeaderLine} {name : Bytes}
    (h : ∃ l ∈ lines, l.named env m name = true) : ∃ l, lastNamed env m name lines = some l := by
  obtain ⟨l, hl, hnamed⟩ := h
  have hne : lines.filter (HeaderLine.named env m name) ≠ [] := List.ne_nil_of_mem (List.mem_filter.mpr ⟨hl, hnamed⟩)
  exact ⟨_, List.getLast?_eq_some_getLast hne⟩

private theorem found_mem {m : Memory} {n : Nat} {lines : List HeaderLine} {items : List HeaderItem} {l : HeaderLine}
    (h : List.Forall₂ (HeaderItem.Found requestMaxLength m n) lines items) (hl : l ∈ lines) :
    ∃ item ∈ items, HeaderItem.Found requestMaxLength m n l item := by
  induction h with
  | nil => cases hl
  | @cons head item lines items hhead rest ih =>
    rcases List.mem_cons.mp hl with rfl | hl
    · exact ⟨item, List.mem_cons_self, hhead⟩
    · obtain ⟨item', hm, hfound⟩ := ih hl
      exact ⟨item', List.mem_cons_of_mem _ hm, hfound⟩

theorem LengthText.Placed.all {text : LengthText env.table} {m : Memory} {n : Nat} {k : Block}
    {before after : List HeaderLine} {l : HeaderLine} (hk : text.Placed m n k before l after) :
    List.Forall₂ (HeaderItem.Found requestMaxLength m n) k.lines (text.before ++ text.length :: text.after) := by
  rw [hk.lines]
  exact List.rel_append hk.before (.cons hk.length hk.after)

theorem LengthText.Placed.passes {text : LengthText env.table} {m : Memory} {n : Nat} {k : Block} {keepalive : Bool}
    {before after : List HeaderLine} {l : HeaderLine} {st : HeaderScan} (hk : text.Placed m n k before l after)
    (hn : n ≤ requestMaxLength) (hparsed : BlockParsed env requestMaxLength m n keepalive k st) :
    ∃ st', checkVersion requestMaxLength st = .ok st' := by
  have hversion := hparsed.version_eq
  rw [if_neg (Nat.not_le.mpr hk.inside), if_neg (not_not.mpr hk.version.1), hk.version.2] at hversion
  rw [hversion]
  by_cases hone : text.minor = 49
  · have hhost : k.hostLine env m ≠ none := by
      obtain ⟨item, hm, hname⟩ := text.hosted hone
      have hitem : item ∈ text.before ++ text.length :: text.after := by
        rw [List.mem_append] at hm ⊢
        exact hm.imp id (List.mem_cons_of_mem _)
      have hnamed : ∃ l ∈ k.lines, l.named env m (ascii "Host") = true :=
        named_found hk.all (by simp [commonNames]) ⟨item, hitem, hname⟩
      obtain ⟨l', hl'⟩ := lastNamed_some hnamed
      rw [Block.hostLine, hl']
      exact Option.some_ne_none l'
    rw [if_pos hone, if_neg hhost]
    exact ⟨st, rfl⟩
  rw [if_neg hone]
  by_cases htwo : text.minor = 50
  swap
  · rw [if_neg htwo]
    exact ⟨_, rfl⟩
  rw [if_pos htwo, parseAuthority_eq (hparsed.pathText hn), Block.pathText_eq hk.target]
  cases hp : occurrence (pathOf text.target) (ascii "://") with
  | none => exact ⟨st, rfl⟩
  | some protocol =>
    obtain ⟨hostPartLen, hslash⟩ := text.rooted htwo protocol hp
    -- the host's value lies behind the path
    have hroom : st.req.path + protocol + 3 + st.hostLen ≤ requestMaxLength := by
      have hpath : protocol + 3 ≤ k.path := by
        have hle := occurrence_le hp
        have hshorter : (pathOf text.target).length ≤ text.target.length :=
          ((List.takeWhile_sublist _).trans (List.takeWhile_sublist _)).length_le
        have hlength := congrArg List.length hk.target
        rw [slice_length] at hlength
        change protocol + 3 ≤ _ at hle
        omega
      have hline : k.firstLine = k.pathStart + k.path + 1 + k.version + 1 := rfl
      have hinside := hparsed.block.marks.inside
      have hstart : k.pathStart = k.method + 1 := rfl
      rw [hparsed.hostLen, hparsed.path]
      cases hl' : lastNamed env m (ascii "Host") k.lines with
      | none =>
        change k.pathStart + protocol + 3 + 0 ≤ requestMaxLength
        omega
      | some l' =>
        have hmem := (lastNamed_mem hl').1
        obtain ⟨item, -, hfound⟩ := found_mem hk.all hmem
        obtain ⟨-, hlines⟩ := hparsed.block.chain.bounds
        obtain ⟨hat, hfirst, hlast⟩ := hlines l' hmem
        have hspaced := hfound.len
        have hends := hat.inside
        have hlen : l'.valueLen = l'.len - (l'.col + 1 + 1) := by
          apply sizeSub_of_le (by omega)
          have hmax : requestMaxLength < sizeLimit := by decide
          unfold HeaderLine.next at hends
          omega
        change k.pathStart + protocol + 3 + l'.valueLen ≤ requestMaxLength
        unfold HeaderLine.next at hends
        omega
    rw [Option.elim_some, hslash, Option.elim_some, if_neg (Nat.not_lt.mpr hroom)]
    exact ⟨_, rfl⟩

/-- The length of such a request is what its value is taken for. -/
theorem LengthText.Placed.number {text : LengthText env.table} {m : Memory} {n : Nat} {k : Block} {keepalive : Bool}
    {before after : List HeaderLine} {l : HeaderLine} {st : HeaderScan} {c : Int} (hk : text.Placed m n k before l after)
    (hparsed : BlockParsed env requestMaxLength m n keepalive k st)
    (hf : toInteger env.float text.length.value = .ok (some c)) : st.contentLength = c := by
  have hitem : text.length ∈ text.before ++ text.length :: text.after := List.mem_append_right _ List.mem_cons_self
  have hany : ∃ l ∈ k.lines, l.named env m (ascii "Content-Length") = true :=
    named_found hk.all (by simp [commonNames]) ⟨text.length, hitem, text.named⟩
  obtain ⟨l', hl'⟩ := lastNamed_some hany
  obtain ⟨value, hvalue, hread⟩ := hparsed.length l' hl'
  obtain ⟨hmem, hnamed⟩ := lastNamed_mem hl'
  obtain ⟨item, hm, hfound⟩ := found_mem hk.all hmem
  rw [HeaderLine.named, Bool.and_eq_true, decide_eq_true_eq, hfound.key] at hnamed
  have hsame : item = text.length := by
    rcases List.mem_append.mp hm with hm | hm
    · exact absurd hnamed.2 (text.single item (List.mem_append_left _ hm))
    rcases List.mem_cons.mp hm with he | hm
    · exact he
    · exact absurd hnamed.2 (text.single item (List.mem_append_right _ hm))
  rw [hsame] at hfound
  obtain rfl := Option.some.inj (hvalue.symm.trans hfound.text)
  exact Option.some.inj (Except.ok.inj (hread.symm.trans hf))

theorem LengthText.outcome (text : LengthText env.table) (h : TakenWhole sock text.render)
    (req : Request) :
    (∀ fault, toInteger env.float text.length.value = .error fault → requestArrive env req sock = .error fault) ∧
    (toInteger env.float text.length.value = .ok none → ∃ req' sock',
      requestArrive env req sock = .ok (.rejected 400 req' sock')) ∧
    (∀ c, toInteger env.float text.length.value = .ok (some c) → ∃ req' sock',
      requestArrive env req sock = .ok (.ready req' sock') ∧ req'.contentLength = sizeOfInt c ∧
        req'.contentLengthUnread = sizeOfInt c) := by
  obtain ⟨bytes, sock', hreceived, hwhole, harrive⟩ := h.arrive env text.render_blockEnd
  have hshort := hreceived.short
  obtain ⟨k, before, l, after, hk⟩ := text.placed hwhole hshort req
  obtain ⟨hfault, hreject, hpass⟩ := text.headers hshort req hk
  rw [harrive req, parsePhases_eq]
  refine ⟨fun fault hf => ?_, fun hf => ?_, fun c hf => ?_⟩
  · rw [hfault fault hf]
    rfl
  · obtain ⟨message, req', hblock⟩ := hreject hf
    rw [hblock]
    exact ⟨_, _, rfl⟩
  · obtain ⟨st, hblock⟩ := hpass c hf
    obtain ⟨k', hparsed⟩ := parseHeaderBlock_block (filled_position req bytes) hshort.le hshort.le hblock
    obtain rfl := hparsed.block.unique hk.block
    obtain ⟨st', hversion⟩ := hk.passes hshort.le hparsed
    have hnumber : st'.contentLength = c := (hparsed.handed hshort.le hversion).2.2.trans (hk.number hparsed hf)
    rw [hblock, fault_ok_bind, hversion]
    refine ⟨_, _, rfl, ?_, ?_⟩
    · rw [← hnumber]
      rfl
    · rw [← hnumber]
      rfl

/-- Exact arithmetic sums up to sixteen digits as it should, below what a double holds. -/
theorem LengthRead.of_exact {float : FloatArith} (hf : float.Exact) {value : Bytes} (hlength : IsLength value)
    (hlen : value.length ≤ 16) (hsmall : decimalOf value < 2^53) : LengthRead float value := by
  refine ⟨fun _ => ?_, fun hno => absurd hlength hno⟩
  have hsum : sumDigits float 10 value ((0 : Nat) : Int) = _ := sumDigits_exact hf hlength.2.1 hlen (by omega)
  change (sumDigits float 10 value ((0 : Nat) : Int)).map _ = _
  rw [hsum, Nat.zero_add]
  have hbmod : int64 (decimalOf value : Int) = decimalOf value := by
    unfold int64
    rw [Int.bmod_eq_of_le (by omega) (by omega)]
  change Except.ok (some (int64 _)) = _
  rw [hbmod]

theorem lengthHandled_iff (text : LengthText env.table) (h : TakenWhole sock text.render) (req : Request) :
    LengthHandled env req sock text.length.value ↔ LengthRead env.float text.length.value := by
  obtain ⟨hfault, hreject, hpass⟩ := text.outcome h req
  constructor
  · intro hhandled
    refine ⟨fun hlength => ?_, fun hno => ?_⟩
    · obtain ⟨c, hc⟩ := toInteger_numeral env.float hlength.1 hlength.2.1
      obtain ⟨req1, sock1, hready, hnumber, -⟩ := hhandled.accepted hlength
      obtain ⟨req2, sock2, hready2, hnumber2, -⟩ := hpass c hc
      obtain ⟨rfl, rfl⟩ := Arrival.ready.inj (Except.ok.inj (hready.symm.trans hready2))
      rw [← toInteger_digits env.float hlength.1 hlength.2.1, hc]
      have hrange := toInteger_range hc
      have hsmall := hlength.2.2
      have hsize : sizeOfInt c = decimalOf text.length.value := hnumber2.symm.trans hnumber
      have heq : c = (decimalOf text.length.value : Int) := by
        unfold sizeOfInt at hsize
        omega
      rw [heq]
    · obtain ⟨req1, sock1, hrejected, -⟩ := hhandled.rejected hno
      cases hc : toInteger env.float text.length.value with
      | error fault =>
        rw [hfault fault hc] at hrejected
        cases hrejected
      | ok number =>
        cases number with
        | none => exact toInteger_eq_none.mp hc
        | some c =>
          obtain ⟨req2, sock2, hready, -⟩ := hpass c hc
          rw [hready] at hrejected
          cases hrejected
  · intro hread
    refine ⟨fun hlength => ?_, fun hno => ?_⟩
    · have hc := hread.exact hlength
      rw [← toInteger_digits env.float hlength.1 hlength.2.1] at hc
      obtain ⟨req2, sock2, hready, hnumber, hunread⟩ := hpass _ hc
      have hsmall := hlength.2.2
      have hsize : sizeOfInt (decimalOf text.length.value : Int) = decimalOf text.length.value := by
        unfold sizeOfInt
        omega
      exact ⟨req2, sock2, hready, hnumber.trans hsize, hunread.trans hsize⟩
    · obtain ⟨req2, sock2, hrejected⟩ := hreject (toInteger_eq_none.mpr (hread.refused hno))
      refine ⟨req2, sock2, hrejected, fun handler date => ?_⟩
      rw [requestProcessSocket, hrejected]
      rfl

/-- A request with one content length is handled as it should be exactly when the length's digits sum to
its number, and a value that is no length is refused. With exact arithmetic a length of up to sixteen digits
below 2^53 is. -/
theorem content_length_iff (text : LengthText env.table) (h : TakenWhole sock text.render)
    (req : Request) :
    (LengthHandled env req sock text.length.value ↔ LengthRead env.float text.length.value) ∧
      (env.float.Exact → IsLength text.length.value → text.length.value.length ≤ 16 →
        decimalOf text.length.value < 2^53 → LengthHandled env req sock text.length.value) := by
  refine ⟨lengthHandled_iff text h req, fun hf hlength hlen hsmall => ?_⟩
  exact (lengthHandled_iff text h req).mpr (.of_exact hf hlength hlen hsmall)

end Outcome

/-- A length below zero. -/
def negativeItem : HeaderItem where
  name := ascii "Content-Length"
  value := ascii "-1"
  lineEnd := .plain
  plainName := by
    have hall : (ascii "Content-Length").all (fun b => decide (b ≠ colon ∧ b ≠ 0 ∧ isSpace b = false)) = true := rfl
    exact fun b hb => of_decide_eq_true (List.all_eq_true.mp hall b hb)
  plainValue := by decide
  ended := fun _ => by decide

noncomputable def negativeText : LengthText plainEnvironment.table where
  method := ascii "G"
  target := ascii "/"
  minor := 49
  lineEnd := .plain
  before := [hostItem]
  length := negativeItem
  after := []
  blankEnd := .plain
  plainMethod := get_plain
  plainTarget := root_plain
  digit := by decide
  named := rfl
  single := by
    intro item hm
    obtain rfl := List.mem_singleton.mp hm
    decide
  hosted := fun _ => ⟨hostItem, List.mem_singleton.mpr rfl, rfl⟩
  rooted := fun h => absurd h (by decide)
  few := (List.length_filter_le _ _).trans (by decide)

noncomputable def negativeSocket : Socket := socketNew 3 [] 80 ⟨negativeText.render, [.deliver 41], [], []⟩

private theorem negative_taken : TakenWhole negativeSocket negativeText.render := by
  have hreads : Fragmented negativeSocket negativeText.render := ⟨rfl, ⟨rfl, rfl⟩, rfl, [41], [], rfl, by decide, rfl⟩
  exact hreads.takenWhole negativeText.render_blockEnd (by decide)

/-- It is taken for the largest size there is. -/
theorem negative_length_accepted :
    negativeText.render = ascii "G / HTTP/1.1\nHost: a\nContent-Length: -1\n\n" ∧
      ¬ LengthHandled plainEnvironment requestNew negativeSocket (ascii "-1") := by
  refine ⟨rfl, fun hhandled => ?_⟩
  obtain ⟨-, -, hpass⟩ := negativeText.outcome negative_taken requestNew
  obtain ⟨req1, sock1, hready, -⟩ := hpass (-1) rfl
  have hno : ¬ IsLength (ascii "-1") := by
    rintro ⟨-, hdigits, -⟩
    exact absurd (hdigits 45 List.mem_cons_self).1 (by decide)
  obtain ⟨req2, sock2, hrejected, -⟩ := hhandled.rejected hno
  rw [hready] at hrejected
  cases hrejected

theorem content_length_iff_negative :
    LengthHandled plainEnvironment requestNew negativeSocket (ascii "-1") ↔
      LengthRead plainEnvironment.float (ascii "-1") :=
  (content_length_iff negativeText negative_taken requestNew).1

end CFlare.Http
