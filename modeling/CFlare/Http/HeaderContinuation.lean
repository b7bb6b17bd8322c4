import CFlare.Http.HeaderItems

/-! Header lines that are continued on the lines behind them. The header loop asks for a previous
header that it never sets, so no request with a continuation is accepted. -/
namespace CFlare.Http
open CFlare.Library CFlare.Network

/-- A line that starts with a blank. -/
structure Continuation where
  mark : UInt8
  rest : Bytes
  lineEnd : LineEnd
  blank : mark = space ∨ mark = tab
  plain : newline ∉ rest ∧ (0 : UInt8) ∉ rest
  ended : lineEnd = .plain → rest.getLast? ≠ some carriageReturn

/-- A header, and the lines that continue it. -/
structure FoldedHeader extends HeaderItem where
  more : List Continuation

/-- A request some of whose headers are continued. -/
structure FoldedText where
  method : Bytes
  target : Bytes
  version : Bytes
  headers : List FoldedHeader
  blankEnd : LineEnd
  plainMethod : space ∉ method ∧ newline ∉ method
  plainTarget : space ∉ target ∧ newline ∉ target
  plainVersion : newline ∉ version
  continued : ∃ hdr ∈ headers, hdr.more ≠ []

def Continuation.line (c : Continuation) : Bytes := c.mark :: (c.rest ++ c.lineEnd.mark)

namespace FoldedHeader
variable (hdr : FoldedHeader)

def lines : List Bytes := hdr.line :: hdr.more.map Continuation.line

/-- What the header says with the lines that continue it. -/
def joined : Bytes := hdr.value ++ hdr.more.flatMap (fun c => space :: c.rest)

end FoldedHeader

namespace FoldedText
variable (text : FoldedText)

def lines : List Bytes := text.headers.flatMap FoldedHeader.lines

def render : Bytes :=
  lineThen text.method text.target text.version (joinLines newline text.lines ++ (text.blankEnd.mark ++ [newline]))

/-- The request is handed to the hook, with every known header as it is continued. -/
def HandedOn (env : Environment) (req : Request) (sock : Socket) : Prop :=
  ∃ req' sock', requestArrive env req sock = .ok (.ready req' sock') ∧
    List.Forall₂ (fun hdr h => h.header = env.table.header hdr.name ∧ h.valueLen = (FoldedHeader.joined hdr).length ∧
        slice req'.buffer h.value h.valueLen = hdr.joined)
      (text.headers.filter (fun hdr => headersValid (env.table.header hdr.name))) req'.headers

end FoldedText

theorem Continuation.nonBlank (c : Continuation) : NonBlank c.line := by
  refine ⟨fun hm => ?_, c.mark, List.mem_cons_self, ?_⟩
  · rcases List.mem_cons.mp hm with he | hm
    · rcases c.blank with hblank | hblank
      · exact absurd (he.trans hblank) (by decide)
      · exact absurd (he.trans hblank) (by decide)
    · rcases List.mem_append.mp hm with hm | hm
      · exact c.plain.1 hm
      · exact mark_no_newline c.lineEnd hm
  · rcases c.blank with hblank | hblank
    · rw [hblank]
      decide
    · rw [hblank]
      decide

theorem FoldedText.nonBlank (text : FoldedText) : ∀ line ∈ text.lines, NonBlank line := by
  intro line hm
  obtain ⟨hdr, -, hm⟩ := List.mem_flatMap.mp hm
  rcases List.mem_cons.mp hm with rfl | hm
  · exact hdr.toHeaderItem.nonBlank
  · obtain ⟨c, -, rfl⟩ := List.mem_map.mp hm
    exact c.nonBlank

theorem FoldedText.continuation (text : FoldedText) :
    ∃ front c back, text.lines = front ++ Continuation.line c :: back := by
  obtain ⟨hdr, hm, hmore⟩ := text.continued
  obtain ⟨c, hc⟩ := List.exists_mem_of_ne_nil _ hmore
  have hline : c.line ∈ text.lines :=
    List.mem_flatMap.mpr ⟨hdr, hm, List.mem_cons_of_mem _ (List.mem_map.mpr ⟨c, hc, rfl⟩)⟩
  obtain ⟨front, back, hsplit⟩ := List.append_of_mem hline
  exact ⟨front, c, back, hsplit⟩

section Lines
variable {m : Memory} {n p q : Nat} {chain : List HeaderLine}

/-- Accepted lines do not lead to a blank one over a continuation. -/
theorem Lines.no_continuation {front : List Bytes} {rest : Bytes} {c : Continuation} (h : Lines m n p chain q)
    (hb : BlankAt m n q) (hfront : ∀ line ∈ front, NonBlank line)
    (hs : slice m p (joinLines newline front ++ (c.line ++ newline :: rest)).length =
      joinLines newline front ++ (c.line ++ newline :: rest))
    (hn : p + (joinLines newline front ++ (c.line ++ newline :: rest)).length ≤ n) : False := by
  induction front generalizing p chain with
  | nil =>
    rw [joinLines_nil, List.nil_append] at hs hn
    obtain ⟨-, hblank⟩ := c.nonBlank.there hs hn
    cases h with
    | nil => exact hblank hb
    | @cons l lines q here more =>
      have hfirst : m l.start = c.mark := (List.cons.inj hs).1
      have hfresh := here.fresh
      rw [hfirst] at hfresh
      exact c.blank.elim hfresh.1 hfresh.2
  | cons line front ih =>
    rw [joinLines_cons, List.append_assoc, List.cons_append] at hs hn
    obtain ⟨hpos, hblank⟩ := (hfront line List.mem_cons_self).there hs hn
    cases h with
    | nil => exact hblank hb
    | @cons l lines q here more =>
      have hlength : l.pos = line.length := Option.some.inj (here.newline.symm.trans hpos)
      have hnext : l.next = l.start + line.length + 1 := by rw [HeaderLine.next, hlength]
      have hbehind := (slice_append_cons _ _ hs).2.2
      rw [← hnext] at hbehind
      apply ih more (fun line' hm => hfront line' (List.mem_cons_of_mem _ hm)) hbehind
      rw [List.length_append, List.length_cons] at hn
      omega

end Lines

section Rejection
variable {env : Environment} {req : Request} {sock : Socket}

theorem FoldedText.render_blockEnd (text : FoldedText) : blockEnd 0 text.render = some text.render.length :=
  lineThen_blockEnd text.plainMethod.2 text.plainTarget.2 text.plainVersion text.nonBlank text.blankEnd

/-- A request with a continuation never gets to the hook. -/
theorem FoldedText.not_ready (text : FoldedText) (hw : sock.WellFormed) (hstream : text.render <+: sock.pending)
    {req' : Request} {sock' : Socket} (h : requestArrive env req sock = .ok (.ready req' sock')) : False := by
  obtain ⟨bytes, st, harrived⟩ := requestArrive_ready hw h
  obtain ⟨k, st0, hparsed, -⟩ := harrived.headerBlock
  obtain ⟨more, hmore⟩ := harrived.toReceived.whole text.render_blockEnd hstream
  have hlength := congrArg List.length hmore
  rw [List.length_append] at hlength
  have hslice : slice (filled req bytes).buffer 0 text.render.length = text.render := by
    have hbytes := filled_slice req bytes
    rw [← hmore] at hbytes ⊢
    exact (slice_append _ _ hbytes).1
  have hat := lineThen_at hslice text.plainMethod.1 text.plainTarget.1 text.plainVersion
  have hlonger : text.render.length ≤ bytes.length := by omega
  have hmarks := hat.marks.extend (fun i _ => rfl) hlonger
  obtain ⟨hmethod, hpath, hversion⟩ := hmarks.unique hparsed.block.marks
  have hfirst : text.method.length + 1 + text.target.length + 1 + text.version.length + 1 = k.firstLine := by
    rw [hmethod, hpath, hversion]
    rfl
  have hrest := hat.atRest
  rw [hfirst] at hrest
  obtain ⟨front, c, back, hsplit⟩ := text.continuation
  have hlines := text.nonBlank
  have hsum : text.render.length = _ := lineThen_length text.method text.target text.version
    (joinLines newline text.lines ++ (text.blankEnd.mark ++ [newline]))
  rw [hsplit] at hlines
  have hshape : joinLines newline text.lines ++ (text.blankEnd.mark ++ [newline]) =
      joinLines newline front ++ (c.line ++ newline :: (joinLines newline back ++ (text.blankEnd.mark ++ [newline]))) := by
    rw [hsplit, joinLines_append, joinLines_cons]
    simp only [List.append_assoc, List.cons_append]
  rw [hshape] at hrest hsum
  exact hparsed.block.chain.no_continuation hparsed.block.blank
    (fun line hm => hlines line (List.mem_append_left _ hm)) hrest (by omega)

/-- No request with a continuation, of a known header or another, is handed on as it should be. -/
theorem continuation_never_joined (env : Environment) (req : Request) (text : FoldedText) (hw : sock.WellFormed)
    (hstream : text.render <+: sock.pending) : ¬ text.HandedOn env req sock := by
  rintro ⟨req', sock', hready, -⟩
  exact text.not_ready hw hstream hready

end Rejection

/-- A host on two lines. -/
def foldedHost : FoldedHeader where
  toHeaderItem := hostItem
  more := [⟨space, ascii "b", .plain, .inl rfl, by decide, fun _ => by decide⟩]

def foldedText : FoldedText where
  method := ascii "G"
  target := ascii "/"
  version := ascii "HTTP/1.1"
  headers := [foldedHost]
  blankEnd := .plain
  plainMethod := get_plain
  plainTarget := root_plain
  plainVersion := by decide
  continued := ⟨foldedHost, List.mem_cons_self, List.cons_ne_nil _ _⟩

def foldedSocket : Socket := socketNew 3 [] 80 ⟨foldedText.render, [.deliver 24], [], []⟩

theorem folded_host_refused : foldedText.render = ascii "G / HTTP/1.1\nHost: a\n b\n\n" ∧
    ¬ foldedText.HandedOn plainEnvironment requestNew foldedSocket := by
  refine ⟨rfl, ?_⟩
  rintro ⟨req', sock', hready, -⟩
  exact foldedText.not_ready (socketNew_wellFormed _ _ _ _) (List.prefix_refl _) hready

theorem continuation_never_joined_host : ¬ foldedText.HandedOn plainEnvironment requestNew foldedSocket :=
  continuation_never_joined plainEnvironment requestNew foldedText (socketNew_wellFormed _ _ _ _) (List.prefix_refl _)

end CFlare.Http
