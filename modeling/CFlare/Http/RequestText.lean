import CFlare.Http.HeaderIdentity
import CFlare.Http.RequestShape

/-! The text of a well-formed request, and a socket that brings it in fragments. -/
namespace CFlare.Http
open CFlare.Library CFlare.Network

/-- A line ends with a newline, or with a carriage return before it. -/
inductive LineEnd where
  | plain
  | withReturn
  deriving DecidableEq, Repr

/-- What stands in front of the newline. -/
def LineEnd.mark : LineEnd → Bytes
  | .plain => []
  | .withReturn => [carriageReturn]

/-- `Name: value`, under a name that the table knows. -/
structure HeaderText (table : HeaderTable) where
  name : Bytes
  value : Bytes
  lineEnd : LineEnd
  known : table.lookup name ≠ none
  plainName : ∀ b ∈ name, b ≠ colon ∧ b ≠ 0 ∧ isSpace b = false
  plainValue : newline ∉ value ∧ (0 : UInt8) ∉ value ∧ value.getLast? ≠ some carriageReturn
  numeral : normalizeHeader name = normalizeHeader (ascii "Content-Length") →
    value ≠ [] ∧ ∀ b ∈ value, 48 ≤ b ∧ b ≤ 57

section Render
variable {table : HeaderTable}

def HeaderText.content (hdr : HeaderText table) : Bytes := hdr.name ++ colon :: space :: hdr.value

def HeaderText.IsHost (hdr : HeaderText table) : Prop := normalizeHeader hdr.name = normalizeHeader (ascii "Host")

instance (hdr : HeaderText table) : Decidable hdr.IsHost := inferInstanceAs (Decidable (_ = _))

/-- The header lines and the blank line. -/
def renderHeaders (blankEnd : LineEnd) : List (HeaderText table) → Bytes
  | [] => blankEnd.mark ++ [newline]
  | hdr :: rest => (hdr.content ++ hdr.lineEnd.mark) ++ newline :: renderHeaders blankEnd rest

/-- The value of the last Host header. -/
def lastHost (headers : List (HeaderText table)) : Option Bytes :=
  ((headers.filter (fun hdr => hdr.IsHost)).getLast?).map HeaderText.value

theorem lastHost_of_mem {headers : List (HeaderText table)} (h : ∃ hdr ∈ headers, hdr.IsHost) :
    ∃ value, lastHost headers = some value := by
  obtain ⟨hdr, hm, hhost⟩ := h
  have hne : headers.filter (fun hdr => hdr.IsHost) ≠ [] :=
    List.ne_nil_of_mem (List.mem_filter.mpr ⟨hm, decide_eq_true hhost⟩)
  unfold lastHost
  rw [List.getLast?_eq_some_getLast hne]
  exact ⟨_, rfl⟩

end Render

/-- The parts of a request, and how its lines end. -/
structure RequestText (table : HeaderTable) where
  method : Bytes
  path : Bytes
  query : Option Bytes
  lineEnd : LineEnd
  headers : List (HeaderText table)
  blankEnd : LineEnd
  plainMethod : space ∉ method ∧ newline ∉ method
  plainPath : space ∉ path ∧ newline ∉ path ∧ questionMark ∉ path
  plainQuery : ∀ text, query = some text → space ∉ text ∧ newline ∉ text
  fewHeaders : headers.length ≤ requestMaxHeaders
  hosted : ∃ hdr ∈ headers, hdr.IsHost

namespace RequestText
variable {table : HeaderTable} (text : RequestText table)

def target : Bytes := text.path ++ text.query.elim [] (questionMark :: ·)

def render : Bytes :=
  lineThen text.method text.target (ascii "HTTP/1.1" ++ text.lineEnd.mark) (renderHeaders text.blankEnd text.headers)

end RequestText

section Lines
variable {table : HeaderTable} {content : Bytes}

theorem mark_no_newline (lineEnd : LineEnd) : newline ∉ lineEnd.mark := by
  cases lineEnd with
  | plain => exact List.not_mem_nil
  | withReturn => decide

/-- The end of a line is stripped. -/
theorem stripReturn_mark (h : content.getLast? ≠ some carriageReturn) (lineEnd : LineEnd) :
    stripReturn (content ++ lineEnd.mark) = content := by
  cases lineEnd with
  | plain => rw [LineEnd.mark, List.append_nil, stripReturn, if_neg h]
  | withReturn => rw [LineEnd.mark, stripReturn, List.getLast?_concat, if_pos rfl, List.dropLast_concat]

namespace RequestText
variable (text : RequestText table)

theorem target_plain : space ∉ text.target ∧ newline ∉ text.target := by
  have hsplit : ∀ b : UInt8, b ≠ questionMark → b ∉ text.path → (∀ query, text.query = some query → b ∉ query) →
      b ∉ text.target := by
    intro b hb hpath hquery hm
    rcases List.mem_append.mp hm with hm | hm
    · exact hpath hm
    · cases hq : text.query with
      | none =>
        rw [hq] at hm
        cases hm
      | some query =>
        rw [hq] at hm
        rcases List.mem_cons.mp hm with he | hm
        · exact hb he
        · exact hquery query hq hm
  exact ⟨hsplit space (by decide) text.plainPath.1 (fun query hq => (text.plainQuery query hq).1),
    hsplit newline (by decide) text.plainPath.2.1 (fun query hq => (text.plainQuery query hq).2)⟩

theorem version_plain : newline ∉ ascii "HTTP/1.1" ++ text.lineEnd.mark := by
  intro hm
  rcases List.mem_append.mp hm with hm | hm
  · exact absurd hm (by decide)
  · exact mark_no_newline _ hm

theorem line_plain :
    newline ∉ text.method ++ space :: (text.target ++ space :: (ascii "HTTP/1.1" ++ text.lineEnd.mark)) := by
  intro hm
  rcases List.mem_append.mp hm with hm | hm
  · exact text.plainMethod.2 hm
  rcases List.mem_cons.mp hm with he | hm
  · exact absurd he (by decide)
  rcases List.mem_append.mp hm with hm | hm
  · exact text.target_plain.2 hm
  rcases List.mem_cons.mp hm with he | hm
  · exact absurd he (by decide)
  · exact text.version_plain hm

end RequestText

end Lines

/-- Nothing is put back, and reads that bring some bytes each bring all of them. -/
structure Fragmented (sock : Socket) (bytes : Bytes) : Prop where
  connected : sock.connected = true
  requeue : sock.requeue = none ∧ sock.requeueLength = 0
  incoming : sock.peer.incoming = bytes
  reads : ∃ (counts : List Nat) (more : List Recv), sock.peer.recvs = counts.map Recv.deliver ++ more ∧
    (∀ c ∈ counts, 0 < c) ∧ counts.foldr (· + ·) 0 = bytes.length

section Fragments
variable {sock : Socket} {bytes : Bytes}

theorem Fragmented.wellFormed (h : Fragmented sock bytes) : sock.WellFormed := by
  unfold Socket.WellFormed
  rw [h.requeue.1]
  exact h.requeue.2

theorem Fragmented.pending (h : Fragmented sock bytes) : sock.pending = bytes := by
  rw [Socket.pending, Socket.queued, h.requeue.1, h.incoming, List.nil_append]

/-- A read brings the next fragment. -/
theorem Fragmented.read (h : Fragmented sock bytes) {room : Nat} (hb : bytes ≠ []) (hroom : bytes.length ≤ room) :
    ∃ count sock', 0 < count ∧ count ≤ bytes.length ∧
      socketRead sock room = .ok (some (bytes.take count), sock') ∧ Fragmented sock' (bytes.drop count) := by
  obtain ⟨hconnected, ⟨hrequeue, hlength⟩, hincoming, counts, more, hrecvs, hpos, hsum⟩ := h
  have hlen : 0 < bytes.length := List.length_pos_iff.mpr hb
  cases counts with
  | nil =>
    rw [List.foldr_nil] at hsum
    omega
  | cons count counts =>
    rw [List.foldr_cons] at hsum
    have hcount := hpos count List.mem_cons_self
    have hmin : min count room = count := by omega
    have htake : (bytes.take count).length = count := by
      rw [List.length_take]
      omega
    refine ⟨count, { sock with peer := { sock.peer with
      recvs := counts.map Recv.deliver ++ more, incoming := bytes.drop count } }, hcount, by omega, ?_,
      hconnected, ⟨hrequeue, hlength⟩, rfl, counts, more, rfl, fun c hc => hpos c (List.mem_cons_of_mem _ hc), ?_⟩
    · rw [socketRead, if_neg (by rw [hconnected]; decide), if_neg (by omega), if_neg (by omega), lthreadRecv, hrecvs]
      simp only [List.map_cons, List.cons_append, hincoming, hmin, htake]
      rw [if_neg (by omega)]
    · rw [List.length_drop]
      omega

/-- Behind bytes that do not end a block it ends where it does in the rest. -/
theorem blockEnd_scanned {xs ys : Bytes} {newlines newlines' : Nat}
    (h : scanFragment newlines xs = (false, newlines')) :
    blockEnd newlines (xs ++ ys) = (blockEnd newlines' ys).map (· + xs.length) := by
  induction xs generalizing newlines with
  | nil =>
    obtain rfl := (Prod.mk.inj h).2
    rw [List.nil_append, List.length_nil]
    exact Option.map_id'.symm
  | cons b xs ih =>
    rw [scanFragment] at h
    rw [List.cons_append, blockEnd]
    split
    · next hb =>
      rw [if_pos hb] at h
      rw [ih h, Option.map_map]
      rfl
    · next hb =>
      rw [if_neg hb] at h
      split
      · next hn =>
        rw [if_pos hn] at h
        split
        · next h2 =>
          rw [if_pos h2] at h
          cases h
        · next h2 =>
          rw [if_neg h2] at h
          rw [ih h, Option.map_map]
          rfl
      · next hn =>
        rw [if_neg hn] at h
        rw [ih h, Option.map_map]
        rfl

/-- Bytes whose block ends with them are received whole, in whatever fragments they come. -/
theorem fetchBlock_fragments {fuel nbytes newlines : Nat} (h : Fragmented sock bytes)
    (hend : blockEnd newlines bytes = some bytes.length) (hroom : nbytes + bytes.length < requestMaxLength)
    (hfuel : bytes.length < fuel) :
    ∃ sock', fetchBlock fuel nbytes newlines sock = .ok (.got bytes, sock') ∧ Fragmented sock' [] := by
  induction fuel generalizing sock bytes nbytes newlines with
  | zero => omega
  | succ fuel ih =>
    have hsize : sizeSub requestMaxLength nbytes = requestMaxLength - nbytes := sizeSub_of_le (by omega) (by decide)
    have hne : bytes ≠ [] := by
      rintro rfl
      cases hend
    obtain ⟨count, sock1, hpos, hle, hread, hnext⟩ := h.read hne (show bytes.length ≤ requestMaxLength - nbytes by omega)
    have hlen : (bytes.take count).length = count := by
      rw [List.length_take]
      omega
    have hparts : bytes.take count ++ bytes.drop count = bytes := List.take_append_drop count bytes
    rw [fetchBlock, hsize, hread, fault_ok_bind]
    dsimp only
    rw [if_neg (by omega)]
    have hfound := scanFragment_fst newlines (bytes.take count)
    cases hscan : scanFragment newlines (bytes.take count) with
    | mk found newlines' =>
      rw [hscan] at hfound
      cases found with
      | true =>
        -- the fragment ends the block, so nothing is behind it
        obtain ⟨stop, hstop⟩ := Option.isSome_iff_exists.mp hfound.symm
        have hsame : blockEnd newlines (bytes.take count ++ bytes.drop count) = some stop := blockEnd_append hstop
        rw [hparts, hend] at hsame
        have hall : bytes.length = stop := Option.some.inj hsame
        have hshort := blockEnd_le hstop
        have htake : bytes.take count = bytes := List.take_of_length_le (by omega)
        have hdrop : bytes.drop count = [] := List.drop_of_length_le (by omega)
        rw [htake]
        rw [hdrop] at hnext
        exact ⟨sock1, rfl, hnext⟩
      | false =>
        have hrest : blockEnd newlines' (bytes.drop count) = some (bytes.drop count).length := by
          have hwhole : blockEnd newlines (bytes.take count ++ bytes.drop count) = _ := blockEnd_scanned hscan
          rw [hparts, hend] at hwhole
          obtain ⟨stop, hstop, hsum⟩ := Option.map_eq_some_iff.mp hwhole.symm
          rw [hstop, List.length_drop]
          congr 1
          omega
        have hleft : (bytes.drop count).length = bytes.length - count := List.length_drop
        have hroom' : nbytes + (bytes.take count).length + (bytes.drop count).length < requestMaxLength := by omega
        obtain ⟨sock', hfetch, hdone⟩ := ih hnext hrest hroom' (by omega)
        refine ⟨sock', ?_, hdone⟩
        dsimp only
        rw [hfetch, fault_ok_bind, Fetched.after, hparts]

/-- What is received whole is parsed, and nothing of it is left. -/
theorem requestArrive_fragments (env : Environment) (h : Fragmented sock bytes)
    (hend : blockEnd 0 bytes = some bytes.length) (hshort : bytes.length < requestMaxLength) :
    ∃ sock', Fragmented sock' [] ∧ ∀ req, requestArrive env req sock =
      arrive env sock' (parsePhases env requestMaxLength (filled req bytes) bytes.length) := by
  obtain ⟨fetched, sock', -, -, -, hfetch, harrive⟩ := requestArrive_spec env h.wellFormed
  have hroom : 0 + bytes.length < requestMaxLength := by omega
  obtain ⟨sock1, hgot, hdone⟩ := fetchBlock_fragments h hend hroom (Nat.lt_succ_of_lt hshort)
  obtain ⟨rfl, rfl⟩ := Prod.mk.inj (Except.ok.inj (hfetch.symm.trans hgot))
  exact ⟨sock', hdone, harrive⟩

/-- A text at the front of the stream that ends its own block is received whole. -/
theorem Received.whole {sock' : Socket} {text : Bytes} (h : Received sock bytes sock')
    (hend : blockEnd 0 text = some text.length) (hstream : text <+: sock.pending) : text <+: bytes := by
  have hreceived : bytes <+: sock.pending := ⟨sock'.pending, h.received.symm⟩
  rcases List.prefix_or_prefix_of_prefix hstream hreceived with hfirst | ⟨tail, htail⟩
  · exact hfirst
  · obtain ⟨stop, hstop⟩ := h.block
    have hlast : blockEnd 0 (bytes ++ tail) = some stop := blockEnd_append hstop
    rw [htail, hend] at hlast
    have hle := blockEnd_le hstop
    have hlength := congrArg List.length htail
    rw [List.length_append] at hlength
    have hsame := Option.some.inj hlast
    have hnil : tail = [] := List.length_eq_zero_iff.mp (by omega)
    rw [hnil, List.append_nil] at htail
    rw [htail]

/-- The stream starts with the text, and what the receiving loop gets ends in a blank line. -/
structure TakenWhole (sock : Socket) (text : Bytes) : Prop where
  wellFormed : sock.WellFormed
  stream : text <+: sock.pending
  received : ∃ bytes sock', fetchBlock (requestMaxLength + 1) 0 0 sock = .ok (.got bytes, sock')

theorem Fragmented.takenWhole (h : Fragmented sock bytes) (hend : blockEnd 0 bytes = some bytes.length)
    (hshort : bytes.length < requestMaxLength) : TakenWhole sock bytes := by
  have hroom : 0 + bytes.length < requestMaxLength := by omega
  obtain ⟨sock', hgot, -⟩ := fetchBlock_fragments h hend hroom (Nat.lt_succ_of_lt hshort)
  exact ⟨h.wellFormed, h.pending ▸ List.prefix_refl bytes, bytes, sock', hgot⟩

theorem TakenWhole.arrive {text : Bytes} (h : TakenWhole sock text) (env : Environment)
    (hend : blockEnd 0 text = some text.length) :
    ∃ bytes sock', Received sock bytes sock' ∧ text <+: bytes ∧ ∀ req, requestArrive env req sock =
      arrive env sock' (parsePhases env requestMaxLength (filled req bytes) bytes.length) := by
  obtain ⟨bytes, sock', hgot⟩ := h.received
  obtain ⟨hreceived, harrive⟩ := requestArrive_got env h.wellFormed hgot
  exact ⟨bytes, sock', hreceived, hreceived.whole hend h.stream, harrive⟩

theorem Fragmented.arrived {env : Environment} {req : Request} {st : HeaderScan} (h : Fragmented sock bytes)
    (hend : blockEnd 0 bytes = some bytes.length) (hshort : bytes.length < requestMaxLength)
    (hphases : parsePhases env requestMaxLength (filled req bytes) bytes.length = .ok st) :
    ∃ req' sock', requestArrive env req sock = .ok (.ready req' sock') ∧ Arrived env req sock bytes st req' sock' := by
  obtain ⟨sock', hdone, harrive⟩ := requestArrive_fragments env h hend hshort
  have hpending : sock.pending = bytes ++ sock'.pending := by rw [h.pending, hdone.pending, List.append_nil]
  refine ⟨finishRequest st sock', sock', ?_, ⟨hdone.wellFormed, hpending, hshort, bytes.length, hend⟩, hphases, rfl⟩
  rw [harrive req, hphases]
  rfl

end Fragments

theorem host_plain : ∀ b ∈ ascii "Host", b ≠ colon ∧ b ≠ 0 ∧ isSpace b = false := by
  have hall : (ascii "Host").all (fun b => decide (b ≠ colon ∧ b ≠ 0 ∧ isSpace b = false)) = true := rfl
  exact fun b hb => of_decide_eq_true (List.all_eq_true.mp hall b hb)

theorem get_plain : space ∉ ascii "G" ∧ newline ∉ ascii "G" := by decide

theorem root_plain : space ∉ ascii "/" ∧ newline ∉ ascii "/" := by decide

end CFlare.Http
