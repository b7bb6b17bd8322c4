import CFlare.Http.HeaderBlock

/-! Where the values of the recorded headers are. A value is in its line if a space is behind the
colon: one byte is skipped there, whatever it is. -/
namespace CFlare.Http
open CFlare.Library CFlare.Network

namespace HeaderLine
variable (m : Memory) (l : HeaderLine)

def behind : Bytes := slice m (l.start + l.col + 1) (l.len - (l.col + 1))

/-- What a line says: the bytes behind its colon, without one space in front of them. -/
def content : Bytes := if (l.behind m).head? = some space then (l.behind m).tail else l.behind m

def Spaced : Prop := l.col + 1 < l.len ∧ m (l.start + l.col + 1) = space

instance : Decidable (l.Spaced m) := inferInstanceAs (Decidable (_ ∧ _))

end HeaderLine

/-- The header's value is what its line says, and where the line says it. -/
structure ValueInLine (m : Memory) (l : HeaderLine) (req : Request) (h : RequestHeader) : Prop where
  len : h.valueLen = (l.content m).length
  inside : l.start + l.col < h.value ∧ h.value + h.valueLen = l.stop
  bytes : slice req.buffer h.value h.valueLen = l.content m
  string : stringOf req h.value = some ((l.content m).takeWhile (· ≠ 0))

/-- Moving the authority changes no byte of the value: those that the move reaches are all null, and
so is the byte that comes to the end of an empty value. -/
def Block.Spares (env : Environment) (m : Memory) (k : Block) (l : HeaderLine) : Prop :=
  ∀ hostPart, k.hostPart m = some hostPart →
    (∀ j < l.valueLen, l.value + j ≤ hostPart - 1 + k.hostLen env m → m (l.value + j) = 0) ∧
      (l.valueLen = 0 → l.value < hostPart - 1 + k.hostLen env m → k.memory m (l.value + 1) = 0)

section Lines
variable {m : Memory} {n p q i : Nat} {lines : List HeaderLine} {l : HeaderLine}

theorem Lines.cuts_inside (h : Lines m n p lines q) (hl : l ∈ lines) (hlow : l.start ≤ i) (hup : i < l.next) :
    i ∈ cuts lines ↔ i = l.start + l.col ∨ i = l.stop := by
  induction h with
  | nil p => cases hl
  | @cons head lines q here rest ih =>
    have hcons : i ∈ cuts (head :: lines) ↔ (i = head.start + head.col ∨ i = head.stop) ∨ i ∈ cuts lines := by
      simp [cuts, or_assoc]
    obtain ⟨hcol, hlen, -⟩ := here.inside
    obtain ⟨-, hrest⟩ := rest.bounds
    rw [hcons]
    rcases List.mem_cons.mp hl with rfl | hl
    · have hnone : i ∉ cuts lines := by
        intro hmem
        obtain ⟨l', hl', hcut⟩ := mem_cuts.mp hmem
        have hstart := (hrest l' hl').2.1
        unfold HeaderLine.stop at hcut
        omega
      rw [or_iff_left hnone]
    · have hstart := (hrest l hl).2.1
      have hhead : ¬ (i = head.start + head.col ∨ i = head.stop) := by
        unfold HeaderLine.next at hstart
        unfold HeaderLine.stop
        omega
      rw [or_iff_right hhead]
      exact ih hl

theorem Block.In.memory_inside {k : Block} (h : k.In m n) (hl : l ∈ k.lines) (hlow : l.start ≤ i)
    (hup : i < l.next) : k.memory m i = if i = l.start + l.col ∨ i = l.stop then 0 else m i := by
  obtain ⟨-, hlines⟩ := h.chain.bounds
  obtain ⟨-, hstart, hnext⟩ := hlines l hl
  have hzeros := k.zeros_behind m (hstart.trans hlow)
  rw [h.chain.cuts_inside hl hlow hup, or_iff_left (by omega)] at hzeros
  rw [Block.memory]
  congr 1
  exact propext hzeros

end Lines

section Moved
variable {M m : Memory} {low last v count : Nat}

/-- A move over a range that ends at a null byte keeps it if what it reaches is null. -/
theorem pulled_keeps_iff (hlow : low ≤ v) (hbytes : ∀ j < count, M (v + j) = m (v + j)) (hend : M (v + count) = 0) :
    (∀ j < count, pulled M low last (v + j) = m (v + j)) ↔ ∀ j < count, v + j ≤ last → m (v + j) = 0 := by
  have hnext : ∀ j < count, (j + 1 < count → M (v + j + 1) = m (v + j + 1)) ∧
      (¬ j + 1 < count → M (v + j + 1) = 0) := by
    intro j hj
    refine ⟨fun h => hbytes (j + 1) h, fun h => ?_⟩
    rw [← hend]
    congr 1
    omega
  constructor
  · intro h j hj hlast
    -- from the range's end downwards
    induction hd : count - j generalizing j with
    | zero => omega
    | succ d ih =>
      have hkeep := h j hj
      rcases Nat.eq_or_lt_of_le hlast with heq | hlt
      · rw [← hkeep, heq, pulled_last]
      · rw [← hkeep, pulled_inside (by omega) hlt]
        by_cases hin : j + 1 < count
        · rw [(hnext j hj).1 hin]
          exact ih (j + 1) hin hlt (by omega)
        · exact (hnext j hj).2 hin
  · intro h j hj
    rcases Nat.lt_trichotomy last (v + j) with hbehind | rfl | hinside
    · rw [pulled_behind hbehind, hbytes j hj]
    · rw [pulled_last, h j hj (Nat.le_refl _)]
    · rw [pulled_inside (by omega) hinside, h j hj hinside.le]
      by_cases hin : j + 1 < count
      · rw [(hnext j hj).1 hin]
        exact h (j + 1) hin hinside
      · exact (hnext j hj).2 hin

end Moved

section Values
variable {m : Memory} {n : Nat} {l : HeaderLine}

theorem HeaderLine.Spaced.value (h : l.Spaced m) (hl : l.len < sizeLimit) :
    l.valueLen = l.len - (l.col + 1 + 1) ∧ l.value + l.valueLen = l.stop ∧
      l.content m = slice m l.value l.valueLen := by
  obtain ⟨hlt, hspace⟩ := h
  have hlen : l.valueLen = l.len - (l.col + 1 + 1) := sizeSub_of_le (by omega) hl
  refine ⟨hlen, ?_, ?_⟩
  · rw [hlen]
    unfold HeaderLine.value HeaderLine.stop valueStart
    omega
  · obtain ⟨rest, hrest⟩ : ∃ rest, l.len - (l.col + 1) = rest + 1 := ⟨l.len - (l.col + 1) - 1, by omega⟩
    have hbehind : l.behind m = space :: slice m l.value rest := by
      rw [HeaderLine.behind, hrest, slice, hspace]
      rfl
    have hcount : l.len - (l.col + 1 + 1) = rest := by omega
    rw [HeaderLine.content, hbehind, if_pos List.head?_cons, hlen, hcount]
    rfl

theorem HeaderLine.At.unspaced (h : l.At m n) (hl : l.len < sizeLimit - 1) (hs : ¬ l.Spaced m) :
    l.valueLen ≠ (l.content m).length := by
  have hcol := h.inside.1
  have hlength : (l.behind m).length = l.len - (l.col + 1) := slice_length _ _ _
  have hcontent : (l.content m).length = l.len - (l.col + 1) := by
    rw [HeaderLine.content, if_neg, hlength]
    intro hhead
    rcases Nat.lt_or_ge (l.col + 1) l.len with hlt | hge
    · obtain ⟨rest, hrest⟩ : ∃ rest, l.len - (l.col + 1) = rest + 1 := ⟨l.len - (l.col + 1) - 1, by omega⟩
      rw [HeaderLine.behind, hrest, slice, List.head?_cons] at hhead
      exact hs ⟨hlt, Option.some.inj hhead⟩
    · rw [HeaderLine.behind, Nat.sub_eq_zero_of_le hge] at hhead
      cases hhead
  rw [hcontent]
  change sizeSub l.len (l.col + 1 + 1) ≠ _
  rcases Nat.lt_or_ge l.len (l.col + 1 + 1) with hshort | hlong
  · rw [sizeSub_of_lt hshort (by omega)]
    omega
  · rw [sizeSub_of_le hlong (by omega)]
    omega

variable {env : Environment} {k : Block} {req : Request} {h : RequestHeader}

theorem Block.hostPart_lt {p : Nat} (h : k.hostPart m = some p) : p ≤ k.pathStart + k.path := by
  unfold Block.hostPart at h
  split at h
  · obtain ⟨protocol, hp, rfl⟩ := Option.map_eq_some_iff.mp h
    have hle : protocol + 3 ≤ (k.pathText m).length := occurrence_le hp
    have htext : (k.pathText m).length ≤ (slice m k.pathStart (k.pathLen m)).length :=
      (List.takeWhile_prefix _).length_le
    rw [slice_length] at htext
    have hpath := k.pathLen_le m
    omega
  · cases h

private theorem string_empty_iff {B : Memory} {v room : Nat} (hr : 0 < room) :
    cstring B v room = some [] ↔ B v = 0 := by
  refine ⟨fun h => ?_, fun h => cstring_of_slice [] rfl List.not_mem_nil h hr⟩
  obtain ⟨room, rfl⟩ := Nat.exists_eq_succ_of_ne_zero hr.ne'
  rw [cstring] at h
  split at h
  · next h0 => exact h0
  · obtain ⟨rest, -, hcons⟩ := Option.map_eq_some_iff.mp h
    cases hcons

private theorem value_memory (hin : k.In m n) (hn : n < requestMaxLength) (hl : l ∈ k.lines) (hs : l.Spaced m) :
    (∀ j < l.valueLen, k.memory m (l.value + j) = m (l.value + j)) ∧ k.memory m (l.value + l.valueLen) = 0 := by
  have hmax : requestMaxLength < sizeLimit := by decide
  obtain ⟨-, hlines⟩ := hin.chain.bounds
  obtain ⟨hcol, hpos, hnext⟩ := (hlines l hl).1.inside
  have hstart : l.value = l.start + l.col + 1 + 1 := rfl
  have hline : l.stop = l.start + l.len := rfl
  have hbehind : l.next = l.start + l.pos + 1 := rfl
  obtain ⟨-, hstop, -⟩ := hs.value (by omega)
  constructor
  · intro j hj
    rw [hin.memory_inside hl (by omega) (by omega), if_neg (by omega)]
  · rw [hin.memory_inside hl (by omega) (by omega), if_pos (.inr hstop)]

private theorem value_of_bytes (hin : k.In m n) (hn : n < requestMaxLength) (hl : l ∈ k.lines) (hs : l.Spaced m)
    (hv : h.value = l.value) (hlen : h.valueLen = l.valueLen)
    (hbytes : ∀ j < l.valueLen, req.buffer (l.value + j) = m (l.value + j))
    (hend : req.buffer (l.value + l.valueLen) = 0 ∨ 0 < l.valueLen ∧ m l.value = 0) : ValueInLine m l req h := by
  have hmax : requestMaxLength < sizeLimit := by decide
  obtain ⟨-, hlines⟩ := hin.chain.bounds
  obtain ⟨hcol, hpos, hnext⟩ := (hlines l hl).1.inside
  obtain ⟨-, hstop, hcontent⟩ := hs.value (by unfold HeaderLine.next at hnext; omega)
  have hcount : (l.content m).length = l.valueLen := by rw [hcontent, slice_length]
  have hstart : l.value = l.start + l.col + 1 + 1 := rfl
  have hline : l.stop = l.start + l.len := rfl
  have hbehind : l.next = l.start + l.pos + 1 := rfl
  have hslice : slice req.buffer l.value (l.content m).length = l.content m := by
    rw [hcount, hcontent]
    apply slice_congr
    intro i hi hu
    obtain ⟨j, rfl⟩ := Nat.exists_eq_add_of_le hi
    exact hbytes j (by omega)
  refine ⟨hlen.trans hcount.symm, ⟨by omega, by omega⟩, ?_, ?_⟩
  · rw [hv, hlen, ← hcount]
    exact hslice
  · rw [stringOf, hv]
    rcases hend with hend | ⟨hpositive, hnull⟩
    · apply cstring_takeWhile (l.content m) hslice
      · rw [hcount]
        exact hend
      · omega
    · have hfirst : req.buffer l.value = 0 := (hbytes 0 hpositive).trans hnull
      obtain ⟨count, hcount'⟩ : ∃ count, l.valueLen = count + 1 := ⟨l.valueLen - 1, by omega⟩
      rw [(string_empty_iff (by omega)).mpr hfirst, hcontent, hcount', slice, hnull,
        List.takeWhile_cons_of_neg (by decide)]

private theorem value_moved_iff (hin : k.In m n) (hn : n < requestMaxLength) (hl : l ∈ k.lines) (hs : l.Spaced m)
    (hv : h.value = l.value) (hlen : h.valueLen = l.valueLen) {p : Nat} (hp : k.hostPart m = some p)
    (hmoved : req.buffer = pulled (k.memory m) (p - 1) (p - 1 + k.hostLen env m)) :
    ValueInLine m l req h ↔ k.Spares env m l := by
  obtain ⟨hbytes, hend⟩ := value_memory hin hn hl hs
  obtain ⟨-, hlines⟩ := hin.chain.bounds
  obtain ⟨hat, hfirst, hlast⟩ := hlines l hl
  have hinside := hat.inside
  have hstart : l.value = l.start + l.col + 1 + 1 := rfl
  have hnext : l.next = l.start + l.pos + 1 := rfl
  have hlow : p - 1 ≤ l.value := by
    have hle := Block.hostPart_lt hp
    have hline : k.firstLine = k.pathStart + k.path + 1 + k.version + 1 := rfl
    omega
  have hkeeps : (∀ j < l.valueLen, pulled (k.memory m) (p - 1) (p - 1 + k.hostLen env m) (l.value + j) = _) ↔ _ :=
    pulled_keeps_iff hlow hbytes hend
  rw [← hmoved] at hkeeps
  constructor
  · intro hvalue hostPart hsome
    obtain rfl := Option.some.inj (hp.symm.trans hsome)
    have hmax : requestMaxLength < sizeLimit := by decide
    obtain ⟨-, -, hcontent⟩ := hs.value (by omega)
    refine ⟨hkeeps.mp fun j hj => ?_, fun hzero hreached => ?_⟩
    · have hslice := hvalue.bytes
      rw [hv, hlen, hcontent] at hslice
      have hbyte := slice_getElem? req.buffer l.value l.valueLen j hj
      rw [hslice, slice_getElem? m l.value l.valueLen j hj] at hbyte
      exact (Option.some.inj hbyte).symm
    · have hstring := hvalue.string
      rw [hcontent, hzero, slice_zero, List.takeWhile_nil, stringOf, hv, string_empty_iff (by omega)] at hstring
      rw [← hstring, hmoved, pulled_inside hlow hreached]
  · intro hspares
    obtain ⟨hnull, hempty⟩ := hspares p hp
    apply value_of_bytes hin hn hl hs hv hlen (hkeeps.mpr hnull)
    rcases Nat.lt_or_ge (p - 1 + k.hostLen env m) l.value with hlt | hge
    · left
      rw [hmoved, pulled_behind (by omega)]
      exact hend
    rcases Nat.eq_zero_or_pos l.valueLen with hzero | hpositive
    · left
      rw [hmoved, hzero, Nat.add_zero]
      rcases Nat.eq_or_lt_of_le hge with heq | hlt
      · rw [heq, pulled_last]
      · rw [pulled_inside hlow hlt]
        exact hempty hzero hlt
    · exact .inr ⟨hpositive, hnull 0 hpositive hge⟩

/-- A recorded value is in its line exactly when a space is behind the colon and the move of the
authority, if any, spares it. -/
theorem value_in_line_iff (hin : k.In m n) (hn : n < requestMaxLength) (hl : l ∈ k.lines)
    (hbuffer : req.buffer = k.handed env m) (hv : h.value = l.value) (hlen : h.valueLen = l.valueLen) :
    ValueInLine m l req h ↔ l.Spaced m ∧ k.Spares env m l := by
  have hmax : requestMaxLength < sizeLimit - 1 := by decide
  obtain ⟨-, hlines⟩ := hin.chain.bounds
  obtain ⟨hat, -, -⟩ := hlines l hl
  obtain ⟨-, hpos, hnext⟩ := hat.inside
  have hbehind : l.next = l.start + l.pos + 1 := rfl
  by_cases hs : l.Spaced m
  swap
  · constructor
    · intro hvalue
      exact absurd (hlen.symm.trans hvalue.len) (hat.unspaced (by omega) hs)
    · rintro ⟨hspaced, -⟩
      exact absurd hspaced hs
  rw [and_iff_right hs]
  rw [Block.handed] at hbuffer
  cases hp : k.hostPart m with
  | none =>
    rw [hp, Option.elim_none] at hbuffer
    obtain ⟨hbytes, hend⟩ := value_memory hin hn hl hs
    refine iff_of_true (value_of_bytes hin hn hl hs hv hlen (hbuffer ▸ hbytes) (.inl (hbuffer ▸ hend))) ?_
    intro hostPart hsome
    rw [hp] at hsome
    cases hsome
  | some p =>
    rw [hp, Option.elim_some] at hbuffer
    exact value_moved_iff hin hn hl hs hv hlen hp hbuffer

end Values

/-- The header lines under names that the table knows. -/
def Block.recorded (env : Environment) (m : Memory) (k : Block) : List HeaderLine :=
  k.lines.filter (HeaderLine.known env m)

/-- The recorded headers are those lines, one for one, each with the value that its line says. -/
def HeadersInLines (env : Environment) (m : Memory) (k : Block) (req : Request) : Prop :=
  List.Forall₂ (fun l h => h.header = env.table.header (l.key m) ∧ ValueInLine m l req h) (k.recorded env m) req.headers

section Arrival
variable {env : Environment} {req req' : Request} {sock sock' : Socket} {bytes : Bytes} {st : HeaderScan}

private theorem Arrived.values (h : Arrived env req sock bytes st req' sock') :
    ∃ k : Block, k.In (filled req bytes).buffer bytes.length ∧
      (HeadersInLines env (filled req bytes).buffer k req' ↔
        ∀ l ∈ k.recorded env (filled req bytes).buffer,
          l.Spaced (filled req bytes).buffer ∧ k.Spares env (filled req bytes).buffer l) := by
  obtain ⟨k, st0, hparsed, hversion⟩ := h.headerBlock
  obtain ⟨hbuffer, hheaders, -⟩ := hparsed.handed h.short.le hversion
  refine ⟨k, hparsed.block, ?_⟩
  have hrequest : req'.buffer = k.handed env (filled req bytes).buffer := by
    rw [h.finished]
    exact hbuffer
  have hall : req'.headers = (k.recorded env (filled req bytes).buffer).map
      (HeaderLine.recorded env (filled req bytes).buffer) := by
    rw [h.finished]
    exact hheaders.trans hparsed.headers
  rw [HeadersInLines, hall, List.forall₂_map_right_iff, List.forall₂_same]
  apply forall₂_congr
  intro l hl
  have hmem := (List.mem_filter.mp hl).1
  have hiff : ValueInLine (filled req bytes).buffer l req' (l.recorded env (filled req bytes).buffer) ↔ _ :=
    value_in_line_iff hparsed.block h.short hmem hrequest rfl rfl
  rw [← hiff]
  exact ⟨fun hvalue => hvalue.2, fun hvalue => ⟨rfl, hvalue⟩⟩

/-- The values of a request that reaches the hook are in their lines exactly when each recorded line
has a space behind its colon, and the move of an authority spares them. -/
theorem header_values_iff (env : Environment) (req : Request) (hw : sock.WellFormed)
    (h : requestArrive env req sock = .ok (.ready req' sock')) :
    ∃ bytes k, Received sock bytes sock' ∧ k.In (filled req bytes).buffer bytes.length ∧
      (HeadersInLines env (filled req bytes).buffer k req' ↔
        ∀ l ∈ k.recorded env (filled req bytes).buffer,
          l.Spaced (filled req bytes).buffer ∧ k.Spares env (filled req bytes).buffer l) := by
  obtain ⟨bytes, st, harrived⟩ := requestArrive_ready hw h
  obtain ⟨k, hin, hiff⟩ := harrived.values
  exact ⟨bytes, k, harrived.toReceived, hin, hiff⟩

end Arrival

/-- A host header with no space behind its colon. -/
def unspacedText : Bytes := ascii "G / HTTP/1.1\nHost:v\n\n"

def unspacedBlock : Block := ⟨1, 1, 8, [⟨13, 6, 6, 4⟩], 20⟩

def unspacedSocket : Socket := socketNew 3 [] 80 ⟨unspacedText, [.deliver 21], [], []⟩

private theorem unspaced_in : unspacedBlock.In (filled requestNew unspacedText).buffer unspacedText.length := by
  have hfresh : (filled requestNew unspacedText).buffer 13 ≠ space ∧ (filled requestNew unspacedText).buffer 13 ≠ tab := by
    decide
  have hline : HeaderLine.At (filled requestNew unspacedText).buffer unspacedText.length ⟨13, 6, 6, 4⟩ :=
    ⟨rfl, rfl, hfresh, rfl⟩
  exact ⟨⟨rfl, rfl, rfl⟩, .cons hline (.nil 20), 0, rfl, rfl⟩

private theorem unspaced_named (name : Bytes) :
    HeaderLine.known plainEnvironment (filled requestNew unspacedText).buffer ⟨13, 6, 6, 4⟩ = true ∧
      HeaderLine.named plainEnvironment (filled requestNew unspacedText).buffer name ⟨13, 6, 6, 4⟩ =
        decide (NameIs (ascii "Host") name) := by
  have hkey : HeaderLine.key (filled requestNew unspacedText).buffer ⟨13, 6, 6, 4⟩ = ascii "Host" := rfl
  exact named_of_key hkey (by simp [commonNames]) name

private theorem unspaced_arrived : ∃ st req' sock',
    requestArrive plainEnvironment requestNew unspacedSocket = .ok (.ready req' sock') ∧
      Arrived plainEnvironment requestNew unspacedSocket unspacedText st req' sock' := by
  have hreads : Fragmented unspacedSocket unspacedText := ⟨rfl, ⟨rfl, rfl⟩, rfl, [21], [], rfl, by decide, rfl⟩
  have hhost : unspacedBlock.hostLine plainEnvironment (filled requestNew unspacedText).buffer ≠ none := by
    have hnamed := (unspaced_named (ascii "Host")).2
    rw [decide_eq_true (show NameIs (ascii "Host") (ascii "Host") from rfl)] at hnamed
    rw [Block.hostLine, lastNamed, unspacedBlock, List.filter_cons_of_pos hnamed]
    exact Option.some_ne_none _
  exact unspaced_in.arrives hreads rfl (by decide) (by decide) ⟨rfl, rfl⟩ hhost (by decide) (by decide)

/-- The byte behind the colon is taken for a space, and the value is empty. -/
theorem unspaced_value_lost : ∃ req' sock',
    requestArrive plainEnvironment requestNew unspacedSocket = .ok (.ready req' sock') ∧
      unspacedBlock.In (filled requestNew unspacedText).buffer unspacedText.length ∧
      HeaderLine.content (filled requestNew unspacedText).buffer ⟨13, 6, 6, 4⟩ = ascii "v" ∧
      ¬ HeadersInLines plainEnvironment (filled requestNew unspacedText).buffer unspacedBlock req' := by
  obtain ⟨st, req', sock', hready, harrived⟩ := unspaced_arrived
  obtain ⟨k, hin, hiff⟩ := harrived.values
  obtain rfl := hin.unique unspaced_in
  refine ⟨req', sock', hready, hin, rfl, fun hvalues => ?_⟩
  have hrecorded : (⟨13, 6, 6, 4⟩ : HeaderLine) ∈
      unspacedBlock.recorded plainEnvironment (filled requestNew unspacedText).buffer :=
    List.mem_filter.mpr ⟨List.mem_cons_self, (unspaced_named []).1⟩
  exact absurd (hiff.mp hvalues _ hrecorded).1 (by decide)

theorem header_values_iff_unspaced : ∃ req' sock' bytes k, Received unspacedSocket bytes sock' ∧
    requestArrive plainEnvironment requestNew unspacedSocket = .ok (.ready req' sock') ∧
      Block.In (filled requestNew bytes).buffer bytes.length k ∧
      (HeadersInLines plainEnvironment (filled requestNew bytes).buffer k req' ↔
        ∀ l ∈ k.recorded plainEnvironment (filled requestNew bytes).buffer,
          l.Spaced (filled requestNew bytes).buffer ∧ k.Spares plainEnvironment (filled requestNew bytes).buffer l) := by
  obtain ⟨st, req', sock', hready, -⟩ := unspaced_arrived
  obtain ⟨bytes, k, hreceived, hin, hiff⟩ :=
    header_values_iff plainEnvironment requestNew (socketNew_wellFormed _ _ _ _) hready
  exact ⟨req', sock', bytes, k, hreceived, hready, hin, hiff⟩

end CFlare.Http
