import CFlare.Http.HeaderBlock
import CFlare.Library.Lines

/-! Header lines as a client writes them, and where the parser finds them: each name and each value is
a string of its line. -/
namespace CFlare.Http
open CFlare.Library CFlare.Network

/-- `Name: value`, under any name. -/
structure HeaderItem where
  name : Bytes
  value : Bytes
  lineEnd : LineEnd
  plainName : ∀ b ∈ name, b ≠ colon ∧ b ≠ 0 ∧ isSpace b = false
  plainValue : newline ∉ value ∧ (0 : UInt8) ∉ value
  ended : lineEnd = .plain → value.getLast? ≠ some carriageReturn

namespace HeaderItem
variable (item : HeaderItem)

def content : Bytes := item.name ++ colon :: space :: item.value
def line : Bytes := item.content ++ item.lineEnd.mark

end HeaderItem

/-- A line that is not blank: no newline cuts it, and a byte of it is no carriage return. -/
structure NonBlank (line : Bytes) : Prop where
  whole : newline ∉ line
  byte : ∃ b ∈ line, b ≠ carriageReturn

section Lines
variable {m : Memory} {n p : Nat}

/-- Where a line with a newline behind it starts, no blank line is, and a header line has just that length. -/
theorem NonBlank.there {line rest : Bytes} (hline : NonBlank line)
    (hs : slice m p (line ++ newline :: rest).length = line ++ newline :: rest)
    (hn : p + (line ++ newline :: rest).length ≤ n) :
    firstOf m p (n - p) newline = some line.length ∧ ¬ BlankAt m n p := by
  have hpos : firstOf m p (n - p) newline = some line.length :=
    firstOf_longer (firstOf_slice hs hline.whole) (by omega)
  refine ⟨hpos, ?_⟩
  rintro ⟨pos, hpos', hblank⟩
  obtain rfl := Option.some.inj (hpos.symm.trans hpos')
  rw [lineLength_slice (slice_append _ _ hs).1] at hblank
  obtain ⟨b, hb, hreturn⟩ := hline.byte
  unfold stripReturn at hblank
  split at hblank
  · next hlast =>
    obtain ⟨front, rfl⟩ := List.getLast?_eq_some_iff.mp hlast
    rw [List.dropLast_concat, List.length_eq_zero_iff] at hblank
    subst hblank
    exact hreturn (List.mem_singleton.mp hb)
  · rw [List.length_eq_zero_iff.mp hblank] at hb
    cases hb

private theorem joinLines_blockEnd {lines : List Bytes} (h : ∀ line ∈ lines, NonBlank line) (blankEnd : LineEnd) :
    blockEnd 1 (joinLines newline lines ++ (blankEnd.mark ++ [newline])) =
      some (joinLines newline lines ++ (blankEnd.mark ++ [newline])).length := by
  induction lines with
  | nil => cases blankEnd <;> rfl
  | cons line lines ih =>
    obtain ⟨hwhole, b, hb, hreturn⟩ := h line List.mem_cons_self
    have hrest := ih (fun line' hm => h line' (List.mem_cons_of_mem _ hm))
    rw [joinLines_cons, List.append_assoc, List.cons_append, blockEnd_line_of_mem hwhole hb hreturn, hrest,
      Option.map_some]
    congr 1
    simp only [List.length_append, List.length_cons]
    omega

theorem lineThen_blockEnd {method target version : Bytes} {lines : List Bytes} (hmethod : newline ∉ method)
    (htarget : newline ∉ target) (hversion : newline ∉ version) (h : ∀ line ∈ lines, NonBlank line) (blankEnd : LineEnd) :
    blockEnd 0 (lineThen method target version (joinLines newline lines ++ (blankEnd.mark ++ [newline]))) =
      some (lineThen method target version (joinLines newline lines ++ (blankEnd.mark ++ [newline]))).length := by
  have hline : newline ∉ method ++ space :: (target ++ space :: version) := by
    intro hm
    rcases List.mem_append.mp hm with hm | hm
    · exact hmethod hm
    rcases List.mem_cons.mp hm with he | hm
    · exact absurd he (by decide)
    rcases List.mem_append.mp hm with hm | hm
    · exact htarget hm
    rcases List.mem_cons.mp hm with he | hm
    · exact absurd he (by decide)
    · exact hversion hm
  rw [lineThen_eq, blockEnd_line hline, joinLines_blockEnd h, Option.map_some]
  congr 1
  simp only [List.length_append, List.length_cons]
  omega

end Lines

namespace HeaderItem
variable {m : Memory} {n limit p : Nat} (item : HeaderItem)

theorem content_length : item.content.length = item.name.length + 1 + 1 + item.value.length := by
  rw [content, List.length_append, List.length_cons, List.length_cons]
  omega

theorem nonBlank : NonBlank item.line := by
  refine ⟨fun hm => ?_, colon, List.mem_append_left _ (List.mem_append_right _ List.mem_cons_self), by decide⟩
  rcases List.mem_append.mp hm with hm | hm
  · rcases List.mem_append.mp hm with hm | hm
    · exact absurd (item.plainName _ hm).2.2 (by decide)
    rcases List.mem_cons.mp hm with he | hm
    · exact absurd he (by decide)
    rcases List.mem_cons.mp hm with he | hm
    · exact absurd he (by decide)
    · exact item.plainValue.1 hm
  · exact mark_no_newline item.lineEnd hm

theorem strip_line : stripReturn item.line = item.content := by
  cases he : item.lineEnd with
  | withReturn => rw [line, he, LineEnd.mark, stripReturn, List.getLast?_concat, if_pos rfl, List.dropLast_concat]
  | plain =>
    have hlast := item.ended he
    have hcontent : item.content.getLast? ≠ some carriageReturn := by
      rw [content, List.getLast?_append_cons]
      cases hv : item.value with
      | nil => decide
      | cons b value =>
        rw [List.getLast?_cons_cons, List.getLast?_cons_cons, ← hv]
        exact hlast
    rw [line, he, LineEnd.mark, List.append_nil, stripReturn, if_neg hcontent]

/-- Where the parser finds the item, for a line that starts at `p`. -/
def found (p : Nat) : HeaderLine := ⟨p, item.line.length, item.content.length, item.name.length⟩

/-- It finds the name and the value there. -/
structure Found (limit : Nat) (m : Memory) (n : Nat) (l : HeaderLine) (item : HeaderItem) : Prop where
  line : l.At m n
  len : l.len = l.col + 1 + 1 + item.value.length
  key : l.key m = item.name
  bytes : slice m l.value item.value.length = item.value
  text : l.text limit m = some item.value

private theorem fresh (hs : slice m p item.content.length = item.content) : m p ≠ space ∧ m p ≠ tab := by
  unfold content at hs
  cases hn : item.name with
  | nil =>
    rw [hn] at hs
    have hfirst : m p = colon := (List.cons.inj hs).1
    rw [hfirst]
    exact ⟨by decide, by decide⟩
  | cons b name =>
    have hplain := (item.plainName b (by rw [hn]; exact List.mem_cons_self)).2.2
    rw [hn] at hs
    have hfirst : m p = b := (List.cons.inj hs).1
    rw [hfirst]
    constructor
    · rintro rfl
      exact absurd hplain (by decide)
    · rintro rfl
      exact absurd hplain (by decide)

theorem found_at {rest : Bytes} (hs : slice m p (item.line ++ newline :: rest).length = item.line ++ newline :: rest)
    (hn : p + (item.line ++ newline :: rest).length ≤ n) (hlimit : n ≤ limit) : item.Found limit m n (item.found p) := by
  have hcontent := item.content_length
  have hline := (slice_append _ _ hs).1
  have htext : slice m p item.content.length = item.content := (slice_append _ _ hline).1
  have hsplit : slice m p (item.name ++ colon :: space :: item.value).length = item.name ++ colon :: space :: item.value :=
    htext
  obtain ⟨hname, -, hbehind⟩ := slice_append_cons _ _ hsplit
  have hvalue := (List.cons.inj hbehind).2
  have hlonger : item.content.length ≤ item.line.length := by
    rw [line, List.length_append]
    exact Nat.le_add_right _ _
  have hwhole : (item.line ++ newline :: rest).length = item.line.length + 1 + rest.length := by
    rw [List.length_append, List.length_cons]
    omega
  refine ⟨⟨(item.nonBlank.there hs hn).1, ?_, item.fresh htext, ?_⟩, hcontent, ?_, hvalue, ?_⟩
  · rw [found]
    dsimp only
    rw [lineLength_slice hline, item.strip_line]
  · exact firstOf_slice htext (fun hm => (item.plainName colon hm).1 rfl)
  · rw [HeaderLine.key, found]
    dsimp only
    rw [hname, List.takeWhile_eq_self_iff]
    exact fun b hb => decide_eq_true (item.plainName b hb).2.1
  · have hstart : (item.found p).value = p + item.name.length + 1 + 1 := rfl
    have hstop : (item.found p).stop = p + item.content.length := rfl
    rw [HeaderLine.text]
    apply cstring_of_slice item.value _ item.plainValue.2
    · have hend : (item.found p).value + item.value.length = (item.found p).stop := by omega
      rw [hend, Function.update_self]
    · omega
    · rw [hstart, slice_congr (fun i hi hu => Function.update_of_ne (by omega) _ _)]
      exact hvalue

/-- The items are the lines up to the blank one. -/
theorem items_lines {items : List HeaderItem} {blankEnd : LineEnd}
    (hs : slice m p (joinLines newline (items.map line) ++ (blankEnd.mark ++ [newline])).length =
      joinLines newline (items.map line) ++ (blankEnd.mark ++ [newline]))
    (hn : p + (joinLines newline (items.map line) ++ (blankEnd.mark ++ [newline])).length ≤ n) (hlimit : n ≤ limit) :
    ∃ lines q, Lines m n p lines q ∧ BlankAt m n q ∧ List.Forall₂ (Found limit m n) lines items := by
  induction items generalizing p with
  | nil =>
    change slice m p (blankEnd.mark ++ newline :: []).length = blankEnd.mark ++ newline :: [] at hs
    change p + (blankEnd.mark ++ newline :: []).length ≤ n at hn
    have hpos : firstOf m p (n - p) newline = some blankEnd.mark.length :=
      firstOf_longer (firstOf_slice hs (mark_no_newline blankEnd)) (by omega)
    refine ⟨[], p, .nil p, ⟨blankEnd.mark.length, hpos, ?_⟩, .nil⟩
    rw [lineLength_slice (slice_append _ _ hs).1]
    cases blankEnd <;> rfl
  | cons item items ih =>
    rw [List.map_cons, joinLines_cons, List.append_assoc, List.cons_append] at hs hn
    have hfound := item.found_at hs hn hlimit
    have hbehind := (slice_append_cons _ _ hs).2.2
    have hnext : (item.found p).next = p + item.line.length + 1 := rfl
    rw [← hnext] at hbehind
    rw [List.length_append, List.length_cons] at hn
    obtain ⟨lines, q, hchain, hblank, hall⟩ := ih hbehind (by omega)
    exact ⟨item.found p :: lines, q, .cons hfound.line hchain, hblank, .cons hfound hall⟩

end HeaderItem

/-- The smallest header that a host is asked with. -/
def hostItem : HeaderItem where
  name := ascii "Host"
  value := ascii "a"
  lineEnd := .plain
  plainName := host_plain
  plainValue := by decide
  ended := fun _ => by decide

end CFlare.Http
