import CFlare.Http.HttpStatus
import CFlare.Library.Lines

/-! The header files. They are read piece by piece: a line of 1023 characters or more comes in several of them, and each
is parsed as if it was a line. -/
namespace CFlare.Http
open CFlare.Library

/-- A file that cannot be opened is skipped with a warning. -/
def parseFile (table : GlobalTable) : Option Bytes → Except Fault GlobalTable
  | none => .ok table
  | some file => (fgetsLines file []).foldlM (fun table line => parseLine table (buffString line)) table

def createdNames (file : Bytes) : List CString := (fgetsLines file []).filterMap (fun line => lineName (buffString line))

theorem parseFile_created (table : GlobalTable) (file : Bytes) :
    parseFile table (some file) = (createdNames file).foldlM createHeader table := by
  have hlines := parseLines_eq ((fgetsLines file []).map buffString) table
  rw [List.foldlM_map, List.filterMap_map] at hlines
  exact hlines

/-- The name on a line: its first word in front of a comment, if that has at most 64 characters. -/
def lineToken (line : Bytes) : Option Bytes :=
  if headerWord line ≠ [] ∧ (headerWord line).length ≤ maxHeaderLength then some (headerWord line) else none

def listedNames (file : Bytes) : List Bytes := (file.splitOn 10).filterMap lineToken

def pieceNames (file : Bytes) : List Bytes := (fgetsLines file []).filterMap lineToken

def isWord (b : UInt8) : Bool := !isSpace b && b ≠ 35

/-- A place in a line that cuts its first word in two, of which the first part would do for a name. -/
def CutsWord (line : Bytes) (p : Nat) : Prop :=
  let word := (line.take p).dropWhile isSpace
  word ≠ [] ∧ word.length ≤ maxHeaderLength ∧ (∀ b ∈ word, isWord b = true) ∧ ∃ b ∈ (line.drop p).head?, isWord b = true

/-- A place where a line may be cut: nothing but blanks is in front of it, or the piece behind it has no name in it and
no word is cut. -/
def CutWell (line : Bytes) (p : Nat) : Prop :=
  (∀ b ∈ line.take p, isSpace b = true) ∨ lineToken ((line.drop p).take (maxLineLength - 1)) = none ∧ ¬ CutsWord line p

section Words
variable {front rest line : Bytes}

/-- The first word of a line is behind its blanks, and ends at a blank or a comment. -/
theorem headerWord_eq (line : Bytes) : headerWord line = (line.dropWhile isSpace).takeWhile isWord := by
  induction line with
  | nil => rfl
  | cons b line ih =>
    rw [headerWord]
    by_cases hb : isSpace b = true
    · have hne : b ≠ 35 := by
        rintro rfl
        exact absurd hb (by decide)
      rw [List.takeWhile_cons_of_pos (by simpa using hne), List.dropWhile_cons_of_pos hb, List.dropWhile_cons_of_pos hb]
      exact ih
    · rw [List.dropWhile_cons_of_neg hb]
      by_cases hhash : b = 35
      · subst hhash
        rfl
      · have hword : (fun a => decide ((!isSpace a) = true ∧ decide (a ≠ 35) = true)) = isWord := by
          funext a
          simp [isWord]
        have hcut : (b :: line).takeWhile (fun x => decide (x ≠ 35)) = b :: line.takeWhile (fun x => decide (x ≠ 35)) :=
          List.takeWhile_cons_of_pos (by simpa using hhash)
        rw [hcut, List.dropWhile_cons_of_neg hb, ← hcut, List.takeWhile_takeWhile, hword]

theorem headerWord_blank (h : ∀ b ∈ front, isSpace b = true) (rest : Bytes) :
    headerWord (front ++ rest) = headerWord rest := by
  rw [headerWord_eq, headerWord_eq, List.dropWhile_append_of_pos h]

theorem lineToken_blank (h : ∀ b ∈ front, isSpace b = true) (rest : Bytes) :
    lineToken (front ++ rest) = lineToken rest := by
  rw [lineToken, headerWord_blank h, lineToken]

/-- The blanks of a text end in it unless it is nothing else. -/
theorem dropWhile_append_of_visible (h : ¬ ∀ b ∈ front, isSpace b = true) (rest : Bytes) :
    (front ++ rest).dropWhile isSpace = front.dropWhile isSpace ++ rest := by
  rw [List.dropWhile_append, if_neg]
  simpa using h

/-- A word that ends in the front of a line is all of its word. -/
theorem headerWord_ends (h : ¬ ∀ b ∈ front, isSpace b = true) (hend : ¬ ∀ b ∈ front.dropWhile isSpace, isWord b = true)
    (rest : Bytes) : headerWord (front ++ rest) = headerWord front := by
  have hpart : ((front.dropWhile isSpace).takeWhile isWord).length ≠ (front.dropWhile isSpace).length := by
    intro hall
    have heq := (List.takeWhile_prefix isWord).eq_of_length hall
    exact hend fun b hb => List.mem_takeWhile_imp (heq ▸ hb)
  rw [headerWord_eq, headerWord_eq, dropWhile_append_of_visible h, List.takeWhile_append, if_neg hpart]

/-- One that runs to the end of the front goes on behind it. -/
theorem headerWord_runs (h : ¬ ∀ b ∈ front, isSpace b = true) (hrun : ∀ b ∈ front.dropWhile isSpace, isWord b = true)
    (rest : Bytes) : headerWord (front ++ rest) = front.dropWhile isSpace ++ rest.takeWhile isWord := by
  rw [headerWord_eq, dropWhile_append_of_visible h, List.takeWhile_append_of_pos hrun]

theorem headerWord_of_blank (h : ∀ b ∈ front, isSpace b = true) : headerWord front = [] := by
  have hnil := headerWord_blank h []
  rw [List.append_nil] at hnil
  exact hnil

theorem headerWord_of_runs (h : ¬ ∀ b ∈ front, isSpace b = true) (hrun : ∀ b ∈ front.dropWhile isSpace, isWord b = true) :
    headerWord front = front.dropWhile isSpace := by
  have hnil := headerWord_runs h hrun []
  rw [List.append_nil, List.takeWhile_nil, List.append_nil] at hnil
  exact hnil

theorem takeWhile_isWord_nil : rest.takeWhile isWord = [] ↔ ¬ ∃ b ∈ rest.head?, isWord b = true := by
  cases rest with
  | nil => simp
  | cons b rest => simp [List.takeWhile_cons]

theorem lineToken_newline (line : Bytes) : lineToken (line ++ [10]) = lineToken line := by
  have hword : headerWord (line ++ [10]) = headerWord line := by
    by_cases h : ∀ b ∈ line, isSpace b = true
    · rw [headerWord_blank h, headerWord_of_blank h]
      rfl
    · by_cases hrun : ∀ b ∈ line.dropWhile isSpace, isWord b = true
      · rw [headerWord_runs h hrun, headerWord_of_runs h hrun]
        exact List.append_nil _
      · exact headerWord_ends h hrun [10]
  rw [lineToken, hword, lineToken]

theorem cutsWord_append : CutsWord (front ++ rest) front.length ↔
    front.dropWhile isSpace ≠ [] ∧ (front.dropWhile isSpace).length ≤ maxHeaderLength ∧
      (∀ b ∈ front.dropWhile isSpace, isWord b = true) ∧ ∃ b ∈ rest.head?, isWord b = true := by
  rw [CutsWord, List.take_left, List.drop_left]

/-- The front of a line has the name of the line unless it cuts the word. -/
theorem lineToken_front (h : ¬ ∀ b ∈ front, isSpace b = true) :
    lineToken front = lineToken (front ++ rest) ↔ ¬ CutsWord (front ++ rest) front.length := by
  by_cases hrun : ∀ b ∈ front.dropWhile isSpace, isWord b = true
  · have hvisible : front.dropWhile isSpace ≠ [] := fun hnil => h (List.dropWhile_eq_nil_iff.mp hnil)
    rw [cutsWord_append, lineToken, lineToken, headerWord_of_runs h hrun, headerWord_runs h hrun]
    by_cases hshort : (front.dropWhile isSpace).length ≤ maxHeaderLength
    · rw [if_pos ⟨hvisible, hshort⟩]
      by_cases hnext : ∃ b ∈ rest.head?, isWord b = true
      · refine iff_of_false (fun heq => ?_) fun hfree => hfree ⟨hvisible, hshort, hrun, hnext⟩
        have hmore : rest.takeWhile isWord ≠ [] := fun hnil => takeWhile_isWord_nil.mp hnil hnext
        split at heq
        · exact hmore (List.self_eq_append_right.mp (Option.some.inj heq))
        · cases heq
      · rw [takeWhile_isWord_nil.mpr hnext, List.append_nil, if_pos ⟨hvisible, hshort⟩]
        exact iff_of_true rfl fun hcuts => hnext hcuts.2.2.2
    · have hlong : ¬ (front.dropWhile isSpace ++ rest.takeWhile isWord).length ≤ maxHeaderLength := by
        rw [List.length_append]
        omega
      rw [if_neg fun hboth => hshort hboth.2, if_neg fun hboth => hlong hboth.2]
      exact iff_of_true rfl fun hcuts => hshort hcuts.2.1
  · refine iff_of_true ?_ fun hcuts => hrun (cutsWord_append.mp hcuts).2.2.1
    rw [lineToken, lineToken, headerWord_ends h hrun]

theorem lineToken_front_none (h : ¬ ∀ b ∈ front, isSpace b = true) (hnone : lineToken front = none) :
    lineToken (front ++ rest) = none := by
  by_cases hcuts : CutsWord (front ++ rest) front.length
  · obtain ⟨hvisible, hshort, hrun, -⟩ := cutsWord_append.mp hcuts
    rw [lineToken, headerWord_of_runs h hrun, if_pos ⟨hvisible, hshort⟩] at hnone
    cases hnone
  · exact ((lineToken_front h).mpr hcuts).symm.trans hnone

end Words

section Pieces
variable {front rest line file : Bytes}

/-- A call of `fgets` goes on until the newline while there is room. -/
theorem fgetsLines_goes (hline : (10 : UInt8) ∉ front) {read : Bytes} (h : read.length + front.length < 1023)
    (file : Bytes) : fgetsLines (front ++ file) read = fgetsLines file (read ++ front) := by
  induction front generalizing read with
  | nil => simp
  | cons b front ih =>
    obtain ⟨hb, hfront⟩ := List.ne_and_not_mem_of_not_mem_cons hline
    rw [List.length_cons] at h
    have hmore : ¬ (b = 10 ∨ read.length + 1 = maxLineLength - 1) := by
      rintro (rfl | hfull)
      · exact hb rfl
      · rw [maxLineLength] at hfull
        omega
    have hlen : (read ++ [b]).length = read.length + 1 := List.length_append
    rw [List.cons_append, fgetsLines, if_neg hmore, ih hfront (by rw [hlen]; omega), List.append_assoc]
    rfl

theorem fgetsLines_full (hline : (10 : UInt8) ∉ front) (h : front.length = 1023) (file : Bytes) :
    fgetsLines (front ++ file) [] = front :: fgetsLines file [] := by
  obtain ⟨b, hsplit⟩ : ∃ b, front = front.dropLast ++ [b] :=
    ⟨_, (List.dropLast_append_getLast (List.ne_nil_of_length_eq_add_one h)).symm⟩
  have hfull : front.dropLast.length + 1 = 1023 := by
    rw [List.length_dropLast, h]
  have hfree : (10 : UInt8) ∉ front.dropLast := fun hm => hline (List.mem_of_mem_dropLast hm)
  rw [hsplit, List.append_assoc, fgetsLines_goes hfree (by simp; omega), List.nil_append, List.singleton_append,
    fgetsLines, if_pos (.inr hfull)]

theorem pieceNames_full (hline : (10 : UInt8) ∉ front) (h : front.length = 1023) (file : Bytes) :
    pieceNames (front ++ file) = (lineToken front).toList ++ pieceNames file := by
  rw [pieceNames, fgetsLines_full hline h, List.filterMap_cons]
  cases lineToken front <;> rfl

theorem pieceNames_short (hline : (10 : UInt8) ∉ line) (h : line.length < 1023) :
    pieceNames line = (lineToken line).toList := by
  have hread : fgetsLines (line ++ []) [] = fgetsLines [] ([] ++ line) := fgetsLines_goes hline (by simpa using h) []
  rw [List.append_nil, List.nil_append, fgetsLines] at hread
  rw [pieceNames, hread]
  by_cases hnil : line = []
  · subst hnil
    rfl
  · rw [if_neg hnil, List.filterMap_cons]
    cases lineToken line <;> rfl

theorem pieceNames_fits (hline : (10 : UInt8) ∉ line) (h : line.length ≤ 1023) :
    pieceNames line = (lineToken line).toList := by
  rcases Nat.lt_or_eq_of_le h with hlt | heq
  · exact pieceNames_short hline hlt
  · have hread := pieceNames_full hline heq []
    rw [List.append_nil] at hread
    rw [hread]
    exact List.append_nil _

theorem pieces_induction {motive : Bytes → Prop} (fits : ∀ line, line.length ≤ 1023 → motive line)
    (long : ∀ front rest, front.length = 1023 → rest ≠ [] → motive rest → motive (front ++ rest)) (line : Bytes) :
    motive line := by
  induction hn : line.length using Nat.strong_induction_on generalizing line with
  | h n ih =>
    rcases Nat.lt_or_ge 1023 line.length with hlt | hle
    · have hfront : (line.take 1023).length = 1023 := List.length_take_of_le (Nat.le_of_lt hlt)
      have hrest : (line.drop 1023).length = line.length - 1023 := List.length_drop
      have hne : line.drop 1023 ≠ [] := List.ne_nil_of_length_pos (by omega)
      have hlong := long _ _ hfront hne (ih _ (by omega) (line.drop 1023) rfl)
      rwa [List.take_append_drop] at hlong
    · exact fits line hle

theorem pieceNames_line (hline : (10 : UInt8) ∉ line) (file : Bytes) :
    pieceNames (line ++ 10 :: file) = pieceNames line ++ pieceNames file := by
  induction line using pieces_induction with
  | fits line h =>
    rw [pieceNames_fits hline h]
    rcases Nat.lt_or_eq_of_le h with hlt | heq
    · rw [pieceNames, fgetsLines_goes hline (by simpa using hlt), List.nil_append, fgetsLines, if_pos (.inl rfl),
        List.filterMap_cons, lineToken_newline]
      cases lineToken line <;> rfl
    · rw [pieceNames_full hline heq, pieceNames, fgetsLines, if_pos (.inl rfl)]
      rfl
  | long front rest h hne ih =>
    have hfront : (10 : UInt8) ∉ front := fun hm => hline (List.mem_append_left _ hm)
    have hrest : (10 : UInt8) ∉ rest := fun hm => hline (List.mem_append_right _ hm)
    rw [List.append_assoc, pieceNames_full hfront h, pieceNames_full hfront h, ih hrest, List.append_assoc]

theorem pieceNames_joinLines {lines : List Bytes} (h : ∀ line ∈ lines, (10 : UInt8) ∉ line) (file : Bytes) :
    pieceNames (joinLines 10 lines ++ file) = lines.flatMap pieceNames ++ pieceNames file := by
  induction lines with
  | nil => rfl
  | cons line lines ih =>
    have hlines := ih fun later hlater => h later (List.mem_cons_of_mem _ hlater)
    rw [joinLines_cons, List.append_assoc, List.cons_append, pieceNames_line (h line List.mem_cons_self), hlines,
      List.flatMap_cons, List.append_assoc]

theorem pieceNames_lines (file : Bytes) : pieceNames file = (file.splitOn 10).flatMap pieceNames := by
  have hjoin : joinLines 10 (file.splitOn 10) = file ++ [10] := joinLines_splitOn file
  obtain ⟨last, hsplit⟩ : ∃ last, file.splitOn 10 = (file.splitOn 10).dropLast ++ [last] :=
    ⟨_, (List.dropLast_append_getLast (List.splitOn_ne_nil 10 file)).symm⟩
  have hfree : ∀ line ∈ (file.splitOn 10).dropLast, (10 : UInt8) ∉ line := fun line hm =>
    not_mem_of_splitOn (List.mem_of_mem_dropLast hm)
  rw [hsplit, joinLines_append, joinLines_cons, joinLines_nil, ← List.append_assoc] at hjoin
  have hfile := List.append_cancel_right hjoin
  rw [hsplit, List.flatMap_append, List.flatMap_singleton, ← pieceNames_joinLines hfree, hfile]

theorem lineToken_length_le (hline : (10 : UInt8) ∉ line) :
    (lineToken line).toList.length ≤ (pieceNames line).length := by
  induction line using pieces_induction with
  | fits line h => rw [pieceNames_fits hline h]
  | long front rest h hne ih =>
    have hfront : (10 : UInt8) ∉ front := fun hm => hline (List.mem_append_left _ hm)
    have hrest := ih fun hm => hline (List.mem_append_right _ hm)
    rw [pieceNames_full hfront h, List.length_append]
    by_cases hblank : ∀ b ∈ front, isSpace b = true
    · rw [lineToken_blank hblank]
      omega
    · cases htoken : lineToken front with
      | none =>
        rw [lineToken_front_none hblank htoken]
        exact Nat.zero_le _
      | some word =>
        have hone : (lineToken (front ++ rest)).toList.length ≤ 1 := by
          cases lineToken (front ++ rest) <;> simp
        rw [Option.toList_some, List.length_singleton]
        omega

theorem front_kept (h : front.length = 1023) (m : Nat) :
    (front ++ rest).take (1023 * (m + 1)) = front ++ rest.take (1023 * m) := by
  rw [show 1023 * (m + 1) = front.length + 1023 * m by omega, List.take_append]
  simp

/-- The first of the pieces is that behind the front, and so on. -/
theorem piece_behind (h : front.length = 1023) (m : Nat) :
    (front ++ rest).drop (1023 * (m + 1)) = rest.drop (1023 * m) := by
  rw [show 1023 * (m + 1) = front.length + 1023 * m by omega, List.drop_append]
  simp

theorem cutWell_blank (hblank : ∀ b ∈ front, isSpace b = true) (h : front.length = 1023) (m : Nat) :
    CutWell (front ++ rest) (1023 * (m + 1)) ↔ CutWell rest (1023 * m) := by
  have hall : (∀ b ∈ front ++ rest.take (1023 * m), isSpace b = true) ↔
      ∀ b ∈ rest.take (1023 * m), isSpace b = true := by
    rw [List.forall_mem_append, and_iff_right hblank]
  rw [CutWell, CutWell, CutsWord, CutsWord, front_kept h, piece_behind h, List.dropWhile_append_of_pos hblank, hall]

/-- A full piece with more than blanks in front of a place leaves no room for a word that the place cuts. -/
theorem cutsWord_late (hvisible : ¬ ∀ b ∈ front, isSpace b = true) (h : front.length = 1023) {m : Nat} (hm : 0 < m)
    (hlong : 1023 * m < rest.length) : ¬ CutsWord (front ++ rest) (1023 * (m + 1)) := by
  rintro ⟨-, hshort, -, -⟩
  rw [front_kept h, dropWhile_append_of_visible hvisible, List.length_append, List.length_take, maxHeaderLength] at hshort
  omega

theorem cutWell_visible (hvisible : ¬ ∀ b ∈ front, isSpace b = true) (h : front.length = 1023) (m : Nat)
    (hlong : 1023 * m < rest.length) : CutWell (front ++ rest) (1023 * (m + 1)) ↔
      lineToken ((rest.drop (1023 * m)).take 1023) = none ∧ (m = 0 → ¬ CutsWord (front ++ rest) front.length) := by
  have hseen : ¬ ∀ b ∈ (front ++ rest).take (1023 * (m + 1)), isSpace b = true := by
    intro hall
    rw [front_kept h] at hall
    exact hvisible fun b hb => hall b (List.mem_append_left _ hb)
  rw [CutWell, or_iff_right hseen, piece_behind h]
  refine and_congr_right fun _ => ?_
  rcases Nat.eq_zero_or_pos m with rfl | hm
  · rw [h]
    simp
  · exact iff_of_true (cutsWord_late hvisible h hm hlong) fun hz => absurd hz (Nat.ne_of_gt hm)

/-- The pieces of a line have no names if none of them has one. -/
theorem pieceNames_eq_nil (hline : (10 : UInt8) ∉ line) :
    pieceNames line = [] ↔ ∀ m, 1023 * m < line.length → lineToken ((line.drop (1023 * m)).take 1023) = none := by
  induction line using pieces_induction with
  | fits line h =>
    rw [pieceNames_fits hline h, Option.toList_eq_nil_iff]
    constructor
    · intro hnone m hm
      obtain rfl : m = 0 := by omega
      rwa [Nat.mul_zero, List.drop_zero, List.take_of_length_le h]
    · intro hall
      by_cases hnil : line = []
      · rw [hnil]
        rfl
      · have hzero := hall 0 (List.length_pos_iff.mpr hnil)
        rwa [Nat.mul_zero, List.drop_zero, List.take_of_length_le h] at hzero
  | long front rest h hne ih =>
    have hfront : (10 : UInt8) ∉ front := fun hm => hline (List.mem_append_left _ hm)
    have hrest := ih fun hm => hline (List.mem_append_right _ hm)
    have hlen : (front ++ rest).length = 1023 + rest.length := by
      rw [List.length_append, h]
    have hzero : ((front ++ rest).drop (1023 * 0)).take 1023 = front := by
      rw [Nat.mul_zero, List.drop_zero, ← h, List.take_left]
    rw [pieceNames_full hfront h, List.append_eq_nil_iff, Option.toList_eq_nil_iff, hrest]
    constructor
    · rintro ⟨hnone, hall⟩ m hm
      cases m with
      | zero => rwa [hzero]
      | succ m =>
        rw [piece_behind h]
        exact hall m (by omega)
    · intro hall
      refine ⟨hzero ▸ hall 0 (by omega), fun m hm => ?_⟩
      have hnone := hall (m + 1) (by omega)
      rwa [piece_behind h] at hnone

/-- A line has its own name and no other one exactly if it is cut well wherever a piece ends in it. -/
theorem pieceNames_eq_iff (hline : (10 : UInt8) ∉ line) : pieceNames line = (lineToken line).toList ↔
    ∀ m, 1023 * (m + 1) < line.length → CutWell line (1023 * (m + 1)) := by
  induction line using pieces_induction with
  | fits line h => exact iff_of_true (pieceNames_fits hline h) fun m hm => absurd hm (by omega)
  | long front rest h hne ih =>
    have hfront : (10 : UInt8) ∉ front := fun hm => hline (List.mem_append_left _ hm)
    have hfree : (10 : UInt8) ∉ rest := fun hm => hline (List.mem_append_right _ hm)
    have hpos : 0 < rest.length := List.length_pos_iff.mpr hne
    have hlen : (front ++ rest).length = 1023 + rest.length := by
      rw [List.length_append, h]
    rw [pieceNames_full hfront h]
    by_cases hblank : ∀ b ∈ front, isSpace b = true
    · have hnone : lineToken front = none := by
        rw [lineToken, headerWord_of_blank hblank, if_neg fun h => h.1 rfl]
      rw [hnone, lineToken_blank hblank, Option.toList_none, List.nil_append, ih hfree]
      constructor
      · intro hall m hm
        rw [cutWell_blank hblank h]
        cases m with
        | zero => exact .inl fun b hb => absurd hb (by simp)
        | succ m => exact hall m (by omega)
      · intro hall m hm
        exact (cutWell_blank hblank h (m + 1)).mp (hall (m + 1) (by omega))
    · have hcond : (∀ m, 1023 * (m + 1) < (front ++ rest).length → CutWell (front ++ rest) (1023 * (m + 1))) ↔
          lineToken front = lineToken (front ++ rest) ∧ pieceNames rest = [] := by
        rw [lineToken_front hblank, pieceNames_eq_nil hfree]
        constructor
        · intro hall
          have hwell := fun m hm => (cutWell_visible hblank h m hm).mp (hall m (by omega))
          exact ⟨(hwell 0 hpos).2 rfl, fun m hm => (hwell m hm).1⟩
        · rintro ⟨huncut, hall⟩ m hm
          exact (cutWell_visible hblank h m (by omega)).mpr ⟨hall m (by omega), fun _ => huncut⟩
      rw [hcond]
      cases htoken : lineToken front with
      | none => rw [lineToken_front_none hblank htoken, Option.toList_none, List.nil_append, and_iff_right rfl]
      | some word =>
        rw [Option.toList_some, List.singleton_append]
        cases lineToken (front ++ rest) with
        | none => simp
        | some whole => simp

end Pieces

section Files
variable {file : Bytes}

theorem lineName_bytes (line : CString) : (lineName line).map CString.bytes = lineToken line.bytes := by
  rw [lineName, lineToken]
  by_cases hfit : (headerWord line.bytes).length ≤ maxHeaderLength
  · rw [dif_pos hfit]
    by_cases hnil : headerWord line.bytes = []
    · rw [if_pos hnil, if_neg fun h => h.1 hnil]
      rfl
    · rw [if_neg hnil, if_pos ⟨hnil, hfit⟩]
      rfl
  · rw [dif_neg hfit, if_neg fun h => hfit h.2]
    rfl

/-- Without null bytes in the file the names created are those on its pieces. -/
theorem createdNames_bytes (h : (0 : UInt8) ∉ file) : (createdNames file).map CString.bytes = pieceNames file := by
  have hflat := (fgetsLines_spec file [] (Nat.succ_pos _)).1
  rw [createdNames, List.map_filterMap, pieceNames]
  refine List.filterMap_congr fun line hline => ?_
  have hfree : ∀ b ∈ line, decide (b ≠ 0) = true := by
    intro b hb
    have hmem := List.mem_flatten_of_mem hline hb
    rw [hflat] at hmem
    refine decide_eq_true ?_
    rintro rfl
    exact h hmem
  rw [lineName_bytes, buffString_read hline, List.takeWhile_eq_self_iff.mpr hfree]

theorem lineToken_comment (text : Bytes) : lineToken (35 :: text) = none := rfl

end Files

/-- The headers created from a file are those that its lines list exactly if each line is cut well wherever the buffer is
full before the line's end. -/
theorem header_files_iff (file : Bytes) (h : (0 : UInt8) ∉ file) :
    (∀ table, parseFile table (some file) = (createdNames file).foldlM createHeader table) ∧
      ((createdNames file).map CString.bytes = listedNames file ↔
        ∀ line ∈ file.splitOn 10, ∀ m, 1023 * (m + 1) < line.length → CutWell line (1023 * (m + 1))) := by
  refine ⟨fun table => parseFile_created table file, ?_⟩
  have hlength : ∀ line ∈ file.splitOn 10, (lineToken line).toList.length ≤ (pieceNames line).length :=
    fun line hline => lineToken_length_le (not_mem_of_splitOn hline)
  have hlisted : listedNames file = (file.splitOn 10).flatMap fun line => (lineToken line).toList :=
    List.filterMap_eq_flatMap_toList ..
  rw [createdNames_bytes h, pieceNames_lines, hlisted, flatMap_eq_iff hlength]
  exact forall₂_congr fun line hline => pieceNames_eq_iff (not_mem_of_splitOn hline)

/-- Two short lines, one of them with a comment. -/
theorem header_files_iff_short :
    (createdNames (ascii "Host # name\n Date\n")).map CString.bytes = listedNames (ascii "Host # name\n Date\n") := by
  have hlines : ∀ line ∈ (ascii "Host # name\n Date\n").splitOn 10, line.length ≤ 11 := by decide
  refine (header_files_iff _ (by decide)).2.mpr fun line hline m hm => ?_
  have hshort := hlines line hline
  omega

/-- A comment that fills the buffer, and what is left of it. -/
theorem header_files_fail :
    (createdNames (List.replicate 1023 35 ++ ascii "Host")).map CString.bytes = [ascii "Host"] ∧
      listedNames (List.replicate 1023 35 ++ ascii "Host") = [] := by
  have hfree : ∀ b : UInt8, b ≠ 35 → b ∉ ascii "Host" → b ∉ List.replicate 1023 35 ++ ascii "Host" := by
    intro b hb hhost hm
    rcases List.mem_append.mp hm with hm | hm
    · exact hb (List.eq_of_mem_replicate hm)
    · exact hhost hm
  have hcomment : (10 : UInt8) ∉ List.replicate 1023 35 := fun hm => absurd (List.eq_of_mem_replicate hm) (by decide)
  constructor
  · rw [createdNames_bytes (hfree 0 (by decide) (by decide)), pieceNames_full hcomment (List.length_replicate ..),
      List.replicate_succ, lineToken_comment, pieceNames_short (by decide) (by decide)]
    decide
  · rw [listedNames, List.splitOn_eq_singleton (hfree 10 (by decide) (by decide)), List.replicate_succ, List.cons_append]
    rfl

end CFlare.Http
