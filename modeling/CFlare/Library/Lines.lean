import CFlare.Library.Machine
import Mathlib.Algebra.Order.BigOperators.Group.List
import Mathlib.Algebra.Order.Group.Nat

/-! Texts made of lines, each with a separator behind it, and how they are read back. -/
namespace CFlare.Library

section Lines
variable {α : Type}

def joinLines (sep : α) (lines : List (List α)) : List α := lines.flatMap (fun line => line ++ [sep])

/-- What is in front of each separator. -/
def splitLines [DecidableEq α] (sep : α) (text : List α) : List (List α) := (text.splitOn sep).dropLast

variable {sep : α}

@[simp] theorem joinLines_nil : joinLines sep [] = [] := rfl

theorem joinLines_cons (line : List α) (lines : List (List α)) :
    joinLines sep (line :: lines) = line ++ sep :: joinLines sep lines := by
  rw [joinLines, List.flatMap_cons, List.append_assoc]
  rfl

theorem joinLines_append (front back : List (List α)) :
    joinLines sep (front ++ back) = joinLines sep front ++ joinLines sep back := List.flatMap_append

variable [DecidableEq α]

theorem splitOn_joinLines {lines : List (List α)} (h : ∀ line ∈ lines, sep ∉ line) (rest : List α) :
    (joinLines sep lines ++ rest).splitOn sep = lines ++ rest.splitOn sep := by
  induction lines with
  | nil => rfl
  | cons line lines ih =>
    have hline := h line List.mem_cons_self
    have hlines := ih (fun line' hm => h line' (List.mem_cons_of_mem _ hm))
    rw [joinLines_cons, List.append_assoc, List.cons_append, List.splitOn_append_cons_self,
      List.splitOn_eq_singleton hline, hlines]
    rfl

/-- A text that is split has a separator behind it when it is joined. -/
theorem joinLines_splitOn (text : List α) : joinLines sep (text.splitOn sep) = text ++ [sep] := by
  induction text with
  | nil => rfl
  | cons a text ih =>
    rw [List.splitOn_cons_eq_if_modifyHead]
    by_cases ha : a = sep
    · rw [if_pos (beq_iff_eq.mpr ha), joinLines_cons, ih, ha]
      rfl
    · rw [if_neg (fun hb => ha (beq_iff_eq.mp hb))]
      obtain ⟨line, lines, hsplit⟩ := List.exists_cons_of_ne_nil (List.splitOn_ne_nil sep text)
      rw [hsplit, joinLines_cons] at ih
      rw [hsplit, List.modifyHead_cons, joinLines_cons, List.cons_append, ih]
      rfl

theorem not_mem_of_splitOn {text line : List α} (h : line ∈ text.splitOn sep) : sep ∉ line := by
  induction text generalizing line with
  | nil =>
    rw [List.splitOn_nil, List.mem_singleton] at h
    rw [h]
    exact List.not_mem_nil
  | cons a text ih =>
    rw [List.splitOn_cons_eq_if_modifyHead] at h
    by_cases ha : a = sep
    · rw [if_pos (beq_iff_eq.mpr ha)] at h
      rcases List.mem_cons.mp h with rfl | h
      · exact List.not_mem_nil
      · exact ih h
    · rw [if_neg (fun hb => ha (beq_iff_eq.mp hb))] at h
      obtain ⟨first, lines, hsplit⟩ := List.exists_cons_of_ne_nil (List.splitOn_ne_nil sep text)
      rw [hsplit] at h ih
      rw [List.modifyHead_cons] at h
      rcases List.mem_cons.mp h with rfl | h
      · intro hm
        rcases List.mem_cons.mp hm with he | hm
        · exact ha he.symm
        · exact ih List.mem_cons_self hm
      · exact ih (List.mem_cons_of_mem _ h)

theorem splitLines_joinLines {lines : List (List α)} (h : ∀ line ∈ lines, sep ∉ line) :
    splitLines sep (joinLines sep lines) = lines := by
  have hsplit := splitOn_joinLines h []
  rw [List.append_nil, List.splitOn_nil] at hsplit
  rw [splitLines, hsplit, List.dropLast_concat]

end Lines

/-- Where one function gives at least as much as another for each element, all of them together give the same exactly if
each of them does. -/
theorem flatMap_eq_iff {α β : Type} {f g : α → List β} {l : List α} (h : ∀ a ∈ l, (g a).length ≤ (f a).length) :
    l.flatMap f = l.flatMap g ↔ ∀ a ∈ l, f a = g a := by
  induction l with
  | nil => simp
  | cons a l ih =>
    have hl : ∀ b ∈ l, (g b).length ≤ (f b).length := fun b hb => h b (List.mem_cons_of_mem _ hb)
    have ha := h a List.mem_cons_self
    have hsum : (l.flatMap g).length ≤ (l.flatMap f).length := by
      rw [List.length_flatMap, List.length_flatMap]
      exact List.sum_le_sum hl
    rw [List.flatMap_cons, List.flatMap_cons, List.forall_mem_cons, ← ih hl]
    constructor
    · intro heq
      have hlen := congrArg List.length heq
      rw [List.length_append, List.length_append] at hlen
      exact List.append_inj heq (by omega)
    · rintro ⟨hhead, htail⟩
      rw [hhead, htail]

theorem occurrence_not_mem {text : Bytes} {b : UInt8} (part : Bytes) (h : b ∉ text) :
    occurrence text (b :: part) = none := by
  induction text with
  | nil => rfl
  | cons c text ih =>
    have hhead : ¬ b :: part <+: c :: text := by
      intro hp
      obtain ⟨rfl, -⟩ := List.cons_prefix_cons.mp hp
      exact h List.mem_cons_self
    rw [occurrence, if_neg hhead, ih (fun hm => h (List.mem_cons_of_mem _ hm))]
    rfl

/-- Behind a text without its first byte, a part occurs where the text ends. -/
theorem occurrence_behind {front : Bytes} {b : UInt8} (part rest : Bytes) (h : b ∉ front) :
    occurrence (front ++ (b :: part ++ rest)) (b :: part) = some front.length := by
  induction front with
  | nil =>
    rw [List.nil_append, List.cons_append, occurrence, if_pos]
    · rfl
    · exact List.prefix_append (b :: part) rest
  | cons c front ih =>
    have hhead : ¬ b :: part <+: c :: (front ++ (b :: part ++ rest)) := by
      intro hp
      obtain ⟨rfl, -⟩ := List.cons_prefix_cons.mp hp
      exact h List.mem_cons_self
    rw [List.cons_append, occurrence, if_neg hhead, ih (fun hm => h (List.mem_cons_of_mem _ hm))]
    rfl

end CFlare.Library
