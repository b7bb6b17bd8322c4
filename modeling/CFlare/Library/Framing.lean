import Mathlib.Data.List.Basic

/-! Messages sent one behind the other, and a reader that takes them off the front of a stream. -/
namespace CFlare.Library
variable {α β : Type}

/-- The reader takes exactly this text off the front, whatever is behind it. -/
def Takes (read : List α → Option (β × List α)) (text : List α) (message : β) : Prop :=
  ∀ rest, read (text ++ rest) = some (message, rest)

def readAll (read : List α → Option (β × List α)) : Nat → List α → Option (List β)
  | _, [] => some []
  | 0, _ :: _ => none
  | fuel + 1, a :: stream =>
    match read (a :: stream) with
    | none => none
    | some (message, rest) => (readAll read fuel rest).map (message :: ·)

variable {read : List α → Option (β × List α)}

theorem readAll_nil (fuel : Nat) : readAll read fuel [] = some [] := by
  cases fuel with
  | zero => rfl
  | succ fuel => rfl

theorem readAll_append {text : List α} {message : β} (h : Takes read text message) (hne : text ≠ [])
    (fuel : Nat) (rest : List α) :
    readAll read (fuel + 1) (text ++ rest) = (readAll read fuel rest).map (message :: ·) := by
  have htake := h rest
  cases text with
  | nil => exact absurd rfl hne
  | cons a text =>
    rw [List.cons_append] at htake
    simp only [List.cons_append, readAll, htake]

end CFlare.Library
