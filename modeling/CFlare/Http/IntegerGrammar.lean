import CFlare.Http.Integer
import Mathlib.Data.Nat.Digits.Defs

/-! The texts that denote an integer, beside those that the parser takes for one. -/
namespace CFlare.Http
open CFlare.Library

inductive SignText : Bytes → Int → Prop where
  | none : SignText [] 1
  | plus : SignText [43] 1
  | minus : SignText [45] (-1)

inductive BaseText : Bytes → Nat → Prop where
  | decimal : BaseText [] 10
  | hexadecimal : BaseText [48, 120] 16
  | binary : BaseText [48, 98] 2

def digitOf (b : UInt8) : Nat :=
  if 48 ≤ b ∧ b ≤ 57 then b.toNat - 48
  else if 97 ≤ b ∧ b ≤ 102 then b.toNat - 87
  else if 65 ≤ b ∧ b ≤ 70 then b.toNat - 55
  else 16

/-- The text is an optional sign, an optional base and digits of the base, which are the number's. -/
inductive Denotes : Bytes → Int → Prop where
  | intro {signText baseText digits : Bytes} {sign : Int} {base : Nat} (hsign : SignText signText sign)
      (hbase : BaseText baseText base) (ne : digits ≠ []) (all : ∀ b ∈ digits, digitOf b < base) :
      Denotes (signText ++ (baseText ++ digits)) (sign * Nat.ofDigits base (digits.reverse.map digitOf))

def Fits (n : Int) : Prop := -2^63 ≤ n ∧ n < 2^63

/-- A call: what it returns, and what is in `out` then. -/
def toIntegerInto (float : FloatArith) (str : Bytes) (out : Int) : Except Fault (Bool × Int) :=
  (toInteger float str).map (fun ret => (ret.isSome, ret.getD out))

/-- It returns: true for the text of a number of 64 bits, and false for any other, and then leaves
`out` as it is. -/
def Answers (float : FloatArith) (str : Bytes) : Prop :=
  ∀ out, ∃ ret out', toIntegerInto float str out = .ok (ret, out') ∧
    (ret = true ↔ ∃ n, Denotes str n ∧ Fits n) ∧ (ret = false → out' = out)

/-- Behind digits of the base, and in front of any other letter or digit, there is something that is
neither a letter nor a digit. -/
def Stuck (str : Bytes) : Prop :=
  ∃ front x back, digitsOf str = front ++ x :: back ∧
    (∀ b ∈ front, 0 ≤ charToNumber b ∧ charToNumber b < baseOf str) ∧ charToNumber x < 0

section Sums
variable {float : FloatArith} {base : Int}

/-- The assertion fails at the first character that is no digit of the base when it is no letter either. -/
theorem sumDigits_eq_error {ret : Int} {digits : Bytes} {fault : Fault} :
    sumDigits float base digits ret = .error fault ↔ fault = .assertion ∧ ∃ front x back, digits = front ++ x :: back ∧
      (∀ b ∈ front, 0 ≤ charToNumber b ∧ charToNumber b < base) ∧ charToNumber x < 0 := by
  constructor
  · intro h
    rcases sumDigits_cases float base digits ret with
      ⟨⟨n, hn⟩, -⟩ | ⟨front, x, back, hsplit, hfront, ⟨he, hx⟩ | ⟨he, -⟩⟩
    · rw [hn] at h
      cases h
    · exact ⟨Except.error.inj (h.symm.trans he), front, x, back, hsplit, hfront, hx⟩
    · rw [he] at h
      cases h
  · rintro ⟨rfl, front, x, back, rfl, hfront, hx⟩
    obtain ⟨sum, hsum⟩ := sumDigits_front float hfront (x :: back) ret
    rw [hsum, sumDigits]
    exact if_pos hx

theorem sumDigits_some_iff {ret : Int} {digits : Bytes} :
    (∃ n, sumDigits float base digits ret = .ok (some n)) ↔
      ∀ b ∈ digits, 0 ≤ charToNumber b ∧ charToNumber b < base := by
  constructor
  · rintro ⟨n, hn⟩
    rcases sumDigits_cases float base digits ret with ⟨-, hall⟩ | ⟨-, -, -, -, -, ⟨he, -⟩ | ⟨he, -⟩⟩
    · exact hall
    · rw [he] at hn
      cases hn
    · rw [he] at hn
      cases hn
  · intro hall
    obtain ⟨sum, hsum⟩ := sumDigits_front float hall [] ret
    rw [List.append_nil] at hsum
    exact ⟨sum, hsum⟩

end Sums

section Calls
variable {float : FloatArith} {str : Bytes}

theorem toInteger_eq_error {fault : Fault} : toInteger float str = .error fault ↔ fault = .assertion ∧ Stuck str := by
  have hsum := @sumDigits_eq_error float (baseOf str) 0 (digitsOf str) fault
  rw [toInteger_eq]
  by_cases hnil : digitsOf str = []
  · rw [if_pos hnil]
    constructor
    · exact nofun
    · rintro ⟨-, front, x, back, hsplit, -⟩
      exact absurd (hsplit.symm.trans hnil) (List.append_ne_nil_of_right_ne_nil _ (List.cons_ne_nil _ _))
  · rw [if_neg hnil, Stuck, ← hsum]
    cases sumDigits float (baseOf str) (digitsOf str) 0 with
    | error f =>
      constructor
      · exact fun h => congrArg Except.error (Except.error.inj h)
      · exact fun h => congrArg Except.error (Except.error.inj h)
    | ok ret => exact ⟨nofun, nofun⟩

theorem toInteger_some_iff : (∃ n, toInteger float str = .ok (some n)) ↔
    digitsOf str ≠ [] ∧ ∀ b ∈ digitsOf str, 0 ≤ charToNumber b ∧ charToNumber b < baseOf str := by
  have hsum := @sumDigits_some_iff float (baseOf str) 0 (digitsOf str)
  rw [toInteger_eq]
  by_cases hnil : digitsOf str = []
  · rw [if_pos hnil]
    constructor
    · rintro ⟨n, hn⟩
      cases hn
    · exact fun h => absurd hnil h.1
  · rw [if_neg hnil, ← hsum]
    constructor
    · rintro ⟨n, hn⟩
      obtain ⟨ret, hret, hmap⟩ := map_eq_ok.mp hn
      obtain ⟨sum, rfl, -⟩ := Option.map_eq_some_iff.mp hmap
      exact ⟨hnil, sum, hret⟩
    · rintro ⟨-, sum, hret⟩
      exact ⟨_, by rw [hret]; rfl⟩

end Calls

section Grammar

/-- Below 16 the two tables of digits are the same, and neither has a digit where the other has none. -/
theorem digitOf_cases (b : UInt8) : digitOf b < 16 ∧ charToNumber b = digitOf b ∨
    16 ≤ digitOf b ∧ ¬ (0 ≤ charToNumber b ∧ charToNumber b < 16) := by
  simp only [digitOf, charToNumber, UInt8.le_iff_toNat_le]
  have h48 : (48 : UInt8).toNat = 48 := rfl
  have h57 : (57 : UInt8).toNat = 57 := rfl
  have h97 : (97 : UInt8).toNat = 97 := rfl
  have h102 : (102 : UInt8).toNat = 102 := rfl
  have h122 : (122 : UInt8).toNat = 122 := rfl
  have h65 : (65 : UInt8).toNat = 65 := rfl
  have h70 : (70 : UInt8).toNat = 70 := rfl
  have h90 : (90 : UInt8).toNat = 90 := rfl
  rw [h48, h57, h97, h102, h122, h65, h70, h90]
  split_ifs <;> omega

theorem digitOf_iff {base : Nat} (hbase : base ≤ 16) (b : UInt8) :
    digitOf b < base ↔ 0 ≤ charToNumber b ∧ charToNumber b < base := by
  rcases digitOf_cases b with ⟨hsmall, heq⟩ | ⟨hlarge, hnone⟩ <;> omega

theorem charToNumber_digitOf {b : UInt8} (h : digitOf b < 16) : charToNumber b = digitOf b := by
  rcases digitOf_cases b with ⟨hsmall, heq⟩ | ⟨hlarge, hnone⟩ <;> omega

theorem BaseText.small {text : Bytes} {base : Nat} (h : BaseText text base) : base ≤ 16 := by
  cases h <;> decide

theorem signSplit_spec (str : Bytes) :
    ∃ text, SignText text (signSplit str).1 ∧ str = text ++ (signSplit str).2 := by
  unfold signSplit
  split
  · exact ⟨[45], .minus, rfl⟩
  · exact ⟨[43], .plus, rfl⟩
  · exact ⟨[], .none, rfl⟩

theorem baseSplit_spec (ptr : Bytes) :
    ∃ text base, BaseText text base ∧ (baseSplit ptr).1 = (base : Nat) ∧ ptr = text ++ (baseSplit ptr).2 := by
  unfold baseSplit
  split
  · exact ⟨[48, 120], 16, .hexadecimal, rfl, rfl⟩
  · exact ⟨[48, 98], 2, .binary, rfl, rfl⟩
  · exact ⟨[], 10, .decimal, rfl, rfl⟩

/-- A sign is one in front of anything that begins with none. -/
theorem signSplit_append {text rest : Bytes} {sign : Int} (h : SignText text sign)
    (hrest : ∀ b ∈ rest.head?, b ≠ 45 ∧ b ≠ 43) : signSplit (text ++ rest) = (sign, rest) := by
  cases h with
  | plus => rfl
  | minus => rfl
  | none =>
    rw [List.nil_append]
    unfold signSplit
    split
    · exact absurd rfl (hrest 45 rfl).1
    · exact absurd rfl (hrest 43 rfl).2
    · rfl

theorem baseSplit_append {text digits : Bytes} {base : Nat} (h : BaseText text base)
    (hall : ∀ b ∈ digits, digitOf b < base) : baseSplit (text ++ digits) = ((base : Int), digits) := by
  cases h with
  | hexadecimal => rfl
  | binary => rfl
  | decimal =>
    rw [List.nil_append]
    unfold baseSplit
    split
    · exact absurd (hall 120 (List.mem_cons_of_mem _ List.mem_cons_self)) (by decide)
    · exact absurd (hall 98 (List.mem_cons_of_mem _ List.mem_cons_self)) (by decide)
    · rfl

theorem unsigned {text digits : Bytes} {base : Nat} (h : BaseText text base) (hall : ∀ b ∈ digits, digitOf b < base) :
    ∀ b ∈ (text ++ digits).head?, b ≠ 45 ∧ b ≠ 43 := by
  intro b hb
  cases h with
  | hexadecimal =>
    obtain rfl := Option.some.inj hb
    decide
  | binary =>
    obtain rfl := Option.some.inj hb
    decide
  | decimal =>
    have hdigit := hall b (List.mem_of_mem_head? hb)
    constructor
    · rintro rfl
      exact absurd hdigit (by decide)
    · rintro rfl
      exact absurd hdigit (by decide)

/-- The parser splits a text as the grammar does. -/
theorem denotes_iff {str : Bytes} {n : Int} :
    Denotes str n ↔ (digitsOf str ≠ [] ∧ ∀ b ∈ digitsOf str, 0 ≤ charToNumber b ∧ charToNumber b < baseOf str) ∧
      n = (signSplit str).1 * Nat.ofDigits (baseOf str).toNat ((digitsOf str).reverse.map digitOf) := by
  constructor
  · rintro ⟨hsign, hbase, ne, all⟩
    rename_i signText baseText digits sign base
    have hsplit := signSplit_append hsign (unsigned hbase all)
    have hbehind := baseSplit_append hbase all
    have hdigits : digitsOf (signText ++ (baseText ++ digits)) = digits := by rw [digitsOf, hsplit, hbehind]
    have hnumber : baseOf (signText ++ (baseText ++ digits)) = base := by rw [baseOf, hsplit, hbehind]
    rw [hdigits, hnumber, hsplit, Int.toNat_natCast]
    exact ⟨⟨ne, fun b hb => (digitOf_iff hbase.small b).mp (all b hb)⟩, rfl⟩
  · rintro ⟨⟨ne, all⟩, rfl⟩
    obtain ⟨signText, hsign, hstr⟩ := signSplit_spec str
    obtain ⟨baseText, base, hbase, hnumber, hptr⟩ := baseSplit_spec (signSplit str).2
    have hbaseOf : baseOf str = (base : Nat) := hnumber
    have hdenotes := Denotes.intro hsign hbase ne fun b hb => by
      rw [digitOf_iff hbase.small, ← hbaseOf]
      exact all b hb
    rw [hbaseOf, Int.toNat_natCast]
    have hwhole : signText ++ (baseText ++ digitsOf str) = str := by
      rw [digitsOf, ← hptr, ← hstr]
    rwa [hwhole] at hdenotes

end Grammar

theorem Denotes.unique {str : Bytes} {n m : Int} (h : Denotes str n) (h' : Denotes str m) : n = m :=
  (denotes_iff.mp h).2.trans (denotes_iff.mp h').2.symm

/-- The texts of the grammar are those that the parser takes, whatever their size. -/
theorem denotes_some_iff {float : FloatArith} {str : Bytes} :
    (∃ n, Denotes str n) ↔ ∃ n, toInteger float str = .ok (some n) := by
  rw [toInteger_some_iff]
  constructor
  · rintro ⟨n, hn⟩
    exact (denotes_iff.mp hn).1
  · exact fun h => ⟨_, denotes_iff.mpr ⟨h, rfl⟩⟩

/-- The parser answers when nothing but letters and digits comes in front of the first letter that is no
digit of the base, and a text that denotes a number denotes one of 64 bits. -/
theorem integer_answers_iff (float : FloatArith) (str : CString) :
    Answers float str.bytes ↔ ¬ Stuck str.bytes ∧ ∀ n, Denotes str.bytes n → Fits n := by
  have hsome := @denotes_some_iff float str.bytes
  have hstuck := @toInteger_eq_error float str.bytes .assertion
  cases hcall : toInteger float str.bytes with
  | error fault =>
    obtain ⟨rfl, hs⟩ := toInteger_eq_error.mp hcall
    constructor
    · intro h
      obtain ⟨ret, out', hret, -⟩ := h 0
      rw [toIntegerInto, hcall] at hret
      cases hret
    · exact fun h => absurd hs h.1
  | ok result =>
    have hmoves : ¬ Stuck str.bytes := fun hs => by
      rw [hstuck.mpr ⟨rfl, hs⟩] at hcall
      cases hcall
    cases result with
    | none =>
      have hnone : ∀ n, ¬ Denotes str.bytes n := by
        intro n hn
        obtain ⟨m, hm⟩ := hsome.mp ⟨n, hn⟩
        rw [hm] at hcall
        cases hcall
      constructor
      · exact fun _ => ⟨hmoves, fun n hn => absurd hn (hnone n)⟩
      · intro _ out
        refine ⟨false, out, by rw [toIntegerInto, hcall]; rfl, ?_, fun _ => rfl⟩
        exact ⟨fun h => absurd h Bool.false_ne_true, fun ⟨n, hn, _⟩ => absurd hn (hnone n)⟩
    | some m =>
      obtain ⟨n, hn⟩ := hsome.mpr ⟨m, hcall⟩
      constructor
      · intro h
        obtain ⟨ret, out', hret, htrue, -⟩ := h 0
        rw [toIntegerInto, hcall] at hret
        obtain ⟨rfl, -⟩ := Prod.mk.inj (Except.ok.inj hret)
        obtain ⟨k, hk, hfits⟩ := htrue.mp rfl
        exact ⟨hmoves, fun j hj => hj.unique hk ▸ hfits⟩
      · rintro ⟨-, hfits⟩ out
        refine ⟨true, m, by rw [toIntegerInto, hcall]; rfl, ?_, fun h => absurd h.symm Bool.false_ne_true⟩
        exact ⟨fun _ => ⟨n, hn, hfits n hn⟩, fun _ => rfl⟩

/-- A point is neither a letter nor a digit. -/
theorem integer_answers_fails : ¬ Answers machineArith (ascii "1.5") := by
  intro h
  obtain ⟨ret, out', hcall, -⟩ := h 0
  have hfault : toIntegerInto machineArith (ascii "1.5") 0 = .error .assertion := by decide
  rw [hfault] at hcall
  cases hcall

end CFlare.Http
