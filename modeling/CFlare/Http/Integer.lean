import CFlare.Library.Binary64
import CFlare.Library.Machine
import Mathlib.Tactic.NormNum
import Mathlib.Tactic.Ring

/-! Integers in text. The digits are summed in double precision. The results are about every arithmetic that does
what they ask of it, and `doubleArith` is the machine's one. -/
namespace CFlare.Http
open CFlare.Library

/-- The operations that the sum is made of; `toInt64` is the conversion, whatever that yields for
a number out of range. -/
structure FloatArith where
  D : Type
  ofInt : Int → D
  pow : D → D → D
  mul : D → D → D
  add : D → D → D
  toInt64 : D → Int

/-- -1 for a character that is no digit in any base. -/
def charToNumber (x : UInt8) : Int :=
  if 48 ≤ x ∧ x ≤ 57 then (x.toNat : Int) - 48
  else if 97 ≤ x ∧ x ≤ 122 then 10 + ((x.toNat : Int) - 97)
  else if 65 ≤ x ∧ x ≤ 90 then 10 + ((x.toNat : Int) - 65)
  else -1

def int64 (n : Int) : Int := Int.bmod n (2^64)

/-- The summing loop: `b` counts down with the digits. -/
def sumDigits (float : FloatArith) (base : Int) : Bytes → Int → Except Fault (Option Int)
  | [], ret => .ok (some ret)
  | x :: rest, ret =>
    let n := charToNumber x
    if n < 0 then .error .assertion
    else if base ≤ n then .ok none
    else
      let power := float.pow (float.ofInt base) (float.ofInt rest.length)
      sumDigits float base rest
        (float.toInt64 (float.add (float.ofInt ret) (float.mul power (float.ofInt n))))

/-- Sign, base prefix, digits. None is a false return, which leaves the output alone. -/
def toInteger (float : FloatArith) (str : Bytes) : Except Fault (Option Int) :=
  let (sign, ptr) : Int × Bytes := match str with
    | 45 :: rest => (-1, rest)
    | 43 :: rest => (1, rest)
    | _ => (1, str)
  let (base, ptr) : Int × Bytes := match ptr with
    | 48 :: 120 :: rest => (16, rest)
    | 48 :: 98 :: rest => (2, rest)
    | _ => (10, ptr)
  if ptr = [] then .ok none
  else do
    match ← sumDigits float base ptr 0 with
    | none => .ok none
    | some ret => .ok (some (int64 (sign * ret)))

/-- The steps of a sum below 2^53 are exact: digits of a base, with the powers that a number of 256 digits needs. -/
def FloatArith.Exact (float : FloatArith) : Prop :=
  ∀ (ret n : Int) (base exponent : Nat), base ≤ 16 → exponent ≤ 255 → 0 ≤ ret → 0 ≤ n → n < base →
    (base ^ exponent : Int) < 2^53 → ret + base ^ exponent * n < 2^53 →
    float.toInt64 (float.add (float.ofInt ret)
      (float.mul (float.pow (float.ofInt base) (float.ofInt exponent)) (float.ofInt n))) =
      ret + base ^ exponent * n

/-- What a double does with whole numbers from zero to 2^53: it holds them, and its powers, products and
sums are exact when they are such numbers. Powers of the bases are finite up to the exponent 255. -/
structure FloatArith.Doubles (float : FloatArith) (finite : float.D → Prop) : Prop where
  pow_exact : ∀ base exponent : Nat, base ≤ 16 → exponent ≤ 255 → base ^ exponent ≤ 2^53 →
    float.pow (float.ofInt base) (float.ofInt exponent) = float.ofInt ((base ^ exponent : Nat) : Int)
  pow_finite : ∀ base exponent : Nat, base ≤ 16 → exponent ≤ 255 →
    finite (float.pow (float.ofInt base) (float.ofInt exponent))
  mul_exact : ∀ m n : Nat, m ≤ 2^53 → n ≤ 2^53 → m * n ≤ 2^53 →
    float.mul (float.ofInt m) (float.ofInt n) = float.ofInt ((m * n : Nat) : Int)
  mul_zero : ∀ x, finite x → float.mul x (float.ofInt 0) = float.ofInt 0
  add_exact : ∀ m n : Nat, m + n ≤ 2^53 → float.add (float.ofInt m) (float.ofInt n) = float.ofInt ((m + n : Nat) : Int)
  toInt64_exact : ∀ n : Nat, n ≤ 2^53 → float.toInt64 (float.ofInt n) = n

/-- The conversion to 64 bits cuts a fraction off. What it makes of the rest of the doubles is not defined. -/
def int64Of (outside : Float.Model → Int) (x : Float.Model) : Int :=
  match x.unpack with
  | .zero _ => 0
  | .finite sign mantissa exponent _ =>
    let n := Float.Model.UnpackedFloat.roundToInt sign mantissa exponent
    if -2^63 ≤ n ∧ n < 2^63 then n else outside x
  | _ => outside x

/-- Double precision with the `pow` of a library. -/
def doubleArith (pow : Float.Model → Float.Model → Float.Model) (outside : Float.Model → Int) : FloatArith where
  D := Float.Model
  ofInt := .ofInt
  pow := pow
  mul := .mul
  add := .add
  toInt64 := int64Of outside

/-- The power of whole numbers, rounded once. -/
def wholePow (x y : Float.Model) : Float.Model := .ofInt (x.unpack.toInt 0 0 ^ (y.unpack.toInt 0 0).toNat)

/-- Such a `pow`, on a machine that converts every other number to the smallest integer. -/
def machineArith : FloatArith := doubleArith wholePow (fun _ => -2^63)

section Arithmetic
variable {float : FloatArith} {finite : float.D → Prop} {pow : Float.Model → Float.Model → Float.Model}
  {outside : Float.Model → Int}

/-- What a digit adds is exact: a power that is too large for that has the digit zero. -/
theorem digit_added (hf : float.Doubles finite) {base exponent ret n : Nat} (hbase : base ≤ 16) (hexp : exponent ≤ 255)
    (hn : n < base) (hsum : ret + base ^ exponent * n ≤ 2^53) :
    float.toInt64 (float.add (float.ofInt ret) (float.mul (float.pow (float.ofInt base) (float.ofInt exponent))
      (float.ofInt n))) = ((ret + base ^ exponent * n : Nat) : Int) := by
  have hterm : float.mul (float.pow (float.ofInt base) (float.ofInt exponent)) (float.ofInt n) =
      float.ofInt ((base ^ exponent * n : Nat) : Int) := by
    rcases Nat.eq_zero_or_pos n with rfl | hpos
    · rw [Nat.mul_zero]
      exact hf.mul_zero _ (hf.pow_finite base exponent hbase hexp)
    · have hpower : base ^ exponent ≤ 2^53 := by
        have hle : base ^ exponent ≤ base ^ exponent * n := Nat.le_mul_of_pos_right _ hpos
        omega
      rw [hf.pow_exact base exponent hbase hexp hpower]
      exact hf.mul_exact _ n hpower (by omega) (by omega)
  rw [hterm, hf.add_exact ret _ hsum, hf.toInt64_exact _ hsum]

theorem FloatArith.Doubles.exact (hf : float.Doubles finite) : float.Exact := by
  intro ret n base exponent hbase hexp hret hn hdigit _ hsum
  obtain ⟨r, rfl⟩ := Int.eq_ofNat_of_zero_le hret
  obtain ⟨d, rfl⟩ := Int.eq_ofNat_of_zero_le hn
  exact_mod_cast digit_added hf hbase hexp (by omega) (by exact_mod_cast hsum.le)

theorem int64Of_ofInt {n : Nat} (h : n ≤ 2^53) : int64Of outside (.ofInt n) = n := by
  rcases Nat.eq_zero_or_pos n with rfl | hpos
  · rfl
  · obtain ⟨m, hm⟩ := exists_held hpos h
    rw [int64Of, hm.unpack]
    dsimp only
    rw [hm.roundToInt, if_pos (by omega)]

/-- Double precision is exact on whole numbers where `pow` is. -/
theorem doubleArith_doubles
    (hexact : ∀ base exponent : Nat, base ≤ 16 → exponent ≤ 255 → base ^ exponent ≤ 2^53 →
      pow (.ofInt base) (.ofInt exponent) = .ofInt ((base ^ exponent : Nat) : Int))
    (hfinite : ∀ base exponent : Nat, base ≤ 16 → exponent ≤ 255 → Nonneg (pow (.ofInt base) (.ofInt exponent))) :
    (doubleArith pow outside).Doubles Nonneg where
  pow_exact := hexact
  pow_finite := hfinite
  mul_exact _ _ := mul_ofInt
  mul_zero _ := Nonneg.mul_zero
  add_exact _ _ := add_ofInt
  toInt64_exact _ := int64Of_ofInt

theorem wholePow_ofInt {base exponent : Nat} (hbase : base ≤ 16) (hexp : exponent ≤ 255) :
    wholePow (.ofInt base) (.ofInt exponent) = .ofInt ((base ^ exponent : Nat) : Int) := by
  rw [wholePow, toInt_ofInt (by omega), toInt_ofInt (by omega), Int.toNat_natCast, Nat.cast_pow]

theorem log2_power_lt {base exponent : Nat} (hbase : base ≤ 16) (hexp : exponent ≤ 255) :
    (base ^ exponent).log2 < 1023 := by
  rcases Nat.eq_zero_or_pos (base ^ exponent) with hzero | hpos
  · rw [hzero]
    decide
  · have hpower : 2 ^ (base ^ exponent).log2 ≤ 2 ^ (4 * exponent) := by
      calc 2 ^ (base ^ exponent).log2 ≤ base ^ exponent := Nat.log2_self_le hpos.ne'
        _ ≤ (2^4) ^ exponent := Nat.pow_le_pow_left hbase exponent
        _ = 2 ^ (4 * exponent) := (Nat.pow_mul 2 4 exponent).symm
    have hlog := (Nat.pow_le_pow_iff_right (by decide)).mp hpower
    omega

theorem machineArith_doubles : machineArith.Doubles Nonneg := by
  refine doubleArith_doubles (fun _ _ hbase hexp _ => wholePow_ofInt hbase hexp) (fun base exponent hbase hexp => ?_)
  rw [wholePow_ofInt hbase hexp]
  exact ofInt_nonneg (log2_power_lt hbase hexp)

end Arithmetic

def signSplit (str : Bytes) : Int × Bytes :=
  match str with
  | 45 :: rest => (-1, rest)
  | 43 :: rest => (1, rest)
  | _ => (1, str)

def baseSplit (ptr : Bytes) : Int × Bytes :=
  match ptr with
  | 48 :: 120 :: rest => (16, rest)
  | 48 :: 98 :: rest => (2, rest)
  | _ => (10, ptr)

def digitsOf (str : Bytes) : Bytes := (baseSplit (signSplit str).2).2

def baseOf (str : Bytes) : Int := (baseSplit (signSplit str).2).1

theorem toInteger_eq (float : FloatArith) (str : Bytes) :
    toInteger float str = if digitsOf str = [] then .ok none else
      (sumDigits float (baseOf str) (digitsOf str) 0).map
        (fun ret => ret.map (fun n => int64 ((signSplit str).1 * n))) := by
  unfold toInteger
  split
  next sign ptr hsign =>
  have hsign : signSplit str = (sign, ptr) := hsign
  split
  next base rest hbase =>
  have hbase : baseSplit ptr = (base, rest) := hbase
  have hdigits : digitsOf str = rest := by rw [digitsOf, hsign, hbase]
  have hnumber : baseOf str = base := by rw [baseOf, hsign, hbase]
  rw [hdigits, hnumber, hsign]
  split
  · rfl
  · cases sumDigits float base rest 0 with
    | error fault => rfl
    | ok ret => cases ret <;> rfl

theorem signSplit_cases (str : Bytes) :
    (signSplit str).2 = str ∨ ∃ b, (b = 45 ∨ b = 43) ∧ str = b :: (signSplit str).2 := by
  unfold signSplit
  split
  · exact .inr ⟨45, .inl rfl, rfl⟩
  · exact .inr ⟨43, .inr rfl, rfl⟩
  · exact .inl rfl

theorem baseSplit_cases (ptr : Bytes) :
    (baseSplit ptr).2 = ptr ∨ ∃ c, (c = 120 ∨ c = 98) ∧ ptr = 48 :: c :: (baseSplit ptr).2 := by
  unfold baseSplit
  split
  · exact .inr ⟨120, .inl rfl, rfl⟩
  · exact .inr ⟨98, .inr rfl, rfl⟩
  · exact .inl rfl

theorem sumDigits_digits {float : FloatArith} {base ret n : Int} {digits : Bytes}
    (h : sumDigits float base digits ret = .ok (some n)) : ∀ b ∈ digits, 0 ≤ charToNumber b := by
  induction digits generalizing ret with
  | nil => exact fun b hb => absurd hb List.not_mem_nil
  | cons x rest ih =>
    rw [sumDigits] at h
    dsimp only at h
    split at h
    · cases h
    next hneg =>
    split at h
    · cases h
    · intro b hb
      rcases List.mem_cons.mp hb with rfl | hb
      · exact Int.not_lt.mp hneg
      · exact ih h b hb

/-- A text that is taken for a number has letters, digits and a sign in it. -/
theorem toInteger_chars {float : FloatArith} {str : Bytes} {n : Int} (h : toInteger float str = .ok (some n)) :
    ∀ b ∈ str, b = 45 ∨ b = 43 ∨ 0 ≤ charToNumber b := by
  rw [toInteger_eq] at h
  split at h
  · cases h
  have hdigits : ∀ b ∈ digitsOf str, 0 ≤ charToNumber b := by
    cases hsum : sumDigits float (baseOf str) (digitsOf str) 0 with
    | error fault =>
      rw [hsum] at h
      cases h
    | ok ret =>
      cases ret with
      | none =>
        rw [hsum] at h
        cases h
      | some sum => exact sumDigits_digits hsum
  have hbehind : ∀ b ∈ (signSplit str).2, 0 ≤ charToNumber b := by
    intro b hb
    rcases baseSplit_cases (signSplit str).2 with heq | ⟨c, hc, heq⟩
    · apply hdigits
      rw [digitsOf, heq]
      exact hb
    · rw [heq] at hb
      rcases List.mem_cons.mp hb with rfl | hb
      · decide
      rcases List.mem_cons.mp hb with rfl | hb
      · rcases hc with rfl | rfl <;> decide
      · exact hdigits b hb
  intro b hb
  rcases signSplit_cases str with heq | ⟨c, hc, heq⟩
  · rw [heq] at hbehind
    exact .inr (.inr (hbehind b hb))
  · rw [heq] at hb
    rcases List.mem_cons.mp hb with rfl | hb
    · exact hc.imp id .inl
    · exact .inr (.inr (hbehind b hb))

theorem toInteger_range {float : FloatArith} {str : Bytes} {n : Int} (h : toInteger float str = .ok (some n)) :
    -2^63 ≤ n ∧ n < 2^63 := by
  rw [toInteger_eq] at h
  split at h
  · cases h
  cases hsum : sumDigits float (baseOf str) (digitsOf str) 0 with
  | error fault =>
    rw [hsum] at h
    cases h
  | ok ret =>
    cases ret with
    | none =>
      rw [hsum] at h
      cases h
    | some sum =>
      rw [hsum] at h
      obtain rfl := Option.some.inj (Except.ok.inj h)
      have hlow := Int.le_bmod (x := (signSplit str).1 * sum) (m := 2^64) (by decide)
      have hhigh := Int.bmod_lt (x := (signSplit str).1 * sum) (m := 2^64) (by decide)
      change -2^63 ≤ Int.bmod ((signSplit str).1 * sum) (2^64) ∧ Int.bmod ((signSplit str).1 * sum) (2^64) < 2^63
      omega

theorem toInteger_hex (float : FloatArith) {digits : Bytes} (h : digits ≠ []) :
    toInteger float (48 :: 120 :: digits) =
      (sumDigits float 16 digits 0).map (fun ret => ret.map (fun n => int64 (1 * n))) := by
  change (if digits = [] then Except.ok none else (do
    match ← sumDigits float 16 digits 0 with
    | none => .ok none
    | some ret => .ok (some (int64 (1 * ret))))) = _
  rw [if_neg h]
  cases sumDigits float 16 digits 0 with
  | error fault => rfl
  | ok ret => cases ret <;> rfl

theorem charToNumber_digit {b : UInt8} (h : 48 ≤ b ∧ b ≤ 57) :
    charToNumber b = (b.toNat - 48 : Nat) ∧ b.toNat - 48 < 10 := by
  have hnumber : charToNumber b = (b.toNat : Int) - 48 := if_pos h
  have hlow : 48 ≤ b.toNat := UInt8.le_iff_toNat_le.mp h.1
  have hhigh : b.toNat ≤ 57 := UInt8.le_iff_toNat_le.mp h.2
  rw [hnumber]
  omega

/-- Decimal digits sum to some number, whatever the rounding does. -/
theorem sumDigits_numeral (float : FloatArith) {digits : Bytes} (h : ∀ b ∈ digits, 48 ≤ b ∧ b ≤ 57) (ret : Int) :
    ∃ n, sumDigits float 10 digits ret = .ok (some n) := by
  induction digits generalizing ret with
  | nil => exact ⟨ret, rfl⟩
  | cons b digits ih =>
    obtain ⟨hnumber, hsmall⟩ := charToNumber_digit (h b List.mem_cons_self)
    rw [sumDigits, hnumber]
    dsimp only
    rw [if_neg (by omega), if_neg (by omega)]
    exact ih (fun c hc => h c (List.mem_cons_of_mem _ hc)) _

theorem splits_numeral {digits : Bytes} (h : ∀ b ∈ digits, 48 ≤ b ∧ b ≤ 57) :
    signSplit digits = (1, digits) ∧ baseOf digits = 10 ∧ digitsOf digits = digits := by
  have hsign : signSplit digits = (1, digits) := by
    unfold signSplit
    split
    · exact absurd (h 45 List.mem_cons_self).1 (by decide)
    · exact absurd (h 43 List.mem_cons_self).1 (by decide)
    · rfl
  have hbase : baseSplit digits = (10, digits) := by
    unfold baseSplit
    split
    · exact absurd (h 120 (List.mem_cons_of_mem _ List.mem_cons_self)).2 (by decide)
    · exact absurd (h 98 (List.mem_cons_of_mem _ List.mem_cons_self)).2 (by decide)
    · rfl
  exact ⟨hsign, by rw [baseOf, hsign, hbase], by rw [digitsOf, hsign, hbase]⟩

theorem toInteger_digits (float : FloatArith) {digits : Bytes} (hne : digits ≠ []) (h : ∀ b ∈ digits, 48 ≤ b ∧ b ≤ 57) :
    toInteger float digits = (sumDigits float 10 digits 0).map (fun ret => ret.map int64) := by
  obtain ⟨hsign, hbase, hdigits⟩ := splits_numeral h
  rw [toInteger_eq, hdigits, hbase, hsign, if_neg hne]
  simp only [one_mul]

theorem toInteger_numeral (float : FloatArith) {digits : Bytes} (hne : digits ≠ [])
    (h : ∀ b ∈ digits, 48 ≤ b ∧ b ≤ 57) : ∃ n, toInteger float digits = .ok (some n) := by
  obtain ⟨n, hn⟩ := sumDigits_numeral float h 0
  refine ⟨int64 n, ?_⟩
  rw [toInteger_digits float hne h, hn]
  rfl

/-- A text in whose digits a letter comes that is none of the base, in front of anything that is no
letter and no digit; or one without digits. -/
def Refused (str : Bytes) : Prop :=
  digitsOf str = [] ∨ ∃ front x back, digitsOf str = front ++ x :: back ∧
    (∀ b ∈ front, 0 ≤ charToNumber b ∧ charToNumber b < baseOf str) ∧ 0 ≤ charToNumber x ∧ baseOf str ≤ charToNumber x

/-- Digits of the base in front are summed, to whatever they sum to. -/
theorem sumDigits_front (float : FloatArith) {base : Int} {front : Bytes}
    (h : ∀ b ∈ front, 0 ≤ charToNumber b ∧ charToNumber b < base) (rest : Bytes) (ret : Int) :
    ∃ sum, sumDigits float base (front ++ rest) ret = sumDigits float base rest sum := by
  induction front generalizing ret with
  | nil => exact ⟨ret, rfl⟩
  | cons b front ih =>
    obtain ⟨hb, hfront⟩ := List.forall_mem_cons.mp h
    rw [List.cons_append, sumDigits]
    dsimp only
    rw [if_neg (Int.not_lt.mpr hb.1), if_neg (Int.not_le.mpr hb.2)]
    exact ih hfront _

/-- Digits are all of the base, or there is a first one that is not. -/
theorem digits_split (base : Int) (digits : Bytes) :
    (∀ b ∈ digits, 0 ≤ charToNumber b ∧ charToNumber b < base) ∨ ∃ front x back, digits = front ++ x :: back ∧
      (∀ b ∈ front, 0 ≤ charToNumber b ∧ charToNumber b < base) ∧ ¬ (0 ≤ charToNumber x ∧ charToNumber x < base) := by
  induction digits with
  | nil => exact .inl nofun
  | cons b digits ih =>
    by_cases hb : 0 ≤ charToNumber b ∧ charToNumber b < base
    · rcases ih with hall | ⟨front, x, back, rfl, hfront, hx⟩
      · exact .inl (List.forall_mem_cons.mpr ⟨hb, hall⟩)
      · exact .inr ⟨b :: front, x, back, rfl, List.forall_mem_cons.mpr ⟨hb, hfront⟩, hx⟩
    · exact .inr ⟨[], b, digits, rfl, nofun, hb⟩

/-- The sum ends at a letter that is none of the base, and the assertion fails at anything else. -/
theorem sumDigits_cases (float : FloatArith) (base : Int) (digits : Bytes) (ret : Int) :
    (∃ n, sumDigits float base digits ret = .ok (some n)) ∧ (∀ b ∈ digits, 0 ≤ charToNumber b ∧ charToNumber b < base) ∨
      ∃ front x back, digits = front ++ x :: back ∧ (∀ b ∈ front, 0 ≤ charToNumber b ∧ charToNumber b < base) ∧
        (sumDigits float base digits ret = .error .assertion ∧ charToNumber x < 0 ∨
          sumDigits float base digits ret = .ok none ∧ 0 ≤ charToNumber x ∧ base ≤ charToNumber x) := by
  rcases digits_split base digits with hall | ⟨front, x, back, rfl, hfront, hx⟩
  · obtain ⟨sum, hsum⟩ := sumDigits_front float hall [] ret
    rw [List.append_nil] at hsum
    exact .inl ⟨⟨sum, hsum⟩, hall⟩
  · obtain ⟨sum, hsum⟩ := sumDigits_front float hfront (x :: back) ret
    refine .inr ⟨front, x, back, rfl, hfront, ?_⟩
    rw [hsum, sumDigits]
    dsimp only
    by_cases hneg : charToNumber x < 0
    · rw [if_pos hneg]
      exact .inl ⟨rfl, hneg⟩
    · have hlarge : base ≤ charToNumber x := Int.not_lt.mp fun hless => hx ⟨Int.not_lt.mp hneg, hless⟩
      rw [if_neg hneg, if_pos hlarge]
      exact .inr ⟨rfl, Int.not_lt.mp hneg, hlarge⟩

theorem sumDigits_eq_none {float : FloatArith} {base ret : Int} {digits : Bytes} :
    sumDigits float base digits ret = .ok none ↔ ∃ front x back, digits = front ++ x :: back ∧
      (∀ b ∈ front, 0 ≤ charToNumber b ∧ charToNumber b < base) ∧ 0 ≤ charToNumber x ∧ base ≤ charToNumber x := by
  constructor
  · intro h
    rcases sumDigits_cases float base digits ret with ⟨⟨n, hn⟩, -⟩ | ⟨front, x, back, hsplit, hfront, ⟨he, -⟩ | ⟨-, hx⟩⟩
    · rw [hn] at h
      cases h
    · rw [he] at h
      cases h
    · exact ⟨front, x, back, hsplit, hfront, hx⟩
  · rintro ⟨front, x, back, rfl, hfront, hx, hlarge⟩
    obtain ⟨sum, hsum⟩ := sumDigits_front float hfront (x :: back) ret
    rw [hsum, sumDigits]
    dsimp only
    rw [if_neg (Int.not_lt.mpr hx), if_pos hlarge]

theorem toInteger_eq_none {float : FloatArith} {str : Bytes} : toInteger float str = .ok none ↔ Refused str := by
  have hsum := @sumDigits_eq_none float (baseOf str) 0 (digitsOf str)
  rw [toInteger_eq, Refused, ← hsum]
  by_cases hnil : digitsOf str = []
  · rw [if_pos hnil]
    exact ⟨fun _ => .inl hnil, fun _ => rfl⟩
  · rw [if_neg hnil, or_iff_right hnil]
    cases sumDigits float (baseOf str) (digitsOf str) 0 with
    | error fault =>
      constructor
      · intro h
        cases h
      · intro h
        cases h
    | ok ret =>
      cases ret with
      | none => exact ⟨fun _ => rfl, fun _ => rfl⟩
      | some n =>
        constructor
        · intro h
          cases h
        · intro h
          cases h

def decimalOf (digits : Bytes) : Nat := digits.foldl (fun n b => 10 * n + (b.toNat - 48)) 0

/-- A number of digits is the first one at its place, and the rest. -/
theorem decimalOf_foldl (digits : Bytes) (n : Nat) :
    digits.foldl (fun n b => 10 * n + (b.toNat - 48)) n = n * 10 ^ digits.length + decimalOf digits := by
  induction digits generalizing n with
  | nil => rw [List.foldl_nil, List.length_nil, pow_zero, mul_one, decimalOf, List.foldl_nil, Nat.add_zero]
  | cons b digits ih =>
    have hrest : decimalOf (b :: digits) = (10 * 0 + (b.toNat - 48)) * 10 ^ digits.length + decimalOf digits := ih _
    rw [List.foldl_cons, ih, hrest, List.length_cons, pow_succ]
    ring

/-- Few digits are summed exactly, and by exact arithmetic their number comes out. -/
theorem sumDigits_exact {float : FloatArith} (hf : float.Exact) {digits : Bytes} (h : ∀ b ∈ digits, 48 ≤ b ∧ b ≤ 57)
    (hlen : digits.length ≤ 16) {ret : Nat} (hsum : ret + decimalOf digits < 2^53) :
    sumDigits float 10 digits ret = .ok (some (ret + decimalOf digits : Nat)) := by
  induction digits generalizing ret with
  | nil => rfl
  | cons b digits ih =>
    obtain ⟨hnumber, hsmall⟩ := charToNumber_digit (h b List.mem_cons_self)
    have hvalue : decimalOf (b :: digits) = (b.toNat - 48) * 10 ^ digits.length + decimalOf digits := by
      have hfirst : decimalOf (b :: digits) = (10 * 0 + (b.toNat - 48)) * 10 ^ digits.length + decimalOf digits :=
        decimalOf_foldl digits _
      rwa [Nat.mul_zero, Nat.zero_add] at hfirst
    rw [List.length_cons] at hlen
    have hpower : (10 : Int) ^ digits.length < 2^53 := by
      have hle : 10 ^ digits.length ≤ 10 ^ 15 := Nat.pow_le_pow_right (by decide) (by omega)
      exact_mod_cast hle.trans_lt (by decide)
    have hstep : (ret : Int) + (10 : Nat) ^ digits.length * ((b.toNat - 48 : Nat) : Int) =
        ((ret + (b.toNat - 48) * 10 ^ digits.length : Nat) : Int) := by
      push_cast
      ring
    have hexact := hf ret ((b.toNat - 48 : Nat) : Int) 10 digits.length (by decide) (by omega) (by omega) (by omega)
      (by omega) (by exact_mod_cast hpower) (by rw [hstep]; omega)
    rw [sumDigits, hnumber]
    dsimp only
    rw [if_neg (by omega), if_neg (by omega)]
    have hnext : ret + (b.toNat - 48) * 10 ^ digits.length + decimalOf digits < 2^53 := by omega
    have hrest := ih (fun c hc => h c (List.mem_cons_of_mem _ hc)) (by omega) hnext
    rw [← hstep, ← hexact] at hrest
    rw [hvalue, ← Nat.add_assoc]
    exact hrest

end CFlare.Http
