import CFlare.Http.IntegerValue
import CFlare.Http.Url

/-! What the decoder takes for an escape. It leaves that to the integer parser, which also takes one digit in front
of a null byte, and does not return for a character that is neither a letter nor a digit. -/
namespace CFlare.Http
open CFlare.Library

/-- The decoding of a text, in which two hexadecimal digits are behind every percent sign. -/
def decoded : Bytes → Option Bytes
  | [] => some []
  | x :: rest =>
    if x = percent then
      match rest with
      | hi :: lo :: rest =>
        if digitOf hi < 16 ∧ digitOf lo < 16 then
          (decoded rest).map (UInt8.ofNat (16 * digitOf hi + digitOf lo) :: ·)
        else none
      | _ => none
    else (decoded rest).map ((if x = plus then 32 else x) :: ·)

/-- What a text is for the decoder, as long as it gets on. -/
inductive StandsFor : Bytes → Bytes → Prop where
  | nil : StandsFor [] []
  | plain {x : UInt8} {text bytes : Bytes} (ne : x ≠ percent) (tail : StandsFor text bytes) :
      StandsFor (x :: text) ((if x = plus then 32 else x) :: bytes)
  | escape {hi lo : UInt8} {text bytes : Bytes} (high : digitOf hi < 16) (low : digitOf lo < 16)
      (tail : StandsFor text bytes) :
      StandsFor (percent :: hi :: lo :: text) (UInt8.ofNat (16 * digitOf hi + digitOf lo) :: bytes)
  | half {hi : UInt8} {text bytes : Bytes} (high : digitOf hi < 16) (tail : StandsFor text bytes) :
      StandsFor (percent :: hi :: 0 :: text) (UInt8.ofNat (digitOf hi) :: bytes)

def StuckPair (hi lo : UInt8) : Prop :=
  hi ≠ 0 ∧ (charToNumber hi < 0 ∨ digitOf hi < 16 ∧ lo ≠ 0 ∧ charToNumber lo < 0)

def RefusedPair (hi lo : UInt8) : Prop := hi = 0 ∨ 16 ≤ charToNumber hi ∨ digitOf hi < 16 ∧ 16 ≤ charToNumber lo

def RefusedEscape (back : Bytes) : Prop := back.length < 2 ∨ ∃ hi lo rest, back = hi :: lo :: rest ∧ RefusedPair hi lo

/-- The ways in which it stops at a text. -/
inductive Stops : Bytes → Prop where
  | ended : Stops []
  | refused {back : Bytes} (escape : RefusedEscape back) : Stops (percent :: back)
  | stuck {hi lo : UInt8} {back : Bytes} (pair : StuckPair hi lo) : Stops (percent :: hi :: lo :: back)

section Pairs
variable {hi lo : UInt8}

theorem not_digit_zero : ¬ digitOf 0 < 16 := by decide

theorem digitOf_pair (b : UInt8) : digitOf b < 16 ↔ 0 ≤ charToNumber b ∧ charToNumber b < 16 :=
  digitOf_iff (Nat.le_refl 16) b

/-- Two bytes behind a percent sign are stuck, refused or taken. -/
theorem pair_cases (hi lo : UInt8) :
    StuckPair hi lo ∨ RefusedPair hi lo ∨ digitOf hi < 16 ∧ (digitOf lo < 16 ∨ lo = 0) := by
  have hhi := digitOf_pair hi
  have hlo := digitOf_pair lo
  by_cases hzero : hi = 0
  · exact .inr (.inl (.inl hzero))
  by_cases hneg : charToNumber hi < 0
  · exact .inl ⟨hzero, .inl hneg⟩
  by_cases hlarge : 16 ≤ charToNumber hi
  · exact .inr (.inl (.inr (.inl hlarge)))
  have hhigh : digitOf hi < 16 := hhi.mpr ⟨by omega, by omega⟩
  by_cases hnull : lo = 0
  · exact .inr (.inr ⟨hhigh, .inr hnull⟩)
  by_cases hlow : charToNumber lo < 0
  · exact .inl ⟨hzero, .inr ⟨hhigh, hnull, hlow⟩⟩
  by_cases hbig : 16 ≤ charToNumber lo
  · exact .inr (.inl (.inr (.inr ⟨hhigh, hbig⟩)))
  · exact .inr (.inr ⟨hhigh, .inl (hlo.mpr ⟨by omega, by omega⟩)⟩)

theorem StuckPair.not_taken (h : StuckPair hi lo) : ¬ (digitOf hi < 16 ∧ (digitOf lo < 16 ∨ lo = 0)) := by
  rintro ⟨hhigh, hlow⟩
  have hhi := (digitOf_pair hi).mp hhigh
  rcases h.2 with hneg | ⟨-, hnull, hneg⟩
  · omega
  · rcases hlow with hlow | hlow
    · have hlo := (digitOf_pair lo).mp hlow
      omega
    · exact hnull hlow

theorem RefusedPair.not_taken (h : RefusedPair hi lo) : ¬ (digitOf hi < 16 ∧ (digitOf lo < 16 ∨ lo = 0)) := by
  rintro ⟨hhigh, hlow⟩
  have hhi := (digitOf_pair hi).mp hhigh
  rcases h with rfl | hlarge | ⟨-, hlarge⟩
  · exact not_digit_zero hhigh
  · omega
  · rcases hlow with hlow | rfl
    · have hlo := (digitOf_pair lo).mp hlow
      omega
    · exact absurd hlarge (by decide)

theorem StuckPair.not_refused (h : StuckPair hi lo) : ¬ RefusedPair hi lo := by
  rcases h with ⟨hzero, hneg | ⟨hhigh, -, hneg⟩⟩
  · rintro (hz | hlarge | ⟨hhigh, -⟩)
    · exact hzero hz
    · omega
    · have hhi := (digitOf_pair hi).mp hhigh
      omega
  · have hhi := (digitOf_pair hi).mp hhigh
    rintro (hz | hlarge | ⟨-, hlarge⟩)
    · exact hzero hz
    · omega
    · omega

end Pairs

section Texts
variable {x hi lo : UInt8} {text rest front front' back back' bytes bytes' : Bytes}

theorem decoded_plain (h : x ≠ percent) :
    decoded (x :: rest) = (decoded rest).map ((if x = plus then 32 else x) :: ·) := by
  rw [decoded.eq_def]
  exact if_neg h

theorem decoded_escape (hi lo : UInt8) (rest : Bytes) : decoded (percent :: hi :: lo :: rest) =
    if digitOf hi < 16 ∧ digitOf lo < 16 then (decoded rest).map (UInt8.ofNat (16 * digitOf hi + digitOf lo) :: ·)
    else none := by
  rw [decoded.eq_def]
  rfl

theorem decoded_short (h : rest.length < 2) : decoded (percent :: rest) = none := by
  rw [decoded.eq_def]
  match rest, h with
  | [], _ => rfl
  | [_], _ => rfl

/-- A text is ended, or begins with a plain byte, with an escape, or with a percent sign near its end. -/
theorem text_cases (text : Bytes) : text = [] ∨ (∃ x rest, text = x :: rest ∧ x ≠ percent) ∨
    (∃ hi lo rest, text = percent :: hi :: lo :: rest) ∨ ∃ rest, text = percent :: rest ∧ rest.length < 2 := by
  match text with
  | [] => exact .inl rfl
  | x :: rest =>
    by_cases hx : x = percent
    · subst hx
      match rest with
      | hi :: lo :: rest => exact .inr (.inr (.inl ⟨hi, lo, rest, rfl⟩))
      | [] => exact .inr (.inr (.inr ⟨[], rfl, Nat.succ_pos 1⟩))
      | [b] => exact .inr (.inr (.inr ⟨[b], rfl, Nat.lt_succ_self 1⟩))
    · exact .inr (.inl ⟨x, rest, rfl, hx⟩)

theorem StandsFor.length_le (h : StandsFor text bytes) : bytes.length ≤ text.length := by
  induction h with
  | nil => exact Nat.le_refl _
  | plain _ _ ih => exact Nat.succ_le_succ ih
  | escape _ _ _ ih =>
    simp only [List.length_cons]
    omega
  | half _ _ ih =>
    simp only [List.length_cons]
    omega

/-- The decoder gets on to some place, and stops there. -/
theorem stops_somewhere (text : Bytes) :
    ∃ front back bytes, text = front ++ back ∧ StandsFor front bytes ∧ Stops back := by
  induction hn : text.length using Nat.strong_induction_on generalizing text with
  | _ n ih =>
    rcases text_cases text with rfl | ⟨x, rest, rfl, hx⟩ | ⟨hi, lo, rest, rfl⟩ | ⟨rest, rfl, hfew⟩
    · exact ⟨[], [], [], rfl, .nil, .ended⟩
    · obtain ⟨front, back, bytes, rfl, hfront, hback⟩ := ih rest.length (by rw [← hn]; exact Nat.lt_succ_self _) rest rfl
      exact ⟨x :: front, back, _, rfl, .plain hx hfront, hback⟩
    · obtain ⟨front, back, bytes, rfl, hfront, hback⟩ :=
        ih rest.length (by rw [← hn]; simp only [List.length_cons]; omega) rest rfl
      rcases pair_cases hi lo with hpair | hpair | ⟨hhigh, hlow | rfl⟩
      · exact ⟨[], _, [], rfl, .nil, .stuck hpair⟩
      · exact ⟨[], _, [], rfl, .nil, .refused (.inr ⟨hi, lo, _, rfl, hpair⟩)⟩
      · exact ⟨percent :: hi :: lo :: front, back, _, rfl, .escape hhigh hlow hfront, hback⟩
      · exact ⟨percent :: hi :: 0 :: front, back, _, rfl, .half hhigh hfront, hback⟩
    · exact ⟨[], _, [], rfl, .nil, .refused (.inl hfew)⟩

theorem Stops.head (h : Stops (x :: rest)) : x = percent := by
  cases h <;> rfl

theorem Stops.pair (h : Stops (percent :: hi :: lo :: rest)) : ¬ (digitOf hi < 16 ∧ (digitOf lo < 16 ∨ lo = 0)) := by
  cases h with
  | refused escape =>
    rcases escape with few | ⟨_, _, _, heq, pair⟩
    · simp only [List.length_cons] at few
      omega
    · simp only [List.cons.injEq] at heq
      obtain ⟨rfl, rfl, -⟩ := heq
      exact pair.not_taken
  | stuck pair => exact pair.not_taken

theorem Stops.not_standsFor (h : Stops (front ++ back)) (hf : StandsFor front bytes) : front = [] := by
  cases hf with
  | nil => rfl
  | plain ne tail =>
    rw [List.cons_append] at h
    exact absurd h.head ne
  | escape high low tail =>
    simp only [List.cons_append] at h
    exact absurd ⟨high, .inl low⟩ h.pair
  | half high tail =>
    simp only [List.cons_append] at h
    exact absurd ⟨high, .inr rfl⟩ h.pair

theorem StandsFor.unique (h : StandsFor front bytes) (h' : StandsFor front' bytes')
    (heq : front ++ back = front' ++ back') (hback : Stops back) (hback' : Stops back') :
    front = front' ∧ bytes = bytes' := by
  induction h generalizing front' bytes' with
  | nil =>
    rw [List.nil_append] at heq
    rw [heq] at hback
    obtain rfl := hback.not_standsFor h'
    cases h'
    exact ⟨rfl, rfl⟩
  | @plain x text bytes ne tail ih =>
    cases h' with
    | nil =>
      rw [List.nil_append] at heq
      rw [← heq] at hback'
      cases hback'.not_standsFor (.plain ne tail)
    | plain ne' tail' =>
      simp only [List.cons_append, List.cons.injEq] at heq
      obtain ⟨rfl, heq⟩ := heq
      obtain ⟨rfl, rfl⟩ := ih tail' heq
      exact ⟨rfl, rfl⟩
    | escape high low tail' => exact absurd (List.cons.inj heq).1 ne
    | half high tail' => exact absurd (List.cons.inj heq).1 ne
  | @escape hi lo text bytes high low tail ih =>
    cases h' with
    | nil =>
      rw [List.nil_append] at heq
      rw [← heq] at hback'
      cases hback'.not_standsFor (.escape high low tail)
    | plain ne' tail' => exact absurd (List.cons.inj heq).1.symm ne'
    | escape high' low' tail' =>
      simp only [List.cons_append, List.cons.injEq, true_and] at heq
      obtain ⟨rfl, rfl, heq⟩ := heq
      obtain ⟨rfl, rfl⟩ := ih tail' heq
      exact ⟨rfl, rfl⟩
    | half high' tail' =>
      simp only [List.cons_append, List.cons.injEq, true_and] at heq
      obtain ⟨rfl, rfl, heq⟩ := heq
      exact absurd low not_digit_zero
  | @half hi text bytes high tail ih =>
    cases h' with
    | nil =>
      rw [List.nil_append] at heq
      rw [← heq] at hback'
      cases hback'.not_standsFor (.half high tail)
    | plain ne' tail' => exact absurd (List.cons.inj heq).1.symm ne'
    | escape high' low' tail' =>
      simp only [List.cons_append, List.cons.injEq, true_and] at heq
      obtain ⟨rfl, rfl, heq⟩ := heq
      exact absurd low' not_digit_zero
    | half high' tail' =>
      simp only [List.cons_append, List.cons.injEq, true_and] at heq
      obtain ⟨rfl, heq⟩ := heq
      obtain ⟨rfl, rfl⟩ := ih tail' heq
      exact ⟨rfl, rfl⟩

/-- In a decoded text every escape has its two digits. -/
theorem standsFor_of_decoded (h : decoded text = some bytes) : StandsFor text bytes := by
  induction hn : text.length using Nat.strong_induction_on generalizing text bytes with
  | _ n ih =>
    rcases text_cases text with rfl | ⟨x, rest, rfl, hx⟩ | ⟨hi, lo, rest, rfl⟩ | ⟨rest, rfl, hfew⟩
    · obtain rfl := Option.some.inj h
      exact .nil
    · rw [decoded_plain hx] at h
      obtain ⟨tail, htail, rfl⟩ := Option.map_eq_some_iff.mp h
      exact .plain hx (ih rest.length (by rw [← hn]; exact Nat.lt_succ_self _) htail rfl)
    · rw [decoded_escape] at h
      split at h
      next hdigits =>
        obtain ⟨tail, htail, rfl⟩ := Option.map_eq_some_iff.mp h
        exact .escape hdigits.1 hdigits.2 (ih rest.length (by rw [← hn]; simp only [List.length_cons]; omega) htail rfl)
      next => cases h
    · rw [decoded_short hfew] at h
      cases h

end Texts

section Numbers
variable {float : FloatArith} {hi lo : UInt8}

theorem escapeText_one (h : hi ≠ 0) : escapeText hi 0 = [48, 120, hi] := by
  have htake : escapeText hi 0 = 48 :: 120 :: [hi, 0].takeWhile (· ≠ 0) := rfl
  simp [htake, h]

theorem escapeText_two (h : hi ≠ 0) (h' : lo ≠ 0) : escapeText hi lo = [48, 120, hi, lo] := by
  have htake : escapeText hi lo = 48 :: 120 :: [hi, lo].takeWhile (· ≠ 0) := rfl
  simp [htake, h, h']

theorem ne_zero_of_digit (h : digitOf hi < 16) : hi ≠ 0 := by
  rintro rfl
  exact not_digit_zero h

/-- What the first digit of an escape comes to, whatever the second one is. -/
theorem toInteger_first (hzero : hi ≠ 0) {sum : Except Fault (Option Int)}
    (hsum : ∀ rest, sumDigits float 16 (hi :: rest) 0 = sum) (lo : UInt8) :
    toInteger float (escapeText hi lo) = sum.map (fun ret => ret.map (fun n => int64 (1 * n))) := by
  by_cases hnull : lo = 0
  · rw [hnull, escapeText_one hzero, toInteger_hex _ (List.cons_ne_nil _ _), hsum]
  · rw [escapeText_two hzero hnull, toInteger_hex _ (List.cons_ne_nil _ _), hsum]

theorem toInteger_stuck (h : StuckPair hi lo) : toInteger float (escapeText hi lo) = .error .assertion := by
  obtain ⟨hzero, hneg | ⟨hhigh, hnull, hneg⟩⟩ := h
  · have hsum : ∀ rest, sumDigits float 16 (hi :: rest) 0 = .error .assertion := by
      intro rest
      rw [sumDigits]
      exact if_pos hneg
    exact toInteger_first hzero hsum lo
  · have hdigit := (digitOf_pair hi).mp hhigh
    rw [escapeText_two hzero hnull, toInteger_hex _ (List.cons_ne_nil _ _), sumDigits]
    dsimp only
    rw [if_neg (by omega), if_neg (by omega), sumDigits]
    dsimp only
    rw [if_pos hneg]
    rfl

theorem toInteger_refused (h : RefusedPair hi lo) : toInteger float (escapeText hi lo) = .ok none := by
  rcases h with rfl | hlarge | ⟨hhigh, hlarge⟩
  · rfl
  · have hzero : hi ≠ 0 := by
      rintro rfl
      exact absurd hlarge (by decide)
    have hsum : ∀ rest, sumDigits float 16 (hi :: rest) 0 = .ok none := by
      intro rest
      rw [sumDigits]
      dsimp only
      rw [if_neg (by omega), if_pos hlarge]
    exact toInteger_first hzero hsum lo
  · have hdigit := (digitOf_pair hi).mp hhigh
    have hnull : lo ≠ 0 := by
      rintro rfl
      exact absurd hlarge (by decide)
    rw [escapeText_two (ne_zero_of_digit hhigh) hnull, toInteger_hex _ (List.cons_ne_nil _ _), sumDigits]
    dsimp only
    rw [if_neg (by omega), if_neg (by omega), sumDigits]
    dsimp only
    rw [if_neg (by omega), if_pos hlarge]
    rfl

/-- One or two digits are summed exactly. -/
theorem toInteger_taken (hf : float.Exact) {digits : Bytes} (hne : digits ≠ []) (hall : ∀ b ∈ digits, digitOf b < 16)
    (hlen : digits.length ≤ 2) (hsmall : valueOf 16 digits < 256) :
    toInteger float (48 :: 120 :: digits) = .ok (some (valueOf 16 digits : Nat)) := by
  have hadd : ∀ ret n exponent : Nat, exponent < digits.length → n < 16 → ret + 16 ^ exponent * n ≤ 255 →
      float.toInt64 (float.add (float.ofInt ret) (float.mul (float.pow (float.ofInt (16 : Nat)) (float.ofInt exponent))
        (float.ofInt n))) = ((ret + 16 ^ exponent * n : Nat) : Int) := by
    intro ret n exponent hexp hdigit hsum
    have hpower : (16 : Nat) ^ exponent ≤ 16 ^ 1 := Nat.pow_le_pow_right (by decide) (by omega)
    have hsmallPower : (((16 : Nat) : Int) ^ exponent) < 2^53 := by exact_mod_cast hpower.trans_lt (by decide)
    have hcast : ((ret + 16 ^ exponent * n : Nat) : Int) = ret + ((16 : Nat) : Int) ^ exponent * n := by push_cast; rfl
    rw [hcast]
    exact hf ret n 16 exponent (Nat.le_refl 16) (by omega) (by omega) (by omega) (by omega) hsmallPower
      (by rw [← hcast]; omega)
  have hstart : 0 + valueOf 16 digits ≤ 255 := by omega
  have hsum := sumDigits_value (Nat.le_refl 16) hall hadd hstart
  rw [Nat.zero_add] at hsum
  have hrange : int64 (1 * (valueOf 16 digits : Nat)) = (valueOf 16 digits : Nat) := by
    rw [int64, Int.one_mul]
    exact Int.bmod_eq_of_le (by omega) (by omega)
  rw [toInteger_hex _ hne]
  change (sumDigits float ((16 : Nat) : Int) digits ((0 : Nat) : Int)).map _ = _
  rw [hsum]
  exact congrArg (fun n => Except.ok (some n)) hrange

theorem valueOf_one (hi : UInt8) : valueOf 16 [hi] = digitOf hi := Nat.ofDigits_singleton

theorem valueOf_two (hi lo : UInt8) : valueOf 16 [hi, lo] = 16 * digitOf hi + digitOf lo := by
  rw [valueOf_cons, valueOf_one]
  rfl

theorem charOf_small {n : Nat} (h : n < 256) : charOf n = UInt8.ofNat n := by
  rw [charOf]
  congr 1
  omega

/-- The number of an escape, as the byte that is written. -/
theorem toInteger_pair (hf : float.Exact) (hhigh : digitOf hi < 16) (hlow : digitOf lo < 16) :
    ∃ n, toInteger float (escapeText hi lo) = .ok (some n) ∧ charOf n = UInt8.ofNat (16 * digitOf hi + digitOf lo) := by
  refine ⟨_, ?_, charOf_small (by omega)⟩
  rw [escapeText_two (ne_zero_of_digit hhigh) (ne_zero_of_digit hlow), ← valueOf_two]
  refine toInteger_taken hf (List.cons_ne_nil _ _) (fun b hb => ?_) (Nat.le_refl 2) (by rw [valueOf_two]; omega)
  rcases List.mem_pair.mp hb with rfl | rfl
  · exact hhigh
  · exact hlow

theorem toInteger_half (hf : float.Exact) (hhigh : digitOf hi < 16) :
    ∃ n, toInteger float (escapeText hi 0) = .ok (some n) ∧ charOf n = UInt8.ofNat (digitOf hi) := by
  refine ⟨_, ?_, charOf_small (by omega)⟩
  rw [escapeText_one (ne_zero_of_digit hhigh), ← valueOf_one]
  refine toInteger_taken hf (List.cons_ne_nil _ _) (fun b hb => ?_) (Nat.le_succ 1) (by rw [valueOf_one]; omega)
  rw [List.mem_singleton.mp hb]
  exact hhigh

end Numbers

def Buffer.write (buffer : Buffer) (n : Nat) (bytes : Bytes) : Buffer :=
  { buffer with data := store buffer.data n bytes }

section Decoder
variable {float : FloatArith} {buffer : Buffer} {len i n : Nat}

@[simp] theorem Buffer.write_size (buffer : Buffer) (n : Nat) (bytes : Bytes) :
    (buffer.write n bytes).size = buffer.size := rfl

@[simp] theorem Buffer.write_data (buffer : Buffer) (n : Nat) (bytes : Bytes) :
    (buffer.write n bytes).data = store buffer.data n bytes := rfl

theorem Buffer.write_nil (buffer : Buffer) (n : Nat) : buffer.write n [] = buffer := by
  rw [Buffer.write, store_nil]

theorem Buffer.write_append (buffer : Buffer) (n : Nat) (xs ys : Bytes) :
    (buffer.write n xs).write (n + xs.length) ys = buffer.write n (xs ++ ys) := by
  simp only [Buffer.write, store_append]

theorem Buffer.set_write (h : i < buffer.size) (x : UInt8) : buffer.set i x = .ok (buffer.write i [x]) :=
  buffer_set h x

theorem turn_plain (fuel : Nat) (hi : i < len) (hn : n ≤ i) (hsize : len < buffer.size) (hx : buffer.data i ≠ percent) :
    unescapeLoop float len (fuel + 1) i n buffer = unescapeLoop float len fuel (i + 1) (n + 1)
      (buffer.write n [if buffer.data i = plus then 32 else buffer.data i]) := by
  rw [unescapeLoop, if_pos hi, buffer_get (by omega), fault_ok_bind, if_neg hx]
  by_cases hplus : buffer.data i = plus
  · rw [if_pos hplus, Buffer.set_write (by omega), fault_ok_bind, if_pos hplus]
  · rw [if_neg hplus, Buffer.set_write (by omega), fault_ok_bind, if_neg hplus]

theorem turn_escape (fuel : Nat) (hi : i + 2 < len) (hsize : len < buffer.size) (hx : buffer.data i = percent) :
    unescapeLoop float len (fuel + 1) i n buffer =
      (toInteger float (escapeText (buffer.data (i + 1)) (buffer.data (i + 2))) >>= fun ret =>
        ret.elim (.ok (none, buffer)) (fun value =>
          buffer.set n (charOf value) >>= unescapeLoop float len fuel (i + 3) (n + 1))) := by
  rw [unescapeLoop, if_pos (by omega), buffer_get (by omega), fault_ok_bind, if_pos hx, if_neg (by omega),
    buffer_get (by omega), fault_ok_bind, buffer_get (by omega), fault_ok_bind]
  apply bind_congr
  rintro (_ | value) <;> rfl

theorem turn_short (fuel : Nat) (hi : i < len) (hfew : len ≤ i + 2) (hsize : len < buffer.size)
    (hx : buffer.data i = percent) : unescapeLoop float len (fuel + 1) i n buffer = .ok (none, buffer) := by
  rw [unescapeLoop, if_pos hi, buffer_get (by omega), fault_ok_bind, if_pos hx, if_pos hfew]

end Decoder

/-- In front of its end the decoder gets over a text, and has written these bytes then. -/
def GetsOver (float : FloatArith) (len : Nat) (text bytes : Bytes) : Prop :=
  ∀ (fuel i n : Nat) (buffer : Buffer), i + text.length ≤ len → n ≤ i → len < buffer.size →
    slice buffer.data i text.length = text →
      unescapeLoop float len (bytes.length + fuel) i n buffer =
        unescapeLoop float len fuel (i + text.length) (n + bytes.length) (buffer.write n bytes)

section Progress
variable {float : FloatArith} {len : Nat} {text text' bytes bytes' front back : Bytes} {buffer : Buffer}

/-- It never writes to the part that it has yet to read. -/
theorem GetsOver.append (h : GetsOver float len text bytes) (hle : bytes.length ≤ text.length)
    (h' : GetsOver float len text' bytes') : GetsOver float len (text ++ text') (bytes ++ bytes') := by
  intro fuel i n buffer hi hn hsize hs
  rw [List.length_append] at hi
  obtain ⟨hfirst, hrest⟩ := slice_append _ _ hs
  have hkept : slice (buffer.write n bytes).data (i + text.length) text'.length = text' :=
    (slice_store_past (by omega)).trans hrest
  have hlater := h' fuel (i + text.length) (n + bytes.length) (buffer.write n bytes) (by omega) (by omega) hsize hkept
  rw [List.length_append, Nat.add_assoc, h _ i n buffer (by omega) hn hsize hfirst, hlater, Buffer.write_append,
    List.length_append, Nat.add_assoc, Nat.add_assoc]

theorem getsOver_plain (float : FloatArith) (len : Nat) {x : UInt8} (h : x ≠ percent) :
    GetsOver float len [x] [if x = plus then 32 else x] := by
  intro fuel i n buffer hi hn hsize hs
  obtain ⟨hx, -⟩ := List.cons.inj hs
  rw [List.length_singleton] at hi
  rw [List.length_singleton, Nat.add_comm, turn_plain _ (by omega) hn hsize (hx ▸ h), hx]
  rfl

/-- A percent sign with two bytes behind it. -/
theorem slice_pair {m : Memory} {i : Nat} {hi lo : UInt8} {rest : Bytes}
    (h : slice m i (percent :: hi :: lo :: rest).length = percent :: hi :: lo :: rest) :
    m i = percent ∧ m (i + 1) = hi ∧ m (i + 2) = lo := by
  have hall : [m i, m (i + 1), m (i + 1 + 1)] = [percent, hi, lo] := congrArg (List.take 3) h
  simpa using hall

theorem getsOver_escape (len : Nat) {hi lo b : UInt8}
    (h : ∃ n, toInteger float (escapeText hi lo) = .ok (some n) ∧ charOf n = b) :
    GetsOver float len [percent, hi, lo] [b] := by
  intro fuel i n buffer hle hn hsize hs
  obtain ⟨value, hvalue, rfl⟩ := h
  obtain ⟨hx, hhi, hlo⟩ := slice_pair hs
  have hend : i + 3 ≤ len := hle
  rw [List.length_singleton, Nat.add_comm, turn_escape _ (by omega) hsize hx, hhi, hlo, hvalue, fault_ok_bind,
    Option.elim_some, Buffer.set_write (by omega), fault_ok_bind]
  rfl

/-- The decoder gets over what stands for some bytes. -/
theorem StandsFor.getsOver (hf : float.Exact) (h : StandsFor text bytes) : GetsOver float len text bytes := by
  induction h with
  | nil =>
    intro fuel i n buffer _ _ _ _
    rw [Buffer.write_nil, List.length_nil, Nat.zero_add]
    rfl
  | plain ne _ ih => exact (getsOver_plain float len ne).append (Nat.le_refl 1) ih
  | escape high low _ ih => exact (getsOver_escape len (toInteger_pair hf high low)).append (Nat.le_add_left 1 2) ih
  | half high _ ih => exact (getsOver_escape len (toInteger_half hf high)).append (Nat.le_add_left 1 2) ih

theorem unescapeLoop_reaches (hf : float.Exact) (h : StandsFor front bytes) (hsize : (front ++ back).length < buffer.size)
    (hs : slice buffer.data 0 (front ++ back).length = front ++ back) :
    ∃ fuel, unescapeLoop float (front ++ back).length ((front ++ back).length + 1) 0 0 buffer =
        unescapeLoop float (front ++ back).length (fuel + 1) front.length bytes.length (buffer.write 0 bytes) ∧
      (front ++ back).length < (buffer.write 0 bytes).size ∧
      slice (buffer.write 0 bytes).data front.length back.length = back := by
  have hle := h.length_le
  have hlen : (front ++ back).length = front.length + back.length := List.length_append
  obtain ⟨hfront, hback⟩ := slice_append _ _ hs
  rw [Nat.zero_add] at hback
  refine ⟨front.length + back.length - bytes.length, ?_, hsize, (slice_store_past (by omega)).trans hback⟩
  have hreach := h.getsOver hf (front.length + back.length - bytes.length + 1) 0 0 buffer (by omega) (Nat.le_refl 0) hsize
    hfront
  rw [Nat.zero_add, Nat.zero_add] at hreach
  rw [← hreach]
  congr 1
  omega

/-- A text that stands for some bytes is decoded. -/
theorem unescape_ended (hf : float.Exact) (h : StandsFor text bytes) (hsize : text.length < buffer.size)
    (hs : slice buffer.data 0 text.length = text) :
    unescapeUrlMutate float buffer text.length = .ok (some bytes.length, buffer.write 0 (bytes ++ [0])) := by
  have hle := h.length_le
  have hwhole : text ++ [] = text := List.append_nil text
  obtain ⟨fuel, hreach, -, -⟩ := unescapeLoop_reaches hf h (hwhole.symm ▸ hsize) (hwhole.symm ▸ hs)
  rw [hwhole] at hreach
  have hend : unescapeLoop float text.length (fuel + 1) text.length bytes.length (buffer.write 0 bytes) =
      .ok (some bytes.length, buffer.write 0 bytes) := by
    rw [unescapeLoop, if_neg (Nat.lt_irrefl _)]
  have hset : (buffer.write 0 bytes).set bytes.length 0 = .ok (buffer.write 0 (bytes ++ [0])) := by
    have hwritten := buffer.write_append 0 bytes [0]
    rw [Nat.zero_add] at hwritten
    have hroom : bytes.length < (buffer.write 0 bytes).size := Nat.lt_of_le_of_lt hle hsize
    rw [← hwritten]
    exact Buffer.set_write hroom 0
  rw [unescapeUrlMutate, hreach, hend, fault_ok_bind]
  dsimp only
  rw [hset]
  rfl

/-- It leaves there what it has written so far. -/
theorem unescape_refused (hf : float.Exact) (h : StandsFor front bytes)
    (hsize : (front ++ percent :: back).length < buffer.size)
    (hs : slice buffer.data 0 (front ++ percent :: back).length = front ++ percent :: back) (hback : RefusedEscape back) :
    unescapeUrlMutate float buffer (front ++ percent :: back).length = .ok (none, buffer.write 0 bytes) := by
  obtain ⟨fuel, hreach, hroom, hrest⟩ := unescapeLoop_reaches hf h hsize hs
  rw [unescapeUrlMutate, hreach]
  have hlen : (front ++ percent :: back).length = front.length + (back.length + 1) := List.length_append
  rcases hback with hfew | ⟨hi, lo, rest, rfl, hpair⟩
  · rw [turn_short _ (by omega) (by omega) hroom (List.cons.inj hrest).1]
    rfl
  · obtain ⟨hx, hhi, hlo⟩ := slice_pair hrest
    simp only [List.length_cons] at hlen
    rw [turn_escape _ (by omega) hroom hx, hhi, hlo, toInteger_refused hpair]
    rfl

/-- Where it is stuck, the assertion of the integer parser fails. -/
theorem unescape_stuck (hf : float.Exact) (h : StandsFor front bytes) {hi lo : UInt8}
    (hsize : (front ++ percent :: hi :: lo :: back).length < buffer.size)
    (hs : slice buffer.data 0 (front ++ percent :: hi :: lo :: back).length = front ++ percent :: hi :: lo :: back)
    (hpair : StuckPair hi lo) :
    unescapeUrlMutate float buffer (front ++ percent :: hi :: lo :: back).length = .error .assertion := by
  obtain ⟨fuel, hreach, hroom, hrest⟩ := unescapeLoop_reaches hf h hsize hs
  have hlen : (front ++ percent :: hi :: lo :: back).length = front.length + (back.length + 3) := List.length_append
  obtain ⟨hx, hhi, hlo⟩ := slice_pair hrest
  rw [unescapeUrlMutate, hreach, turn_escape _ (by omega) hroom hx, hhi, hlo, toInteger_stuck hpair]
  rfl

end Progress

/-- No percent sign that the decoder gets to has two bytes behind it for which the integer parser does not return. -/
def NeverStuck (text : Bytes) : Prop :=
  ∀ front bytes hi lo back, text = front ++ percent :: hi :: lo :: back → StandsFor front bytes → ¬ StuckPair hi lo

/-- The call returns: true with the decoded text and a null byte behind it for a text in which every escape has its two
digits, and false for any other. -/
def Unescapes (float : FloatArith) (buffer : Buffer) (len : Nat) : Prop :=
  ∃ ret buffer', unescapeUrlMutate float buffer len = .ok (ret, buffer') ∧
    match decoded (slice buffer.data 0 len) with
    | some bytes => ret = some bytes.length ∧ bytes.length ≤ len ∧ slice buffer'.data 0 bytes.length = bytes ∧
        buffer'.data bytes.length = 0
    | none => ret = none

section Answers
variable {float : FloatArith} {buffer : Buffer} {len : Nat} {text front back bytes : Bytes}

/-- Where the decoder stops before the end, the whole text stands for nothing. -/
theorem not_standsFor_whole (h : StandsFor front bytes) (hback : Stops back) (hne : back ≠ []) {all : Bytes} :
    ¬ StandsFor (front ++ back) all := by
  intro hall
  have heq : (front ++ back) ++ [] = front ++ back := List.append_nil _
  obtain ⟨hfront, -⟩ := hall.unique h heq .ended hback
  exact absurd (List.self_eq_append_right.mp hfront.symm) hne

theorem not_decoded (h : StandsFor front bytes) (hback : Stops back) (hne : back ≠ []) :
    decoded (front ++ back) = none := by
  cases hdecoded : decoded (front ++ back) with
  | none => rfl
  | some all => exact absurd (standsFor_of_decoded hdecoded) (not_standsFor_whole h hback hne)

/-- A text that stands for bytes is decoded to these, if at all. -/
theorem decoded_standsFor (h : StandsFor text bytes) (hne : decoded text ≠ none) : decoded text = some bytes := by
  obtain ⟨all, hall⟩ := Option.ne_none_iff_exists'.mp hne
  obtain ⟨-, rfl⟩ := (standsFor_of_decoded hall).unique h rfl .ended .ended
  exact hall

/-- The decoder is stuck at one place at most. -/
theorem neverStuck_iff (h : StandsFor front bytes) (hback : Stops back) :
    NeverStuck (front ++ back) ↔ ∀ hi lo rest, back = percent :: hi :: lo :: rest → ¬ StuckPair hi lo := by
  constructor
  · rintro hnever hi lo rest rfl
    exact hnever front bytes hi lo rest rfl h
  · intro hfree front' bytes' hi lo back' heq h' hpair
    obtain ⟨rfl, -⟩ := h.unique h' heq hback (.stuck hpair)
    exact hfree hi lo back' (List.append_cancel_left heq) hpair

theorem RefusedEscape.not_stuck (h : RefusedEscape back) {hi lo : UInt8} {rest : Bytes} (heq : back = hi :: lo :: rest) :
    ¬ StuckPair hi lo := by
  subst heq
  rcases h with few | ⟨_, _, _, heq, pair⟩
  · simp only [List.length_cons] at few
    omega
  · simp only [List.cons.injEq] at heq
    obtain ⟨rfl, rfl, -⟩ := heq
    exact fun hstuck => hstuck.not_refused pair

end Answers

/-- The decoder answers as its text is decoded when the integer parser returns for every escape that it gets to, and
when, unless some escape is refused, no percent sign has one digit and a null byte behind it. -/
theorem unescape_iff {float : FloatArith} (hf : float.Exact) (buffer : Buffer) (len : Nat) (hsize : len < buffer.size) :
    Unescapes float buffer len ↔ NeverStuck (slice buffer.data 0 len) ∧
      ∀ bytes, StandsFor (slice buffer.data 0 len) bytes → decoded (slice buffer.data 0 len) ≠ none := by
  have hlen : (slice buffer.data 0 len).length = len := slice_length _ _ _
  obtain ⟨front, back, bytes, htext, h, hstops⟩ := stops_somewhere (slice buffer.data 0 len)
  rw [Unescapes, htext]
  rw [htext] at hlen
  subst hlen
  cases hstops with
  | ended =>
    rw [List.append_nil] at htext hsize ⊢
    have hnever : NeverStuck front := by
      have hfree := (neverStuck_iff h .ended).mpr nofun
      rwa [List.append_nil] at hfree
    have hcall := unescape_ended hf h hsize htext
    constructor
    · rintro ⟨ret, buffer', hret, hanswer⟩
      refine ⟨hnever, fun _ _ hnone => ?_⟩
      rw [hnone] at hanswer
      rw [hcall, hanswer] at hret
      cases hret
    · rintro ⟨-, hwhole⟩
      have hstored : slice (buffer.write 0 (bytes ++ [0])).data 0 (bytes ++ [0]).length = bytes ++ [0] := slice_store
      obtain ⟨hbytes, hnull, -⟩ := slice_append_cons _ _ hstored
      rw [Nat.zero_add] at hnull
      refine ⟨_, _, hcall, ?_⟩
      rw [decoded_standsFor h (hwhole bytes h)]
      exact ⟨rfl, h.length_le, hbytes, hnull⟩
  | refused escape =>
    have hnone := not_decoded h (.refused escape) (List.cons_ne_nil _ _)
    constructor
    · refine fun _ => ⟨(neverStuck_iff h (.refused escape)).mpr fun hi lo rest heq => ?_, fun all hall => ?_⟩
      · exact escape.not_stuck (List.cons.inj heq).2
      · exact absurd hall (not_standsFor_whole h (.refused escape) (List.cons_ne_nil _ _))
    · intro _
      refine ⟨_, _, unescape_refused hf h hsize htext escape, ?_⟩
      rw [hnone]
  | stuck pair =>
    constructor
    · rintro ⟨ret, buffer', hret, -⟩
      rw [unescape_stuck hf h hsize htext pair] at hret
      cases hret
    · rintro ⟨hnever, -⟩
      exact absurd pair (hnever front bytes _ _ _ rfl h)

/-- One escape with its digits. -/
theorem unescape_iff_one : Unescapes machineArith ⟨store (fun _ => 0) 0 (ascii "a%4A"), 5⟩ 4 := by
  have htext : slice (store (fun _ => 0) 0 (ascii "a%4A")) 0 4 = ascii "a%4A" := by decide
  have hfour : digitOf 52 < 16 := by decide
  have hten : digitOf 65 < 16 := by decide
  have h : StandsFor (ascii "a%4A") (ascii "aJ") := .plain (by decide) (.escape hfour hten .nil)
  have hnever := (neverStuck_iff h .ended).mpr nofun
  rw [List.append_nil] at hnever
  refine (unescape_iff machineArith_doubles.exact ⟨store (fun _ => 0) 0 (ascii "a%4A"), 5⟩ 4 (by decide)).mpr ?_
  rw [htext]
  exact ⟨hnever, fun _ _ => by decide⟩

/-- A percent sign with the digit 5 and a null byte behind it is taken for one byte. -/
theorem unescape_fails : ¬ Unescapes machineArith ⟨store (fun _ => 0) 0 [percent, 53, 0], 4⟩ 3 := by
  rintro ⟨ret, buffer', hret, hanswer⟩
  have hcall : (unescapeUrlMutate machineArith ⟨store (fun _ => 0) 0 [percent, 53, 0], 4⟩ 3).map Prod.fst =
      .ok (some 1) := by
    rfl
  rw [hret] at hcall
  have hdecoded : decoded (slice (store (fun _ => 0) 0 [percent, 53, 0]) 0 3) = none := by decide
  rw [hdecoded] at hanswer
  rw [hanswer] at hcall
  cases hcall

end CFlare.Http
