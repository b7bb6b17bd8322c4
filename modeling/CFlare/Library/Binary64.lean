import Mathlib.Data.Nat.Log
import Mathlib.Tactic.Ring

/-! Whole numbers in double precision, in the arithmetic of the core library: up to 2^53 they are held as they are,
and no sum or product is rounded that is such a number itself. -/
namespace CFlare.Library
open Float.Model UnpackedFloat

/-- A number as it is held: 53 bits, the first of them set, and an exponent in range. -/
structure Normal (m : Nat) (e : Int) : Prop where
  low : 2^52 ≤ m
  high : m < 2^53
  least : -1074 ≤ e
  greatest : e ≤ 971

section Rounding
variable {m : Nat} {e : Int}

theorem Normal.pos (h : Normal m e) : 0 < m := Nat.lt_of_lt_of_le (by decide) h.low

theorem log2_mul_pow {m : Nat} (hm : m ≠ 0) (k : Nat) : (m * 2^k).log2 = m.log2 + k := by
  apply (Nat.log2_eq_iff (Nat.mul_ne_zero hm (Nat.two_pow_pos k).ne')).mpr
  obtain ⟨hlow, hhigh⟩ := (Nat.log2_eq_iff hm).mp rfl
  refine ⟨?_, ?_⟩
  · rw [Nat.pow_add]
    exact Nat.mul_le_mul_right _ hlow
  · rw [Nat.add_right_comm, Nat.pow_add]
    exact Nat.mul_lt_mul_of_pos_right hhigh (Nat.two_pow_pos k)

theorem Normal.log2 (h : Normal m e) : m.log2 = 52 := (Nat.log2_eq_iff h.pos.ne').mpr ⟨h.low, h.high⟩

/-- The exponent that a number of this size is held with. -/
theorem targetExponent_eq (m : Nat) (e : Int) :
    Format.binary64.targetExponent (totalExponent m e) = max (m.log2 + e - 52) (-1074) := by
  change max ((m.log2 : Int) + 1 + e - (53 : Nat)) (3 - 2^10 - (53 : Nat)) = _
  omega

theorem Normal.target_mul (h : Normal m e) (k : Nat) :
    Format.binary64.targetExponent (totalExponent (m * 2^k) (e - k)) = e := by
  have hleast := h.least
  rw [targetExponent_eq, log2_mul_pow h.pos.ne', h.log2]
  omega

theorem shiftRight_succ (em : ExtendedMantissa) (k : Nat) : em >>> (k + 1) = (em >>> k).shiftRightOne := rfl

theorem shiftRight_mantissa (em : ExtendedMantissa) (k : Nat) : (em >>> k).mantissa = em.mantissa / 2^k := by
  induction k with
  | zero => exact (Nat.div_one _).symm
  | succ k ih =>
    rw [shiftRight_succ, Nat.pow_succ, ← Nat.div_div_eq_div_mul, ← ih]
    rfl

/-- Zeros that are shifted out leave no residue. -/
theorem shiftRight_exact (m k : Nat) : (⟨m * 2^k, false, false⟩ : ExtendedMantissa) >>> k = ⟨m, false, false⟩ := by
  induction k generalizing m with
  | zero =>
    rw [Nat.pow_zero, Nat.mul_one]
    rfl
  | succ k ih =>
    rw [shiftRight_succ, Nat.pow_succ, Nat.mul_comm (2^k), ← Nat.mul_assoc, ih, ExtendedMantissa.shiftRightOne]
    simp

theorem shiftToExponent_exact (m k : Nat) (e : Int) :
    shiftToExponent (m * 2^k) (e - k) .exact e = (⟨m, false, false⟩, e) := by
  have hamount : (e - (e - k)).toNat = k := by omega
  have hexponent : e - k + k = e := by omega
  rw [shiftToExponent, hamount, hexponent]
  exact congrArg (·, e) (shiftRight_exact m k)

theorem Normal.shifted (h : Normal m e) (k : Nat) :
    shiftToTargetExponent Format.binary64 (m * 2^k) (e - k) .exact = (⟨m, false, false⟩, e) := by
  rw [shiftToTargetExponent, h.target_mul]
  exact shiftToExponent_exact m k e

/-- What the first shift leaves is rounded, and shifted once more where that has made it a bit longer. -/
theorem Normal.roundWithAccuracy (h : Normal m e) (s : Sign) {M : Nat} {E : Int} {em : ExtendedMantissa} {k : Nat}
    (hfirst : shiftToTargetExponent Format.binary64 M E .exact = (em, e - k)) (hrounded : em.roundedMantissa = m * 2^k) :
    roundWithAccuracy Format.binary64 s M E .exact = .finite s m e h.pos := by
  rw [UnpackedFloat.roundWithAccuracy, hfirst]
  dsimp only
  rw [hrounded, h.shifted k]
  exact dif_neg h.pos.ne'

/-- A number that 53 bits are enough for is not rounded. -/
theorem Normal.roundWithAccuracy_exact (h : Normal m e) (s : Sign) (k : Nat) :
    UnpackedFloat.roundWithAccuracy Format.binary64 s (m * 2^k) (e - k) .exact = .finite s m e h.pos := by
  have hfirst : shiftToTargetExponent Format.binary64 (m * 2^k) (e - k) .exact =
      (⟨m, false, false⟩, e - (0 : Nat)) := by
    rw [h.shifted k, Nat.cast_zero, Int.sub_zero]
  exact h.roundWithAccuracy s hfirst (Nat.mul_one m).symm

theorem roundedMantissa_bounds (em : ExtendedMantissa) :
    em.mantissa ≤ em.roundedMantissa ∧ em.roundedMantissa ≤ em.mantissa + 1 := by
  obtain ⟨m, round, sticky⟩ := em
  cases round <;> cases sticky
  all_goals
    dsimp only [ExtendedMantissa.roundedMantissa, ExtendedMantissa.accuracy, Accuracy.roundToNearestEven]
    omega

end Rounding

section Packing
variable {m : Nat} {e : Int}

theorem toNat_one_append (v : BitVec 52) : (1#1 ++ v).toNat = 2^52 + v.toNat := by
  rw [BitVec.toNat_append, ← Nat.shiftLeft_add_eq_or_of_lt v.isLt]
  rfl

theorem one_append_pos (v : BitVec 52) : 0 < (1#1 ++ v).toNat := by
  rw [toNat_one_append]
  exact Nat.lt_of_lt_of_le (by decide) (Nat.le_add_right _ _)

private theorem finite_congr {s s' : Sign} {m' : Nat} {e' : Int} (hs : s = s') (hm : m = m') (he : e = e')
    (hpos : 0 < m) (hpos' : 0 < m') : UnpackedFloat.finite s m e hpos = .finite s' m' e' hpos' := by
  subst hs hm he
  rfl

private theorem sign_packComponents (s : Sign) (exponent : BitVec 11) (mantissa : BitVec 52) :
    Sign.ofBitVec (unpackSign (packComponents Format.binary64 s exponent mantissa)) = s := by
  have hsign : (s.toBitVec ++ exponent ++ mantissa).extractLsb' 63 1 = s.toBitVec := by
    rw [BitVec.extractLsb'_append_eq_of_le (by decide), BitVec.extractLsb'_append_eq_of_le (by decide)]
    cases s <;> rfl
  have hback : Sign.ofBitVec s.toBitVec = s := by cases s <;> rfl
  exact (congrArg Sign.ofBitVec hsign).trans hback

private theorem pack_normal (h : Normal m e) (s : Sign) : UnpackedFloat.pack Format.binary64 (.finite s m e h.pos) =
    packComponents Format.binary64 s (BitVec.ofNat 11 (e + 1075).toNat) (BitVec.ofNat 52 m) := by
  have hbias : (e + (Format.binary64.exponentBias : Nat) + (52 : Nat)).toNat = (e + 1075).toNat := by
    change (e + 1023 + 52).toNat = _
    rw [Int.add_assoc]
    rfl
  have hroom : ¬ 2^11 ≤ (e + 1075).toNat + 1 := by
    have hgreatest := h.greatest
    omega
  have hbits : m.log2 + 1 = Format.binary64.mantissaBits := by
    rw [h.log2]
    rfl
  change (if 2^11 ≤ (e + (Format.binary64.exponentBias : Nat) + (52 : Nat)).toNat + 1 then
    packedInfinity Format.binary64 s else if m.log2 + 1 = Format.binary64.mantissaBits then
      packComponents Format.binary64 s
        (BitVec.ofNat 11 (e + (Format.binary64.exponentBias : Nat) + (52 : Nat)).toNat) (BitVec.ofNat 52 m)
      else packComponents Format.binary64 s 0#11 (BitVec.ofNat 52 m)) = _
  rw [hbias, if_neg hroom, if_pos hbits]

private theorem unpack_normal (s : Sign) (exponent : BitVec 11) (mantissa : BitVec 52) (hlow : exponent ≠ 0#11)
    (hhigh : exponent ≠ -1#11) :
    UnpackedFloat.unpack Format.binary64 (packComponents Format.binary64 s exponent mantissa) =
      .finite s (1#1 ++ mantissa).toNat ((exponent.toNat : Int) - 1075) (one_append_pos mantissa) := by
  have hexponent : unpackExponent (packComponents Format.binary64 s exponent mantissa) = exponent :=
    unpackExponent_packComponents
  have hmantissa : unpackMantissa (packComponents Format.binary64 s exponent mantissa) = mantissa :=
    unpackMantissa_packComponents
  have hne : unpackExponent (packComponents Format.binary64 s exponent mantissa) ≠ -1#11 := hexponent.symm ▸ hhigh
  have hne' : unpackExponent (packComponents Format.binary64 s exponent mantissa) ≠ 0#11 := hexponent.symm ▸ hlow
  refine (if_neg hne).trans ((if_neg hne').trans (finite_congr (sign_packComponents s exponent mantissa) ?_ ?_ _ _))
  · rw [hmantissa]
  · rw [hexponent]
    rfl

/-- A number in 53 bits is read back from its word as it was. -/
theorem Normal.unpack_pack (h : Normal m e) (s : Sign) :
    (Float.Model.pack (.finite s m e h.pos)).unpack = .finite s m e h.pos := by
  have hexponent : (BitVec.ofNat 11 (e + 1075).toNat).toNat = (e + 1075).toNat := by
    have hgreatest := h.greatest
    rw [BitVec.toNat_ofNat]
    exact Nat.mod_eq_of_lt (by omega)
  have hne : ∀ n, n = 0 ∨ n = 2047 → (e + 1075).toNat ≠ n := by
    have hleast := h.least
    have hgreatest := h.greatest
    omega
  have hmantissa : (1#1 ++ BitVec.ofNat 52 m).toNat = m := by
    have hlow := h.low
    have hhigh := h.high
    rw [toNat_one_append, BitVec.toNat_ofNat]
    omega
  have hvalue : ((e + 1075).toNat : Int) - 1075 = e := by
    have hleast := h.least
    omega
  have hback := unpack_normal s (BitVec.ofNat 11 (e + 1075).toNat) (BitVec.ofNat 52 m)
    (fun heq => hne 0 (.inl rfl) (hexponent ▸ congrArg BitVec.toNat heq))
    (fun heq => hne 2047 (.inr rfl) (hexponent ▸ congrArg BitVec.toNat heq))
  rw [← pack_normal h s] at hback
  exact hback.trans (finite_congr rfl hmantissa (hexponent.symm ▸ hvalue) _ _)

end Packing

/-- The 53 bits of a whole number that they are enough for. -/
structure Held (n m : Nat) : Prop where
  normal : Normal m (n.log2 - 52)
  value : m * 2^n.log2 = n * 2^52

section Whole
variable {n n₁ n₂ m m₁ m₂ : Nat}

theorem exists_held (hpos : 0 < n) (h : n ≤ 2^53) : ∃ m, Held n m := by
  obtain ⟨hlow, hhigh⟩ := (Nat.log2_eq_iff hpos.ne').mp rfl
  have hlog : n.log2 ≤ 53 := (Nat.pow_le_pow_iff_right (by decide)).mp (hlow.trans h)
  rcases Nat.lt_or_eq_of_le hlog with hlt | heq
  · have hsum : 52 - n.log2 + n.log2 = 52 := by omega
    have hnext : n.log2 + 1 + (52 - n.log2) = 53 := by omega
    have hvalue : n * 2^(52 - n.log2) * 2^n.log2 = n * 2^52 := by rw [Nat.mul_assoc, ← Nat.pow_add, hsum]
    have hleast : 2^52 ≤ n * 2^(52 - n.log2) := by
      have hle := Nat.mul_le_mul_right (2^(52 - n.log2)) hlow
      rwa [← Nat.pow_add, Nat.add_comm, hsum] at hle
    have hmost : n * 2^(52 - n.log2) < 2^53 := by
      have hle := Nat.mul_lt_mul_of_pos_right hhigh (Nat.two_pow_pos (52 - n.log2))
      rwa [← Nat.pow_add, hnext] at hle
    exact ⟨_, ⟨hleast, hmost, by omega, by omega⟩, hvalue⟩
  · have hn : n = 2^53 := Nat.le_antisymm h (heq ▸ hlow)
    refine ⟨2^52, ⟨Nat.le_refl _, by decide, by omega, by omega⟩, ?_⟩
    rw [heq, hn, Nat.mul_comm]

/-- The same number with more bits and a smaller exponent. -/
theorem Held.longer (h : Held n m) {M a b : Nat} (hb : 52 ≤ b) (ha : a ≤ n.log2 + (b - 52))
    (hvalue : M * 2^a = n * 2^b) :
    ∃ k : Nat, M = m * 2^k ∧ (a : Int) - b = n.log2 - 52 - k := by
  refine ⟨n.log2 + (b - 52) - a, ?_, by omega⟩
  apply Nat.eq_of_mul_eq_mul_right (Nat.two_pow_pos a)
  calc M * 2^a = n * 2^52 * 2^(b - 52) := by rw [hvalue, Nat.mul_assoc, ← Nat.pow_add, Nat.add_sub_cancel' hb]
    _ = m * (2^n.log2 * 2^(b - 52)) := by rw [← h.value, Nat.mul_assoc]
    _ = m * 2^(n.log2 + (b - 52) - a) * 2^a := by
      rw [Nat.mul_assoc, ← Nat.pow_add, ← Nat.pow_add, Nat.sub_add_cancel ha]

theorem Held.roundWithAccuracy (h : Held n m) (s : Sign) {M a b : Nat} (hb : 52 ≤ b) (ha : a ≤ n.log2 + (b - 52))
    (hvalue : M * 2^a = n * 2^b) :
    UnpackedFloat.roundWithAccuracy Format.binary64 s M ((a : Int) - b) .exact =
      .finite s m (n.log2 - 52) h.normal.pos := by
  obtain ⟨k, rfl, hexponent⟩ := h.longer hb ha hvalue
  rw [hexponent]
  exact h.normal.roundWithAccuracy_exact s k

/-- Bits are added only to a number whose exponent is too large. -/
theorem round_of_le {M : Nat} {e : Int} (h : e ≤ Format.binary64.targetExponent (totalExponent M e)) (s : Sign) :
    UnpackedFloat.round Format.binary64 s M e = roundWithAccuracy Format.binary64 s M e .exact := by
  have hamount : (e - Format.binary64.targetExponent (totalExponent M e)).toNat = 0 := by omega
  rw [UnpackedFloat.round]
  dsimp only [decreaseExponent]
  rw [hamount, Nat.shiftLeft_zero, Nat.cast_zero, Int.sub_zero]

theorem normalize_pos {M : Nat} (h : 0 < M) (e : Int) (zeroSign : Sign) :
    UnpackedFloat.normalize Format.binary64 M e zeroSign = UnpackedFloat.round Format.binary64 .positive M e := by
  have hgt : compare (M : Int) 0 = .gt := by
    rw [compare_gt_iff_gt]
    exact_mod_cast h
  rw [UnpackedFloat.normalize, hgt]
  rfl

/-- A number of more bits is rounded to 53 of them. -/
theorem round_large (hlow : 53 ≤ n.log2) (hhigh : n.log2 < 1023) (s : Sign) :
    ∃ m e, ∃ h : Normal m e, UnpackedFloat.round Format.binary64 s n 0 = .finite s m e h.pos := by
  have hne : n ≠ 0 := by
    rintro rfl
    exact absurd hlow (by decide)
  obtain ⟨hfloor, hceil⟩ := (Nat.log2_eq_iff hne).mp rfl
  obtain ⟨k, hk⟩ := Nat.exists_eq_add_of_le' (Nat.le_of_succ_le hlow)
  have htarget : Format.binary64.targetExponent (totalExponent n 0) = k := by
    rw [targetExponent_eq]
    omega
  have hamount : ((k : Int) - 0).toNat = k := by omega
  let em : ExtendedMantissa := (⟨n, false, false⟩ : ExtendedMantissa) >>> k
  have hfirst : shiftToTargetExponent Format.binary64 n 0 .exact = (em, (k : Int)) := by
    rw [shiftToTargetExponent, htarget, shiftToExponent, hamount, Int.zero_add]
    rfl
  have hdivided : 2^52 ≤ n / 2^k ∧ n / 2^k < 2^53 := by
    rw [hk] at hfloor hceil
    have hnext : 53 + k = k + 52 + 1 := by omega
    refine ⟨(Nat.le_div_iff_mul_le (Nat.two_pow_pos k)).mpr ?_, (Nat.div_lt_iff_lt_mul (Nat.two_pow_pos k)).mpr ?_⟩
    · rw [← Nat.pow_add, Nat.add_comm]
      exact hfloor
    · rw [← Nat.pow_add, hnext]
      exact hceil
  have hmantissa : em.mantissa = n / 2^k := shiftRight_mantissa _ k
  obtain ⟨hleast, hmost⟩ := roundedMantissa_bounds em
  rw [hmantissa] at hleast hmost
  rw [round_of_le (by omega)]
  rcases Nat.lt_or_ge em.roundedMantissa (2^53) with hlt | hge
  · have hzero : (k : Int) - (0 : Nat) = k := Int.sub_zero _
    have hnormal : Normal _ (k : Int) := ⟨hdivided.1.trans hleast, hlt, by omega, by omega⟩
    rw [← hzero] at hfirst
    exact ⟨_, _, hnormal, hnormal.roundWithAccuracy s hfirst (Nat.mul_one _).symm⟩
  · have hone : (k : Int) + 1 - (1 : Nat) = k := by omega
    have hnormal : Normal (2^52) ((k : Int) + 1) := ⟨Nat.le_refl _, by decide, by omega, by omega⟩
    rw [← hone] at hfirst
    exact ⟨_, _, hnormal, hnormal.roundWithAccuracy s hfirst (by omega)⟩

theorem Held.pos (h : Held n m) : 0 < n := by
  apply Nat.pos_of_ne_zero
  rintro rfl
  have hvalue := h.value
  rw [Nat.zero_mul] at hvalue
  exact absurd hvalue (Nat.mul_ne_zero h.normal.pos.ne' (Nat.two_pow_pos _).ne')

theorem Held.ofInt (h : Held n m) :
    UnpackedFloat.ofInt Format.binary64 n = .finite .positive m (n.log2 - 52) h.normal.pos := by
  rw [UnpackedFloat.ofInt, normalize_pos h.pos]
  have htarget := targetExponent_eq n 0
  rcases Nat.lt_or_ge n.log2 52 with hlt | hge
  · have hamount : (0 - Format.binary64.targetExponent (totalExponent n 0)).toNat = 52 - n.log2 := by omega
    have hexponent : (0 : Int) - ((52 - n.log2 : Nat) : Int) = (n.log2 : Nat) - (52 : Nat) := by omega
    have hsame : n * 2^(52 - n.log2) * 2^n.log2 = n * 2^52 := by
      rw [Nat.mul_assoc, ← Nat.pow_add, Nat.sub_add_cancel hlt.le]
    rw [UnpackedFloat.round]
    dsimp only [decreaseExponent]
    rw [hamount, hexponent, Nat.shiftLeft_eq]
    exact h.roundWithAccuracy .positive (Nat.le_refl 52) (Nat.le_add_right _ _) hsame
  · have hround := h.roundWithAccuracy .positive (Nat.le_refl 52) (Nat.le_trans hge (Nat.le_add_right _ _))
      (Eq.refl (n * 2^52))
    rw [Int.sub_self] at hround
    rw [round_of_le (by omega)]
    exact hround

theorem Held.mul (h₁ : Held n₁ m₁) (h₂ : Held n₂ m₂) (h : Held (n₁ * n₂) m) :
    UnpackedFloat.mul Format.binary64 (.finite .positive m₁ (n₁.log2 - 52) h₁.normal.pos)
      (.finite .positive m₂ (n₂.log2 - 52) h₂.normal.pos) =
      .finite .positive m ((n₁ * n₂).log2 - 52) h.normal.pos := by
  have hlog : n₁.log2 + n₂.log2 ≤ (n₁ * n₂).log2 + (104 - 52) := by
    have hlow : 2^(n₁.log2 + n₂.log2) ≤ n₁ * n₂ := by
      rw [Nat.pow_add]
      exact Nat.mul_le_mul (Nat.log2_self_le h₁.pos.ne') (Nat.log2_self_le h₂.pos.ne')
    exact Nat.le_trans ((Nat.le_log2 h.pos.ne').mpr hlow) (Nat.le_add_right _ _)
  have hvalue : m₁ * m₂ * 2^(n₁.log2 + n₂.log2) = n₁ * n₂ * 2^104 := by
    calc m₁ * m₂ * 2^(n₁.log2 + n₂.log2) = m₁ * 2^n₁.log2 * (m₂ * 2^n₂.log2) := by ring
      _ = n₁ * n₂ * 2^104 := by rw [h₁.value, h₂.value]; ring
  have hexponent : (n₁.log2 : Int) - 52 + (n₂.log2 - 52) = (n₁.log2 + n₂.log2 : Nat) - (104 : Nat) := by omega
  have hround := h.roundWithAccuracy .positive (show 52 ≤ 104 by decide) hlog hvalue
  rw [← hexponent] at hround
  exact hround

private theorem shifted_value (h : Held n m) {l : Nat} (hl : l ≤ n.log2) :
    m <<< (n.log2 - l) * 2^l = n * 2^52 := by
  rw [Nat.shiftLeft_eq, Nat.mul_assoc, ← Nat.pow_add, Nat.sub_add_cancel hl, h.value]

theorem Held.add (h₁ : Held n₁ m₁) (h₂ : Held n₂ m₂) (h : Held (n₁ + n₂) m) :
    UnpackedFloat.add Format.binary64 (.finite .positive m₁ (n₁.log2 - 52) h₁.normal.pos)
      (.finite .positive m₂ (n₂.log2 - 52) h₂.normal.pos) =
      .finite .positive m ((n₁ + n₂).log2 - 52) h.normal.pos := by
  have hmin : min ((n₁.log2 : Int) - 52) (n₂.log2 - 52) = (min n₁.log2 n₂.log2 : Nat) - (52 : Nat) := by omega
  have hfirst : ((n₁.log2 : Int) - 52 - ((min n₁.log2 n₂.log2 : Nat) - (52 : Nat))).toNat =
      n₁.log2 - min n₁.log2 n₂.log2 := by omega
  have hsecond : ((n₂.log2 : Int) - 52 - ((min n₁.log2 n₂.log2 : Nat) - (52 : Nat))).toNat =
      n₂.log2 - min n₁.log2 n₂.log2 := by omega
  have hvalue : (m₁ <<< (n₁.log2 - min n₁.log2 n₂.log2) + m₂ <<< (n₂.log2 - min n₁.log2 n₂.log2)) *
      2^(min n₁.log2 n₂.log2) = (n₁ + n₂) * 2^52 := by
    rw [Nat.add_mul, Nat.add_mul, shifted_value h₁ (Nat.min_le_left _ _), shifted_value h₂ (Nat.min_le_right _ _)]
  have hlog : min n₁.log2 n₂.log2 ≤ (n₁ + n₂).log2 := by
    have hlow : 2^n₁.log2 ≤ n₁ + n₂ := Nat.le_trans (Nat.log2_self_le h₁.pos.ne') (Nat.le_add_right _ _)
    exact Nat.le_trans (Nat.min_le_left _ _) ((Nat.le_log2 h.pos.ne').mpr hlow)
  obtain ⟨k, hlonger, hexponent⟩ := h.longer (Nat.le_refl 52) hlog hvalue
  have hadd : ∀ e e' : Int, UnpackedFloat.add Format.binary64 (.finite .positive m₁ e h₁.normal.pos)
      (.finite .positive m₂ e' h₂.normal.pos) = UnpackedFloat.normalize Format.binary64
        ((m₁ <<< (e - min e e').toNat : Nat) + (m₂ <<< (e' - min e e').toNat : Nat)) (min e e') .positive :=
    fun _ _ => rfl
  rw [hadd, hmin, hfirst, hsecond, ← Nat.cast_add, hlonger, hexponent,
    normalize_pos (Nat.mul_pos h.normal.pos (Nat.two_pow_pos k)), round_of_le]
  · exact h.normal.roundWithAccuracy_exact .positive k
  · rw [h.normal.target_mul k]
    omega

theorem Held.roundToInt (h : Held n m) : roundToInt .positive m (n.log2 - 52) = n := by
  have hvalue := h.value
  rw [UnpackedFloat.roundToInt]
  dsimp only [decreaseExponent]
  rcases Nat.lt_or_ge n.log2 52 with hlt | hge
  · have hamount : ((n.log2 : Int) - 52 - 0).toNat = 0 := by omega
    have hexponent : (n.log2 : Int) - 52 - (0 : Nat) = 0 - (52 - n.log2 : Nat) := by omega
    have hm : m = n * 2^(52 - n.log2) := by
      apply Nat.eq_of_mul_eq_mul_right (Nat.two_pow_pos n.log2)
      rw [hvalue, Nat.mul_assoc, ← Nat.pow_add, Nat.sub_add_cancel hlt.le]
    rw [hamount, hexponent, Nat.shiftLeft_zero, hm, shiftToExponent_exact]
    rfl
  · have hamount : ((n.log2 : Int) - 52 - 0).toNat = n.log2 - 52 := by omega
    have hexponent : (n.log2 : Int) - 52 - (n.log2 - 52 : Nat) = 0 - (0 : Nat) := by omega
    have hm : m <<< (n.log2 - 52) = n * 2^0 := by
      rw [Nat.shiftLeft_eq, Nat.pow_zero, Nat.mul_one]
      apply Nat.eq_of_mul_eq_mul_right (Nat.two_pow_pos 52)
      rw [← hvalue, Nat.mul_assoc, ← Nat.pow_add, Nat.sub_add_cancel hge]
    rw [hamount, hexponent, hm, shiftToExponent_exact]
    rfl

end Whole

section Words
variable {m n : Nat}

theorem Held.unpack (h : Held n m) :
    (Float.Model.ofInt n).unpack = .finite .positive m (n.log2 - 52) h.normal.pos := by
  rw [Float.Model.ofInt, h.ofInt, h.normal.unpack_pack]

theorem Held.ofInt_eq (h : Held n m) :
    Float.Model.ofInt n = .pack (.finite .positive m (n.log2 - 52) h.normal.pos) := by
  rw [Float.Model.ofInt, h.ofInt]

theorem unpack_zero : (Float.Model.ofInt 0).unpack = .zero .positive := rfl

/-- A whole number up to 2^53 is turned into a double and back without a change. -/
theorem toInt_ofInt (h : n ≤ 2^53) (negativeInfinity positiveInfinity : Int) :
    (Float.Model.ofInt n).unpack.toInt negativeInfinity positiveInfinity = n := by
  rcases Nat.eq_zero_or_pos n with rfl | hpos
  · exact congrArg (UnpackedFloat.toInt _ _) unpack_zero
  · obtain ⟨m, hm⟩ := exists_held hpos h
    rw [hm.unpack]
    exact hm.roundToInt

/-- Neither negative nor infinite. -/
def Nonneg (f : Float.Model) : Prop :=
  f.unpack = .zero .positive ∨ ∃ m e h, f.unpack = .finite .positive m e h

theorem Nonneg.mul_zero {f : Float.Model} (h : Nonneg f) : Float.Model.mul f (.ofInt 0) = .ofInt 0 := by
  rw [Float.Model.mul, unpack_zero]
  rcases h with h | ⟨m, e, hm, h⟩
  · rw [h]
    rfl
  · rw [h]
    rfl

/-- Numbers that are rounded are held too, below the largest exponent. -/
theorem ofInt_nonneg (h : n.log2 < 1023) : Nonneg (.ofInt n) := by
  rcases Nat.eq_zero_or_pos n with rfl | hpos
  · exact .inl unpack_zero
  rcases Nat.lt_or_ge n.log2 53 with hlt | hge
  · obtain ⟨m, hm⟩ := exists_held hpos ((Nat.log2_lt hpos.ne').mp hlt).le
    exact .inr ⟨m, _, _, hm.unpack⟩
  · obtain ⟨m, e, hm, hround⟩ := round_large hge h .positive
    refine .inr ⟨m, e, hm.pos, ?_⟩
    rw [Float.Model.ofInt, UnpackedFloat.ofInt, normalize_pos hpos, hround, hm.unpack_pack]

theorem log2_lt_of_le (h : n ≤ 2^53) : n.log2 < 1023 := by
  rcases Nat.eq_zero_or_pos n with rfl | hpos
  · decide
  · exact Nat.lt_of_le_of_lt ((Nat.pow_le_pow_iff_right (by decide)).mp ((Nat.log2_self_le hpos.ne').trans h)) (by decide)

/-- The product of two whole numbers is exact when it is no larger than 2^53. -/
theorem mul_ofInt (hm : m ≤ 2^53) (hn : n ≤ 2^53) (h : m * n ≤ 2^53) :
    Float.Model.mul (.ofInt m) (.ofInt n) = .ofInt ((m * n : Nat) : Int) := by
  rcases Nat.eq_zero_or_pos n with rfl | hnpos
  · exact (ofInt_nonneg (log2_lt_of_le hm)).mul_zero
  rcases Nat.eq_zero_or_pos m with rfl | hmpos
  · obtain ⟨a, ha⟩ := exists_held hnpos hn
    rw [Nat.zero_mul, Float.Model.mul, ha.unpack]
    rfl
  · obtain ⟨a, ha⟩ := exists_held hmpos hm
    obtain ⟨b, hb⟩ := exists_held hnpos hn
    obtain ⟨c, hc⟩ := exists_held (Nat.mul_pos hmpos hnpos) h
    rw [Float.Model.mul, ha.unpack, hb.unpack, ha.mul hb hc, hc.ofInt_eq]

/-- So is a sum. -/
theorem add_ofInt (h : m + n ≤ 2^53) :
    Float.Model.add (.ofInt m) (.ofInt n) = .ofInt ((m + n : Nat) : Int) := by
  rcases Nat.eq_zero_or_pos m with rfl | hmpos
  · rcases Nat.eq_zero_or_pos n with rfl | hnpos
    · rfl
    · obtain ⟨b, hb⟩ := exists_held hnpos (by omega)
      rw [Nat.zero_add, Float.Model.add, hb.unpack, hb.ofInt_eq]
      rfl
  rcases Nat.eq_zero_or_pos n with rfl | hnpos
  · obtain ⟨a, ha⟩ := exists_held hmpos (by omega)
    rw [Nat.add_zero, Float.Model.add, ha.unpack, ha.ofInt_eq]
    rfl
  · obtain ⟨a, ha⟩ := exists_held hmpos (by omega)
    obtain ⟨b, hb⟩ := exists_held hnpos (by omega)
    obtain ⟨c, hc⟩ := exists_held (Nat.add_pos_left hmpos n) h
    rw [Float.Model.add, ha.unpack, hb.unpack, ha.add hb hc, hc.ofInt_eq]

end Words

end CFlare.Library
