import CFlare.Http.IntegerGrammar

/-! The number that the parser computes. Every digit adds a whole number to a whole number, and as
long as the number that the text denotes is no larger than 2^53 no sum on the way is. -/
namespace CFlare.Http
open CFlare.Library

/-- The value of digits, the first one being the most significant. -/
def valueOf (base : Nat) (digits : Bytes) : Nat := Nat.ofDigits base (digits.reverse.map digitOf)

theorem valueOf_cons (base : Nat) (x : UInt8) (rest : Bytes) :
    valueOf base (x :: rest) = base ^ rest.length * digitOf x + valueOf base rest := by
  rw [valueOf, List.reverse_cons, List.map_append, Nat.ofDigits_append, List.length_map, List.length_reverse,
    List.map_singleton, Nat.ofDigits_singleton, Nat.add_comm]
  rfl

theorem SignText.unit {text : Bytes} {sign : Int} (h : SignText text sign) : sign = 1 ∨ sign = -1 := by
  cases h <;> decide

section Sums
variable {float : FloatArith}

/-- Where every addition on the way is exact, the loop adds the value of the digits that are left to what it has. -/
theorem sumDigits_value {base : Nat} (hbase : base ≤ 16) {digits : Bytes} (hall : ∀ b ∈ digits, digitOf b < base)
    {limit : Nat} (hadd : ∀ ret n exponent : Nat, exponent < digits.length → n < base → ret + base ^ exponent * n ≤ limit →
      float.toInt64 (float.add (float.ofInt ret) (float.mul (float.pow (float.ofInt base) (float.ofInt exponent))
        (float.ofInt n))) = ((ret + base ^ exponent * n : Nat) : Int))
    {ret : Nat} (hsum : ret + valueOf base digits ≤ limit) :
    sumDigits float base digits ret = .ok (some ((ret + valueOf base digits : Nat) : Int)) := by
  induction digits generalizing ret with
  | nil => rfl
  | cons x rest ih =>
    obtain ⟨hx, hrest⟩ := List.forall_mem_cons.mp hall
    rw [valueOf_cons] at hsum ⊢
    have hnumber : charToNumber x = digitOf x := charToNumber_digitOf (Nat.lt_of_lt_of_le hx hbase)
    have hadded := hadd ret (digitOf x) rest.length (Nat.lt_succ_self _) hx (by omega)
    rw [sumDigits, hnumber]
    dsimp only
    rw [if_neg (by omega), if_neg (by omega), hadded, ← Nat.add_assoc]
    exact ih hrest (fun ret n exponent hexp => hadd ret n exponent (Nat.lt_succ_of_lt hexp)) (by omega)

end Sums

/-- A number that is taken is the one that the text denotes, when that has no more than 256 digits and
is no larger than 2^53. -/
theorem integer_value {float : FloatArith} {finite : float.D → Prop} (hf : float.Doubles finite) (str : CString)
    {out result : Int} (h : toIntegerInto float str.bytes out = .ok (true, result)) :
    ∃ n, Denotes str.bytes n ∧ ((digitsOf str.bytes).length ≤ 256 → n.natAbs ≤ 2^53 → result = n) := by
  obtain ⟨ret, hret, hpair⟩ := map_eq_ok.mp h
  obtain ⟨hsome, rfl⟩ := Prod.mk.inj hpair
  obtain ⟨m, rfl⟩ := Option.isSome_iff_exists.mp hsome
  obtain ⟨n, hn⟩ := denotes_some_iff.mpr ⟨m, hret⟩
  refine ⟨n, hn, fun hlen hsmall => ?_⟩
  -- the grammar's text is split as the parser splits it
  obtain ⟨⟨hne, hall⟩, hvalue⟩ := denotes_iff.mp hn
  obtain ⟨baseText, base, hbase, hnumber, -⟩ := baseSplit_spec (signSplit str.bytes).2
  obtain ⟨signText, hsign, -⟩ := signSplit_spec str.bytes
  have hbaseOf : baseOf str.bytes = (base : Nat) := hnumber
  rw [hbaseOf] at hall hvalue
  rw [Int.toNat_natCast] at hvalue
  change n = (signSplit str.bytes).1 * (valueOf base (digitsOf str.bytes) : Nat) at hvalue
  have hdigits : ∀ b ∈ digitsOf str.bytes, digitOf b < base := fun b hb => (digitOf_iff hbase.small b).mpr (hall b hb)
  have hmagnitude : valueOf base (digitsOf str.bytes) ≤ 2^53 := by
    rcases hsign.unit with h | h <;> rw [h] at hvalue <;> omega
  have hadd : ∀ ret n exponent : Nat, exponent < (digitsOf str.bytes).length → n < base →
      ret + base ^ exponent * n ≤ 2^53 → _ :=
    fun _ _ _ hexp hdigit => digit_added hf hbase.small (by omega) hdigit
  have hstart : 0 + valueOf base (digitsOf str.bytes) ≤ 2^53 := by omega
  have hsum := sumDigits_value hbase.small hdigits hadd hstart
  rw [Nat.zero_add] at hsum
  rw [toInteger_eq, if_neg hne, hbaseOf] at hret
  change (sumDigits float base (digitsOf str.bytes) ((0 : Nat) : Int)).map _ = _ at hret
  rw [hsum] at hret
  have hm : int64 ((signSplit str.bytes).1 * (valueOf base (digitsOf str.bytes) : Nat)) = m :=
    Option.some.inj (Except.ok.inj hret)
  have hrange : int64 n = n := by
    rw [int64]
    exact Int.bmod_eq_of_le (by omega) (by omega)
  rw [Option.getD_some, ← hm, ← hvalue, hrange]

/-- A negative hexadecimal number with a leading zero. -/
theorem integer_value_hexadecimal :
    ∃ n, Denotes (ascii "-0x0fF") n ∧ ((digitsOf (ascii "-0x0fF")).length ≤ 256 → n.natAbs ≤ 2^53 → -255 = n) := by
  have hcall : toIntegerInto machineArith (ascii "-0x0fF") 7 = .ok (true, -255) := by decide +kernel
  exact integer_value machineArith_doubles ⟨ascii "-0x0fF", by decide, by decide⟩ hcall

/-- 2^53 + 1 is the first number that is rounded. -/
example : toInteger machineArith (ascii "9007199254740993") = .ok (some 9007199254740992) := by decide +kernel

end CFlare.Http
