import CFlare.Http.UrlEscapes
import CFlare.Http.QuerySegments

/-! Query texts and their parameters. An encoded byte is itself, an escape, or a plus sign for a
space; decoding undoes every encoding. -/
namespace CFlare.Http
open CFlare.Library

/-- A hexadecimal digit of either case. -/
def HexDigit (d : Nat) (c : UInt8) : Prop :=
  (ascii "0123456789abcdef")[d]? = some c ∨ (ascii "0123456789ABCDEF")[d]? = some c

/-- How a byte may be written. Only a value has equals signs in it. -/
inductive EncodesByte (inKey : Bool) : UInt8 → Bytes → Prop where
  | literal {b : UInt8} (ampersand : b ≠ ampersand) (percent : b ≠ percent) (plus : b ≠ plus)
      (equals : inKey = true → b ≠ equals) : EncodesByte inKey b [b]
  | escape {d₁ d₂ : Nat} {c₁ c₂ : UInt8} (h₁ : HexDigit d₁ c₁) (h₂ : HexDigit d₂ c₂) :
      EncodesByte inKey (UInt8.ofNat (16 * d₁ + d₂)) [percent, c₁, c₂]
  | space : EncodesByte inKey 32 [plus]

inductive Encodes (inKey : Bool) : Bytes → Bytes → Prop where
  | nil : Encodes inKey [] []
  | cons {b : UInt8} {code bytes text : Bytes} (head : EncodesByte inKey b code)
      (tail : Encodes inKey bytes text) : Encodes inKey (b :: bytes) (code ++ text)

def EncodesParameter (p : Parameter) (text : Bytes) : Prop :=
  ∃ key value, Encodes true p.key key ∧ Encodes false p.value value ∧ text = key ++ equals :: value

/-- Parameters joined by ampersands. -/
inductive EncodesQuery : List Parameter → Bytes → Prop where
  | nil : EncodesQuery [] []
  | last {p : Parameter} {text : Bytes} (h : EncodesParameter p text) : EncodesQuery [p] text
  | cons {p q : Parameter} {ps : List Parameter} {text rest : Bytes} (h : EncodesParameter p text)
      (tail : EncodesQuery (q :: ps) rest) : EncodesQuery (p :: q :: ps) (text ++ ampersand :: rest)

theorem HexDigit.number {d : Nat} {c : UInt8} (h : HexDigit d c) :
    d < 16 ∧ digitOf c = d ∧ c ≠ ampersand ∧ c ≠ equals := by
  have hd : d < 16 := by
    rcases h with h | h
    all_goals exact (List.getElem?_eq_some_iff.mp h).1
  refine ⟨hd, ?_⟩
  have hall : ∀ d < 16, ∀ digits ∈ [ascii "0123456789abcdef", ascii "0123456789ABCDEF"],
      digitOf (digits.getD d 0) = d ∧ digits.getD d 0 ≠ ampersand ∧ digits.getD d 0 ≠ equals := by decide
  rcases h with h | h
  · have hc : (ascii "0123456789abcdef").getD d 0 = c := by rw [List.getD_eq_getElem?_getD, h]; rfl
    rw [← hc]
    exact hall d hd _ (by simp)
  · have hc : (ascii "0123456789ABCDEF").getD d 0 = c := by rw [List.getD_eq_getElem?_getD, h]; rfl
    rw [← hc]
    exact hall d hd _ (by simp)

section Texts
variable {inKey : Bool} {bytes text : Bytes}

/-- No encoded byte ends its key or value. -/
theorem Encodes.stops (h : Encodes inKey bytes text) :
    ∀ x ∈ text, x ≠ ampersand ∧ (inKey = true → x ≠ equals) := by
  induction h with
  | nil =>
    intro x hx
    cases hx
  | cons head tail ih =>
    intro x hx
    rcases List.mem_append.mp hx with hx | hx
    · cases head with
      | literal hamp hpercent hplus heq =>
        obtain rfl := List.mem_singleton.mp hx
        exact ⟨hamp, heq⟩
      | escape h₁ h₂ =>
        simp only [List.mem_cons, List.not_mem_nil, or_false] at hx
        rcases hx with rfl | rfl | rfl
        · exact ⟨by decide, fun _ => by decide⟩
        · exact ⟨h₁.number.2.2.1, fun _ => h₁.number.2.2.2⟩
        · exact ⟨h₂.number.2.2.1, fun _ => h₂.number.2.2.2⟩
      | space =>
        obtain rfl := List.mem_singleton.mp hx
        exact ⟨by decide, fun _ => by decide⟩
    · exact ih x hx

/-- The encoding of bytes stands for them. -/
theorem Encodes.standsFor (h : Encodes inKey bytes text) : StandsFor text bytes := by
  induction h with
  | nil => exact .nil
  | @cons b code bytes text head tail ih =>
    cases head with
    | literal hamp hpercent hplus heq =>
      have hplain := StandsFor.plain hpercent ih
      rwa [if_neg hplus] at hplain
    | escape h₁ h₂ =>
      obtain ⟨hd₁, rfl, -⟩ := h₁.number
      obtain ⟨hd₂, rfl, -⟩ := h₂.number
      exact .escape hd₁ hd₂ ih
    | space => exact .plain (by decide) ih

end Texts

section Decoding
variable {float : FloatArith} {inKey : Bool}

theorem finishSegment_spec (hfloat : float.Exact) {bytes text : Bytes} (he : Encodes inKey bytes text) {buffer : Buffer}
    (hb : buffer.Has text) :
    ∃ buffer', finishSegment float buffer text.length = .ok (bytes.length, buffer') ∧
      slice buffer'.data 0 bytes.length = bytes ∧ buffer'.Grown := by
  refine ⟨buffer.write 0 (bytes ++ [0]), ?_, (slice_append _ _ slice_store).1, hb.grown⟩
  rw [finishSegment, unescape_ended hfloat he.standsFor hb.room hb.bytes]
  rfl

private theorem parseParameters_step (hfloat : float.Exact) {p : Parameter} {text : Bytes}
    (hp : EncodesParameter p text) {input pre post : Bytes} (hin : input = pre ++ (text ++ post))
    (hpost : post = [] ∨ ∃ rest, post = ampersand :: rest) (hmem : ReallocSucceeds input) (fuel : Nat)
    {key value : Buffer} (hk : key.Grown) (hv : value.Grown) :
    ∃ key' value', key'.Grown ∧ value'.Grown ∧
      parseParameters float input (fuel + 1) pre.length key value =
        (parseParameters float input fuel (pre.length + text.length + 1) key' value').map (p :: ·) := by
  obtain ⟨k, v, hek, hev, rfl⟩ := hp
  have hinside : ampersand ∉ k ++ equals :: v := by
    intro hx
    rcases List.mem_append.mp hx with hx | hx
    · exact (hek.stops _ hx).1 rfl
    · rcases List.mem_cons.mp hx with hx | hx
      · exact absurd hx (by decide)
      · exact (hev.stops _ hx).1 rfl
  obtain ⟨hkeyText, hvalueText⟩ := texts_of_equals (fun hx => (hek.stops _ hx).2 rfl rfl) v
  obtain ⟨key₁, value₁, hhasKey, hhasVal, hturn⟩ :=
    parseParameters_turn float hin hinside hpost (by simp) hmem fuel hk hv
  rw [hkeyText] at hhasKey
  rw [hvalueText] at hhasVal
  obtain ⟨key', hfinishKey, hkey, hkey'⟩ := finishSegment_spec hfloat hek hhasKey
  obtain ⟨value', hfinishVal, hvalue, hvalue'⟩ := finishSegment_spec hfloat hev hhasVal
  refine ⟨key', value', hkey', hvalue', ?_⟩
  rw [hturn, hkeyText, hvalueText, finishParameter, hfinishKey, fault_ok_bind]
  dsimp only
  rw [hfinishVal, fault_ok_bind]
  dsimp only
  rw [hkey, hvalue]
  cases parseParameters float input fuel (pre.length + (k ++ equals :: v).length + 1) key' value' <;> rfl

theorem EncodesParameter.pos {p : Parameter} {text : Bytes} (h : EncodesParameter p text) : 0 < text.length := by
  obtain ⟨k, v, -, -, rfl⟩ := h
  rw [List.length_append, List.length_cons]
  omega

private theorem parseParameters_spec (hfloat : float.Exact) {ps : List Parameter} {text : Bytes}
    (h : EncodesQuery ps text) {input pre : Bytes} (hin : input = pre ++ text) (hmem : ReallocSucceeds input)
    {fuel : Nat} (hf : text.length < fuel) {key value : Buffer} (hk : key.Grown) (hv : value.Grown) :
    parseParameters float input fuel pre.length key value = .ok ps := by
  induction h generalizing pre fuel key value with
  | nil =>
    rw [List.append_nil] at hin
    exact parseParameters_end float input (Nat.zero_lt_of_lt hf) (by rw [hin]) key value
  | @last p text hp =>
    obtain ⟨fuel, rfl⟩ : ∃ f, fuel = f + 1 := ⟨fuel - 1, by omega⟩
    have hlast : input = pre ++ (text ++ []) := hin.trans (by rw [List.append_nil])
    obtain ⟨key', value', -, -, hstep⟩ := parseParameters_step hfloat hp hlast (.inl rfl) hmem fuel hk hv
    have hpos := hp.pos
    rw [hstep, parseParameters_end float input (by omega) (by rw [hin, List.length_append]; omega)]
    rfl
  | @cons p q ps text rest hp tail ih =>
    obtain ⟨fuel, rfl⟩ : ∃ f, fuel = f + 1 := ⟨fuel - 1, by omega⟩
    obtain ⟨key', value', hk', hv', hstep⟩ := parseParameters_step hfloat hp hin (.inr ⟨rest, rfl⟩) hmem fuel hk hv
    have hnext : parseParameters float input fuel (pre ++ text ++ [ampersand]).length key' value' = .ok (q :: ps) := by
      apply ih
      · rw [hin]
        simp
      · rw [List.length_append, List.length_cons] at hf
        omega
      · exact hk'
      · exact hv'
    rw [hstep, show pre.length + text.length + 1 = (pre ++ text ++ [ampersand]).length by simp [Nat.add_assoc],
      hnext]
    rfl

/-- Whatever way the parameters are encoded, the callback gets exactly them, in order. -/
theorem urlParseQuery_decodes (hfloat : float.Exact) (key value : Memory) {ps : List Parameter} {text : Bytes}
    (h : EncodesQuery ps text) (hshort : text.length < 2^63) :
    urlParseQuery float key value (some text) = .ok ps := by
  rw [urlParseQuery]
  exact parseParameters_spec hfloat h (List.nil_append text).symm (reallocSucceeds_of_lt hshort) (Nat.lt_succ_self _)
    (grown_start key) (grown_start value)

end Decoding

/-- The text a=%4a&b+=. -/
theorem urlParseQuery_decodes_two :
    urlParseQuery machineArith (fun _ => 0) (fun _ => 0) (some (ascii "a=%4a&b+=")) =
      .ok [⟨ascii "a", ascii "J"⟩, ⟨ascii "b ", []⟩] := by
  have ha : EncodesByte true 97 [97] := .literal (by decide) (by decide) (by decide) (fun _ => by decide)
  have hb : EncodesByte true 98 [98] := .literal (by decide) (by decide) (by decide) (fun _ => by decide)
  have hfour : HexDigit 4 52 := .inl rfl
  have hten : HexDigit 10 97 := .inl rfl
  have hfirst : EncodesParameter ⟨ascii "a", ascii "J"⟩ (ascii "a=%4a") :=
    ⟨_, _, .cons ha .nil, .cons (.escape hfour hten) .nil, rfl⟩
  have hsecond : EncodesParameter ⟨ascii "b ", []⟩ (ascii "b+=") :=
    ⟨_, _, .cons hb (.cons .space .nil), .nil, rfl⟩
  have hquery : EncodesQuery [⟨ascii "a", ascii "J"⟩, ⟨ascii "b ", []⟩] (ascii "a=%4a&b+=") :=
    .cons hfirst (.last hsecond)
  have hlength : (ascii "a=%4a&b+=").length = 9 := rfl
  have hshort : (ascii "a=%4a&b+=").length < 2^63 := by omega
  exact urlParseQuery_decodes machineArith_doubles.exact _ _ hquery hshort

end CFlare.Http
