import CFlare.CommandLine.OptionParsing
import CFlare.Http.IntegerGrammar

/-! Reading an option's value. The table copies the value's bytes without a null byte behind them,
and the getters look for one. -/
namespace CFlare.CommandLine
open CFlare.Library CFlare.Storage CFlare.Http

/-- The string at the start of an object, up to its null byte. -/
def stringOf : Bytes → Except Fault Bytes
  | [] => .error .overrun
  | b :: rest => if b = 0 then .ok [] else (stringOf rest).map (b :: ·)

/-- Whether `strcmp` finds the string at the start of an object equal to a literal: it reads up to the
first difference. -/
def sameText : Bytes → Bytes → Except Fault Bool
  | [], _ => .error .overrun
  | b :: _, [] => .ok (b = 0)
  | b :: rest, c :: text => if b = c then sameText rest text else .ok false

def anySame (value : Bytes) : List Bytes → Except Fault Bool
  | [] => .ok false
  | text :: texts => do
    if ← sameText value text then .ok true else anySame value texts

def falseTexts : List Bytes := [ascii "false", ascii "0", ascii "no", ascii "off"]

def optionsBoolean (options : Options) (name : CString) (fallback : Bool) : Except Fault Bool := do
  match ← options.optHashtable.get (hashCompute name.bytes) with
  | none => .ok fallback
  | some value =>
    if value.size = 0 then .ok true
    else if value.size = 1 then
      match value.data with
      | [] => .error .overrun
      | b :: _ => .ok (b ≠ 48)
    else do
      let off ← anySame value.data falseTexts
      .ok (!off)

def optionsInteger (float : FloatArith) (options : Options) (name : CString) (fallback : Int) : Except Fault Int := do
  match ← options.optHashtable.get (hashCompute name.bytes) with
  | none => .ok fallback
  | some value =>
    let str ← stringOf value.data
    let ret ← toInteger float str
    .ok (ret.getD fallback)

/-- The object that the result points to. -/
def optionsString (options : Options) (name : CString) (fallback : Option Bytes) : Except Fault (Option Bytes) := do
  match ← options.optHashtable.get (hashCompute name.bytes) with
  | none => .ok fallback
  | some value => .ok (some value.data)

/-- The value is read back as the string it is. -/
def StringBack (options : Options) (name : CString) (value : Bytes) : Prop :=
  ∀ fallback, ∃ object, optionsString options name fallback = .ok (some object) ∧ stringOf object = .ok value

def BooleanBack (options : Options) (name : CString) (value : Bytes) : Prop :=
  ∀ fallback, ∃ ret, optionsBoolean options name fallback = .ok ret ∧ (ret = false ↔ value ∈ falseTexts)

def IntegerBack (float : FloatArith) (options : Options) (name : CString) (value : Bytes) : Prop :=
  ∀ fallback, optionsInteger float options name fallback = (toInteger float value).map (fun ret => ret.getD fallback)

section Texts
variable {value : Bytes}

theorem stringOf_overrun (h : (0 : UInt8) ∉ value) : stringOf value = .error .overrun := by
  induction value with
  | nil => rfl
  | cons b value ih =>
    obtain ⟨hb, hvalue⟩ := List.ne_and_not_mem_of_not_mem_cons h
    rw [stringOf, if_neg (Ne.symm hb), ih hvalue]
    rfl

theorem sameText_eq (h : (0 : UInt8) ∉ value) (text : Bytes) :
    sameText value text = if value <+: text then .error .overrun else .ok false := by
  induction value generalizing text with
  | nil =>
    rw [if_pos List.nil_prefix]
    cases text <;> rfl
  | cons b value ih =>
    obtain ⟨hb, hvalue⟩ := List.ne_and_not_mem_of_not_mem_cons h
    cases text with
    | nil =>
      rw [if_neg (fun hp => List.cons_ne_nil _ _ (List.prefix_nil.mp hp)), sameText, decide_eq_false (Ne.symm hb)]
    | cons c text =>
      rw [sameText]
      by_cases hbc : b = c
      · rw [if_pos hbc, ih hvalue, hbc]
        simp only [List.prefix_cons_inj]
      · rw [if_neg hbc, if_neg (fun hp => hbc (List.cons_prefix_cons.mp hp).1)]

theorem anySame_eq (h : (0 : UInt8) ∉ value) (texts : List Bytes) :
    anySame value texts = if ∃ text ∈ texts, value <+: text then .error .overrun else .ok false := by
  induction texts with
  | nil => rfl
  | cons text texts ih =>
    rw [anySame, sameText_eq h]
    by_cases hp : value <+: text
    · rw [if_pos hp, if_pos ⟨text, List.mem_cons_self, hp⟩]
      rfl
    · rw [if_neg hp, fault_ok_bind, if_neg Bool.false_ne_true, ih]
      simp only [List.exists_mem_cons_iff, hp, false_or]

/-- The four texts do not begin each other in this way: what is one of them begins one. -/
theorem falseTexts_single (b : UInt8) : [b] ∈ falseTexts ↔ b = 48 := by
  constructor
  · intro h
    simp only [falseTexts, List.mem_cons, List.not_mem_nil, or_false] at h
    rcases h with h | h | h | h
    · cases h
    · exact (List.cons.inj h).1
    · cases h
    · cases h
  · rintro rfl
    decide

end Texts

section Getters
variable {options : Options} {name : CString} {value : Bytes} {block : Block Bytes}

theorem optionsString_found (hget : options.optHashtable.get (hashCompute name.bytes) = .ok (some block))
    (h : (0 : UInt8) ∉ block.data) : ¬ StringBack options name value := by
  intro hback
  obtain ⟨object, hobject, hstring⟩ := hback none
  rw [optionsString, hget] at hobject
  obtain rfl := Option.some.inj (Except.ok.inj hobject)
  rw [stringOf_overrun h] at hstring
  cases hstring

/-- The parser of integers never reads beyond a string, so that it cannot have given this fault. -/
theorem optionsInteger_found {float : FloatArith}
    (hget : options.optHashtable.get (hashCompute name.bytes) = .ok (some block)) (h : (0 : UInt8) ∉ block.data) :
    ¬ IntegerBack float options name value := by
  intro hback
  have hread := hback 0
  rw [optionsInteger, hget, fault_ok_bind] at hread
  dsimp only at hread
  rw [stringOf_overrun h, fault_error_bind] at hread
  cases hcall : toInteger float value with
  | error fault =>
    obtain ⟨rfl, -⟩ := toInteger_eq_error.mp hcall
    rw [hcall] at hread
    cases hread
  | ok ret =>
    rw [hcall] at hread
    cases hread

theorem optionsBoolean_found (hget : options.optHashtable.get (hashCompute name.bytes) = .ok (some block))
    (hdata : block.data = value) (hsize : block.size = value.length) (h : (0 : UInt8) ∉ value) :
    BooleanBack options name value ↔ value.length ≤ 1 ∨ ∀ text ∈ falseTexts, ¬ value <+: text := by
  rw [← hdata] at hsize h ⊢
  have hcall : ∀ fallback, optionsBoolean options name fallback =
      if block.size = 0 then .ok true
      else if block.size = 1 then block.data.head?.elim (.error .overrun) (fun b => .ok (b ≠ 48))
      else anySame block.data falseTexts >>= fun off => .ok (!off) := by
    intro fallback
    rw [optionsBoolean, hget, fault_ok_bind]
    dsimp only
    cases block.data <;> rfl
  rw [BooleanBack]
  simp only [hcall, hsize, forall_const]
  cases hvalue : block.data with
  | nil =>
    refine ⟨fun _ => .inl (Nat.zero_le _), fun _ => ⟨true, rfl, fun h => absurd h.symm Bool.false_ne_true, ?_⟩⟩
    exact fun hm => absurd hm (by decide)
  | cons b rest =>
    cases rest with
    | nil =>
      refine ⟨fun _ => .inl (Nat.le_refl _), fun _ => ⟨decide (b ≠ 48), rfl, ?_⟩⟩
      rw [falseTexts_single, decide_eq_false_iff_not, not_not]
    | cons c rest =>
      have hlong : (b :: c :: rest).length ≠ 0 ∧ (b :: c :: rest).length ≠ 1 ∧ ¬ (b :: c :: rest).length ≤ 1 := by
        simp only [List.length_cons]
        omega
      rw [hvalue] at h
      rw [if_neg hlong.1, if_neg hlong.2.1, anySame_eq h, or_iff_right hlong.2.2]
      by_cases hp : ∃ text ∈ falseTexts, b :: c :: rest <+: text
      · rw [if_pos hp]
        obtain ⟨text, ht, hprefix⟩ := hp
        constructor
        · rintro ⟨ret, he, -⟩
          cases he
        · exact fun hall => absurd hprefix (hall text ht)
      · rw [if_neg hp]
        refine ⟨fun _ text ht hprefix => hp ⟨text, ht, hprefix⟩, fun _ => ⟨true, rfl, ?_⟩⟩
        exact ⟨fun ht => absurd ht.symm Bool.false_ne_true, fun hm => absurd ⟨_, hm, List.prefix_refl _⟩ hp⟩

end Getters

/-- The command line is loaded, and then a value that it sets is read back as a boolean when no text is
compared with it to its end; as a string or as an integer never. -/
theorem option_values_iff (float : FloatArith) (argv : List CString) :
    ∃ options, optionsLoad argv = .ok options ∧
      (∀ (name : CString) value, LastSet (optionEntries argv) name.bytes value →
        ¬ StringBack options name value ∧ ¬ IntegerBack float options name value ∧
        (BooleanBack options name value ↔ value.length ≤ 1 ∨ ∀ text ∈ falseTexts, ¬ value <+: text)) ∧
      ((∀ (name : CString) value, LastSet (optionEntries argv) name.bytes value →
          StringBack options name value ∧ BooleanBack options name value ∧ IntegerBack float options name value) ↔
        ∀ entry ∈ optionEntries argv, ∀ name value, ¬ Sets entry.bytes name value) := by
  obtain ⟨options, hload, -, -, -, hnames⟩ := options_load argv
  have hread : ∀ (name : CString) value, LastSet (optionEntries argv) name.bytes value →
      ¬ StringBack options name value ∧ ¬ IntegerBack float options name value ∧
        (BooleanBack options name value ↔ value.length ≤ 1 ∨ ∀ text ∈ falseTexts, ¬ value <+: text) := by
    intro name value hset
    obtain ⟨found, hget, hiff, -⟩ := hnames name.bytes
    obtain ⟨block, rfl, rfl, hsize⟩ := (hiff value).mpr hset
    have hnull := hset.noNull
    exact ⟨optionsString_found hget hnull, optionsInteger_found hget hnull, optionsBoolean_found hget rfl hsize hnull⟩
  refine ⟨options, hload, hread, ?_⟩
  constructor
  · intro hall entry hentry name value hset
    obtain ⟨last, hlast⟩ := lastSet_exists.mpr ⟨entry, hentry, value, hset⟩
    have hname : (0 : UInt8) ∉ name := fun h0 => entry.noNull (hset.sublists.1.mem h0)
    have hshort : name.length + 1 < 2^63 :=
      Nat.lt_of_le_of_lt (Nat.succ_le_succ hset.sublists.1.length_le) entry.short
    exact (hread ⟨name, hname, hshort⟩ last hlast).1 (hall ⟨name, hname, hshort⟩ last hlast).1
  · rintro hnone name value ⟨front, entry, back, hsplit, hset, -⟩
    exact absurd hset (hnone entry (by rw [hsplit]; exact List.mem_append_right _ List.mem_cons_self) _ _)

/-- A value that is read beyond its end by all three getters. -/
theorem option_values_fail :
    LastSet (optionEntries [⟨ascii "cflare", by decide, by decide⟩, ⟨ascii "--a=no", by decide, by decide⟩])
        (ascii "a") (ascii "no") ∧
      ∃ options, optionsLoad [⟨ascii "cflare", by decide, by decide⟩, ⟨ascii "--a=no", by decide, by decide⟩] =
          .ok options ∧
        (∃ object, optionsString options ⟨ascii "a", by decide, by decide⟩ none = .ok (some object) ∧
          stringOf object = .error .overrun) ∧
        optionsBoolean options ⟨ascii "a", by decide, by decide⟩ true = .error .overrun ∧
        optionsInteger machineArith options ⟨ascii "a", by decide, by decide⟩ 0 = .error .overrun := by
  have hset : Sets (45 :: 45 :: (ascii "a" ++ 61 :: ascii "no")) (ascii "a") (ascii "no") := .valued (by decide)
  have hrun : (optionsLoad [⟨ascii "cflare", by decide, by decide⟩, ⟨ascii "--a=no", by decide, by decide⟩] >>=
      fun options => .ok (optionsString options ⟨ascii "a", by decide, by decide⟩ none,
        optionsBoolean options ⟨ascii "a", by decide, by decide⟩ true,
        optionsInteger machineArith options ⟨ascii "a", by decide, by decide⟩ 0)) =
      .ok (.ok (some (ascii "no")), .error .overrun, .error .overrun) := by decide +kernel
  obtain ⟨options, hload, hreads⟩ := bind_eq_ok.mp hrun
  obtain ⟨hstring, hreads⟩ := Prod.mk.inj (Except.ok.inj hreads)
  obtain ⟨hboolean, hinteger⟩ := Prod.mk.inj hreads
  exact ⟨⟨[], _, [], rfl, hset, nofun⟩, options, hload, ⟨ascii "no", hstring, rfl⟩, hboolean, hinteger⟩

end CFlare.CommandLine
