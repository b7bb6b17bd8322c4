import CFlare.Http.Url
import CFlare.Library.Lines

/-! The keys and the values of a query text, and how they come into the buffers. A buffer starts with 64 bytes and
has twice as many each time it is full. -/
namespace CFlare.Http
open CFlare.Library

/-- Whenever a key or a value fills a buffer, `realloc` finds room for one of twice the size, beside the input. -/
def ReallocSucceeds (input : Bytes) : Prop :=
  ∀ front seg back, input = front ++ (seg ++ back) → ampersand ∉ seg →
    ∀ k, 64 * 2 ^ k ≤ seg.length → input.length + 64 * 2 ^ (k + 1) ≤ sizeLimit

/-- That is so for an input of less than half the memory. -/
theorem reallocSucceeds_of_lt {input : Bytes} (h : input.length < 2^63) : ReallocSucceeds input := by
  rintro front seg back rfl - k hk
  simp only [List.length_append] at h ⊢
  have hpower : 2 ^ (k + 6) < 2 ^ 63 := by
    rw [Nat.pow_add]
    omega
  have hk' : k + 7 ≤ 63 := (Nat.pow_lt_pow_iff_right (by decide)).mp hpower
  have hdouble : 2 ^ (k + 7) ≤ 2 ^ 63 := Nat.pow_le_pow_right (by decide) hk'
  rw [Nat.pow_add] at hdouble
  rw [Nat.pow_succ, sizeLimit]
  omega

def Buffer.Grown (buffer : Buffer) : Prop := ∃ k, buffer.size = 64 * 2 ^ k

theorem Buffer.Grown.pos {buffer : Buffer} (h : buffer.Grown) : 0 < buffer.size := by
  obtain ⟨k, hk⟩ := h
  rw [hk]
  exact Nat.mul_pos (by decide) (Nat.two_pow_pos k)

theorem grown_start (data : Memory) : (Buffer.mk data 64).Grown := ⟨0, rfl⟩

def queryPairs (input : Bytes) : List Bytes :=
  if (input.splitOn ampersand).getLast? = some [] then (input.splitOn ampersand).dropLast else input.splitOn ampersand

/-- A key is in front of the first equals sign of its pair, and the value behind it. -/
def keyText (pair : Bytes) : Bytes := pair.takeWhile (· ≠ equals)
def valueText (pair : Bytes) : Bytes := (pair.dropWhile (· ≠ equals)).drop 1

/-- A text and the pairs in it. -/
inductive PairsOf : List Bytes → Bytes → Prop where
  | nil : PairsOf [] []
  | last {pair : Bytes} (ne : pair ≠ []) (inside : ampersand ∉ pair) : PairsOf [pair] pair
  | cons {pair rest : Bytes} {pairs : List Bytes} (inside : ampersand ∉ pair) (tail : PairsOf pairs rest) :
      PairsOf (pair :: pairs) (pair ++ ampersand :: rest)

section Pairs

theorem queryPairs_cons {pair : Bytes} (h : ampersand ∉ pair) (rest : Bytes) :
    queryPairs (pair ++ ampersand :: rest) = pair :: queryPairs rest := by
  have hsplit : (pair ++ ampersand :: rest).splitOn ampersand = pair :: rest.splitOn ampersand := by
    rw [List.splitOn_append_cons_self, List.splitOn_eq_singleton h]
    rfl
  obtain ⟨first, others, hrest⟩ := List.exists_cons_of_ne_nil (List.splitOn_ne_nil ampersand rest)
  rw [queryPairs, queryPairs, hsplit, hrest, List.getLast?_cons_cons]
  split
  · rfl
  · rfl

theorem queryPairs_last {pair : Bytes} (ne : pair ≠ []) (h : ampersand ∉ pair) : queryPairs pair = [pair] := by
  rw [queryPairs, List.splitOn_eq_singleton h]
  exact if_neg (by simpa using ne)

theorem pairsOf_queryPairs (text : Bytes) : PairsOf (queryPairs text) text := by
  induction hn : text.length using Nat.strong_induction_on generalizing text with
  | _ n ih =>
    by_cases hmem : ampersand ∈ text
    · obtain ⟨pair, rest, rfl, hpair⟩ := List.eq_append_cons_of_mem hmem
      rw [queryPairs_cons hpair]
      refine .cons hpair (ih rest.length ?_ rest rfl)
      rw [← hn, List.length_append, List.length_cons]
      omega
    · cases text with
      | nil => exact .nil
      | cons x text =>
        rw [queryPairs_last (List.cons_ne_nil _ _) hmem]
        exact .last (List.cons_ne_nil _ _) hmem

theorem texts_of_equals {key : Bytes} (h : equals ∉ key) (value : Bytes) :
    keyText (key ++ equals :: value) = key ∧ valueText (key ++ equals :: value) = value := by
  have hkey : ∀ x ∈ key, decide (x ≠ equals) = true := by
    intro x hx
    rw [decide_eq_true_iff]
    exact ne_of_mem_of_not_mem hx h
  constructor
  · rw [keyText, List.takeWhile_append_of_pos hkey, List.takeWhile_cons_of_neg (by simp), List.append_nil]
  · rw [valueText, List.dropWhile_append_of_pos hkey, List.dropWhile_cons_of_neg (by simp)]
    rfl

theorem texts_of_none {pair : Bytes} (h : equals ∉ pair) : keyText pair = pair ∧ valueText pair = [] := by
  have hpair : ∀ x ∈ pair, decide (x ≠ equals) = true := by
    intro x hx
    rw [decide_eq_true_iff]
    exact ne_of_mem_of_not_mem hx h
  constructor
  · exact List.takeWhile_eq_self_iff.mpr hpair
  · rw [valueText, List.dropWhile_eq_nil_iff.mpr hpair]
    rfl

end Pairs

section Copies

/-- A byte is copied, and the buffer has room for another one then. -/
theorem grow_spec {buffer : Buffer} (hb : buffer.Grown) {len : Nat} (hl : len < buffer.size) (x : UInt8)
    (hmem : ∀ k, 64 * 2 ^ k ≤ len + 1 → 64 * 2 ^ (k + 1) < sizeLimit) :
    ∃ grown : Buffer, (if len + 1 = buffer.size then (Buffer.mk (store buffer.data len [x]) buffer.size).grow
        else ⟨store buffer.data len [x], buffer.size⟩) = grown ∧
      grown.data = store buffer.data len [x] ∧ len + 1 < grown.size ∧ grown.Grown := by
  obtain ⟨k, hk⟩ := hb
  by_cases hfull : len + 1 = buffer.size
  · have hroom := hmem k (by omega)
    have hdouble : buffer.size * 2 % sizeLimit = 64 * 2 ^ (k + 1) := by
      rw [hk, Nat.mul_assoc, ← Nat.pow_succ]
      exact Nat.mod_eq_of_lt hroom
    rw [if_pos hfull]
    refine ⟨_, rfl, rfl, ?_, k + 1, hdouble⟩
    change len + 1 < buffer.size * 2 % sizeLimit
    rw [hdouble, Nat.pow_succ]
    omega
  · rw [if_neg hfull]
    refine ⟨_, rfl, rfl, ?_, k, hk⟩
    change len + 1 < buffer.size
    omega

/-- Copying stops at the first stop byte or at the end of the input, and the buffer has room for
a byte more. -/
theorem copySegment_spec {stops : UInt8 → Bool} {input pre seg post : Bytes} (hin : input = pre ++ (seg ++ post))
    (hseg : ∀ x ∈ seg, stops x = false) (hpost : ∀ x, post.head? = some x → stops x = true) {fuel len : Nat}
    (hf : seg.length < fuel) {buffer : Buffer} (hb : buffer.Grown) (hl : len < buffer.size)
    (hmem : ∀ k, 64 * 2 ^ k ≤ len + seg.length → 64 * 2 ^ (k + 1) < sizeLimit) :
    ∃ buffer', copySegment input stops fuel pre.length len buffer =
        .ok (pre.length + seg.length, len + seg.length, buffer') ∧
      slice buffer'.data 0 (len + seg.length) = slice buffer.data 0 len ++ seg ∧
      len + seg.length < buffer'.size ∧ buffer'.Grown := by
  induction seg generalizing pre fuel len buffer with
  | nil =>
    obtain ⟨fuel, rfl⟩ : ∃ f, fuel = f + 1 := ⟨fuel - 1, by omega⟩
    refine ⟨buffer, ?_, by simp, hl, hb⟩
    rw [copySegment]
    cases post with
    | nil => rw [if_neg (by simp [hin])]; rfl
    | cons x post =>
      have hx : inputAt input pre.length = .ok x := by simp [inputAt, hin]
      rw [if_pos (by simp [hin]), hx, fault_ok_bind, if_pos (hpost x rfl)]
      rfl
  | cons x seg ih =>
    obtain ⟨fuel, rfl⟩ : ∃ f, fuel = f + 1 := ⟨fuel - 1, by omega⟩
    rw [List.length_cons] at hf hmem
    have hx : inputAt input pre.length = .ok x := by simp [inputAt, hin]
    have hstop : stops x = false := hseg x (by simp)
    have hpre : input = (pre ++ [x]) ++ (seg ++ post) := by simp [hin]
    obtain ⟨grown, hgrown, hdata, hsize, hgrows⟩ := grow_spec hb hl x (fun k hk => hmem k (by omega))
    obtain ⟨buffer', hrest, hslice, hroom, hb'⟩ := ih hpre (fun y hy => hseg y (List.mem_cons_of_mem _ hy))
      (Nat.lt_of_succ_lt_succ hf) hgrows hsize (fun k hk => hmem k (by omega))
    have hstart : (pre ++ [x]).length = pre.length + 1 := by simp
    have hlen : len + (x :: seg).length = len + 1 + seg.length := by simp; omega
    refine ⟨buffer', ?_, ?_, hlen ▸ hroom, hb'⟩
    · rw [copySegment, if_pos (by simp [hin]), hx, fault_ok_bind, if_neg (by simp [hstop]), buffer_set hl, fault_ok_bind]
      dsimp only
      rw [hgrown, ← hstart, hrest, hlen, hstart, List.length_cons]
      congr 2
      omega
    · rw [hlen, hslice, hdata, slice_store_next]
      simp

/-- What is left of a turn of the loop once key and value are in their buffers. -/
def finishParameter (float : FloatArith) (input : Bytes) (fuel i : Nat) (key : Buffer) (keyLen : Nat) (value : Buffer)
    (valLen : Nat) : Except Fault (List Parameter) := do
  let (keyLen, key) ← finishSegment float key keyLen
  let (valLen, value) ← finishSegment float value valLen
  let rest ← parseParameters float input fuel i key value
  .ok (⟨slice key.data 0 keyLen, slice value.data 0 valLen⟩ :: rest)

/-- A buffer with a text in it, and room for the null byte behind that. -/
structure Buffer.Has (buffer : Buffer) (text : Bytes) : Prop where
  grown : buffer.Grown
  room : text.length < buffer.size
  bytes : slice buffer.data 0 text.length = text

theorem Buffer.Has.ended {buffer : Buffer} {text : Bytes} (h : buffer.Has text) :
    ∃ buffer', buffer.set text.length 0 = .ok buffer' ∧ buffer'.Has text := by
  refine ⟨_, buffer_set h.room 0, h.grown, h.room, ?_⟩
  exact (slice_store_front (by omega)).trans h.bytes

variable {input pre seg pair post : Bytes}

/-- A key or a value is copied to the start of its buffer. -/
theorem copySegment_has {stops : UInt8 → Bool} (hin : input = pre ++ (seg ++ post)) (hseg : ∀ x ∈ seg, stops x = false)
    (hpost : ∀ x, post.head? = some x → stops x = true) (hinside : ampersand ∉ seg) (hmem : ReallocSucceeds input)
    {buffer : Buffer} (hb : buffer.Grown) :
    ∃ buffer', copySegment input stops (input.length + 1) pre.length 0 buffer =
      .ok (pre.length + seg.length, seg.length, buffer') ∧ buffer'.Has seg := by
  have hlength : input.length = pre.length + (seg.length + post.length) := by
    rw [hin, List.length_append, List.length_append]
  have hgrows : ∀ k, 64 * 2 ^ k ≤ 0 + seg.length → 64 * 2 ^ (k + 1) < sizeLimit := by
    intro k hk
    rw [Nat.zero_add] at hk
    have hroom := hmem pre seg post hin hinside k hk
    have hpos := Nat.two_pow_pos k
    omega
  have hfuel : seg.length < input.length + 1 := by omega
  obtain ⟨buffer', hcopy, hslice, hroom, hgrown⟩ := copySegment_spec hin hseg hpost hfuel hb hb.pos hgrows
  rw [Nat.zero_add] at hcopy hslice hroom
  exact ⟨buffer', hcopy, hgrown, hroom, hslice⟩

theorem inputAt_head {x : UInt8} (rest : Bytes) (hin : input = pre ++ x :: rest) : inputAt input pre.length = .ok x := by
  simp [inputAt, hin]

theorem stopsKey {x : UInt8} (hamp : x ≠ ampersand) (heq : x ≠ equals) :
    (decide (x = ampersand) || decide (x = equals)) = false := by
  simp [hamp, heq]

/-- Whether there is a value is told by the byte behind the key; the call goes on with the answer. -/
theorem valueTest {α : Type} {behind : Bytes} (hin : input = pre ++ (seg ++ behind)) (next : Bool → Except Fault α) :
    (if pre.length + seg.length < input.length then
        inputAt input (pre.length + seg.length) >>= fun x => (.ok (x == equals) : Except Fault Bool) >>= next
      else (.ok false : Except Fault Bool) >>= next) = next (behind.head? == some equals) := by
  have hlength : input.length = pre.length + (seg.length + behind.length) := by
    rw [hin, List.length_append, List.length_append]
  cases behind with
  | nil =>
    rw [List.length_nil] at hlength
    exact if_neg (by omega)
  | cons x rest =>
    rw [List.length_cons] at hlength
    have hat : inputAt input (pre.length + seg.length) = .ok x := by
      rw [← List.length_append]
      exact inputAt_head rest (hin.trans (List.append_assoc _ _ _).symm)
    rw [if_pos (by omega), hat]
    rfl

/-- A turn over a pair with a value: the key ends at the equals sign, and the value at the ampersand or the end. -/
theorem parseParameters_valued (float : FloatArith) {k v : Bytes} (hin : input = pre ++ (k ++ equals :: (v ++ post)))
    (hkey : equals ∉ k) (hampKey : ampersand ∉ k) (hampVal : ampersand ∉ v)
    (hafter : ∀ x, post.head? = some x → x = ampersand) (hmem : ReallocSucceeds input) (fuel : Nat) {key value : Buffer}
    (hk : key.Grown) (hv : value.Grown) :
    ∃ key' value', key'.Has k ∧ value'.Has v ∧ parseParameters float input (fuel + 1) pre.length key value =
      finishParameter float input fuel (pre.length + k.length + 1 + v.length + 1) key' k.length value' v.length := by
  have hbegun : pre.length < input.length := by
    rw [hin, List.length_append, List.length_append, List.length_cons]
    omega
  have hinVal : input = (pre ++ k ++ [equals]) ++ (v ++ post) := hin.trans (by simp)
  have hstart : (pre ++ k ++ [equals]).length = pre.length + k.length + 1 := by simp [Nat.add_assoc]
  obtain ⟨key₁, hcopyKey, hhasKey⟩ := copySegment_has hin
    (fun x hx => stopsKey (ne_of_mem_of_not_mem hx hampKey) (ne_of_mem_of_not_mem hx hkey)) (by simp) hampKey hmem hk
  obtain ⟨value₁, hcopyVal, hhasVal⟩ := copySegment_has hinVal
    (fun x hx => decide_eq_false (ne_of_mem_of_not_mem hx hampVal)) (fun x hx => decide_eq_true (hafter x hx)) hampVal
    hmem hv
  obtain ⟨key', hendKey, hkey'⟩ := hhasKey.ended
  obtain ⟨value', hendVal, hvalue'⟩ := hhasVal.ended
  rw [hstart] at hcopyVal
  refine ⟨key', value', hkey', hvalue', ?_⟩
  rw [parseParameters, if_pos hbegun, hcopyKey, fault_ok_bind]
  dsimp only
  rw [hendKey, fault_ok_bind, valueTest hin]
  simp only [List.head?_cons, BEq.rfl, if_true]
  rw [hcopyVal, fault_ok_bind]
  dsimp only
  rw [hendVal, fault_ok_bind]
  rfl

theorem parseParameters_plain (float : FloatArith) (hin : input = pre ++ (pair ++ post)) (hpair : ampersand ∉ pair)
    (hplain : equals ∉ pair) (hafter : ∀ x, post.head? = some x → x = ampersand) (hbegun : pre.length < input.length)
    (hmem : ReallocSucceeds input) (fuel : Nat) {key value : Buffer} (hk : key.Grown) (hv : value.Grown) :
    ∃ key' value', key'.Has pair ∧ value'.Has [] ∧ parseParameters float input (fuel + 1) pre.length key value =
      finishParameter float input fuel (pre.length + pair.length + 1) key' pair.length value' 0 := by
  obtain ⟨key₁, hcopyKey, hhasKey⟩ := copySegment_has hin
    (fun x hx => stopsKey (ne_of_mem_of_not_mem hx hpair) (ne_of_mem_of_not_mem hx hplain))
    (fun x hx => by simp [hafter x hx]) hpair hmem hk
  obtain ⟨key', hendKey, hkey'⟩ := hhasKey.ended
  have hempty : value.Has [] := ⟨hv, hv.pos, rfl⟩
  obtain ⟨value', hendVal, hvalue'⟩ := hempty.ended
  have hnone : (post.head? == some equals) = false := by
    refine beq_eq_false_iff_ne.mpr fun hhead => ?_
    exact absurd (hafter equals hhead) (by decide)
  rw [List.length_nil] at hendVal
  refine ⟨key', value', hkey', hvalue', ?_⟩
  rw [parseParameters, if_pos hbegun, hcopyKey, fault_ok_bind]
  dsimp only
  rw [hendKey, fault_ok_bind, valueTest hin]
  simp only [hnone, fault_ok_bind, Bool.false_eq_true, if_false]
  rw [hendVal, fault_ok_bind]
  rfl

theorem parseParameters_turn (float : FloatArith) (hin : input = pre ++ (pair ++ post)) (hpair : ampersand ∉ pair)
    (hpost : post = [] ∨ ∃ rest, post = ampersand :: rest) (hne : pair ++ post ≠ []) (hmem : ReallocSucceeds input)
    (fuel : Nat) {key value : Buffer} (hk : key.Grown) (hv : value.Grown) :
    ∃ key' value', key'.Has (keyText pair) ∧ value'.Has (valueText pair) ∧
      parseParameters float input (fuel + 1) pre.length key value =
        finishParameter float input fuel (pre.length + pair.length + 1) key' (keyText pair).length value'
          (valueText pair).length := by
  have hafter : ∀ x, post.head? = some x → x = ampersand := by
    intro x hx
    rcases hpost with rfl | ⟨rest, rfl⟩
    · cases hx
    · exact (Option.some.inj hx).symm
  by_cases hmid : equals ∈ pair
  · obtain ⟨k, v, rfl, hkey⟩ := List.eq_append_cons_of_mem hmid
    obtain ⟨hkeyText, hvalueText⟩ := texts_of_equals hkey v
    have hampKey : ampersand ∉ k := fun hm => hpair (List.mem_append_left _ hm)
    have hampVal : ampersand ∉ v := fun hm => hpair (List.mem_append_right _ (List.mem_cons_of_mem _ hm))
    have hend : pre.length + (k ++ equals :: v).length + 1 = pre.length + k.length + 1 + v.length + 1 := by
      simp
      omega
    rw [hkeyText, hvalueText, hend]
    exact parseParameters_valued float (hin.trans (by simp)) hkey hampKey hampVal hafter hmem fuel hk hv
  · obtain ⟨hkeyText, hvalueText⟩ := texts_of_none hmid
    have hbegun : pre.length < input.length := by
      have hpos := List.length_pos_iff.mpr hne
      rw [hin, List.length_append]
      omega
    rw [hkeyText, hvalueText]
    exact parseParameters_plain float hin hpair hmid hafter hbegun hmem fuel hk hv

theorem parseParameters_end (float : FloatArith) (input : Bytes) {fuel i : Nat} (hf : 0 < fuel) (hi : input.length ≤ i)
    (key value : Buffer) : parseParameters float input fuel i key value = .ok [] := by
  obtain ⟨fuel, rfl⟩ : ∃ f, fuel = f + 1 := ⟨fuel - 1, by omega⟩
  rw [parseParameters, if_neg (Nat.not_lt.mpr hi)]

end Copies

section Run
variable {float : FloatArith} {input : Bytes} {Post : List Bytes → Except Fault (List Parameter) → Prop}

/-- What the end of the loop has, and each turn when the rest of the loop does, the loop has. -/
theorem parseParameters_run (hmem : ReallocSucceeds input) (hend : Post [] (.ok []))
    (hturn : ∀ pair pairs fuel i key value, key.Has (keyText pair) → value.Has (valueText pair) →
      (∀ key' value', key'.Grown → value'.Grown → Post pairs (parseParameters float input fuel i key' value')) →
      Post (pair :: pairs) (finishParameter float input fuel i key (keyText pair).length value (valueText pair).length))
    {pairs : List Bytes} {text : Bytes} (h : PairsOf pairs text) {pre : Bytes} (hin : input = pre ++ text) {fuel : Nat}
    (hf : text.length < fuel) {key value : Buffer} (hk : key.Grown) (hv : value.Grown) :
    Post pairs (parseParameters float input fuel pre.length key value) := by
  induction h generalizing pre fuel key value with
  | nil =>
    rw [List.append_nil] at hin
    rw [parseParameters_end float input (Nat.zero_lt_of_lt hf) (by rw [hin])]
    exact hend
  | @last pair ne inside =>
    obtain ⟨fuel, rfl⟩ : ∃ f, fuel = f + 1 := ⟨fuel - 1, by omega⟩
    have hlast : input = pre ++ (pair ++ []) := hin.trans (by rw [List.append_nil])
    obtain ⟨key', value', hkey, hvalue, hstep⟩ :=
      parseParameters_turn float hlast inside (.inl rfl) (by simpa using ne) hmem fuel hk hv
    have hpos := List.length_pos_iff.mpr ne
    rw [hstep]
    refine hturn pair [] fuel _ key' value' hkey hvalue fun key' value' _ _ => ?_
    rw [parseParameters_end float input (by omega) (by rw [hin, List.length_append]; omega)]
    exact hend
  | @cons pair rest pairs inside tail ih =>
    obtain ⟨fuel, rfl⟩ : ∃ f, fuel = f + 1 := ⟨fuel - 1, by omega⟩
    obtain ⟨key', value', hkey, hvalue, hstep⟩ :=
      parseParameters_turn float hin inside (.inr ⟨rest, rfl⟩) (by simp) hmem fuel hk hv
    have hstart : pre.length + pair.length + 1 = (pre ++ pair ++ [ampersand]).length := by simp [Nat.add_assoc]
    rw [List.length_append, List.length_cons] at hf
    rw [hstep, hstart]
    exact hturn pair pairs fuel _ key' value' hkey hvalue fun key' value' hk' hv' =>
      ih (by simp [hin]) (by omega) hk' hv'

theorem urlParseQuery_run (hmem : ReallocSucceeds input) (hend : Post [] (.ok []))
    (hturn : ∀ pair pairs fuel i key value, key.Has (keyText pair) → value.Has (valueText pair) →
      (∀ key' value', key'.Grown → value'.Grown → Post pairs (parseParameters float input fuel i key' value')) →
      Post (pair :: pairs) (finishParameter float input fuel i key (keyText pair).length value (valueText pair).length))
    (key value : Memory) : Post (queryPairs input) (urlParseQuery float key value (some input)) :=
  parseParameters_run hmem hend hturn (pairsOf_queryPairs input) (List.nil_append input).symm (Nat.lt_succ_self _)
    (grown_start key) (grown_start value)

end Run

end CFlare.Http
