import CFlare.Http.QuerySegments
import CFlare.Http.UrlEscapes

/-! What is passed on of a query with malformed escapes in it. The decoder gives up at the first one, and what it has
written until then stays in the buffer. -/
namespace CFlare.Http
open CFlare.Library

/-- A key or a value, decoded where all its escapes are well formed, and as it is otherwise. -/
def passedText (segment : Bytes) : Bytes := (decoded segment).getD segment

def passedParameters (pairs : List Bytes) : List Parameter :=
  pairs.map (fun pair => ⟨passedText (keyText pair), passedText (valueText pair)⟩)

/-- A key or a value that comes out right. The integer parser returns for each escape that the decoder gets to; where
one is refused, what is decoded in front of it is nothing else than the beginning of the text; and if none is, all of
them have two digits. -/
structure Intact (segment : Bytes) : Prop where
  answered : NeverStuck segment
  untouched : ∀ front back bytes, segment = front ++ percent :: back → StandsFor front bytes → RefusedEscape back →
    bytes <+: segment
  whole : ∀ bytes, StandsFor segment bytes → decoded segment ≠ none

section Segments
variable {float : FloatArith} {segment front back bytes : Bytes} {buffer : Buffer}

theorem decoded_of_length (h : StandsFor segment bytes) (hlen : segment.length ≤ bytes.length) :
    decoded segment ≠ none := by
  induction h with
  | nil => exact Option.some_ne_none _
  | plain ne _ ih =>
    have hrest := ih (Nat.le_of_succ_le_succ hlen)
    rw [decoded_plain ne]
    exact fun hnone => hrest (Option.map_eq_none_iff.mp hnone)
  | escape _ _ tail _ =>
    have hle := tail.length_le
    simp only [List.length_cons] at hlen
    omega
  | half _ tail _ =>
    have hle := tail.length_le
    simp only [List.length_cons] at hlen
    omega

theorem slice_overwritten {m : Memory} {text : Bytes} (hs : slice m 0 text.length = text)
    (hle : bytes.length ≤ text.length) :
    slice (store m 0 bytes) 0 text.length = text ↔ bytes <+: text := by
  obtain ⟨rest, hrest⟩ := Nat.exists_eq_add_of_le hle
  have hwritten : slice (store m 0 bytes) 0 text.length = bytes ++ text.drop bytes.length := by
    have hback : slice (store m 0 bytes) (0 + bytes.length) rest = slice m (0 + bytes.length) rest :=
      slice_store_past (Nat.le_refl _)
    rw [hrest, slice_add, slice_store, hback, ← slice_drop, ← hrest, hs]
  rw [hwritten]
  constructor
  · exact fun h => ⟨_, h⟩
  · rintro ⟨tail, rfl⟩
    rw [List.drop_left]

theorem intact_of_decoded (hne : decoded segment ≠ none) : Intact segment := by
  obtain ⟨bytes, hbytes⟩ := Option.ne_none_iff_exists'.mp hne
  have h := standsFor_of_decoded hbytes
  have hwhole := List.append_nil segment
  refine ⟨?_, fun front back bytes' heq h' escape => ?_, fun _ _ => hne⟩
  · have hfree := (neverStuck_iff h .ended).mpr nofun
    rwa [hwhole] at hfree
  · obtain ⟨rfl, -⟩ := h.unique h' (hwhole.trans heq) .ended (.refused escape)
    cases List.append_cancel_left (hwhole.trans heq)

/-- A key or a value comes out of the decoder as it should exactly when it is intact, and else the decoder does not
return or leaves something else. -/
theorem finishSegment_passes (hf : float.Exact) (hb : buffer.Has segment) :
    finishSegment float buffer segment.length = .error .assertion ∧ ¬ Intact segment ∨
      ∃ len buffer', finishSegment float buffer segment.length = .ok (len, buffer') ∧ buffer'.Grown ∧
        (slice buffer'.data 0 len = passedText segment ↔ Intact segment) := by
  obtain ⟨front, back, bytes, htext, h, hstops⟩ := stops_somewhere segment
  have hstuck := neverStuck_iff h hstops
  subst htext
  cases hstops with
  | ended =>
    rw [List.append_nil] at hb ⊢
    refine .inr ⟨bytes.length, buffer.write 0 (bytes ++ [0]), ?_, hb.grown, ?_⟩
    · rw [finishSegment, unescape_ended hf h hb.room hb.bytes]
      rfl
    · have hbytes : slice (buffer.write 0 (bytes ++ [0])).data 0 bytes.length = bytes :=
        (slice_append _ _ slice_store).1
      rw [hbytes]
      constructor
      · intro hpassed
        have hdecoded : decoded front ≠ none := by
          intro hnone
          rw [passedText, hnone, Option.getD_none] at hpassed
          exact decoded_of_length h (by rw [hpassed]) hnone
        exact intact_of_decoded hdecoded
      · intro hintact
        rw [passedText, decoded_standsFor h (hintact.whole bytes h)]
        rfl
  | @refused back escape =>
    have hnone := not_decoded h (.refused escape) (List.cons_ne_nil _ _)
    have hpassed : passedText (front ++ percent :: back) = front ++ percent :: back := by
      rw [passedText, hnone]
      rfl
    refine .inr ⟨(front ++ percent :: back).length, buffer.write 0 bytes, ?_, hb.grown, ?_⟩
    · rw [finishSegment, unescape_refused hf h hb.room hb.bytes escape]
      rfl
    · have hle : bytes.length ≤ (front ++ percent :: back).length := by
        have hfront := h.length_le
        rw [List.length_append]
        omega
      rw [hpassed, Buffer.write_data, slice_overwritten hb.bytes hle]
      constructor
      · intro hprefix
        refine ⟨hstuck.mpr fun hi lo rest heq => escape.not_stuck (List.cons.inj heq).2, ?_, ?_⟩
        · intro front' back' bytes' heq h' escape'
          obtain ⟨-, rfl⟩ := h.unique h' heq (.refused escape) (.refused escape')
          exact hprefix
        · exact fun all hall => absurd hall (not_standsFor_whole h (.refused escape) (List.cons_ne_nil _ _))
      · exact fun hintact => hintact.untouched front back bytes rfl h escape
  | stuck pair =>
    refine .inl ⟨?_, fun hintact => hintact.answered front bytes _ _ _ rfl h pair⟩
    rw [finishSegment, unescape_stuck hf h hb.room hb.bytes pair]
    rfl

end Segments

/-- The calls for a query are those for its pairs exactly when all its keys and values are intact. Else one of them is
passed on as something else, or the call does not return. -/
theorem query_parameters_iff {float : FloatArith} (hf : float.Exact) (key value : Memory) (input : Bytes)
    (hmem : ReallocSucceeds input) :
    urlParseQuery float key value (some input) = .ok (passedParameters (queryPairs input)) ↔
      ∀ pair ∈ queryPairs input, Intact (keyText pair) ∧ Intact (valueText pair) := by
  let Post : List Bytes → Except Fault (List Parameter) → Prop := fun pairs result =>
    result = .ok (passedParameters pairs) ↔ ∀ pair ∈ pairs, Intact (keyText pair) ∧ Intact (valueText pair)
  have hend : Post [] (.ok []) := iff_of_true rfl nofun
  have hturn : ∀ pair pairs fuel i key value, key.Has (keyText pair) → value.Has (valueText pair) →
      (∀ key' value', key'.Grown → value'.Grown → Post pairs (parseParameters float input fuel i key' value')) →
      Post (pair :: pairs)
        (finishParameter float input fuel i key (keyText pair).length value (valueText pair).length) := by
    intro pair pairs fuel i key value hkey hvalue hrest
    change finishParameter _ _ _ _ _ _ _ _ = _ ↔ _
    rw [List.forall_mem_cons, finishParameter]
    rcases finishSegment_passes hf hkey with ⟨hfault, hbad⟩ | ⟨keyLen, key', hfinishKey, hkey', hkeyText⟩
    · rw [hfault]
      exact iff_of_false nofun fun h => hbad h.1.1
    rw [hfinishKey, fault_ok_bind]
    dsimp only
    rcases finishSegment_passes hf hvalue with ⟨hfault, hbad⟩ | ⟨valLen, value', hfinishVal, hvalue', hvalueText⟩
    · rw [hfault]
      exact iff_of_false nofun fun h => hbad h.1.2
    rw [hfinishVal, fault_ok_bind]
    dsimp only
    have hlater : parseParameters float input fuel i key' value' = .ok (passedParameters pairs) ↔ _ :=
      hrest key' value' hkey' hvalue'
    rw [← hlater, ← hkeyText, ← hvalueText]
    cases parseParameters float input fuel i key' value' with
    | error fault =>
      refine iff_of_false nofun fun h => ?_
      cases h.2
    | ok rest =>
      rw [fault_ok_bind]
      simp only [passedParameters, List.map_cons, Except.ok.injEq, List.cons.injEq, Parameter.mk.injEq]
  exact urlParseQuery_run hmem hend hturn key value

/-- An escape with its digits and a plus sign. -/
theorem query_parameters_iff_two :
    urlParseQuery machineArith (fun _ => 0) (fun _ => 0) (some (ascii "a=%4A&b+")) =
      .ok (passedParameters (queryPairs (ascii "a=%4A&b+"))) := by
  have hshort : (ascii "a=%4A&b+").length < 2^63 := by decide
  have hpairs : queryPairs (ascii "a=%4A&b+") = [ascii "a=%4A", ascii "b+"] := by decide
  have hfirst : decoded (keyText (ascii "a=%4A")) ≠ none ∧ decoded (valueText (ascii "a=%4A")) ≠ none := by decide
  have hsecond : decoded (keyText (ascii "b+")) ≠ none ∧ decoded (valueText (ascii "b+")) ≠ none := by decide
  have hiff := query_parameters_iff machineArith_doubles.exact (fun _ => 0) (fun _ => 0) (ascii "a=%4A&b+")
    (reallocSucceeds_of_lt hshort)
  refine hiff.mpr fun pair hpair => ?_
  rw [hpairs] at hpair
  rcases List.mem_pair.mp hpair with rfl | rfl
  · exact hfirst.imp intact_of_decoded intact_of_decoded
  · exact hsecond.imp intact_of_decoded intact_of_decoded

/-- An escape that is decoded in front of a malformed one. -/
theorem query_parameters_fail :
    urlParseQuery machineArith (fun _ => 0) (fun _ => 0) (some (ascii "%41%zz")) ≠
      .ok (passedParameters (queryPairs (ascii "%41%zz"))) := by
  have hpassed : urlParseQuery machineArith (fun _ => 0) (fun _ => 0) (some (ascii "%41%zz")) =
      .ok [⟨ascii "A41%zz", []⟩] := by decide +kernel
  have hmeant : passedParameters (queryPairs (ascii "%41%zz")) = [⟨ascii "%41%zz", []⟩] := by decide
  rw [hpassed, hmeant]
  decide

end CFlare.Http
