import CFlare.Http.IntegerGrammar
import CFlare.Http.QuerySegments

/-! The buffers of a query. Their accesses stay inside, and the loops over the input and over the buffers end. -/
namespace CFlare.Http
open CFlare.Library

def Ends {α : Type} (good : α → Prop) (result : Except Fault α) : Prop :=
  (∃ a, result = .ok a ∧ good a) ∨ result = .error .assertion

section Ends
variable {α β : Type} {good : α → Prop} {good' : β → Prop} {x : Except Fault α} {f : α → Except Fault β}

theorem Ends.bind (h : Ends good x) (hf : ∀ a, good a → Ends good' (f a)) : Ends good' (x >>= f) := by
  rcases h with ⟨a, rfl, ha⟩ | rfl
  · exact hf a ha
  · exact .inr rfl

theorem Ends.ok {a : α} (h : good a) : Ends good (.ok a) := .inl ⟨a, rfl, h⟩

end Ends

section Decoder
variable {float : FloatArith} {buffer : Buffer} {len : Nat}

/-- The integer parser returns, or its assertion fails. -/
theorem toInteger_ends (float : FloatArith) (str : Bytes) : Ends (fun _ => True) (toInteger float str) := by
  cases hcall : toInteger float str with
  | ok ret => exact .ok trivial
  | error fault =>
    obtain ⟨rfl, -⟩ := toInteger_eq_error.mp hcall
    exact .inr rfl

/-- Whatever the decoder returns, the buffer has its size, and a new length is no greater than the old one. -/
def InPlace (buffer : Buffer) (len : Nat) (result : Option Nat × Buffer) : Prop :=
  result.2.size = buffer.size ∧ ∀ n, result.1 = some n → n ≤ len

theorem unescapeLoop_ends {fuel i n : Nat} (hf : len < fuel + i) (hi : i ≤ len) (hn : n ≤ i) (hsize : len < buffer.size) :
    Ends (InPlace buffer len) (unescapeLoop float len fuel i n buffer) := by
  induction fuel generalizing i n buffer with
  | zero => omega
  | succ fuel ih =>
    rw [unescapeLoop]
    by_cases hless : i < len
    · rw [if_pos hless, buffer_get (by omega), fault_ok_bind]
      have hwrite : ∀ {k} x, k ≤ len → i < k → Ends (InPlace buffer len) (do
          let buffer ← buffer.set n x
          unescapeLoop float len fuel k (n + 1) buffer) := by
        intro k x hk hless
        rw [buffer_set (by omega), fault_ok_bind]
        exact ih (by omega) hk (by omega) hsize
      split
      · split
        · exact .ok ⟨rfl, nofun⟩
        · rw [buffer_get (by omega), fault_ok_bind, buffer_get (by omega), fault_ok_bind]
          refine (toInteger_ends float _).bind fun ret _ => ?_
          cases ret with
          | none => exact .ok ⟨rfl, nofun⟩
          | some value => exact hwrite _ (by omega) (by omega)
      · split
        · exact hwrite _ (by omega) (by omega)
        · exact hwrite _ (by omega) (by omega)
    · rw [if_neg hless]
      refine .ok ⟨rfl, fun m hm => ?_⟩
      obtain rfl := Option.some.inj hm
      exact hn.trans hi

/-- The null byte goes where the buffer still is. -/
theorem finishSegment_ends (hgrown : buffer.Grown) (hsize : len < buffer.size) :
    Ends (fun result => result.2.Grown) (finishSegment float buffer len) := by
  have hloop : Ends (InPlace buffer len) (unescapeLoop float len (len + 1) 0 0 buffer) :=
    unescapeLoop_ends (Nat.lt_succ_self len) (Nat.zero_le _) (Nat.le_refl 0) hsize
  have hdecoder : Ends (fun result => result.2.Grown) (unescapeUrlMutate float buffer len) := by
    refine hloop.bind ?_
    rintro ⟨_ | n, buffer'⟩ ⟨hsame, hle⟩
    · exact .ok (hgrown.imp fun k hk => hsame.trans hk)
    · have hn := hle n rfl
      have hroom : n < buffer'.size := by
        dsimp only at hsame
        omega
      dsimp only
      rw [buffer_set hroom, fault_ok_bind]
      exact .ok (hgrown.imp fun k hk => hsame.trans hk)
  exact hdecoder.bind fun result hresult => .ok hresult

end Decoder

/-- No access to the input or to a buffer is outside, and every loop ends: the call returns, or an assertion of the
integer parser fails. -/
theorem query_buffers_safe (float : FloatArith) (key value : Memory) (input : Bytes) (hmem : ReallocSucceeds input) :
    (∃ parameters, urlParseQuery float key value (some input) = .ok parameters) ∨
      urlParseQuery float key value (some input) = .error .assertion := by
  let Post : List Bytes → Except Fault (List Parameter) → Prop := fun _ result => Ends (fun _ => True) result
  have hrun : Post (queryPairs input) (urlParseQuery float key value (some input)) := by
    have hend : Post [] (.ok []) := .inl ⟨[], rfl, trivial⟩
    refine urlParseQuery_run hmem hend ?_ key value
    intro pair pairs fuel i key value hkey hvalue hrest
    refine (finishSegment_ends hkey.grown hkey.room).bind fun keyResult hkey' => ?_
    refine (finishSegment_ends hvalue.grown hvalue.room).bind fun valueResult hvalue' => ?_
    exact (hrest _ _ hkey' hvalue').bind fun _ _ => .ok trivial
  rcases hrun with ⟨parameters, hret, -⟩ | hfault
  · exact .inl ⟨parameters, hret⟩
  · exact .inr hfault

/-- A short query, with an escape that is no escape. -/
theorem query_buffers_safe_short :
    (∃ parameters, urlParseQuery machineArith (fun _ => 0) (fun _ => 0) (some (ascii "a=%-1&b")) = .ok parameters) ∨
      urlParseQuery machineArith (fun _ => 0) (fun _ => 0) (some (ascii "a=%-1&b")) = .error .assertion := by
  have hlength : (ascii "a=%-1&b").length = 7 := rfl
  exact query_buffers_safe machineArith _ _ _ (reallocSucceeds_of_lt (by omega))

end CFlare.Http
