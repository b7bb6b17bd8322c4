import CFlare.Hooks.HookStack
import CFlare.Storage.LinkedListMirror

/-! What the getters of a hook's stack find at each index. An index that is not negative counts from the
element pushed first, a negative one from the other end. -/
namespace CFlare.Hooks
open CFlare.Library CFlare.Storage

namespace HookStack

section Positions
variable {elements : LinkedList HookStackElm} {cells : Cells HookStackElm}

/-- Going back from the last element is going on from the first one of the mirrored list. -/
theorem moves_mirror (elements : LinkedList HookStackElm) (turns : Nat) (it : Iterator) :
    moves elements.iteratorPrev turns it =
      (moves elements.mirror.iteratorNext turns it.mirror).map (Option.map Iterator.mirror) := by
  induction turns generalizing it with
  | zero => rfl
  | succ turns ih =>
    rw [moves, moves, iteratorPrev_mirror]
    cases elements.mirror.iteratorNext it.mirror with
    | error fault => rfl
    | ok r =>
      obtain ⟨position, it'⟩ := r
      cases position with
      | none => rfl
      | some p => exact ih it'.mirror

private theorem locate_walk {found : Except Fault (Option Iterator)} {r : Option Iterator} {address : Option Nat}
    (hf : found = .ok r) (hr : r.map Iterator.value = address.map some) :
    (do
      let it ← found
      match it with
      | none => .ok none
      | some it =>
        match it.value with
        | none => .error .undefined
        | some p => .ok (some p) : Except Fault (Option Nat)) = .ok address := by
  subst hf
  cases r with
  | none =>
    cases address with
    | none => rfl
    | some p => cases hr
  | some it =>
    cases address with
    | none => cases hr
    | some p =>
      have hv : it.value = some p := Option.some.inj hr
      simp only [fault_ok_bind, hv]

theorem locate_nonneg (h : Represents elements cells) {i : Nat} (hsmall : i + 1 < 2^31) :
    locate elements i = .ok cells.addresses[i]? := by
  have h0 : Represents elements ([] ++ cells) := h
  obtain ⟨r, he, hr⟩ := moves_next h0 (ahead_getIterator h) i
  have hsum : int32Sum i 1 = .ok (i + 1) := if_pos (by omega)
  have hturns : ((i : Int) + 1).toNat = i + 1 := by omega
  unfold locate
  rw [if_pos (Int.natCast_nonneg i), hsum, fault_ok_bind, hturns]
  exact locate_walk he hr

theorem locate_neg (h : Represents elements cells) {k : Nat} (hk : 0 < k) (hsmall : k < 2^31) :
    locate elements (-k) = .ok cells.addresses.reverse[k]? := by
  have h0 : Represents elements.mirror ([] ++ cells.reverse) := h.mirror
  obtain ⟨r, he, hr⟩ := moves_next h0 (ahead_getIterator h.mirror) k
  have hsum : int32Sum (-k) (-1) = .ok (-k + -1) := if_pos (by omega)
  have hturns : (-(-(k : Int) + -1)).toNat = k + 1 := by omega
  have hwalk : moves elements.iteratorPrev (k + 1) LinkedList.getIterator = .ok (r.map Iterator.mirror) := by
    rw [moves_mirror]
    show (moves elements.mirror.iteratorNext (k + 1) LinkedList.getIterator).map _ = _
    rw [he]
    rfl
  have hvalue : (r.map Iterator.mirror).map Iterator.value = cells.addresses.reverse[k]?.map some := by
    have haddresses : cells.addresses.reverse = Cells.addresses cells.reverse := List.map_reverse.symm
    rw [Option.map_map, haddresses, ← hr]
    rfl
  unfold locate
  rw [if_neg (by omega), hsum, fault_ok_bind, hturns]
  exact locate_walk hwalk hvalue

/-- At the two ends of the index's range there is no sum. -/
theorem locate_overflow (elements : LinkedList HookStackElm) {index : Int}
    (h : index = 2^31 - 1 ∨ index = -2^31) : locate elements index = .error .undefined := by
  unfold locate
  rcases h with rfl | rfl
  · rw [if_pos (by decide), int32Sum, if_neg (by decide)]
    rfl
  · rw [if_neg (by decide), int32Sum, if_neg (by decide)]
    rfl

end Positions

/-- The calls that push an element. -/
inductive Push where
  | integer (value : Int)
  | number (value : UInt64)
  | string (value : Bytes)
  | pointer (type : Bytes) (ptr : Nat)
  deriving DecidableEq, Repr

def pushCall (stack : HookStack) : Push → Except Fault HookStack
  | .integer value => stack.pushInteger value
  | .number value => stack.pushNumber value
  | .string value => stack.pushString value
  | .pointer type ptr => stack.pushPointer type ptr

/-- A new stack after these pushes. -/
def built (pushes : List Push) : Except Fault HookStack := pushes.foldlM pushCall new

def Push.elm : Push → HookStackElm
  | .integer value => ⟨.integer, .integer value⟩
  | .number value => ⟨.number, .number value⟩
  | .string value => ⟨.string, .string value⟩
  | .pointer type ptr => ⟨.pointer, .pointer ptr type⟩

theorem pushCall_elm (stack : HookStack) (push : Push) : pushCall stack push = stack.push push.elm := by
  cases push <;> rfl

theorem built_holds (pushes : List Push) : ∃ stack, built pushes = .ok stack ∧ stack.Holds (pushes.map Push.elm) := by
  have hrun : ∀ (pushes : List Push) (stack : HookStack) (elms : List HookStackElm), stack.Holds elms →
      ∃ stack', pushes.foldlM pushCall stack = .ok stack' ∧ stack'.Holds (elms ++ pushes.map Push.elm) := by
    intro pushes
    induction pushes with
    | nil => exact fun stack elms h => ⟨stack, rfl, by simpa using h⟩
    | cons push pushes ih =>
      intro stack elms h
      obtain ⟨stack1, hpush, h1⟩ := push_holds h push.elm
      obtain ⟨stack', hrest, h'⟩ := ih stack1 _ h1
      refine ⟨stack', ?_, by simpa using h'⟩
      rw [List.foldlM_cons, pushCall_elm, hpush]
      exact hrest
  exact hrun pushes new [] new_holds

/-- The address of the element an index is for: counted from the first one, or from the last one as -1. -/
def addressOf (cells : Cells HookStackElm) (index : Int) : Option Nat :=
  if 0 ≤ index then cells.addresses[index.toNat]? else cells.addresses.reverse[(-index).toNat - 1]?

/-- In every stack that pushes build, an index leads to the element it is for exactly if it is not negative and
has a successor, or lies below all elements and has a predecessor; what a getter returns is read there. -/
theorem hookstack_index_iff (pushes : List Push) (index : Int) (hlow : -2^31 ≤ index) (hhigh : index < 2^31) :
    ∃ elements cells, built pushes = .ok (some elements) ∧ elements.forwards = .ok cells ∧
      cells.data = pushes.map Push.elm ∧
      (locate elements index = .ok (addressOf cells index) ↔
        (0 ≤ index ∧ index ≠ 2^31 - 1) ∨ (index < -pushes.length ∧ index ≠ -2^31)) ∧
      ∀ (σ : Type) (warn : Bytes → σ → Except Fault σ) (type : HookStackType) (s : σ),
        getElm warn (some elements) index type s = locate elements index >>= readElm warn elements index type s := by
  obtain ⟨stack, hbuilt, elements, cells, rfl, hr, -, hd⟩ := built_holds pushes
  refine ⟨elements, cells, hbuilt, forwards_spec hr, hd, ?_, fun σ warn type s => rfl⟩
  have hlength : cells.addresses.length = pushes.length := by
    rw [← List.length_map (f := Push.elm), ← hd, List.length_map, List.length_map]
  by_cases hover : index = 2^31 - 1 ∨ index = -2^31
  · rw [locate_overflow elements hover]
    constructor
    · intro h
      cases h
    · omega
  rw [not_or] at hover
  by_cases hneg : 0 ≤ index
  · obtain ⟨i, rfl⟩ := Int.eq_ofNat_of_zero_le hneg
    rw [locate_nonneg hr (by omega), addressOf, if_pos hneg]
    exact ⟨fun _ => .inl ⟨hneg, hover.1⟩, fun _ => rfl⟩
  · obtain ⟨k, hk⟩ := Int.eq_ofNat_of_zero_le (show 0 ≤ -index by omega)
    obtain rfl : index = -k := by omega
    have hpos : (-(-(k : Int))).toNat - 1 = k - 1 := by omega
    rw [locate_neg hr (by omega) (by omega), addressOf, if_neg hneg, hpos]
    constructor
    · intro h
      refine .inr ⟨?_, hover.2⟩
      by_contra hin
      have hlt : k - 1 < cells.addresses.reverse.length := by
        rw [List.length_reverse]
        omega
      have hsame := (List.getElem?_inj hlt (List.nodup_reverse.mpr hr.distinct)).mp (Except.ok.inj h).symm
      omega
    · rintro (⟨hnonneg, -⟩ | ⟨hbelow, -⟩)
      · exact absurd hnonneg hneg
      · have hlen : cells.addresses.reverse.length ≤ k - 1 := by
          rw [List.length_reverse]
          omega
        rw [List.getElem?_eq_none (hlen.trans (Nat.sub_le k 1)), List.getElem?_eq_none hlen]

/-- Two elements, and the second one from the bottom. -/
theorem hookstack_index_two :
    ∃ elements cells, built [.integer 5, .string (ascii "x")] = .ok (some elements) ∧
      elements.forwards = .ok cells ∧ locate elements 1 = .ok (addressOf cells 1) := by
  obtain ⟨elements, cells, hbuilt, hwalk, -, hiff, -⟩ :=
    hookstack_index_iff [.integer 5, .string (ascii "x")] 1 (by decide) (by decide)
  exact ⟨elements, cells, hbuilt, hwalk, hiff.mpr (.inl (by decide))⟩

/-- Of one element, which -1 is for, a getter finds none there. -/
theorem hookstack_index_fails :
    ¬ ∀ (pushes : List Push) (index : Int), -2^31 ≤ index → index < 2^31 →
      ∃ elements cells, built pushes = .ok (some elements) ∧ elements.forwards = .ok cells ∧
        locate elements index = .ok (addressOf cells index) := by
  intro hall
  obtain ⟨elements, cells, hbuilt, hwalk, hlocate⟩ := hall [.integer 5] (-1) (by decide) (by decide)
  obtain rfl := Option.some.inj (Except.ok.inj hbuilt)
  obtain rfl := Except.ok.inj hwalk
  cases hlocate

/-- The getters, with what they are asked for. -/
inductive Getter where
  | integer
  | number
  | string
  | pointer (type : Bytes)
  deriving DecidableEq, Repr

/-- What a getter stores in `*out`. -/
inductive Got where
  | integer (value : Int)
  | number (value : UInt64)
  | string (value : Bytes)
  | pointer (ptr : Nat)
  deriving DecidableEq, Repr

def getCall {σ : Type} (warn : Bytes → σ → Except Fault σ) (stack : HookStack) (index : Int) (s : σ) :
    Getter → Except Fault (Option Got × σ)
  | .integer => (getInteger warn stack index s).map fun r => (r.1.map .integer, r.2)
  | .number => (getNumber warn stack index s).map fun r => (r.1.map .number, r.2)
  | .string => (getString warn stack index s).map fun r => (r.1.map .string, r.2)
  | .pointer type => (getPointer warn stack index type s).map fun r => (r.1.map .pointer, r.2)

/-- What a getter is for: the value that was pushed, if it was pushed by the function of the same kind. -/
def Getter.read : Getter → Push → Option Got
  | .integer, .integer value => some (.integer value)
  | .number, .number value => some (.number value)
  | .string, .string value => some (.string value)
  | .pointer type, .pointer type' ptr => if type = type' then some (.pointer ptr) else none
  | _, _ => none

private theorem getElm_built {σ : Type} {pushes : List Push} {stack : HookStack}
    (h : stack.Holds (pushes.map Push.elm)) (log : Bytes → σ → σ) {i : Nat} (hsmall : i + 1 < 2^31) {push : Push}
    (hat : pushes[i]? = some push) (type : HookStackType) (s : σ) :
    getElm (fun text s => .ok (log text s)) stack i type s =
      if push.elm.type ≠ type then .ok (none, log (mismatch i push.elm.type type) s) else .ok (some push.elm, s) := by
  obtain ⟨hi, rfl⟩ := List.getElem?_eq_some_iff.mp hat
  have hlt : i < (pushes.map Push.elm).length := by rwa [List.length_map]
  rw [getElm_holds _ h hlt hsmall type s, List.getElem_map]
  rfl

private theorem getElm_past {σ : Type} {pushes : List Push} {stack : HookStack}
    (h : stack.Holds (pushes.map Push.elm)) (warn : Bytes → σ → Except Fault σ) {i : Nat} (hsmall : i + 1 < 2^31)
    (hat : pushes[i]? = none) (type : HookStackType) (s : σ) : getElm warn stack i type s = .ok (none, s) := by
  obtain ⟨elements, cells, rfl, hr, -, hd⟩ := h
  have hpast : cells.addresses[i]? = none := by
    have hlength : cells.addresses.length = pushes.length := by
      rw [← List.length_map (f := Push.elm), ← hd, List.length_map, List.length_map]
    rw [List.getElem?_eq_none_iff] at hat ⊢
    rwa [hlength]
  rw [getElm, locate_nonneg hr hsmall, hpast]
  rfl

private theorem getCall_fault {σ : Type} {warn : Bytes → σ → Except Fault σ} {stack : HookStack} {index : Int} {s : σ}
    (h : ∀ type, getElm warn stack index type s = .error .undefined) (getter : Getter) :
    getCall warn stack index s getter = .error .undefined := by
  cases getter <;> simp [getCall, getInteger, getNumber, getString, getPointer, h, Except.map]

private theorem getCall_none {σ : Type} {warn : Bytes → σ → Except Fault σ} {stack : HookStack} {index : Int} {s : σ}
    (h : ∀ type, getElm warn stack index type s = .ok (none, s)) (getter : Getter) :
    getCall warn stack index s getter = .ok (none, s) := by
  cases getter <;> simp [getCall, getInteger, getNumber, getString, getPointer, h, Except.map]

private theorem getCall_some {σ : Type} {log : Bytes → σ → σ} {stack : HookStack} {index : Int} {s : σ} {push : Push}
    (h : ∀ type, getElm (fun text s => .ok (log text s)) stack index type s =
      if push.elm.type ≠ type then .ok (none, log (mismatch index push.elm.type type) s) else .ok (some push.elm, s))
    (getter : Getter) :
    (∃ s', getCall (fun text s => .ok (log text s)) stack index s getter = .ok (getter.read push, s')) ↔
      (getter = .string → push.elm.type ≠ .string ∧ push.elm.type ≠ .number) := by
  cases getter with
  | integer => cases push <;> simp [getCall, getInteger, h, Push.elm, Getter.read, Except.map]
  | number => cases push <;> simp [getCall, getNumber, h, Push.elm, Getter.read, Except.map]
  | string => cases push <;> simp [getCall, getString, h, Push.elm, Getter.read, Except.map]
  | pointer type =>
    cases push with
    | pointer type' ptr =>
      by_cases htype : type = type' <;>
        simp [getCall, getPointer, h, Push.elm, Getter.read, Except.map, htype]
    | _ => simp [getCall, getPointer, h, Push.elm, Getter.read, Except.map]

/-- In every stack that pushes build, a getter at an index that is not negative yields what was pushed there by
the function of its kind, and fails otherwise, exactly if the index has a successor and it is not the getter for
strings at a string or a number. -/
theorem hookstack_get_iff {σ : Type} (pushes : List Push) (i : Nat) (hi : i < 2^31) (getter : Getter)
    (log : Bytes → σ → σ) (s : σ) :
    ∃ stack, built pushes = .ok stack ∧
      ((∃ s', getCall (fun text s => .ok (log text s)) stack i s getter = .ok (pushes[i]?.bind getter.read, s')) ↔
        i ≠ 2^31 - 1 ∧ (getter = .string →
          ∀ push, pushes[i]? = some push → push.elm.type ≠ .string ∧ push.elm.type ≠ .number)) := by
  obtain ⟨stack, hbuilt, h⟩ := built_holds pushes
  refine ⟨stack, hbuilt, ?_⟩
  by_cases hover : i = 2^31 - 1
  · obtain ⟨elements, cells, rfl, -⟩ := h
    have hfault : ∀ type, getElm (fun text s => .ok (log text s)) (some elements) i type s = .error .undefined := by
      intro type
      rw [getElm, locate_overflow elements (.inl (by omega))]
      rfl
    rw [getCall_fault hfault]
    constructor
    · rintro ⟨s', he⟩
      cases he
    · exact fun hc => absurd hover hc.1
  have hsmall : i + 1 < 2^31 := by omega
  cases hat : pushes[i]? with
  | none =>
    rw [getCall_none (getElm_past h _ hsmall hat · s)]
    refine ⟨fun _ => ⟨hover, fun _ push hpush => ?_⟩, fun _ => ⟨s, rfl⟩⟩
    cases hpush
  | some push =>
    have hiff := getCall_some (getElm_built h log hsmall hat · s) getter
    constructor
    · rintro he
      refine ⟨hover, fun hstring other hother => ?_⟩
      obtain rfl := Option.some.inj hother
      exact hiff.mp he hstring
    · exact fun hc => hiff.mpr (fun hstring => hc.2 hstring push rfl)

/-- A pointer behind an integer. -/
theorem hookstack_get_two :
    ∃ stack, built [.integer 5, .pointer (ascii "t") 9] = .ok stack ∧
      ∃ s', getCall (fun text s => .ok (s ++ [text])) stack 1 [] (.pointer (ascii "t")) =
        .ok (some (.pointer 9), s') := by
  obtain ⟨stack, hbuilt, hiff⟩ := hookstack_get_iff [.integer 5, .pointer (ascii "t") 9] 1 (by decide)
    (.pointer (ascii "t")) (fun text s => s ++ [text]) []
  refine ⟨stack, hbuilt, hiff.mpr ⟨by decide, fun hstring => ?_⟩⟩
  cases hstring

/-- A string that was pushed is not got. -/
theorem hookstack_get_fails :
    ¬ ∀ (pushes : List Push) (i : Nat), i < 2^31 → ∀ getter : Getter, ∃ stack, built pushes = .ok stack ∧
      ∃ s', getCall (fun text s => .ok (s ++ [text])) stack i [] getter = .ok (pushes[i]?.bind getter.read, s') := by
  intro hall
  obtain ⟨stack, hbuilt, s', hget⟩ := hall [.string (ascii "x")] 0 (by decide) .string
  obtain rfl := Except.ok.inj hbuilt
  cases hget

end HookStack

end CFlare.Hooks
