import CFlare.Storage.LinkedListSequence

/-! The stack of values handed to a hook and back. An element carries the type it was pushed
as, and a getter compares it with the type that it asks for. -/
namespace CFlare.Hooks
open CFlare.Library CFlare.Storage

inductive HookStackType where
  | integer
  | number
  | string
  | pointer
  | handle
  deriving DecidableEq, Repr

def HookStackType.toString : HookStackType → Bytes
  | .integer => ascii "integer"
  | .number => ascii "number"
  | .string => ascii "string"
  | .pointer => ascii "pointer"
  | .handle => ascii "handle"

/-- The union of an element: the member that was written. A number is its 64 bits. -/
inductive HookStackData where
  | integer (value : Int)
  | number (value : UInt64)
  | string (text : Bytes)
  | pointer (ptr : Nat) (type : Bytes)
  deriving DecidableEq, Repr

structure HookStackElm where
  type : HookStackType
  data : HookStackData
  deriving DecidableEq, Repr

/-- A stack, or the null pointer. -/
abbrev HookStack := Option (LinkedList HookStackElm)

/-- A sum of 32 signed bits; leaving them is undefined. -/
def int32Sum (a b : Int) : Except Fault Int :=
  if -2^31 ≤ a + b ∧ a + b < 2^31 then .ok (a + b) else .error .undefined

namespace HookStack

def new : HookStack := some (LinkedList.new.ondelete true)

def push (stack : HookStack) (elm : HookStackElm) : Except Fault HookStack :=
  match stack with
  | none => .ok none
  | some elements => (elements.insertLast elm).map fun r => some r.2

def pushInteger (stack : HookStack) (value : Int) : Except Fault HookStack :=
  stack.push ⟨.integer, .integer value⟩

def pushNumber (stack : HookStack) (value : UInt64) : Except Fault HookStack :=
  stack.push ⟨.number, .number value⟩

def pushString (stack : HookStack) (value : Bytes) : Except Fault HookStack :=
  stack.push ⟨.string, .string value⟩

def pushPointer (stack : HookStack) (type : Bytes) (ptr : Nat) : Except Fault HookStack :=
  stack.push ⟨.pointer, .pointer ptr type⟩

/-- Move an iterator this often; none when it leaves the list. -/
def moves (move : Iterator → Except Fault (Option Nat × Iterator)) : Nat → Iterator →
    Except Fault (Option Iterator)
  | 0, it => .ok (some it)
  | turns + 1, it => do
    let (position, it) ← move it
    match position with
    | none => .ok none
    | some _ => moves move turns it

/-- A getter warns of an element of another type. What a warning does is up to `warn`. -/
def mismatch (index : Int) (found requested : HookStackType) : Bytes :=
  ascii "cflare_hookstack_get_*(): type mismatch: at index " ++ ascii (ToString.toString index) ++
    ascii "; have " ++ found.toString ++ ascii ", requested " ++ requested.toString ++ ascii "."

/-- The walk of `get_elm`, to the node that an index leads to. -/
def locate (elements : LinkedList HookStackElm) (index : Int) : Except Fault (Option Nat) := do
  let it ←
    if 0 ≤ index then do
      let stop ← int32Sum index 1
      moves elements.iteratorNext stop.toNat LinkedList.getIterator
    else do
      let stop ← int32Sum index (-1)
      moves elements.iteratorPrev (-stop).toNat LinkedList.getIterator
  match it with
  | none => .ok none
  | some it =>
    match it.value with
    | none => .error .undefined
    | some p => .ok (some p)

section Getters
variable {σ : Type} (warn : Bytes → σ → Except Fault σ)

/-- The rest of it: the element there, if it has the type asked for. -/
def readElm (elements : LinkedList HookStackElm) (index : Int) (type : HookStackType) (s : σ) :
    Option Nat → Except Fault (Option HookStackElm × σ)
  | none => .ok (none, s)
  | some p => do
    let ret ← elements.node p
    if ret.data.type ≠ type then do
      let s ← warn (mismatch index ret.data.type type) s
      .ok (none, s)
    else .ok (some ret.data, s)

def getElm (stack : HookStack) (index : Int) (type : HookStackType) (s : σ) :
    Except Fault (Option HookStackElm × σ) :=
  match stack with
  | none => .ok (none, s)
  | some elements => do
    let position ← locate elements index
    readElm warn elements index type s position

def getInteger (stack : HookStack) (index : Int) (s : σ) : Except Fault (Option Int × σ) := do
  let (elm, s) ← getElm warn stack index .integer s
  match elm with
  | none => .ok (none, s)
  | some elm =>
    match elm.data with
    | .integer value => .ok (some value, s)
    | _ => .error .undefined

def getNumber (stack : HookStack) (index : Int) (s : σ) : Except Fault (Option UInt64 × σ) := do
  let (elm, s) ← getElm warn stack index .number s
  match elm with
  | none => .ok (none, s)
  | some elm =>
    match elm.data with
    | .number value => .ok (some value, s)
    | _ => .error .undefined

/-- The type asked for is that of a number. -/
def getString (stack : HookStack) (index : Int) (s : σ) : Except Fault (Option Bytes × σ) := do
  let (elm, s) ← getElm warn stack index .number s
  match elm with
  | none => .ok (none, s)
  | some elm =>
    match elm.data with
    | .string text => .ok (some text, s)
    | _ => .error .undefined

def getPointer (stack : HookStack) (index : Int) (type : Bytes) (s : σ) :
    Except Fault (Option Nat × σ) := do
  let (elm, s) ← getElm warn stack index .pointer s
  match elm with
  | none => .ok (none, s)
  | some elm =>
    match elm.data with
    | .pointer ptr have_ => if type ≠ have_ then .ok (none, s) else .ok (some ptr, s)
    | _ => .error .undefined

end Getters

/-- Deleting the null stack does nothing. -/
def delete (stack : HookStack) : Except Fault Unit :=
  match stack with
  | none => .ok ()
  | some elements => elements.delete.map fun _ => ()

/-- The elements of a stack, from the one pushed first on. -/
def Holds (stack : HookStack) (elms : List HookStackElm) : Prop :=
  ∃ list cells, stack = some list ∧ Represents list cells ∧ list.count = cells.length ∧
    cells.data = elms

theorem new_holds : HookStack.new.Holds [] :=
  ⟨_, [], rfl, represents_new.congr rfl rfl rfl rfl, rfl, rfl⟩

theorem push_holds {stack : HookStack} {elms : List HookStackElm} (h : stack.Holds elms)
    (elm : HookStackElm) : ∃ stack', stack.push elm = .ok stack' ∧ stack'.Holds (elms ++ [elm]) := by
  obtain ⟨list, cells, rfl, hr, hc, rfl⟩ := h
  obtain ⟨list', he, hr', hc', -⟩ := insertLast_spec hr elm
  refine ⟨some list', by rw [push, he]; rfl, list', _, rfl, hr', ?_, ?_⟩
  · rw [hc', hc, List.length_append]
    rfl
  · rw [Cells.data, List.map_append]
    rfl

theorem delete_holds {stack : HookStack} {elms : List HookStackElm} (h : stack.Holds elms) :
    stack.delete = .ok () := by
  obtain ⟨list, cells, rfl, hr, hc, -⟩ := h
  rw [delete, delete_spec hr hc]
  rfl

/-- A walk of one move more than there are cells before a cell ends on it, and there is none behind the last. -/
theorem moves_next {list : LinkedList HookStackElm} {xs rest : Cells HookStackElm} {it : Iterator}
    (h : Represents list (xs ++ rest)) (ha : it.Ahead list rest) (k : Nat) :
    ∃ r, moves list.iteratorNext (k + 1) it = .ok r ∧ r.map Iterator.value = rest.addresses[k]?.map some := by
  induction rest generalizing xs it k with
  | nil =>
    obtain ⟨it', he, -⟩ := iteratorNext_nil ha
    exact ⟨none, by rw [moves, he]; rfl, rfl⟩
  | cons c rest ih =>
    obtain ⟨q, other⟩ := c
    obtain ⟨it', -, he, hv, -, -, hahead⟩ := iteratorNext_cons h ha
    cases k with
    | zero => exact ⟨some it', by rw [moves, he]; rfl, by simp [hv]⟩
    | succ k =>
      have h' : Represents list ((xs ++ [(q, other)]) ++ rest) := by simpa using h
      obtain ⟨r, hes, hr⟩ := ih h' (hahead list) k
      exact ⟨r, by rw [moves, he]; exact hes, by simpa using hr⟩

/-- At the index of an element a getter compares the types. -/
theorem getElm_holds {σ : Type} (warn : Bytes → σ → Except Fault σ) {stack : HookStack}
    {elms : List HookStackElm} (h : stack.Holds elms) {i : Nat} (hi : i < elms.length)
    (hsmall : i + 1 < 2^31) (type : HookStackType) (s : σ) :
    getElm warn stack i type s =
      if elms[i].type ≠ type then (warn (mismatch i elms[i].type type) s).map fun s => (none, s)
      else .ok (some elms[i], s) := by
  obtain ⟨list, cells, rfl, hr, -, rfl⟩ := h
  rw [List.length_map] at hi
  obtain ⟨us, ⟨p, elm⟩, vs, hcells, hlen⟩ : ∃ us c vs, cells = us ++ c :: vs ∧ us.length = i :=
    ⟨cells.take i, cells[i], cells.drop (i + 1), by simp, by simp [hi.le]⟩
  have hat : cells.data[i] = elm := by simp [hcells, ← hlen]
  have hr0 : Represents list ([] ++ cells) := hr
  obtain ⟨r, he, hv⟩ := moves_next hr0 (ahead_getIterator hr) i
  have haddress : cells.addresses[i]? = some p := by simp [hcells, ← hlen]
  rw [haddress] at hv
  obtain ⟨it, rfl, hvalue⟩ := Option.map_eq_some_iff.mp hv
  rw [hcells] at hr
  have hp := ((segment_append us ((p, elm) :: vs)).mp hr.linked).2.1
  have hsum : int32Sum i 1 = .ok (i + 1) := if_pos (by omega)
  have hturns : ((i : Int) + 1).toNat = i + 1 := by omega
  have hlocate : locate list i = .ok (some p) := by
    rw [locate]
    simp only [Int.natCast_nonneg, if_true, hsum, fault_ok_bind, hturns, he, hvalue]
  rw [getElm, hlocate, fault_ok_bind, readElm]
  simp only [LinkedList.node, hp, hat, fault_ok_bind]
  split
  · cases warn _ s <;> rfl
  · rfl

end HookStack

end CFlare.Hooks
