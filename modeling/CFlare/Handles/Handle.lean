import CFlare.Library.Runs
import Mathlib.Data.Fintype.Card
import Mathlib.Data.List.FinRange
import Mathlib.Logic.Function.Basic

/-! Reference-counted handles in a fixed table. The mutex around each call is not recursive; it
is seen held only by the deleters. -/
namespace CFlare.Handles
open CFlare.Library

abbrev Handle := Nat
abbrev Pointer := Nat

/-- A slot of the table; its id is zero while it is free. -/
structure Reference where
  type : Bytes
  id : Handle
  data : Pointer
  count : Nat
  deleter : Pointer
  deleterContext : Pointer
  deriving DecidableEq, Repr

abbrev maxRefs : Nat := 255

/-- A call of a deleter. -/
structure Deletion where
  deleter : Pointer
  data : Pointer
  context : Pointer
  deriving DecidableEq, Repr

/-- The static variables, and the deleters called since they were loaded. -/
structure HandleTable where
  refs : Fin maxRefs → Reference
  curid : Handle
  loaded : Bool
  locked : Bool
  deletions : List Deletion

/-- Static variables start as zeros. -/
def HandleTable.initial : HandleTable := ⟨fun _ => ⟨[], 0, 0, 0, 0, 0⟩, 0, false, false, []⟩

/-- What a handle is created with. -/
structure Item where
  type : Bytes
  data : Pointer
  deleter : Pointer
  context : Pointer
  deriving DecidableEq, Repr

def Item.reference (item : Item) (id : Handle) (count : Nat) : Reference :=
  ⟨item.type, id, item.data, count, item.deleter, item.context⟩

def HandleTable.setRef (s : HandleTable) (i : Fin maxRefs) (ref : Reference) : HandleTable :=
  { s with refs := Function.update s.refs i ref }

/-- The first slot with an id. -/
def HandleTable.findHandle (s : HandleTable) (id : Handle) : Option (Fin maxRefs) :=
  (List.finRange maxRefs).find? (fun i => (s.refs i).id = id)

/-- Takes the first free slot. None when there is none, which leaves the counter alone. -/
def HandleTable.newHandle (s : HandleTable) : Except Fault (Option (Fin maxRefs × HandleTable)) :=
  match (List.finRange maxRefs).find? (fun i => (s.refs i).id = 0) with
  | none => .ok none
  | some i =>
    let curid := sizeAdd s.curid 1
    if curid = 0 then .error .assertion
    else .ok (some (i, { s with curid := curid }.setRef i { s.refs i with id := curid }))

def handleLoad (s : HandleTable) : Except Fault Unit × HandleTable :=
  if s.loaded then (.error .assertion, s)
  else
    (.ok (), { s with
      refs := fun _ => ⟨[], 0, 0, 0, 0, 0⟩, locked := false, loaded := true, deletions := [] })

/-- Zero when no handle is left. The type is copied into 32 bytes. -/
def handleNew (s : HandleTable) (item : Item) : Except Fault Handle × HandleTable :=
  if s.loaded = false then (.error .assertion, s)
  else if s.locked then (.error .diverged, s)
  else
    match s.newHandle with
    | .error fault => (.error fault, s)
    | .ok none => (.ok 0, s)
    | .ok (some (i, s')) =>
      if 32 < item.type.length + 1 then (.error .overrun, s')
      else (.ok (s'.refs i).id, s'.setRef i (item.reference (s'.refs i).id 1))

def handleReference (s : HandleTable) (hd : Handle) : Except Fault Unit × HandleTable :=
  if hd = 0 ∨ s.loaded = false then (.error .assertion, s)
  else if s.locked then (.error .diverged, s)
  else
    match s.findHandle hd with
    | none => (.error .abort, s)
    | some i => (.ok (), s.setRef i { s.refs i with count := sizeAdd (s.refs i).count 1 })

/-- The slot is free before its deleter runs, and the mutex is still held then. -/
def handleUnreference (run : Deletion → HandleTable → Except Fault Unit × HandleTable) (s : HandleTable) (hd : Handle) :
    Except Fault Unit × HandleTable :=
  if hd = 0 ∨ s.loaded = false then (.error .assertion, s)
  else if s.locked then (.error .diverged, s)
  else
    match s.findHandle hd with
    | none => (.error .abort, s)
    | some i =>
      let ref := s.refs i
      let count := sizeSub ref.count 1
      if count ≠ 0 then (.ok (), s.setRef i { ref with count := count })
      else
        let s' := s.setRef i { ref with count := count, id := 0 }
        if ref.deleter = 0 then (.ok (), s')
        else
          match run ⟨ref.deleter, ref.data, ref.deleterContext⟩ { s' with locked := true } with
          | (.error fault, s'') => (.error fault, s'')
          | (.ok (), s'') => (.ok (), { s'' with locked := false })

def handleData (s : HandleTable) (hd : Handle) : Except Fault Pointer × HandleTable :=
  if hd = 0 ∨ s.loaded = false then (.error .assertion, s)
  else if s.locked then (.error .diverged, s)
  else
    match s.findHandle hd with
    | none => (.error .abort, s)
    | some i => (.ok (s.refs i).data, s)

/-- A deleter that does not call the functions above. -/
def recordDeletion (deletion : Deletion) (s : HandleTable) : Except Fault Unit × HandleTable :=
  (.ok (), { s with deletions := s.deletions ++ [deletion] })

inductive HandleCall where
  | new (item : Item)
  | reference (hd : Handle)
  | unreference (hd : Handle)
  | data (hd : Handle)
  deriving DecidableEq, Repr

inductive HandleReply where
  | handle (hd : Handle)
  | done
  | pointer (data : Pointer)
  deriving DecidableEq, Repr

def handleCall (s : HandleTable) : HandleCall → Except Fault HandleReply × HandleTable
  | .new item => Prod.map (Except.map .handle) id (handleNew s item)
  | .reference hd => Prod.map (Except.map fun _ => .done) id (handleReference s hd)
  | .unreference hd => Prod.map (Except.map fun _ => .done) id (handleUnreference recordDeletion s hd)
  | .data hd => Prod.map (Except.map .pointer) id (handleData s hd)

/-- A call that returns. -/
def handleStep (s : HandleTable) (call : HandleCall) : Except Fault (HandleReply × HandleTable) :=
  match handleCall s call with
  | (.ok reply, s') => .ok (reply, s')
  | (.error fault, _) => .error fault

/-- A handle is live while a slot has its id. -/
def HandleTable.Live (s : HandleTable) (hd : Handle) : Prop := hd ≠ 0 ∧ ∃ i, (s.refs i).id = hd

/-- The handles in the slots that are taken. -/
def HandleTable.liveHandles (s : HandleTable) : Finset Handle :=
  (Finset.univ.image (fun i => (s.refs i).id)).erase 0

section Lookup
variable {s : HandleTable} {hd : Handle}

theorem findHandle_some {i : Fin maxRefs} (h : s.findHandle hd = some i) : (s.refs i).id = hd := by
  simpa using List.find?_some h

theorem findHandle_none : s.findHandle hd = none ↔ ∀ i, (s.refs i).id ≠ hd := by
  rw [HandleTable.findHandle, List.find?_eq_none]
  simp

theorem findHandle_live (h : s.Live hd) : ∃ i, s.findHandle hd = some i ∧ (s.refs i).id = hd := by
  obtain ⟨-, j, hj⟩ := h
  cases hf : s.findHandle hd with
  | none => exact absurd hj (findHandle_none.mp hf j)
  | some i => exact ⟨i, rfl, findHandle_some hf⟩

theorem setRef_self (s : HandleTable) (i : Fin maxRefs) (ref : Reference) : (s.setRef i ref).refs i = ref :=
  Function.update_self _ _ _

theorem setRef_of_ne (s : HandleTable) {i j : Fin maxRefs} (h : j ≠ i) (ref : Reference) :
    (s.setRef i ref).refs j = s.refs j :=
  Function.update_of_ne h _ _

end Lookup

end CFlare.Handles
