import CFlare.Storage.Hashtable
import Mathlib.Order.Lattice

/-! The hook library: a hashtable from names to lists of hooks. A priority is an element of a
linear order, a callback is named by its function and its context. -/
namespace CFlare.Hooks
open CFlare.Library CFlare.Storage

structure Hook (P F X : Type) where
  id : Bytes
  priority : P
  context : X
  func : F

/-- What the hashtable stores for a name: `funcs` is the address of the name's list. -/
structure HookTable where
  name : Bytes
  funcs : Nat
  deriving DecidableEq, Repr

def hookTableSize : Nat := 16

/-- The tables of the names and their lists, whatever the memory of a node is taken to be. List addresses below
`listsCount` have been handed out. -/
structure Tables (α : Type) where
  hookTables : Hashtable HookTable
  hookLoaded : Bool
  lists : Nat → Option (LinkedList α)
  listsCount : Nat

namespace Tables
variable {α : Type}

def list (reg : Tables α) (a : Nat) : Except Fault (LinkedList α) :=
  match reg.lists a with
  | none => .error .undefined
  | some list => .ok list

def setList (reg : Tables α) (a : Nat) (list : LinkedList α) : Tables α :=
  { reg with lists := Function.update reg.lists a (some list) }

end Tables

abbrev Registry (P F X : Type) := Tables (Hook P F X)

variable {P F X : Type}

/-- The registry of a program that has not loaded the hook system. -/
def Registry.unloaded : Registry P F X := ⟨Hashtable.new, false, fun _ => none, 0⟩

def hookLoad (reg : Registry P F X) : Except Fault (Registry P F X) :=
  if reg.hookLoaded then .error .abort
  else .ok { reg with hookTables := Hashtable.new.ondelete true, hookLoaded := true }

/-- Remove every hook with the id that the iterator meets. -/
def removeHooks (id : Bytes) : Nat → Iterator → LinkedList (Hook P F X) →
    Except Fault (LinkedList (Hook P F X))
  | 0, _, _ => .error .diverged
  | fuel + 1, it, list => do
    let (position, it) ← list.iteratorNext it
    match position with
    | none => .ok list
    | some p =>
      let n ← list.node p
      if n.data.id = id then do
        let (_, list) ← list.remove (some p)
        removeHooks id fuel it list
      else removeHooks id fuel it list

def hookRemove (reg : Registry P F X) (name id : Bytes) : Except Fault (Registry P F X) :=
  if reg.hookLoaded = false then .error .abort
  else do
    match ← reg.hookTables.get (hashCompute name) with
    | none => .ok reg
    | some tbl =>
      let list ← reg.list tbl.data.funcs
      let list ← removeHooks id (list.allocated + 1) LinkedList.getIterator list
      .ok (reg.setList tbl.data.funcs list)

/-- The table of a name; a name that is new gets an empty list. -/
def hookTable (reg : Registry P F X) (name : Bytes) :
    Except Fault (Block HookTable × Registry P F X) := do
  match ← reg.hookTables.get (hashCompute name) with
  | some tbl => .ok (tbl, reg)
  | none =>
    let a := reg.listsCount
    let reg := { reg.setList a (LinkedList.new.ondelete true) with listsCount := a + 1 }
    let tables ← reg.hookTables.set (hashCompute name) (some ⟨name, a⟩) hookTableSize
    match ← tables.get (hashCompute name) with
    | none => .error .assertion
    | some tbl => .ok (tbl, { reg with hookTables := tables })

def hookAdd [LT P] [DecidableLT P] (reg : Registry P F X) (name : Bytes) (hook : Hook P F X) :
    Except Fault (Registry P F X) := do
  let reg ← hookRemove reg name hook.id
  let (tbl, reg) ← hookTable reg name
  let list ← reg.list tbl.data.funcs
  let it ← list.find (fun val => hook.priority < val.priority)
  let (_, list) ← list.insertBefore it.value hook
  .ok (reg.setList tbl.data.funcs list)

/-- A callback may change the registry and the rest of the world; it returns whether the call
ends with it. -/
abbrev Callback (P F X W : Type) := F → X → Registry P F X × W → Except Fault (Bool × Registry P F X × W)

/-- The calling loop: a callback that returns true ends it. -/
def callHooks {W : Type} (invoke : Callback P F X W) (a : Nat) :
    Nat → Iterator → Registry P F X × W → Except Fault (Bool × Registry P F X × W)
  | 0, _, _ => .error .diverged
  | fuel + 1, it, (reg, world) => do
    let list ← reg.list a
    let (position, it) ← list.iteratorNext it
    match position with
    | none => .ok (false, reg, world)
    | some p =>
      let n ← list.node p
      let (rets, state) ← invoke n.data.func n.data.context (reg, world)
      if rets then .ok (true, state) else callHooks invoke a fuel it state

def hookCall {W : Type} (invoke : Callback P F X W) (fuel : Nat) (name : Bytes)
    (state : Registry P F X × W) : Except Fault (Bool × Registry P F X × W) :=
  if state.1.hookLoaded = false then .ok (false, state)
  else do
    match ← state.1.hookTables.get (hashCompute name) with
    | none => .ok (false, state)
    | some tbl => callHooks invoke tbl.data.funcs fuel LinkedList.getIterator state

end CFlare.Hooks
