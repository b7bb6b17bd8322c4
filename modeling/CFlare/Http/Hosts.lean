import CFlare.Library.Heap
import CFlare.Storage.HashtableOwnership

/-! The table of hosts: an array of slots, of which a host's descriptor is the number, and the blocks that the hosts
own. -/
namespace CFlare.Http
open CFlare.Library CFlare.Storage

structure StaticRoute where
  path : CString
  callback : Nat
  context : Nat
  deriving DecidableEq, Repr

/-- A slot points to the copy of its host's name and to the table of its routes. One without a name is free. -/
structure HostSlot where
  name : Option Nat
  staticRoutes : Option Nat
  deriving DecidableEq, Repr

def hostSize : Nat := 24

/-- What `memset` leaves in a slot. -/
def clearedSlot : HostSlot := ⟨none, none⟩

/-- The static variables of the component, with the array that `hosts` points to and the blocks allocated. -/
structure Hosts where
  hosts : Nat
  slots : List HostSlot
  hostsLen : Nat
  hostsAlloc : Nat
  strings : Heap CString
  tables : Heap (Hashtable StaticRoute)

def newRoutes : Hashtable StaticRoute := Hashtable.new.ondelete true

/-- The slot where the search ends: the first free one, or the one behind them all. -/
def searchFree : Nat → List HostSlot → Except Fault Nat
  | 0, _ => .ok 0
  | _ + 1, [] => .error .overrun
  | count + 1, slot :: slots => if slot.name = none then .ok 0 else (searchFree count slots).map (· + 1)

namespace Hosts

def initial : Hosts := ⟨0, [], 0, 32, .empty, .empty⟩

/-- The argument is the address that `malloc` returns. -/
def hostsLoad (st : Hosts) (ptr : Nat) : Except Fault Hosts :=
  if ¬ (st.hosts = 0 ∧ st.hostsLen = 0) then .error .assertion
  else if ptr = 0 then .error .undefined
  else .ok { st with
    hosts := ptr
    slots := List.replicate (hostSize * st.hostsAlloc % sizeLimit / hostSize) clearedSlot }

def grow (st : Hosts) (realloc : Realloc) : Except Fault Hosts :=
  let half := st.hostsAlloc
  let hostsAlloc := half * 2 % sizeLimit
  let len := hostSize * hostsAlloc % sizeLimit
  let newptr := realloc.answer len
  if newptr = 0 then .error .assertion
  else if len < hostSize * half + half * hostSize % sizeLimit then .error .overrun
  else .ok { st with hosts := newptr, hostsAlloc := hostsAlloc, slots := st.slots ++ List.replicate half clearedSlot }

/-- `!` of a number, which is what the test for a free slot compares. -/
def notNumber (i : Nat) : Nat := if i = 0 then 1 else 0

def hostNew (st : Hosts) (domain : CString) (realloc : Realloc) : Except Fault (Nat × Hosts) := do
  let i ← searchFree st.hostsAlloc st.slots
  -- `!i < hosts_alloc`
  let st ← if notNumber i < st.hostsAlloc then st.grow realloc else .ok st
  if i < st.slots.length then
    .ok (i + 1, { st with
      slots := st.slots.set i ⟨some st.strings.next, some st.tables.next⟩
      strings := st.strings.alloc domain
      tables := st.tables.alloc newRoutes })
  else .error .overrun

/-- The slot that a descriptor, or any pointer in its place, leads to. -/
def slotOf (st : Hosts) (host : Nat) : Option HostSlot := st.slots[sizeSub host 1]?

def hostDelete (st : Hosts) (host : Nat) : Except Fault Hosts :=
  match st.slotOf host with
  | none => .error .overrun
  | some slot =>
    match slot.staticRoutes.bind (fun table => (st.tables.read table).map (table, ·)) with
    | none => .error .undefined
    | some (table, routes) => do
      let _ ← routes.delete
      let tables ← st.tables.free table
      -- `free` of a null pointer does nothing
      let strings ← slot.name.elim (.ok st.strings) st.strings.free
      .ok { st with
        slots := st.slots.set (sizeSub host 1) { slot with name := none }
        strings := strings
        tables := tables }

/-- The slots that `hosts_len` counts are deleted by their addresses. -/
def hostsUnload (st : Hosts) : Except Fault Hosts := do
  let st ← (List.range st.hostsLen).foldlM (fun st i =>
    if i < st.slots.length then st.hostDelete (st.hosts + hostSize * i) else .error .overrun) st
  .ok { st with hosts := 0, slots := [], hostsLen := 0, hostsAlloc := 32 }

end Hosts

end CFlare.Http
