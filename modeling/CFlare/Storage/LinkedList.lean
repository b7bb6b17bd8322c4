import CFlare.Library.Machine

/-! The doubly linked list with its nodes in memory: links are addresses, and following a
link to a freed or unallocated node is undefined. -/
namespace CFlare.Storage
open CFlare.Library

structure Node (α : Type) where
  data : α
  next : Option Nat
  prev : Option Nat

/-- Addresses below `allocated` have been handed out by `malloc`; no address is used twice. -/
structure LinkedList (α : Type) where
  count : Nat
  deleter : Bool
  first : Option Nat
  last : Option Nat
  nodes : Nat → Option (Node α)
  allocated : Nat

structure Iterator where
  started : Bool
  prev : Option Nat
  value : Option Nat
  next : Option Nat
  deriving DecidableEq, Repr

namespace LinkedList
variable {α : Type}

def new : LinkedList α := ⟨0, false, none, none, fun _ => none, 0⟩

def ondelete (l : LinkedList α) (deleter : Bool) : LinkedList α := { l with deleter := deleter }

def node (l : LinkedList α) (p : Nat) : Except Fault (Node α) :=
  match l.nodes p with
  | none => .error .undefined
  | some n => .ok n

/-- Make `next` follow `pre`, or come first. -/
def linkNext (l : LinkedList α) (pre next : Option Nat) : Except Fault (LinkedList α) :=
  match pre with
  | none => .ok { l with first := next }
  | some p => do
    let n ← l.node p
    .ok { l with nodes := Function.update l.nodes p (some { n with next := next }) }

/-- Make `prev` precede `post`, or come last. -/
def linkPrev (l : LinkedList α) (post prev : Option Nat) : Except Fault (LinkedList α) :=
  match post with
  | none => .ok { l with last := prev }
  | some p => do
    let n ← l.node p
    .ok { l with nodes := Function.update l.nodes p (some { n with prev := prev }) }

/-- The new node's address is the output; its data is what the caller then stores there. -/
def insertBetween (l : LinkedList α) (pre post : Option Nat) (data : α) :
    Except Fault (Nat × LinkedList α) := do
  let p := l.allocated
  let l := { l with
    nodes := Function.update l.nodes p (some ⟨data, post, pre⟩)
    allocated := l.allocated + 1 }
  let l ← l.linkNext pre (some p)
  let l ← l.linkPrev post (some p)
  .ok (p, { l with count := l.count + 1 })

def insertBefore (l : LinkedList α) (position : Option Nat) (data : α) :
    Except Fault (Nat × LinkedList α) :=
  match position with
  | none => l.insertBetween none none data
  | some p => do
    let n ← l.node p
    l.insertBetween n.prev (some p) data

def insertAfter (l : LinkedList α) (position : Option Nat) (data : α) :
    Except Fault (Nat × LinkedList α) :=
  match position with
  | none => l.insertBetween none none data
  | some p => do
    let n ← l.node p
    l.insertBetween (some p) n.next data

def insertFirst (l : LinkedList α) (data : α) : Except Fault (Nat × LinkedList α) :=
  l.insertBefore l.first data

def insertLast (l : LinkedList α) (data : α) : Except Fault (Nat × LinkedList α) :=
  l.insertAfter l.last data

/-- Unlink and free a node. Its data goes to the deleter, if there is one. -/
def remove (l : LinkedList α) (position : Option Nat) : Except Fault (Option α × LinkedList α) :=
  match position with
  | none => .error .assertion
  | some p => do
    let n ← l.node p
    let l ← l.linkNext n.prev n.next
    let l ← l.linkPrev n.next n.prev
    .ok (if l.deleter then some n.data else none,
      { l with nodes := Function.update l.nodes p none, count := l.count - 1 })

/-- Remove the first node while the count is positive; collects what the deleter got. -/
def deleteNodes : Nat → LinkedList α → Except Fault (List α)
  | 0, l => if l.count = 0 then .ok [] else .error .diverged
  | fuel + 1, l =>
    if l.count = 0 then .ok []
    else do
      let (deleted, l) ← l.remove l.first
      let rest ← deleteNodes fuel l
      .ok (deleted.toList ++ rest)

def delete (l : LinkedList α) : Except Fault (List α) := deleteNodes l.count l

/-- The source leaves `value` unset here; reading it before a move is undefined. -/
def getIterator : Iterator := ⟨false, none, none, none⟩

def iteratorNext (l : LinkedList α) (it : Iterator) : Except Fault (Option Nat × Iterator) :=
  let it := if it.started then it else ⟨true, none, none, l.first⟩
  match it.next with
  | none => .ok (none, { it with value := none })
  | some p => do
    let n ← l.node p
    .ok (some p, ⟨true, it.value, some p, n.next⟩)

def iteratorPrev (l : LinkedList α) (it : Iterator) : Except Fault (Option Nat × Iterator) :=
  let it := if it.started then it else ⟨true, l.last, none, none⟩
  match it.prev with
  | none => .ok (none, { it with value := none })
  | some p => do
    let n ← l.node p
    .ok (some p, ⟨true, n.prev, some p, it.value⟩)

/-- Overwrite the data of a node, as a caller does through the node's data pointer. -/
def setData (l : LinkedList α) (p : Nat) (data : α) : Except Fault (LinkedList α) := do
  let n ← l.node p
  .ok { l with nodes := Function.update l.nodes p (some { n with data := data }) }

/-- The loop `while(next) if(found) break;` that the users of a list share. -/
def findNext (l : LinkedList α) (found : α → Bool) : Nat → Iterator → Except Fault Iterator
  | 0, _ => .error .diverged
  | fuel + 1, it => do
    let (position, it) ← l.iteratorNext it
    match position with
    | none => .ok it
    | some p =>
      let n ← l.node p
      if found n.data then .ok it else l.findNext found fuel it

/-- A walk meets each node at most once, so one turn for each allocation is enough. -/
def find (l : LinkedList α) (found : α → Bool) : Except Fault Iterator :=
  l.findNext found (l.allocated + 1) getIterator

end LinkedList

end CFlare.Storage
