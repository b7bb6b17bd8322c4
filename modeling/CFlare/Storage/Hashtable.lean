import CFlare.Storage.LinkedList

/-! The hashtable: an array of buckets, each a linked list of containers or not set up yet.
A container owns a copy of its key and a data block; blocks are numbered as allocated. -/
namespace CFlare.Storage
open CFlare.Library

structure Hash where
  pointer : Bytes
  hash : UInt32
  deriving DecidableEq, Repr

/-- For keys of less than 2^31 bytes, which are those that its loop counter, an `int`, can pass. -/
def fnvHash1a32 (key : Bytes) : UInt32 :=
  key.foldl (fun h b => (h ^^^ b.toUInt32) * 0x01000193) 0x811c9dc5

def hashCompute (data : Bytes) : Hash := ⟨data, fnvHash1a32 data⟩

/-- An allocated copy of a value, `size` bytes long. -/
structure Block (V : Type) where
  address : Nat
  data : V
  size : Nat
  deriving DecidableEq, Repr

structure Container (V : Type) where
  hash : UInt32
  key : Bytes
  block : Block V

/-- The array of buckets has room for `room` of them. `blocks` counts the data blocks allocated, `moved` the containers
moved from list to list; `deleted` and `freed` list the blocks handed to the deleter and to `free`, oldest first. -/
structure Hashtable (V : Type) where
  buckets : Option (Nat → Option (LinkedList (Container V)))
  bucketsCount : Nat
  room : Nat
  count : Nat
  deleter : Bool
  blocks : Nat
  moved : Nat
  deleted : List Nat
  freed : List Nat

def startSize : Nat := 32

def bucketSize : Nat := 16

/-- How many buckets an array allocated for `count` has room for. Its size in bytes is what wraps. -/
def arrayRoom (count : Nat) : Nat := bucketSize * count % sizeLimit / bucketSize

namespace Hashtable
variable {V : Type}

def new : Hashtable V := ⟨none, 0, 0, 0, false, 0, 0, [], []⟩

def ondelete (map : Hashtable V) (deleter : Bool) : Hashtable V := { map with deleter := deleter }

def bucket (map : Hashtable V) (pos : Nat) : Option (LinkedList (Container V)) :=
  map.buckets.bind (fun buckets => buckets pos)

/-- A bucket is read at its place in the array. -/
def bucketAt (map : Hashtable V) (pos : Nat) : Except Fault (Option (LinkedList (Container V))) :=
  if pos < map.room then .ok (map.bucket pos) else .error .overrun

def setBucket (map : Hashtable V) (pos : Nat) (list : LinkedList (Container V)) : Hashtable V :=
  { map with buckets := map.buckets.map (fun buckets => Function.update buckets pos (some list)) }

/-- Call the deleter, if there is one, on a data block and free the block. -/
def releaseBlock (map : Hashtable V) (block : Block V) : Hashtable V :=
  { map with
    deleted := if map.deleter then map.deleted ++ [block.address] else map.deleted
    freed := map.freed ++ [block.address] }

/-- What a bucket's list runs on a removed container; the key's copy is freed as well. -/
def freeContainer (map : Hashtable V) (cont : Container V) : Hashtable V :=
  map.releaseBlock cont.block

def newList : LinkedList (Container V) := LinkedList.new.ondelete true

/-- Copy every container that the iterator meets to its new bucket, deleting it from the old. -/
def moveContainers : Nat → Iterator → LinkedList (Container V) → Hashtable V →
    Except Fault (LinkedList (Container V) × Hashtable V)
  | 0, _, _, _ => .error .diverged
  | fuel + 1, it, list, map => do
    let (position, it) ← list.iteratorNext it
    match position with
    | none => .ok (list, map)
    | some p =>
      let n ← list.node p
      if map.bucketsCount = 0 then .error .undefined
      else
        let pos := n.data.hash.toNat % map.bucketsCount
        let bucket ← map.bucketAt pos
        let (_, newBucket) ← (bucket.getD newList).insertLast n.data
        let (_, list) ← list.remove (some p)
        moveContainers fuel it list { map.setBucket pos newBucket with moved := map.moved + 1 }

def moveBucket (old map : Hashtable V) (i : Nat) : Except Fault (Hashtable V) := do
  match ← old.bucketAt i with
  | none => .ok map
  | some list =>
    -- the delete hook is disabled while the containers move
    let (list, map) ← moveContainers (list.allocated + 1) LinkedList.getIterator (list.ondelete false) map
    let _ ← list.delete
    .ok map

/-- The containers move into an array of `count` buckets, for which so much room has been allocated. -/
def moveInto (map : Hashtable V) (count room : Nat) : Except Fault (Hashtable V) :=
  let cleared := { map with buckets := some (fun _ => none), bucketsCount := count, room := room }
  if map.buckets.isNone then .ok cleared else (List.range map.bucketsCount).foldlM (moveBucket map) cleared

def rebuild (map : Hashtable V) (count : Nat) : Except Fault (Hashtable V) := map.moveInto count (arrayRoom count)

/-- The rebuild of a set. A table grows to at most two buckets for each value, and the container of a value takes more
memory than two buckets do, so that the size in bytes does not wrap. -/
def resize (map : Hashtable V) (newsize : Nat) : Except Fault (Hashtable V) := map.moveInto newsize newsize

def memoryEquals (len : Nat) (a b : Bytes) : Bool := a.take len == b.take len

def holdsKey (hash : Hash) (cont : Container V) : Bool :=
  if hash.pointer.length ≠ cont.key.length ∨ hash.hash ≠ cont.hash then false
  else memoryEquals hash.pointer.length hash.pointer cont.key

/-- The size that the resize test of a set asks for, if it asks for any. -/
def resizeTest (map : Hashtable V) (removing : Bool) : Option Nat :=
  if removing = false then
    if map.count + 1 > map.bucketsCount * 2 then
      let newsize := map.bucketsCount * 4
      some (if newsize < startSize then startSize else newsize)
    else none
  else if sizeSub map.count 1 < map.bucketsCount / 8 then
    let newsize := map.bucketsCount / 4
    if newsize > startSize then some newsize else none
  else none

/-- The resize of a set, made before the table is locked. -/
def resizeForSet (map : Hashtable V) (removing : Bool) : Except Fault (Hashtable V) :=
  match map.resizeTest removing with
  | none => .ok map
  | some newsize => map.resize newsize

section Set
variable [DecidableEq V]

/-- A bucket that is not set up yet is, but not for a removal. -/
def bucketForSet (map : Hashtable V) (pos : Nat) (value : Option V) :
    Except Fault (Option (LinkedList (Container V))) := do
  match ← map.bucketAt pos with
  | some list => .ok (some list)
  | none => .ok (if value.isSome then some newList else none)

/-- Search the list of the bucket, then remove, update or insert. -/
def setInBucket (map : Hashtable V) (pos : Nat) (list : LinkedList (Container V)) (hash : Hash)
    (value : Option V) (len : Nat) : Except Fault (Hashtable V) := do
  let it ← list.find (holdsKey hash)
  match value, it.value with
  | none, none => .ok (map.setBucket pos list)
  | none, some p =>
    let (removed, list) ← list.remove (some p)
    let map := removed.elim map map.freeContainer
    .ok { map.setBucket pos list with count := map.count - 1 }
  | some value, some p =>
    let n ← list.node p
    -- an identical value is kept: no deleter, no copy
    if n.data.block.size = len ∧ n.data.block.data = value then .ok (map.setBucket pos list)
    else
      let map := map.releaseBlock n.data.block
      let list ← list.setData p { n.data with block := ⟨map.blocks, value, len⟩ }
      .ok { map.setBucket pos list with blocks := map.blocks + 1 }
  | some value, none =>
    let (_, list) ← list.insertLast ⟨hash.hash, hash.pointer, ⟨map.blocks, value, len⟩⟩
    .ok { map.setBucket pos list with count := map.count + 1, blocks := map.blocks + 1 }

/-- The part of a set that runs under the write lock. -/
def setLocked (map : Hashtable V) (hash : Hash) (value : Option V) (len : Nat) :
    Except Fault (Hashtable V) := do
  let pos := hash.hash.toNat % map.bucketsCount
  match ← map.bucketForSet pos value with
  | none => .ok map
  | some list => map.setInBucket pos list hash value len

def set (map : Hashtable V) (hash : Hash) (value : Option V) (len : Nat) :
    Except Fault (Hashtable V) := do
  let map ← map.resizeForSet value.isNone
  if map.buckets.isNone ∨ map.bucketsCount = 0 then .error .assertion
  else map.setLocked hash value len

end Set

def get (map : Hashtable V) (hash : Hash) : Except Fault (Option (Block V)) :=
  if 0 < map.bucketsCount then do
    match ← map.bucketAt (hash.hash.toNat % map.bucketsCount) with
    | none => .ok none
    | some list =>
      if 0 < list.count then do
        let it ← list.find (holdsKey hash)
        match it.value with
        | none => .ok none
        | some p => do
          let n ← list.node p
          .ok (some n.data.block)
      else .ok none
  else .ok none

/-- Delete the list of a bucket, which frees the containers in it. -/
def deleteBucket (map : Hashtable V) (pos : Nat) : Except Fault (Hashtable V) := do
  match ← map.bucketAt pos with
  | none => .ok map
  | some list =>
    let conts ← list.delete
    .ok (conts.foldl freeContainer map)

/-- What is left is the record of what the table allocated, deleted and freed. -/
def delete (map : Hashtable V) : Except Fault (Hashtable V) := do
  let map ← (List.range map.bucketsCount).foldlM deleteBucket map
  .ok { map with buckets := none }

end Hashtable

end CFlare.Storage
