import CFlare.Library.Machine

/-! Blocks that are allocated and freed, each under an address of its own, and arrays that are allocated anew. -/
namespace CFlare.Library

/-- What `realloc` answers, depending on the size: an address or null. No object has 2^63 bytes. -/
structure Realloc where
  answer : Nat → Nat
  limited : ∀ len, 2^63 ≤ len → answer len = 0

/-- Every array up to a size is granted. -/
def Realloc.upTo (limit : Nat) (h : limit < 2^63) : Realloc :=
  ⟨fun len => if len ≤ limit then 4096 else 0, fun len hlen => if_neg (by omega)⟩

/-- The blocks allocated so far, in order; a freed one is gone. -/
structure Heap (α : Type) where
  blocks : List (Option α)
  deriving DecidableEq, Repr

namespace Heap
variable {α : Type}

def empty : Heap α := ⟨[]⟩

/-- The address of the next block. -/
def next (heap : Heap α) : Nat := heap.blocks.length

def alloc (heap : Heap α) (a : α) : Heap α := ⟨heap.blocks ++ [some a]⟩

def read (heap : Heap α) (address : Nat) : Option α := heap.blocks[address]?.join

/-- Only a block that was allocated and not freed yet may be freed. -/
def free (heap : Heap α) (address : Nat) : Except Fault (Heap α) :=
  if (heap.read address).isSome then .ok ⟨heap.blocks.set address none⟩ else .error .undefined

def write (heap : Heap α) (address : Nat) (a : α) : Heap α := ⟨heap.blocks.set address (some a)⟩

/-- What the blocks hold that are not freed. -/
def contents (heap : Heap α) : List α := heap.blocks.flatMap Option.toList

variable {heap heap' : Heap α} {address other : Nat} {a b : α}

theorem read_lt (h : heap.read address = some a) : address < heap.next := by
  obtain ⟨block, hblock, -⟩ := Option.bind_eq_some_iff.mp h
  exact (List.getElem?_eq_some_iff.mp hblock).1

@[simp] theorem read_alloc (heap : Heap α) (a : α) : (heap.alloc a).read heap.next = some a := by
  simp [alloc, read, next]

/-- What was allocated before stays. -/
theorem read_alloc_old (h : heap.read address = some b) (a : α) : (heap.alloc a).read address = some b := by
  have hlt := read_lt h
  rw [read, alloc, List.getElem?_append_left hlt]
  exact h

theorem free_ok (h : heap.read address = some a) : heap.free address = .ok ⟨heap.blocks.set address none⟩ := by
  rw [free, h]
  rfl

/-- A block that is freed is gone, and the others are not. -/
theorem read_free (h : heap.free address = .ok heap') : heap'.read address = none := by
  unfold free at h
  split at h
  · obtain rfl := Except.ok.inj h
    rw [read, List.getElem?_set_self']
    cases heap.blocks[address]? <;> rfl
  · cases h

theorem read_free_other (h : heap.free address = .ok heap') (hne : other ≠ address) :
    heap'.read other = heap.read other := by
  unfold free at h
  split at h
  · obtain rfl := Except.ok.inj h
    rw [read, read, List.getElem?_set_ne hne.symm]
  · cases h

theorem read_write_other (heap : Heap α) (hne : other ≠ address) (a : α) :
    (heap.write address a).read other = heap.read other := by
  rw [read, write, List.getElem?_set_ne hne.symm, read]

@[simp] theorem contents_alloc (heap : Heap α) (a : α) : (heap.alloc a).contents = heap.contents ++ [a] := by
  rw [contents, alloc, List.flatMap_append, List.flatMap_singleton]
  rfl

/-- A block between the others: what is written to it and what is left when it is freed. -/
theorem contents_split (h : heap.read address = some a) :
    ∃ front back, heap.contents = front ++ a :: back ∧
      (∀ b, (heap.write address b).contents = front ++ b :: back) ∧
      ∀ heap', heap.free address = .ok heap' → heap'.contents = front ++ back := by
  obtain ⟨block, hblock, hsome⟩ := Option.bind_eq_some_iff.mp h
  obtain rfl : block = some a := hsome
  obtain ⟨hlt, hget⟩ := List.getElem?_eq_some_iff.mp hblock
  have hset : ∀ b, heap.blocks.set address b = heap.blocks.take address ++ b :: heap.blocks.drop (address + 1) :=
    fun b => List.set_eq_take_append_cons_drop.trans (if_pos hlt)
  have hsplit : heap.blocks = heap.blocks.take address ++ some a :: heap.blocks.drop (address + 1) := by
    rw [← hget, ← List.drop_eq_getElem_cons hlt, List.take_append_drop]
  have hflat : ∀ b : Option α, (heap.blocks.take address ++ b :: heap.blocks.drop (address + 1)).flatMap Option.toList =
      (heap.blocks.take address).flatMap Option.toList ++
        (b.toList ++ (heap.blocks.drop (address + 1)).flatMap Option.toList) := by
    intro b
    rw [List.flatMap_append, List.flatMap_cons]
  refine ⟨(heap.blocks.take address).flatMap Option.toList, (heap.blocks.drop (address + 1)).flatMap Option.toList,
    ?_, fun b => ?_, fun heap' hfree => ?_⟩
  · rw [contents]
    exact (congrArg _ hsplit).trans (hflat (some a))
  · rw [contents, write, hset]
    exact hflat (some b)
  · rw [free_ok h] at hfree
    cases hfree
    rw [contents, hset]
    exact hflat none

end Heap

end CFlare.Library
