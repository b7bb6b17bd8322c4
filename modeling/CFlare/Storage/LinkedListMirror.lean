import CFlare.Storage.LinkedListCells

/-! A linked list read from its other end. What is known of moving forwards holds of moving
backwards in the mirrored list. -/
namespace CFlare.Storage
open CFlare.Library Cells

variable {α : Type}

namespace Cells

@[simp] theorem lastOr_reverse (prev : Option Nat) (xs : Cells α) : lastOr prev xs.reverse = headOr xs prev := by
  cases xs with
  | nil => rfl
  | cons c xs =>
    rw [List.reverse_cons, lastOr_append]
    rfl

@[simp] theorem headOr_reverse (xs : Cells α) (stop : Option Nat) : headOr xs.reverse stop = lastOr stop xs := by
  have h := lastOr_reverse stop xs.reverse
  rw [List.reverse_reverse] at h
  exact h.symm

end Cells

def Node.mirror (n : Node α) : Node α := ⟨n.data, n.prev, n.next⟩

def LinkedList.mirror (l : LinkedList α) : LinkedList α :=
  { l with first := l.last, last := l.first, nodes := fun p => (l.nodes p).map Node.mirror }

def Iterator.mirror (it : Iterator) : Iterator := ⟨it.started, it.next, it.value, it.prev⟩

@[simp] theorem LinkedList.mirror_mirror (l : LinkedList α) : l.mirror.mirror = l := by
  have hnodes : (fun p => ((l.nodes p).map Node.mirror).map Node.mirror) = l.nodes := by
    funext p
    cases l.nodes p <;> rfl
  simp only [mirror, hnodes]

@[simp] theorem Iterator.mirror_mirror (it : Iterator) : it.mirror.mirror = it := rfl

theorem Segment.mirror {nodes : Nat → Option (Node α)} {prev stop : Option Nat} {cells : Cells α}
    (h : Segment nodes prev cells stop) :
    Segment (fun p => (nodes p).map Node.mirror) stop cells.reverse prev := by
  induction cells generalizing prev with
  | nil => trivial
  | cons c cells ih =>
    obtain ⟨p, a⟩ := c
    rw [List.reverse_cons, segment_append]
    refine ⟨ih h.2, ?_, trivial⟩
    simp only [h.1, lastOr_reverse]
    rfl

theorem Represents.mirror {l : LinkedList α} {cells : Cells α} (h : Represents l cells) :
    Represents l.mirror cells.reverse := by
  have haddresses : addresses cells.reverse = cells.addresses.reverse := List.map_reverse
  refine ⟨?_, ?_, h.linked.mirror, ?_, ?_⟩
  · rw [headOr_reverse]
    exact h.last
  · rw [lastOr_reverse]
    exact h.first
  · rw [haddresses]
    exact List.nodup_reverse.mpr h.distinct
  · intro p hp
    rw [haddresses] at hp
    exact h.allocated p (List.mem_reverse.mp hp)

/-- Going back is going on in the mirrored list. -/
theorem iteratorPrev_mirror (l : LinkedList α) (it : Iterator) :
    l.iteratorPrev it = (l.mirror.iteratorNext it.mirror).map (fun r => (r.1, r.2.mirror)) := by
  obtain ⟨started, prev, value, next⟩ := it
  have hmove : ∀ prev value next : Option Nat,
      l.iteratorPrev ⟨true, prev, value, next⟩ =
        (l.mirror.iteratorNext (Iterator.mirror ⟨true, prev, value, next⟩)).map (fun r => (r.1, r.2.mirror)) := by
    intro prev value next
    cases prev with
    | none => rfl
    | some p =>
      simp only [LinkedList.iteratorPrev, LinkedList.iteratorNext, Iterator.mirror, LinkedList.node,
        LinkedList.mirror, if_true]
      cases l.nodes p <;> rfl
  cases started with
  | true => exact hmove prev value next
  | false => exact hmove l.last none none

end CFlare.Storage
