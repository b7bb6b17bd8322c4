import CFlare.Storage.LinkedListSequence

/-! Null positions in a linked list. They are documented as the two ends of the list, and reach the
insertion as a null neighbour on both sides. -/
namespace CFlare.Storage
open CFlare.Library Cells

variable {α : Type}

/-- The calls that change a list, those with a null position included. -/
inductive ListUse (α : Type) where
  | node (call : ListCall α)
  | insertBeforeNull (data : α)
  | insertAfterNull (data : α)

def listUse (l : LinkedList α) : ListUse α → Except Fault (ListReply α × LinkedList α)
  | .node call => listCall l call
  | .insertBeforeNull a => (l.insertBefore none a).map fun r => (.inserted r.1, r.2)
  | .insertAfterNull a => (l.insertAfter none a).map fun r => (.inserted r.1, r.2)

namespace ListUse

/-- What the documentation says that a call does. -/
def documented : ListUse α → ListCall α
  | .node call => call
  | .insertBeforeNull a => .insertFirst a
  | .insertAfterNull a => .insertLast a

def named : ListUse α → Bool
  | .node _ => true
  | _ => false

end ListUse

/-- In the run every null position comes on an empty list. -/
def NullsOnEmpty : Sequence α → List (ListUse α) → Prop
  | _, [] => True
  | s, use :: uses => (use.named = true ∨ s.cells = []) ∧
      ∀ s', s.step use.documented = some s' → NullsOnEmpty s' uses

/-- The links walk the sequence both ways, the count is its length and deletion removes all of it. -/
structure Walks (l : LinkedList α) (s : Sequence α) : Prop where
  forwards : l.forwards = .ok s.cells
  backwards : l.backwards = .ok s.cells.reverse
  count : l.count = s.cells.length
  deleted : l.delete = .ok (if l.deleter then s.cells.data else [])

theorem Holding.walks {l : LinkedList α} {s : Sequence α} (h : Holding l s) : Walks l s :=
  ⟨forwards_spec h.represents, backwards_spec h.represents, h.count, delete_spec h.represents h.count⟩

section Nulls
variable {l : LinkedList α} {s s' : Sequence α} {use : ListUse α}

/-- A null position leaves the new element alone in the list, although it is counted with the others. -/
theorem listUse_null (l : LinkedList α) (hn : use.named = false) :
    ∃ p a l', listUse l use = .ok (.inserted p, l') ∧ Represents l' [(p, a)] := by
  cases use with
  | node call => cases hn
  | insertBeforeNull a =>
    obtain ⟨l', he, hr, -⟩ := insertBetween_none_spec l a
    exact ⟨l.allocated, a, l', by rw [listUse, LinkedList.insertBefore, he]; rfl, hr⟩
  | insertAfterNull a =>
    obtain ⟨l', he, hr, -⟩ := insertBetween_none_spec l a
    exact ⟨l.allocated, a, l', by rw [listUse, LinkedList.insertAfter, he]; rfl, hr⟩

theorem listUse_documented (h : Holding l s) (hu : use.named = true ∨ s.cells = []) :
    listUse l use = listCall l use.documented := by
  have hfirst : s.cells = [] → l.first = none := fun hz => by rw [h.represents.first, hz]; rfl
  have hlast : s.cells = [] → l.last = none := fun hz => by rw [h.represents.last, hz]; rfl
  cases use with
  | node call => rfl
  | insertBeforeNull a =>
    have hz := hu.resolve_left Bool.false_ne_true
    rw [ListUse.documented, listCall, LinkedList.insertFirst, hfirst hz]
    rfl
  | insertAfterNull a =>
    have hz := hu.resolve_left Bool.false_ne_true
    rw [ListUse.documented, listCall, LinkedList.insertLast, hlast hz]
    rfl

theorem listUse_null_loses (hn : use.named = false) (hz : s.cells ≠ []) (hs : s.step use.documented = some s')
    {reply : ListReply α} {l' : LinkedList α} (he : listUse l use = .ok (reply, l')) : ¬ Walks l' s' := by
  intro hw
  obtain ⟨p, a, l1, he1, hr⟩ := listUse_null l hn
  obtain ⟨-, rfl⟩ := Prod.mk.inj (Except.ok.inj (he1.symm.trans he))
  have hone : s'.cells.length = 1 := by
    rw [← Except.ok.inj ((forwards_spec hr).symm.trans hw.forwards)]
    rfl
  have hmore : s'.cells.length = s.cells.length + 1 := by
    cases use with
    | node call => cases hn
    | insertBeforeNull a =>
      obtain rfl := Option.some.inj hs
      rfl
    | insertAfterNull a =>
      obtain rfl := Option.some.inj hs
      exact List.length_append
  have hpos := List.length_pos_iff.mpr hz
  omega

end Nulls

/-- As long as null positions come on empty lists only, every call does what is documented: links walk the
sequence in both directions, the count is its length and deletion removes every element. In each list that is
reached so, the next call does what is documented exactly if it has no null position or the list is empty. -/
theorem linkedlist_null_positions (deleter : Bool) (uses : List (ListUse α)) (s : Sequence α)
    (h : Sequence.after (uses.map ListUse.documented) = some s) (hn : NullsOnEmpty Sequence.empty uses) :
    ∃ replies l, runCalls listUse (LinkedList.new.ondelete deleter) uses = .ok (replies, l) ∧ Walks l s ∧
      ∀ use s', s.step use.documented = some s' →
        ((∃ reply l', listUse l use = .ok (reply, l') ∧ Walks l' s') ↔ use.named = true ∨ s.cells = []) := by
  let inv : LinkedList α → List (ListUse α) → Prop := fun l rest =>
    ∃ t, Holding l t ∧ (rest.map ListUse.documented).foldlM Sequence.step t = some s ∧ NullsOnEmpty t rest
  have hstep : ∀ l use rest, inv l (use :: rest) → ∃ reply l', listUse l use = .ok (reply, l') ∧ inv l' rest := by
    rintro l use rest ⟨t, ht, hrest, hu, hnulls⟩
    rw [List.map_cons, List.foldlM_cons] at hrest
    obtain ⟨t', ht', hrest⟩ := Option.bind_eq_some_iff.mp hrest
    obtain ⟨reply, l', he, hl', -⟩ := listCall_spec ht ht'
    exact ⟨reply, l', (listUse_documented ht hu).trans he, t', hl', hrest, hnulls t' ht'⟩
  obtain ⟨replies, l, he, t, ht, hs, -⟩ := runCalls_keeps inv hstep uses
    (show inv (LinkedList.new.ondelete deleter) uses from ⟨.empty, .new deleter, h, hn⟩)
  obtain rfl := Option.some.inj hs
  refine ⟨replies, l, he, ht.walks, fun use s' hs => ⟨?_, fun hu => ?_⟩⟩
  · rintro ⟨reply, l', he, hw⟩
    by_cases hnamed : use.named = true
    · exact .inl hnamed
    · refine .inr (by_contra fun hz => ?_)
      exact listUse_null_loses (eq_false_of_ne_true hnamed) hz hs he hw
  · obtain ⟨reply, l', he, hl', -⟩ := listCall_spec ht hs
    exact ⟨reply, l', (listUse_documented ht hu).trans he, hl'.walks⟩

/-- A null position on the empty list, and a node behind it. -/
theorem linkedlist_null_positions_two :
    ∃ replies l, runCalls listUse (LinkedList.new.ondelete true) [.insertAfterNull 7, .node (.insertAfter 0 8)] =
        .ok (replies, l) ∧ Walks l (⟨[(0, 7), (1, 8)], 2⟩ : Sequence Nat) := by
  have hnulls : NullsOnEmpty Sequence.empty [.insertAfterNull 7, .node (.insertAfter 0 8)] :=
    ⟨.inr rfl, fun _ _ => ⟨.inl rfl, fun _ _ => trivial⟩⟩
  obtain ⟨replies, l, he, hw, -⟩ := linkedlist_null_positions true _ ⟨[(0, 7), (1, 8)], 2⟩ rfl hnulls
  exact ⟨replies, l, he, hw⟩

/-- A null position on a list of one element: that element is no longer in the list, the count is two, and
deletion ends at the assertion. -/
theorem linkedlist_null_positions_fails :
    ¬ ∀ (uses : List (ListUse Nat)) (s : Sequence Nat), Sequence.after (uses.map ListUse.documented) = some s →
      ∃ replies l, runCalls listUse (LinkedList.new.ondelete true) uses = .ok (replies, l) ∧ Walks l s := by
  intro hall
  obtain ⟨replies, l, he, hw⟩ := hall [.node (.insertLast 1), .insertBeforeNull 2] ⟨[(1, 2), (0, 1)], 2⟩ rfl
  obtain ⟨-, rfl⟩ := Prod.mk.inj (Except.ok.inj he)
  have hdeleted := hw.deleted
  cases hdeleted

end CFlare.Storage
