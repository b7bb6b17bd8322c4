import CFlare.Library.Keyed
import CFlare.Library.Runs
import CFlare.Storage.LinkedListCells
import Mathlib.Data.List.Induction

/-! A linked list as a sequence: whatever insertions and removals are made, its links walk the
sequence in both directions and its deletion hands over every element. -/
namespace CFlare.Storage
open CFlare.Library Cells

variable {α : Type}

namespace LinkedList

/-- Follow the next links from a node on; the nodes met, with their data. -/
def walkNext (l : LinkedList α) : Nat → Option Nat → Except Fault (Cells α)
  | _, none => .ok []
  | 0, some _ => .error .diverged
  | fuel + 1, some p => do
    let n ← l.node p
    let rest ← l.walkNext fuel n.next
    .ok ((p, n.data) :: rest)

def walkPrev (l : LinkedList α) : Nat → Option Nat → Except Fault (Cells α)
  | _, none => .ok []
  | 0, some _ => .error .diverged
  | fuel + 1, some p => do
    let n ← l.node p
    let rest ← l.walkPrev fuel n.prev
    .ok ((p, n.data) :: rest)

def forwards (l : LinkedList α) : Except Fault (Cells α) := l.walkNext l.allocated l.first
def backwards (l : LinkedList α) : Except Fault (Cells α) := l.walkPrev l.allocated l.last

end LinkedList

/-- The calls that change a list. The nodes they name are nodes of the list. -/
inductive ListCall (α : Type) where
  | insertBefore (position : Nat) (data : α)
  | insertAfter (position : Nat) (data : α)
  | insertFirst (data : α)
  | insertLast (data : α)
  | remove (position : Nat)

inductive ListReply (α : Type) where
  | inserted (position : Nat)
  | removed (deleted : Option α)

def listCall (l : LinkedList α) : ListCall α → Except Fault (ListReply α × LinkedList α)
  | .insertBefore p a => (l.insertBefore (some p) a).map fun r => (.inserted r.1, r.2)
  | .insertAfter p a => (l.insertAfter (some p) a).map fun r => (.inserted r.1, r.2)
  | .insertFirst a => (l.insertFirst a).map fun r => (.inserted r.1, r.2)
  | .insertLast a => (l.insertLast a).map fun r => (.inserted r.1, r.2)
  | .remove p => (l.remove (some p)).map fun r => (.removed r.1, r.2)

/-- What a list is for: elements in an order, each known by the number of elements created
before it. -/
structure Sequence (α : Type) where
  cells : Cells α
  created : Nat

namespace Sequence

def empty : Sequence α := ⟨[], 0⟩

/-- Put a new element right before the one named. -/
def placeBefore (p : Nat) (new : Nat × α) : Cells α → Cells α
  | [] => []
  | c :: cells => if c.1 = p then new :: c :: cells else c :: placeBefore p new cells

/-- Put a new element right after the one named. -/
def placeAfter (p : Nat) (new : Nat × α) : Cells α → Cells α
  | [] => []
  | c :: cells => if c.1 = p then c :: new :: cells else c :: placeAfter p new cells

/-- The sequence after a call, if the call names an element of it. -/
def step (s : Sequence α) : ListCall α → Option (Sequence α)
  | .insertBefore p a =>
    if p ∈ s.cells.addresses then some ⟨placeBefore p (s.created, a) s.cells, s.created + 1⟩ else none
  | .insertAfter p a =>
    if p ∈ s.cells.addresses then some ⟨placeAfter p (s.created, a) s.cells, s.created + 1⟩ else none
  | .insertFirst a => some ⟨(s.created, a) :: s.cells, s.created + 1⟩
  | .insertLast a => some ⟨s.cells ++ [(s.created, a)], s.created + 1⟩
  | .remove p =>
    if p ∈ s.cells.addresses then some ⟨s.cells.filter (fun c => c.1 ≠ p), s.created⟩ else none

/-- The sequence after a run, if every call of it names an element of the sequence at that time. -/
def after (calls : List (ListCall α)) : Option (Sequence α) := calls.foldlM step empty

theorem placeBefore_split {p : Nat} {new : Nat × α} {b : α} {xs ys : Cells α}
    (h : p ∉ xs.addresses) : placeBefore p new (xs ++ (p, b) :: ys) = xs ++ new :: (p, b) :: ys := by
  induction xs with
  | nil => simp [placeBefore]
  | cons c xs ih =>
    rw [addresses, List.map_cons, List.mem_cons, not_or] at h
    rw [List.cons_append, placeBefore, if_neg (Ne.symm h.1), ih h.2, List.cons_append]

theorem placeAfter_split {p : Nat} {new : Nat × α} {b : α} {xs ys : Cells α}
    (h : p ∉ xs.addresses) : placeAfter p new (xs ++ (p, b) :: ys) = xs ++ (p, b) :: new :: ys := by
  induction xs with
  | nil => simp [placeAfter]
  | cons c xs ih =>
    rw [addresses, List.map_cons, List.mem_cons, not_or] at h
    rw [List.cons_append, placeAfter, if_neg (Ne.symm h.1), ih h.2, List.cons_append]

end Sequence

section Walks
variable {l : LinkedList α}

private theorem walkNext_segment {cells : Cells α} {prev : Option Nat} {fuel : Nat}
    (h : Segment l.nodes prev cells none) (hf : cells.length ≤ fuel) :
    l.walkNext fuel (headOr cells none) = .ok cells := by
  induction cells generalizing prev fuel with
  | nil => cases fuel <;> rfl
  | cons c cells ih =>
    obtain ⟨p, a⟩ := c
    obtain ⟨fuel, rfl⟩ := Nat.exists_eq_succ_of_ne_zero (Nat.ne_zero_of_lt hf)
    have hrest := ih h.2 (Nat.le_of_succ_le_succ hf)
    rw [show headOr ((p, a) :: cells) none = some p from rfl, LinkedList.walkNext]
    simp only [LinkedList.node, h.1, fault_ok_bind, hrest]

private theorem walkPrev_segment {cells : Cells α} {stop : Option Nat} {fuel : Nat}
    (h : Segment l.nodes none cells stop) (hf : cells.length ≤ fuel) :
    l.walkPrev fuel (lastOr none cells) = .ok cells.reverse := by
  induction cells using List.reverseRecOn generalizing stop fuel with
  | nil => cases fuel <;> rfl
  | append_singleton cells c ih =>
    obtain ⟨p, a⟩ := c
    rw [List.length_append, List.length_singleton] at hf
    obtain ⟨fuel, rfl⟩ := Nat.exists_eq_succ_of_ne_zero (Nat.ne_zero_of_lt hf)
    obtain ⟨hs, hp, -⟩ := (segment_append cells [(p, a)]).mp h
    have hrest := ih hs (Nat.le_of_succ_le_succ hf)
    rw [lastOr_append, List.reverse_append]
    simp only [lastOr, LinkedList.walkPrev, LinkedList.node, hp, fault_ok_bind, hrest,
      List.reverse_singleton, List.singleton_append]

theorem forwards_spec {cells : Cells α} (h : Represents l cells) : l.forwards = .ok cells := by
  rw [LinkedList.forwards, h.first]
  exact walkNext_segment h.linked h.length_le

theorem backwards_spec {cells : Cells α} (h : Represents l cells) : l.backwards = .ok cells.reverse := by
  rw [LinkedList.backwards, h.last]
  exact walkPrev_segment h.linked h.length_le

end Walks

section Insertions
variable {l : LinkedList α}

/-- Inserting after a node puts the element right after it. -/
theorem insertAfter_spec {xs ys : Cells α} {p : Nat} {b : α}
    (h : Represents l (xs ++ (p, b) :: ys)) (a : α) :
    ∃ l', l.insertAfter (some p) a = .ok (l.allocated, l') ∧
      Represents l' (xs ++ (p, b) :: (l.allocated, a) :: ys) ∧
      l'.count = l.count + 1 ∧ l'.deleter = l.deleter := by
  have hcells : xs ++ (p, b) :: ys = (xs ++ [(p, b)]) ++ ys := by simp
  have hp := ((segment_append xs ((p, b) :: ys)).mp h.linked).2.1
  rw [hcells] at h
  obtain ⟨hx, hy⟩ := (segment_append (xs ++ [(p, b)]) ys).mp h.linked
  have hr := insertBetween_spec hx hy (fun _ => by rw [h.first, headOr_append])
    (fun _ => by rw [h.last, lastOr_append]) h.distinct h.allocated a
  simpa [LinkedList.insertAfter, LinkedList.node, hp, lastOr] using hr

theorem insertFirst_spec {cells : Cells α} (h : Represents l cells) (a : α) :
    ∃ l', l.insertFirst a = .ok (l.allocated, l') ∧ Represents l' ((l.allocated, a) :: cells) ∧
      l'.count = l.count + 1 ∧ l'.deleter = l.deleter := by
  cases cells with
  | nil =>
    rw [LinkedList.insertFirst, h.first]
    exact insertBetween_none_spec l a
  | cons c cells =>
    obtain ⟨p, b⟩ := c
    have h' : Represents l ([] ++ (p, b) :: cells) := h
    rw [LinkedList.insertFirst, h.first]
    exact insertBefore_spec h' a

end Insertions

/-- The list in memory is the sequence: same elements, same order, counted, with the next
address to be handed out as the next name. -/
structure Holding (l : LinkedList α) (s : Sequence α) : Prop where
  represents : Represents l s.cells
  count : l.count = s.cells.length
  created : l.allocated = s.created

namespace Holding
variable {l l' : LinkedList α} {s s' : Sequence α}

theorem new (deleter : Bool) : Holding (LinkedList.new.ondelete deleter : LinkedList α) Sequence.empty :=
  ⟨represents_new.congr rfl rfl rfl rfl, rfl, rfl⟩

private theorem inserted (h : Holding l s) {cells : Cells α} (hr : Represents l' cells)
    (hc : l'.count = l.count + 1) (ha : l'.allocated = l.allocated + 1)
    (hl : cells.length = s.cells.length + 1) : Holding l' ⟨cells, s.created + 1⟩ :=
  ⟨hr, by rw [hc, h.count, hl], by rw [ha, h.created]⟩

private theorem split (h : Holding l s) {p : Nat} (hp : p ∈ s.cells.addresses) :
    ∃ xs b ys, s.cells = xs ++ (p, b) :: ys ∧ p ∉ addresses xs := by
  obtain ⟨⟨q, b⟩, hm, rfl⟩ := List.mem_map.mp hp
  obtain ⟨xs, ys, hs⟩ := List.append_of_mem hm
  have hd := h.represents.distinct
  rw [hs, addresses, List.map_append, List.map_cons, List.nodup_middle, List.nodup_cons] at hd
  exact ⟨xs, b, ys, hs, fun hx => hd.1 (List.mem_append_left _ hx)⟩

end Holding

/-- A call that names a node of the list does to it what it does to the sequence. -/
theorem listCall_spec {l : LinkedList α} {s s' : Sequence α} (h : Holding l s) {call : ListCall α}
    (hs : s.step call = some s') :
    ∃ reply l', listCall l call = .ok (reply, l') ∧ Holding l' s' ∧ l'.deleter = l.deleter := by
  cases call with
  | insertBefore p a =>
    obtain ⟨hp, hs⟩ := Option.ite_none_right_eq_some.mp hs
    obtain rfl := Option.some.inj hs
    obtain ⟨xs, b, ys, hcells, hx⟩ := h.split hp
    obtain ⟨l', he, hr, hc, hd⟩ := insertBefore_spec (hcells ▸ h.represents) a
    refine ⟨.inserted l.allocated, l', by rw [listCall, he]; rfl, ?_, hd⟩
    rw [hcells, Sequence.placeBefore_split hx]
    rw [h.created] at hr
    exact h.inserted hr hc (insertBefore_allocated he) (by simp [hcells]; omega)
  | insertAfter p a =>
    obtain ⟨hp, hs⟩ := Option.ite_none_right_eq_some.mp hs
    obtain rfl := Option.some.inj hs
    obtain ⟨xs, b, ys, hcells, hx⟩ := h.split hp
    obtain ⟨l', he, hr, hc, hd⟩ := insertAfter_spec (hcells ▸ h.represents) a
    refine ⟨.inserted l.allocated, l', by rw [listCall, he]; rfl, ?_, hd⟩
    rw [hcells, Sequence.placeAfter_split hx]
    rw [h.created] at hr
    exact h.inserted hr hc (insertAfter_allocated he) (by simp [hcells]; omega)
  | insertFirst a =>
    obtain rfl := Option.some.inj hs
    obtain ⟨l', he, hr, hc, hd⟩ := insertFirst_spec h.represents a
    refine ⟨.inserted l.allocated, l', by rw [listCall, he]; rfl, ?_, hd⟩
    rw [h.created] at hr
    exact h.inserted hr hc (insertBefore_allocated he) (by simp)
  | insertLast a =>
    obtain rfl := Option.some.inj hs
    obtain ⟨l', he, hr, hc, hd⟩ := insertLast_spec h.represents a
    refine ⟨.inserted l.allocated, l', by rw [listCall, he]; rfl, ?_, hd⟩
    rw [h.created] at hr
    exact h.inserted hr hc (insertAfter_allocated he) (by simp)
  | remove p =>
    obtain ⟨hp, hs⟩ := Option.ite_none_right_eq_some.mp hs
    obtain rfl := Option.some.inj hs
    obtain ⟨xs, a, ys, hcells, hx⟩ := h.split hp
    have hd := h.represents.distinct
    rw [hcells] at hd
    have hfilter : s.cells.filter (fun c => c.1 ≠ p) = xs ++ ys := by
      rw [hcells]
      exact filter_ne_of_split hd
    obtain ⟨l', he, hr, hc, hdel, -⟩ := remove_spec (hcells ▸ h.represents)
    refine ⟨.removed _, l', by rw [listCall, he]; rfl, ⟨?_, ?_, ?_⟩, hdel⟩
    · exact hfilter ▸ hr
    · rw [hc, h.count, hfilter, hcells]
      simp
    · rw [remove_allocated he, h.created]

/-- A run of calls that name nodes of the list returns, and holds the sequence. -/
theorem listRun_holding (deleter : Bool) (calls : List (ListCall α)) (s : Sequence α)
    (h : Sequence.after calls = some s) :
    ∃ replies l, runCalls listCall (LinkedList.new.ondelete deleter) calls = .ok (replies, l) ∧ Holding l s ∧
      l.deleter = deleter := by
  let inv : LinkedList α → List (ListCall α) → Prop := fun l rest =>
    ∃ t, Holding l t ∧ l.deleter = deleter ∧ rest.foldlM Sequence.step t = some s
  have hstep : ∀ l call rest, inv l (call :: rest) →
      ∃ reply l', listCall l call = .ok (reply, l') ∧ inv l' rest := by
    rintro l call rest ⟨t, ht, hd, hrest⟩
    rw [List.foldlM_cons] at hrest
    obtain ⟨t', ht', hrest⟩ := Option.bind_eq_some_iff.mp hrest
    obtain ⟨reply, l', he, hl', hd'⟩ := listCall_spec ht ht'
    exact ⟨reply, l', he, t', hl', hd'.trans hd, hrest⟩
  obtain ⟨replies, l, he, t, ht, hd, hs⟩ := runCalls_keeps inv hstep calls
    (show inv (LinkedList.new.ondelete deleter) calls from ⟨.empty, .new deleter, rfl, h⟩)
  obtain rfl := Option.some.inj hs
  exact ⟨replies, l, he, ht, hd⟩

/-- After any calls on nodes of the list, the links walk the sequence that the calls describe,
forwards and backwards, the count is its length, and deletion hands over its elements. -/
theorem linkedlist_represents_sequence (deleter : Bool) (calls : List (ListCall α)) (s : Sequence α)
    (h : Sequence.after calls = some s) :
    ∃ replies l, runCalls listCall (LinkedList.new.ondelete deleter) calls = .ok (replies, l) ∧
      l.forwards = .ok s.cells ∧ l.backwards = .ok s.cells.reverse ∧ l.count = s.cells.length ∧
      l.delete = .ok (if deleter then s.cells.data else []) := by
  obtain ⟨replies, l, he, hl, hd⟩ := listRun_holding deleter calls s h
  refine ⟨replies, l, he, forwards_spec hl.represents, backwards_spec hl.represents, hl.count, ?_⟩
  rw [delete_spec hl.represents hl.count, hd]

/-- The list of three elements whose middle one is removed. -/
theorem linkedlist_represents_sequence_three :
    ∃ replies l, runCalls listCall (LinkedList.new.ondelete true)
        [.insertLast 7, .insertLast 8, .insertBefore 1 9, .insertAfter 0 5, .remove 2] = .ok (replies, l) ∧
      l.forwards = .ok [(0, 7), (3, 5), (1, 8)] ∧ l.backwards = .ok [(1, 8), (3, 5), (0, 7)] ∧
      l.count = 3 ∧ l.delete = .ok [7, 5, 8] :=
  linkedlist_represents_sequence true
    [.insertLast 7, .insertLast 8, .insertBefore 1 9, .insertAfter 0 5, .remove 2]
    ⟨[(0, 7), (3, 5), (1, 8)], 4⟩ rfl

end CFlare.Storage
