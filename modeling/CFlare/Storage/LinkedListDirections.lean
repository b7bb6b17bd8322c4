import CFlare.Storage.LinkedListMirror
import CFlare.Storage.LinkedListSequence

/-! An iterator that changes its direction. A move keeps the node it comes from as the one in the
other direction, so that a move from off the list keeps none. -/
namespace CFlare.Storage
open CFlare.Library Cells

variable {α : Type}

inductive Move where
  | next
  | prev
  deriving DecidableEq, Repr

def LinkedList.iteratorMove (l : LinkedList α) (it : Iterator) : Move → Except Fault (Option Nat × Iterator)
  | .next => l.iteratorNext it
  | .prev => l.iteratorPrev it

namespace Iterator

/-- From the node a move returned, the moves return the node behind it and the one in front of it. -/
def BothWays (l : LinkedList α) (cells : Cells α) (it : Iterator) (p : Nat) : Prop :=
  ∃ us a vs, cells = us ++ (p, a) :: vs ∧ (l.iteratorNext it).map Prod.fst = .ok (headOr vs none) ∧
    (l.iteratorPrev it).map Prod.fst = .ok (lastOr none us)

/-- A node kept for the next move is a neighbour of the one the iterator is on, and has a neighbour there
when the iterator has left the list. -/
structure Stands (cells : Cells α) (it : Iterator) : Prop where
  fresh : it.started = false → it = LinkedList.getIterator
  next : ∀ q, it.next = some q → ∃ us b vs, cells = us ++ (q, b) :: vs ∧ us ≠ [] ∧
    (it.value = none ∨ it.value = lastOr none us)
  prev : ∀ q, it.prev = some q → ∃ us b vs, cells = us ++ (q, b) :: vs ∧ vs ≠ [] ∧
    (it.value = none ∨ it.value = headOr vs none)

theorem stands_getIterator (cells : Cells α) : LinkedList.getIterator.Stands cells :=
  ⟨fun _ => rfl, fun _ h => absurd h (Option.some_ne_none _).symm, fun _ h => absurd h (Option.some_ne_none _).symm⟩

theorem Stands.mirror {cells : Cells α} {it : Iterator} (h : it.Stands cells) : it.mirror.Stands cells.reverse := by
  refine ⟨fun hs => congrArg Iterator.mirror (h.fresh hs), fun q hq => ?_, fun q hq => ?_⟩
  · obtain ⟨us, b, vs, rfl, hvs, hvalue⟩ := h.prev q hq
    refine ⟨vs.reverse, b, us.reverse, by simp, by simpa using hvs, ?_⟩
    rw [lastOr_reverse]
    exact hvalue
  · obtain ⟨us, b, vs, rfl, hus, hvalue⟩ := h.next q hq
    refine ⟨vs.reverse, b, us.reverse, by simp, by simpa using hus, ?_⟩
    rw [headOr_reverse]
    exact hvalue

end Iterator

section Moves
variable {l : LinkedList α} {cells : Cells α} {it : Iterator}

theorem Represents.node_of_split {us vs : Cells α} {p : Nat} {a : α} (h : Represents l cells)
    (hc : cells = us ++ (p, a) :: vs) : l.node p = .ok ⟨a, headOr vs none, lastOr none us⟩ := by
  subst hc
  rw [LinkedList.node, ((segment_append us ((p, a) :: vs)).mp h.linked).2.1]

/-- The node kept for a move is the one it returns. -/
theorem iteratorNext_fst (h : Represents l cells) (hs : it.started = true) (hi : it.Stands cells) :
    (l.iteratorNext it).map Prod.fst = .ok it.next := by
  rw [LinkedList.iteratorNext, if_pos hs]
  cases hn : it.next with
  | none => rfl
  | some q =>
    obtain ⟨us, b, vs, hc, -⟩ := hi.next q hn
    simp only [h.node_of_split hc, fault_ok_bind]
    rfl

theorem iteratorPrev_fst (h : Represents l cells) (hs : it.started = true) (hi : it.Stands cells) :
    (l.iteratorPrev it).map Prod.fst = .ok it.prev := by
  have hstarted : it.mirror.started = true := hs
  have hmirror := iteratorNext_fst h.mirror hstarted hi.mirror
  rw [iteratorPrev_mirror]
  obtain ⟨r, he, hr⟩ := map_eq_ok.mp hmirror
  rw [he]
  exact congrArg Except.ok hr

theorem bothWays_mirror {p : Nat} (hb : it.BothWays l cells p) : it.mirror.BothWays l.mirror cells.reverse p := by
  obtain ⟨us, a, vs, rfl, hnext, hprev⟩ := hb
  refine ⟨vs.reverse, a, us.reverse, by simp, ?_, ?_⟩
  · rw [iteratorPrev_mirror] at hprev
    obtain ⟨r, he, hr⟩ := map_eq_ok.mp hprev
    obtain ⟨r', he', rfl⟩ := map_eq_ok.mp he
    rw [he', headOr_reverse]
    exact congrArg Except.ok hr
  · rw [iteratorPrev_mirror, LinkedList.mirror_mirror, Iterator.mirror_mirror]
    obtain ⟨r, he, hr⟩ := map_eq_ok.mp hnext
    rw [he, lastOr_reverse]
    exact congrArg Except.ok hr

private theorem arrives {us vs : Cells α} {q : Nat} {b : α} {value : Option Nat} (h : Represents l cells)
    (hc : cells = us ++ (q, b) :: vs) (hv : value = none ∨ value = lastOr none us) :
    Iterator.Stands cells ⟨true, value, some q, headOr vs none⟩ ∧
      (Iterator.BothWays l cells ⟨true, value, some q, headOr vs none⟩ q ↔ value = lastOr none us) := by
  have hstands : Iterator.Stands cells ⟨true, value, some q, headOr vs none⟩ := by
    refine ⟨fun hs => Bool.noConfusion hs, fun r hr => ?_, fun r hr => ?_⟩
    · cases vs with
      | nil => cases hr
      | cons c vs =>
        obtain ⟨r', d⟩ := c
        obtain rfl := Option.some.inj hr
        refine ⟨us ++ [(q, b)], d, vs, by simp [hc], by simp, .inr ?_⟩
        rw [lastOr_append]
        rfl
    · rcases hv with rfl | rfl
      · cases hr
      · rcases List.eq_nil_or_concat us with rfl | ⟨ws, ⟨r', d⟩, rfl⟩
        · cases hr
        · rw [List.concat_eq_append] at hr hc
          rw [lastOr_append] at hr
          obtain rfl := Option.some.inj hr
          exact ⟨ws, d, (q, b) :: vs, by simp [hc], by simp, .inr rfl⟩
  refine ⟨hstands, ?_⟩
  constructor
  · rintro ⟨us', a, vs', hc', -, hprev⟩
    rw [iteratorPrev_fst h rfl hstands] at hprev
    have hnode := (h.node_of_split hc').symm.trans (h.node_of_split hc)
    simp only [Except.ok.injEq, Node.mk.injEq] at hnode hprev
    rw [hprev, hnode.2.2]
  · rintro rfl
    exact ⟨us, b, vs, hc, iteratorNext_fst h rfl hstands, iteratorPrev_fst h rfl hstands⟩

private theorem iteratorNext_onto {us vs : Cells α} {q : Nat} {b : α} (h : Represents l cells)
    (hc : cells = us ++ (q, b) :: vs) (hs : it.started = true) (hn : it.next = some q) :
    l.iteratorNext it = .ok (some q, ⟨true, it.value, some q, headOr vs none⟩) := by
  rw [LinkedList.iteratorNext, if_pos hs, hn]
  simp only [h.node_of_split hc, fault_ok_bind]

private theorem iteratorNext_first (h : Represents l cells) :
    ∃ position it', l.iteratorNext LinkedList.getIterator = .ok (position, it') ∧ it'.Stands cells ∧
      ∀ p, position = some p → it'.BothWays l cells p := by
  cases cells with
  | nil =>
    have hfirst : l.first = none := h.first
    refine ⟨none, ⟨true, none, none, none⟩, ?_, ⟨?_, ?_, ?_⟩, fun p hp => ?_⟩
    · simp [LinkedList.iteratorNext, LinkedList.getIterator, hfirst]
    · intro hfresh
      cases hfresh
    · intro q hq
      cases hq
    · intro q hq
      cases hq
    · cases hp
  | cons c vs =>
    obtain ⟨q, b⟩ := c
    have hc : (q, b) :: vs = [] ++ (q, b) :: vs := rfl
    obtain ⟨hstands, hboth⟩ := arrives h hc (.inl rfl)
    let started : Iterator := ⟨true, none, none, l.first⟩
    have hmove : l.iteratorNext started = _ := iteratorNext_onto h hc rfl h.first
    refine ⟨some q, _, hmove, hstands, ?_⟩
    rintro p ⟨⟩
    exact hboth.mpr rfl

private theorem iteratorNext_started (h : Represents l cells) (hi : it.Stands cells) (hs : it.started = true) :
    ∃ position it', l.iteratorNext it = .ok (position, it') ∧ it'.Stands cells ∧
      ∀ p, position = some p → (it'.BothWays l cells p ↔ it.value ≠ none) := by
  cases hn : it.next with
  | none =>
    refine ⟨none, { it with value := none }, ?_, ⟨?_, ?_, ?_⟩, fun p hp => ?_⟩
    · rw [LinkedList.iteratorNext, if_pos hs, hn]
    · intro hfresh
      cases hs.symm.trans hfresh
    · intro q hq
      cases hn.symm.trans hq
    · intro q hq
      obtain ⟨us, b, vs, hc, hvs, -⟩ := hi.prev q hq
      exact ⟨us, b, vs, hc, hvs, .inl rfl⟩
    · cases hp
  | some q =>
    obtain ⟨us, b, vs, hc, hus, hv⟩ := hi.next q hn
    obtain ⟨hstands, hboth⟩ := arrives h hc hv
    refine ⟨some q, _, iteratorNext_onto h hc hs hn, hstands, ?_⟩
    rintro p ⟨⟩
    rw [hboth]
    constructor
    · intro hvalue hnone
      rcases List.eq_nil_or_concat us with rfl | ⟨ws, ⟨r, d⟩, rfl⟩
      · exact hus rfl
      · rw [List.concat_eq_append, lastOr_append, hnone] at hvalue
        cases hvalue
    · exact hv.resolve_left

private theorem iteratorNext_stands (h : Represents l cells) (hi : it.Stands cells) :
    ∃ position it', l.iteratorNext it = .ok (position, it') ∧ it'.Stands cells ∧
      ∀ p, position = some p → (it'.BothWays l cells p ↔ (it.started = true → it.value ≠ none)) := by
  cases hs : it.started with
  | true =>
    obtain ⟨position, it', hm, hstands, hboth⟩ := iteratorNext_started h hi hs
    refine ⟨position, it', hm, hstands, fun p hp => (hboth p hp).trans ?_⟩
    exact ⟨fun hv _ => hv, fun hv => hv rfl⟩
  | false =>
    obtain rfl := hi.fresh hs
    obtain ⟨position, it', hm, hstands, hboth⟩ := iteratorNext_first h
    refine ⟨position, it', hm, hstands, fun p hp => ⟨fun _ hfresh => ?_, fun _ => hboth p hp⟩⟩
    exact absurd hfresh Bool.false_ne_true

/-- A move in either direction returns, and goes on both ways from the node it returns exactly if the iterator
was on a node before, or was fresh. -/
theorem iteratorMove_spec (h : Represents l cells) (hi : it.Stands cells) (move : Move) :
    ∃ position it', l.iteratorMove it move = .ok (position, it') ∧ it'.Stands cells ∧
      ∀ p, position = some p → (it'.BothWays l cells p ↔ (it.started = true → it.value ≠ none)) := by
  cases move with
  | next => exact iteratorNext_stands h hi
  | prev =>
    obtain ⟨position, it', he, hstands, hboth⟩ := iteratorNext_stands h.mirror hi.mirror
    refine ⟨position, it'.mirror, ?_, ?_, ?_⟩
    · rw [LinkedList.iteratorMove, iteratorPrev_mirror, he]
      rfl
    · have hback := hstands.mirror
      rw [List.reverse_reverse] at hback
      exact hback
    · intro p hp
      refine Iff.trans ⟨fun hb => ?_, fun hb => ?_⟩ (hboth p hp)
      · exact bothWays_mirror hb
      · have hback := bothWays_mirror hb
        rw [List.reverse_reverse, LinkedList.mirror_mirror] at hback
        exact hback

end Moves

/-- Every list that calls make, and every sequence of moves in it: the moves return, and when the last of them
returned a node, the next ones go on from it to its successor and to its predecessor exactly if that move was
the first one or was made from a node. -/
theorem iterator_moves_both_ways (deleter : Bool) (calls : List (ListCall α)) (s : Sequence α)
    (h : Sequence.after calls = some s) :
    ∃ replies l, runCalls listCall (LinkedList.new.ondelete deleter) calls = .ok (replies, l) ∧
      ∀ moves, ∃ positions it, runCalls l.iteratorMove LinkedList.getIterator moves = .ok (positions, it) ∧
        ∀ move, ∃ position it', l.iteratorMove it move = .ok (position, it') ∧
          ∀ p, position = some p → (it'.BothWays l s.cells p ↔ (it.started = true → it.value ≠ none)) := by
  obtain ⟨replies, l, he, hl, -⟩ := listRun_holding deleter calls s h
  refine ⟨replies, l, he, fun moves => ?_⟩
  have hstep : ∀ it move (rest : List Move), it.Stands s.cells →
      ∃ position it', l.iteratorMove it move = .ok (position, it') ∧ it'.Stands s.cells := by
    intro it move _ hi
    obtain ⟨position, it', hm, hi', -⟩ := iteratorMove_spec hl.represents hi move
    exact ⟨position, it', hm, hi'⟩
  obtain ⟨positions, it, hrun, hi⟩ := runCalls_keeps (fun (it : Iterator) _ => it.Stands s.cells) hstep moves
    (Iterator.stands_getIterator s.cells)
  refine ⟨positions, it, hrun, fun move => ?_⟩
  obtain ⟨position, it', hm, -, hboth⟩ := iteratorMove_spec hl.represents hi move
  exact ⟨position, it', hm, hboth⟩

/-- Two nodes, and the moves to the second one and back. -/
theorem iterator_moves_both_ways_two :
    ∃ replies l, runCalls listCall (LinkedList.new.ondelete true) [.insertLast 7, .insertLast 8] = .ok (replies, l) ∧
      ∃ it it', runCalls l.iteratorMove LinkedList.getIterator [.next, .next] = .ok ([some 0, some 1], it) ∧
        l.iteratorMove it .prev = .ok (some 0, it') ∧ it'.BothWays l [(0, 7), (1, 8)] 0 := by
  obtain ⟨replies, l, he, hmoves⟩ := iterator_moves_both_ways true [.insertLast 7, .insertLast 8]
    ⟨[(0, 7), (1, 8)], 2⟩ rfl
  obtain ⟨-, rfl⟩ := Prod.mk.inj (Except.ok.inj he)
  obtain ⟨positions, it, hrun, hmove⟩ := hmoves [.next, .next]
  obtain ⟨rfl, rfl⟩ := Prod.mk.inj (Except.ok.inj hrun)
  obtain ⟨position, it', hm, hboth⟩ := hmove .prev
  obtain ⟨rfl, rfl⟩ := Prod.mk.inj (Except.ok.inj hm)
  exact ⟨replies, _, he, _, _, hrun, hm, (hboth 0 rfl).mpr (fun _ => Option.some_ne_none 1)⟩

/-- Past the end of two nodes and back to the first of them: the move after that finds no second one. -/
theorem iterator_moves_both_ways_fails :
    ¬ ∀ (calls : List (ListCall Nat)) (s : Sequence Nat), Sequence.after calls = some s →
      ∃ replies l, runCalls listCall (LinkedList.new.ondelete true) calls = .ok (replies, l) ∧
        ∀ moves move, ∃ positions p it, runCalls l.iteratorMove LinkedList.getIterator (moves ++ [move]) =
            .ok (positions ++ [p], it) ∧ ∀ q, p = some q → it.BothWays l s.cells q := by
  intro hall
  obtain ⟨replies, l, he, hmoves⟩ := hall [.insertLast 7, .insertLast 8] ⟨[(0, 7), (1, 8)], 2⟩ rfl
  obtain ⟨-, rfl⟩ := Prod.mk.inj (Except.ok.inj he)
  obtain ⟨positions, p, it, hrun, hboth⟩ := hmoves [.next, .next, .next] .prev
  obtain ⟨hpositions, rfl⟩ := Prod.mk.inj (Except.ok.inj hrun)
  have hsplit : [some 0, some 1, none] ++ [some 0] = positions ++ [p] := hpositions
  obtain ⟨-, hp⟩ := List.append_inj' hsplit rfl
  obtain ⟨us, a, vs, hcells, hnext, hprev⟩ := hboth 0 (List.cons.inj hp).1.symm
  have hvs : headOr vs none = none := Except.ok.inj hnext.symm
  cases vs with
  | cons c vs => cases hvs
  | nil =>
    have hsplit : [(0, 7)] ++ [(1, 8)] = us ++ [(0, a)] := hcells
    obtain ⟨-, hlast⟩ := List.append_inj' hsplit rfl
    cases hlast

end CFlare.Storage
