import CFlare.Storage.LinkedListMirror
import CFlare.Storage.LinkedListSequence

/-! Removing nodes from a linked list while an iterator is on its way. The iterator keeps the address
of the node it moves to next, so that only nodes ahead of it must stay. -/
namespace CFlare.Storage
open CFlare.Library Cells

variable {α : Type}

namespace LinkedList

def removeAll (l : LinkedList α) : List Nat → Except Fault (LinkedList α)
  | [] => .ok l
  | p :: ps => do
    let (_, l) ← l.remove (some p)
    l.removeAll ps

/-- A move of the iterator, the removals that come before the next move, and so on. Collects what the moves
return; a move that follows a removed node faults. -/
def traverse (move : LinkedList α → Iterator → Except Fault (Option Nat × Iterator)) :
    LinkedList α → Iterator → List (List Nat) → Except Fault (List (Option Nat) × LinkedList α)
  | l, _, [] => .ok ([], l)
  | l, it, drop :: drops => do
    let (position, it) ← move l it
    let l ← l.removeAll drop
    let (positions, l) ← traverse move l it drops
    .ok (position :: positions, l)

end LinkedList

/-- One turn for each node and one for the end; what is removed after a turn has been visited by then, and
is removed once. -/
structure DropsVisited (order : List Nat) (drops : List (List Nat)) : Prop where
  turns : drops.length = order.length + 1
  once : drops.flatten.Nodup
  visited : ∀ i drop, drops[i]? = some drop → ∀ p ∈ drop, p ∈ order.take (i + 1)

section Removals
variable {l : LinkedList α} {cells : Cells α}

theorem remove_cell (h : Represents l cells) {p : Nat} (hp : p ∈ cells.addresses) :
    ∃ deleted l', l.remove (some p) = .ok (deleted, l') ∧ Represents l' (cells.filter (fun c => c.1 ≠ p)) ∧
      l'.count = l.count - 1 := by
  obtain ⟨⟨q, a⟩, hm, rfl⟩ := List.mem_map.mp hp
  obtain ⟨xs, ys, rfl⟩ := List.append_of_mem hm
  obtain ⟨l', he, hr, hc, -⟩ := remove_spec h
  rw [filter_ne_of_split h.distinct]
  exact ⟨_, l', he, hr, hc⟩

theorem removeAll_spec {ps : List Nat} (h : Represents l cells) (hc : l.count = cells.length) (hd : ps.Nodup)
    (hp : ∀ p ∈ ps, p ∈ cells.addresses) :
    ∃ l', l.removeAll ps = .ok l' ∧ Represents l' (cells.filter (fun c => c.1 ∉ ps)) ∧
      l'.count = (cells.filter (fun c => c.1 ∉ ps)).length := by
  induction ps generalizing l cells with
  | nil => exact ⟨l, rfl, by simpa using h, by simpa using hc⟩
  | cons p ps ih =>
    obtain ⟨hnot, hd⟩ := List.nodup_cons.mp hd
    obtain ⟨deleted, l1, he, hr, hc1⟩ := remove_cell h (hp p List.mem_cons_self)
    have hlength : (cells.filter (fun c => c.1 ≠ p)).length + 1 = cells.length := by
      obtain ⟨⟨q, a⟩, hm, rfl⟩ := List.mem_map.mp (hp p List.mem_cons_self)
      exact (perm_cons_filter_ne h.distinct hm).length_eq
    have hin : ∀ q ∈ ps, q ∈ addresses (cells.filter (fun c => c.1 ≠ p)) := by
      intro q hq
      obtain ⟨c, hm, rfl⟩ := List.mem_map.mp (hp q (List.mem_cons_of_mem _ hq))
      refine List.mem_map_of_mem (List.mem_filter.mpr ⟨hm, decide_eq_true ?_⟩)
      rintro rfl
      exact hnot hq
    obtain ⟨l', he', hr', hc'⟩ := ih hr (by omega) hd hin
    have hfilter : (cells.filter (fun c => c.1 ≠ p)).filter (fun c => c.1 ∉ ps) =
        cells.filter (fun c => c.1 ∉ p :: ps) := by
      rw [List.filter_filter]
      apply List.filter_congr
      intro c _
      rw [← Bool.decide_and]
      exact decide_eq_decide.mpr (by rw [List.mem_cons, not_or, and_comm])
    rw [hfilter] at hr' hc'
    exact ⟨l', by simp only [LinkedList.removeAll, he, fault_ok_bind, he'], hr', hc'⟩

end Removals

/-- A way through a list: `aligned` says where the cells ahead lie among those of the list, and `facing` that
the iterator goes on with them. -/
structure Direction (move : LinkedList α → Iterator → Except Fault (Option Nat × Iterator))
    (aligned : Cells α → Cells α → Prop) (facing : LinkedList α → Iterator → Cells α → Prop) : Prop where
  finish : ∀ {l it}, facing l it [] → ∃ it', move l it = .ok (none, it')
  advance : ∀ {l it cells p a rest}, Represents l cells → aligned cells ((p, a) :: rest) →
    facing l it ((p, a) :: rest) → ∃ it', move l it = .ok (some p, it') ∧ aligned cells rest ∧ ∀ l', facing l' it' rest
  keep : ∀ {cells rest} {kept : Nat × α → Bool}, aligned cells rest → (∀ c ∈ rest, kept c = true) →
    aligned (cells.filter kept) rest

/-- Nodes behind may go: the moves return the cells ahead, and then null. -/
theorem Direction.traverse {move : LinkedList α → Iterator → Except Fault (Option Nat × Iterator)}
    {aligned : Cells α → Cells α → Prop} {facing : LinkedList α → Iterator → Cells α → Prop}
    (d : Direction move aligned facing) {l : LinkedList α} {it : Iterator} {cells rest : Cells α}
    {drops : List (List Nat)} (h : Represents l cells) (hc : l.count = cells.length) (ha : aligned cells rest)
    (hf : facing l it rest) (hturns : drops.length = rest.length + 1) (honce : drops.flatten.Nodup)
    (hbehind : ∀ i drop, drops[i]? = some drop → ∀ p ∈ drop,
      p ∈ cells.addresses ∧ p ∉ (addresses rest).drop (i + 1)) :
    ∃ l', LinkedList.traverse move l it drops = .ok ((addresses rest).map some ++ [none], l') ∧
      Represents l' (cells.filter (fun c => c.1 ∉ drops.flatten)) ∧
      l'.count = (cells.filter (fun c => c.1 ∉ drops.flatten)).length := by
  induction rest generalizing l it cells drops with
  | nil =>
    obtain ⟨drop, rfl⟩ := List.length_eq_one_iff.mp hturns
    obtain ⟨it', he⟩ := d.finish hf
    rw [List.flatten_singleton] at *
    obtain ⟨l', hrem, hr, hc'⟩ := removeAll_spec h hc honce (fun p hp => (hbehind 0 drop rfl p hp).1)
    exact ⟨l', by simp only [LinkedList.traverse, he, fault_ok_bind, hrem]; rfl, hr, hc'⟩
  | cons c rest ih =>
    obtain ⟨p, a⟩ := c
    obtain ⟨drop, drops, rfl⟩ := List.exists_cons_of_length_pos (l := drops) (by omega)
    obtain ⟨it', he, ha', hf'⟩ := d.advance h ha hf
    rw [List.flatten_cons, List.nodup_append] at honce
    obtain ⟨hdrop, hdrops, hdis⟩ := honce
    obtain ⟨l1, hrem, hr, hc1⟩ := removeAll_spec h hc hdrop (fun q hq => (hbehind 0 drop rfl q hq).1)
    have hkept : ∀ c ∈ rest, decide (c.1 ∉ drop) = true := by
      intro c hm
      refine decide_eq_true (fun hd => (hbehind 0 drop rfl _ hd).2 ?_)
      exact List.mem_map_of_mem hm
    have hbehind' : ∀ i drop', drops[i]? = some drop' → ∀ q ∈ drop',
        q ∈ addresses (cells.filter (fun c => c.1 ∉ drop)) ∧ q ∉ (addresses rest).drop (i + 1) := by
      intro i drop' hi q hq
      obtain ⟨hin, hahead⟩ := hbehind (i + 1) drop' (by simpa using hi) q hq
      obtain ⟨c, hm, rfl⟩ := List.mem_map.mp hin
      refine ⟨List.mem_map_of_mem (List.mem_filter.mpr ⟨hm, decide_eq_true (fun hd => ?_)⟩), hahead⟩
      exact hdis _ hd _ (List.mem_flatten.mpr ⟨drop', List.mem_of_getElem? hi, hq⟩) rfl
    obtain ⟨l', hrest, hr', hc'⟩ := ih hr hc1 (d.keep ha' hkept) (hf' l1) (by simpa using hturns) hdrops hbehind'
    have hfilter : (cells.filter (fun c => c.1 ∉ drop)).filter (fun c => c.1 ∉ drops.flatten) =
        cells.filter (fun c => c.1 ∉ (drop :: drops).flatten) := by
      rw [List.filter_filter]
      apply List.filter_congr
      intro c _
      rw [← Bool.decide_and]
      exact decide_eq_decide.mpr (by rw [List.flatten_cons, List.mem_append, not_or, and_comm])
    rw [hfilter] at hr' hc'
    exact ⟨l', by simp only [LinkedList.traverse, he, fault_ok_bind, hrem, hrest]; rfl, hr', hc'⟩

section Directions

theorem forward_direction :
    Direction (LinkedList.iteratorNext (α := α)) (fun cells rest => rest <:+ cells) (fun l it rest => it.Ahead l rest) where
  finish hf := by
    obtain ⟨it', he, -⟩ := iteratorNext_nil hf
    exact ⟨it', he⟩
  advance {l it cells p a rest} h ha hf := by
    obtain ⟨front, rfl⟩ := ha
    obtain ⟨it', -, he, -, -, -, hahead⟩ := iteratorNext_cons h hf
    exact ⟨it', he, ⟨front ++ [(p, a)], by simp⟩, hahead⟩
  keep ha hk := by
    obtain ⟨front, rfl⟩ := ha
    rw [List.filter_append, List.filter_eq_self.mpr hk]
    exact List.suffix_append _ _

/-- Going backwards the iterator has yet to meet these cells, the first one next. -/
def Iterator.Behind (l : LinkedList α) (it : Iterator) (rest : Cells α) : Prop :=
  (if it.started then it.prev else l.last) = headOr rest none

theorem behind_getIterator {l : LinkedList α} {cells : Cells α} (h : Represents l cells) :
    LinkedList.getIterator.Behind l cells.reverse := by
  rw [Iterator.Behind, headOr_reverse]
  exact h.last

/-- What is behind an iterator is ahead of it in the mirrored list. -/
theorem Iterator.Behind.mirror {l : LinkedList α} {it : Iterator} {rest : Cells α} (h : it.Behind l rest) :
    it.mirror.Ahead l.mirror rest := h

/-- Backwards they are the first ones, from the last of them on. -/
theorem backward_direction :
    Direction (LinkedList.iteratorPrev (α := α)) (fun cells rest => rest.reverse <+: cells)
      (fun l it rest => it.Behind l rest) where
  finish {l it} hf := by
    obtain ⟨it', he, -⟩ := iteratorNext_nil hf.mirror
    exact ⟨it'.mirror, by rw [iteratorPrev_mirror, he]; rfl⟩
  advance {l it cells p a rest} h ha hf := by
    obtain ⟨back, rfl⟩ := ha
    have hmirror := h.mirror
    rw [List.reverse_append, List.reverse_reverse] at hmirror
    obtain ⟨it', -, he, -, -, -, hahead⟩ := iteratorNext_cons hmirror hf.mirror
    refine ⟨it'.mirror, by rw [iteratorPrev_mirror, he]; rfl, ?_, fun l' => hahead l'.mirror⟩
    rw [List.reverse_cons, List.append_assoc]
    exact List.prefix_append _ _
  keep {cells rest kept} ha hk := by
    obtain ⟨back, rfl⟩ := ha
    have hkept : rest.reverse.filter kept = rest.reverse :=
      List.filter_eq_self.mpr (fun c hc => hk c (List.mem_reverse.mp hc))
    rw [List.filter_append, hkept]
    exact List.prefix_append _ _

end Directions

theorem DropsVisited.behind {order : List Nat} {drops : List (List Nat)} (h : DropsVisited order drops)
    (hd : order.Nodup) : ∀ i drop, drops[i]? = some drop → ∀ p ∈ drop, p ∈ order ∧ p ∉ order.drop (i + 1) := by
  intro i drop hi p hp
  have htake := h.visited i drop hi p hp
  refine ⟨List.mem_of_mem_take htake, fun hdrop => ?_⟩
  rw [← List.take_append_drop (i + 1) order, List.nodup_append] at hd
  exact hd.2.2 p htake p hdrop rfl

/-- Every list that calls make is traversed forwards and backwards while visited nodes are removed: the moves
return each node once, in order, and then null, none of them reads a removed node, and the nodes that were
not removed are left, in order. -/
theorem linkedlist_remove_while_iterating (deleter : Bool) (calls : List (ListCall α)) (s : Sequence α)
    (h : Sequence.after calls = some s) :
    ∃ replies l, runCalls listCall (LinkedList.new.ondelete deleter) calls = .ok (replies, l) ∧
      (∀ drops, DropsVisited s.cells.addresses drops →
        ∃ l', l.traverse LinkedList.iteratorNext LinkedList.getIterator drops =
            .ok (s.cells.addresses.map some ++ [none], l') ∧
          l'.forwards = .ok (s.cells.filter (fun c => c.1 ∉ drops.flatten)) ∧
          l'.backwards = .ok (s.cells.filter (fun c => c.1 ∉ drops.flatten)).reverse ∧
          l'.count = (s.cells.filter (fun c => c.1 ∉ drops.flatten)).length) ∧
      (∀ drops, DropsVisited s.cells.addresses.reverse drops →
        ∃ l', l.traverse LinkedList.iteratorPrev LinkedList.getIterator drops =
            .ok (s.cells.addresses.reverse.map some ++ [none], l') ∧
          l'.forwards = .ok (s.cells.filter (fun c => c.1 ∉ drops.flatten)) ∧
          l'.backwards = .ok (s.cells.filter (fun c => c.1 ∉ drops.flatten)).reverse ∧
          l'.count = (s.cells.filter (fun c => c.1 ∉ drops.flatten)).length) := by
  obtain ⟨replies, l, he, hl, -⟩ := listRun_holding deleter calls s h
  have hr := hl.represents
  refine ⟨replies, l, he, fun drops hdrops => ?_, fun drops hdrops => ?_⟩
  · obtain ⟨l', ht, hr', hc'⟩ := forward_direction.traverse hr hl.count (List.suffix_refl _) (ahead_getIterator hr)
      (by simpa using hdrops.turns) hdrops.once (hdrops.behind hr.distinct)
    exact ⟨l', ht, forwards_spec hr', backwards_spec hr', hc'⟩
  · have haddresses : addresses s.cells.reverse = s.cells.addresses.reverse := List.map_reverse
    have hbehind := hdrops.behind (List.nodup_reverse.mpr hr.distinct)
    have haligned : s.cells.reverse.reverse <+: s.cells := by simp
    obtain ⟨l', ht, hr', hc'⟩ := backward_direction.traverse hr hl.count haligned
      (behind_getIterator hr) (by simpa using hdrops.turns) hdrops.once (by
        intro i drop hi p hp
        rw [haddresses]
        exact ⟨List.mem_reverse.mp (hbehind i drop hi p hp).1, (hbehind i drop hi p hp).2⟩)
    rw [haddresses] at ht
    exact ⟨l', ht, forwards_spec hr', backwards_spec hr', hc'⟩

/-- Of three nodes the first one goes while it is the current one, and the second one a turn late. -/
theorem linkedlist_remove_while_iterating_three :
    ∃ replies l, runCalls listCall (LinkedList.new.ondelete true) [.insertLast 7, .insertLast 8, .insertLast 9] =
        .ok (replies, l) ∧
      ∃ l', l.traverse LinkedList.iteratorNext LinkedList.getIterator [[0], [], [1], []] =
          .ok ([some 0, some 1, some 2, none], l') ∧ l'.forwards = .ok [(2, 9)] := by
  obtain ⟨replies, l, he, hforward, -⟩ := linkedlist_remove_while_iterating true
    [.insertLast 7, .insertLast 8, .insertLast 9] ⟨[(0, 7), (1, 8), (2, 9)], 3⟩ rfl
  have hdrops : DropsVisited [0, 1, 2] [[0], [], [1], []] := by
    refine ⟨rfl, by decide, fun i drop hi p hp => ?_⟩
    rcases i with _ | _ | _ | _ | i <;> cases hi
    all_goals
      revert p
      decide
  obtain ⟨l', ht, hw, -⟩ := hforward [[0], [], [1], []] hdrops
  exact ⟨replies, l, he, l', ht, hw⟩

end CFlare.Storage
