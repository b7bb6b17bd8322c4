import CFlare.Storage.LinkedList
import Mathlib.Data.List.Nodup
import Mathlib.Data.List.Perm.Subperm
import Mathlib.Order.Basic

/-! The sequence of cells that a linked list in memory represents, and what each list
function does to it. A cell is a node's address with its data. -/
namespace CFlare.Storage
open CFlare.Library

abbrev Cells (α : Type) := List (Nat × α)

namespace Cells
variable {α : Type}

/-- The address at which a walk over the cells starts, or where it goes on if there are none. -/
def headOr : Cells α → Option Nat → Option Nat
  | [], stop => stop
  | (p, _) :: _, _ => some p

/-- The address of the last cell, or the one before if there are none. -/
def lastOr : Option Nat → Cells α → Option Nat
  | prev, [] => prev
  | _, (p, _) :: cells => lastOr (some p) cells

abbrev addresses (cells : Cells α) : List Nat := cells.map Prod.fst
abbrev data (cells : Cells α) : List α := cells.map Prod.snd

@[simp] theorem headOr_append (xs ys : Cells α) (stop : Option Nat) :
    headOr (xs ++ ys) stop = headOr xs (headOr ys stop) := by
  cases xs <;> rfl

@[simp] theorem lastOr_append (prev : Option Nat) (xs ys : Cells α) :
    lastOr prev (xs ++ ys) = lastOr (lastOr prev xs) ys := by
  induction xs generalizing prev with
  | nil => rfl
  | cons x xs ih => exact ih (some x.1)

end Cells

open Cells

/-- Linked nodes for the cells, reached from `prev` and leading to `stop`. -/
def Segment {α : Type} (nodes : Nat → Option (Node α)) : Option Nat → Cells α → Option Nat → Prop
  | _, [], _ => True
  | prev, (p, a) :: cells, stop =>
    nodes p = some ⟨a, headOr cells stop, prev⟩ ∧ Segment nodes (some p) cells stop

section Segments
variable {α : Type} {nodes nodes' : Nat → Option (Node α)}

theorem segment_append {prev stop : Option Nat} (xs ys : Cells α) :
    Segment nodes prev (xs ++ ys) stop ↔
      Segment nodes prev xs (headOr ys stop) ∧ Segment nodes (lastOr prev xs) ys stop := by
  induction xs generalizing prev with
  | nil => simp [Segment, lastOr]
  | cons x xs ih =>
    obtain ⟨p, a⟩ := x
    simp only [List.cons_append, Segment, headOr_append, lastOr, ih, and_assoc]

/-- Changes away from the cells leave a segment alone. -/
theorem Segment.frame {prev stop : Option Nat} {cells : Cells α} (h : Segment nodes prev cells stop)
    (he : ∀ p ∈ cells.addresses, nodes' p = nodes p) : Segment nodes' prev cells stop := by
  induction cells generalizing prev with
  | nil => trivial
  | cons c cells ih =>
    obtain ⟨p, a⟩ := c
    refine ⟨?_, ih h.2 (fun q hq => he q (List.mem_cons_of_mem _ hq))⟩
    rw [he p List.mem_cons_self]
    exact h.1

theorem Segment.lookup {prev stop : Option Nat} {cells : Cells α}
    (h : Segment nodes prev cells stop) {p : Nat} {a : α} (hm : (p, a) ∈ cells) :
    ∃ n, nodes p = some n ∧ n.data = a := by
  induction cells generalizing prev with
  | nil => cases hm
  | cons c cells ih =>
    rcases List.mem_cons.mp hm with rfl | hm
    · exact ⟨_, h.1, rfl⟩
    · exact ih h.2 hm

end Segments

variable {α : Type}

/-- The list holds exactly these cells, in this order forwards and backwards. -/
structure Represents (l : LinkedList α) (cells : Cells α) : Prop where
  first : l.first = headOr cells none
  last : l.last = lastOr none cells
  linked : Segment l.nodes none cells none
  distinct : cells.addresses.Nodup
  allocated : ∀ p ∈ cells.addresses, p < l.allocated

theorem represents_new : Represents (LinkedList.new : LinkedList α) [] :=
  ⟨rfl, rfl, trivial, List.nodup_nil, by simp⟩

theorem Represents.congr {l l' : LinkedList α} {cells : Cells α} (h : Represents l cells)
    (hf : l'.first = l.first) (hl : l'.last = l.last) (hn : l'.nodes = l.nodes)
    (ha : l'.allocated = l.allocated) : Represents l' cells :=
  ⟨hf.trans h.first, hl.trans h.last, hn ▸ h.linked, h.distinct, ha ▸ h.allocated⟩

theorem Represents.length_le {l : LinkedList α} {cells : Cells α} (h : Represents l cells) :
    cells.length ≤ l.allocated := by
  have hs : cells.addresses ⊆ List.range l.allocated := by
    intro p hp
    exact List.mem_range.mpr (h.allocated p hp)
  simpa using (List.Nodup.subperm h.distinct hs).length_le

/-- The cells that a list represents are determined by its memory. -/
theorem Represents.unique {l : LinkedList α} {xs ys : Cells α} (hx : Represents l xs)
    (hy : Represents l ys) : xs = ys := by
  have seg : ∀ (prev : Option Nat) (xs ys : Cells α), Segment l.nodes prev xs none →
      Segment l.nodes prev ys none → headOr xs none = headOr ys none → xs = ys := by
    intro prev xs
    induction xs generalizing prev with
    | nil =>
      intro ys _ _ he
      cases ys with
      | nil => rfl
      | cons y ys => cases he
    | cons x xs ih =>
      intro ys hsx hsy he
      cases ys with
      | nil => cases he
      | cons y ys =>
        obtain ⟨p, a⟩ := x
        obtain ⟨q, b⟩ := y
        obtain rfl : p = q := Option.some.inj he
        have hn := hsx.1.symm.trans hsy.1
        simp only [Option.some.injEq, Node.mk.injEq] at hn
        obtain ⟨rfl, hnext, -⟩ := hn
        rw [ih _ _ hsx.2 hsy.2 hnext]
  exact seg none xs ys hx.linked hy.linked (hx.first.symm.trans hy.first)

private theorem linkNext_spec {l : LinkedList α} {xs : Cells α} {stop : Option Nat}
    (hs : Segment l.nodes none xs stop) (hf : xs ≠ [] → l.first = headOr xs stop)
    (hd : xs.addresses.Nodup) (next : Option Nat) :
    ∃ l', l.linkNext (lastOr none xs) next = .ok l' ∧ l'.first = headOr xs next ∧
      Segment l'.nodes none xs next ∧ (∀ p ∉ xs.addresses, l'.nodes p = l.nodes p) ∧
      l'.last = l.last ∧ l'.allocated = l.allocated ∧ l'.count = l.count ∧ l'.deleter = l.deleter := by
  rcases List.eq_nil_or_concat xs with rfl | ⟨ws, ⟨p, a⟩, rfl⟩
  · exact ⟨{ l with first := next }, rfl, rfl, trivial, fun _ _ => rfl, rfl, rfl, rfl, rfl⟩
  · rw [List.concat_eq_append] at *
    obtain ⟨hw, hp, -⟩ := (segment_append ws [(p, a)]).mp hs
    have hpw : p ∉ addresses ws := by
      intro hm
      simp only [addresses, List.map_append] at hd
      exact (List.nodup_append.mp hd).2.2 p hm p (by simp) rfl
    refine ⟨{ l with nodes := Function.update l.nodes p (some ⟨a, next, lastOr none ws⟩) },
      ?_, ?_, ?_, ?_, rfl, rfl, rfl, rfl⟩
    · simp [lastOr, LinkedList.linkNext, LinkedList.node, hp]
    · rw [hf (by simp), headOr_append, headOr_append]
      rfl
    · rw [segment_append]
      refine ⟨Segment.frame hw ?_, ?_, trivial⟩
      · intro q hq
        exact Function.update_of_ne (by rintro rfl; exact hpw hq) _ _
      · simp [headOr]
    · intro q hq
      exact Function.update_of_ne (fun he => hq (by simp [he])) _ _

private theorem linkPrev_spec {l : LinkedList α} {ys : Cells α} {before : Option Nat}
    (hs : Segment l.nodes before ys none) (hl : ys ≠ [] → l.last = lastOr before ys)
    (hd : ys.addresses.Nodup) (prev : Option Nat) :
    ∃ l', l.linkPrev (headOr ys none) prev = .ok l' ∧ l'.last = lastOr prev ys ∧
      Segment l'.nodes prev ys none ∧ (∀ p ∉ ys.addresses, l'.nodes p = l.nodes p) ∧
      l'.first = l.first ∧ l'.allocated = l.allocated ∧ l'.count = l.count ∧ l'.deleter = l.deleter := by
  cases ys with
  | nil => exact ⟨{ l with last := prev }, rfl, rfl, trivial, fun _ _ => rfl, rfl, rfl, rfl, rfl⟩
  | cons c ys =>
    obtain ⟨p, a⟩ := c
    have hp := hs.1
    have hpy : p ∉ addresses ys := (List.nodup_cons.mp hd).1
    refine ⟨{ l with nodes := Function.update l.nodes p (some ⟨a, headOr ys none, prev⟩) },
      ?_, hl (by simp), ⟨by simp, ?_⟩, ?_, rfl, rfl, rfl, rfl⟩
    · simp [headOr, LinkedList.linkPrev, LinkedList.node, hp]
    · refine Segment.frame hs.2 ?_
      intro q hq
      exact Function.update_of_ne (by rintro rfl; exact hpy hq) _ _
    · intro q hq
      exact Function.update_of_ne (fun he => hq (by simp [he])) _ _

/-- Insertion between a front and a back part of the cells. With both parts empty the list's
own first and last links are not consulted, whatever it held before. -/
theorem insertBetween_spec {l : LinkedList α} {xs ys : Cells α}
    (hx : Segment l.nodes none xs (headOr ys none)) (hy : Segment l.nodes (lastOr none xs) ys none)
    (hf : xs ≠ [] → l.first = headOr xs (headOr ys none))
    (hl : ys ≠ [] → l.last = lastOr (lastOr none xs) ys)
    (hd : (addresses (xs ++ ys)).Nodup) (ha : ∀ p ∈ addresses (xs ++ ys), p < l.allocated) (a : α) :
    ∃ l', l.insertBetween (lastOr none xs) (headOr ys none) a = .ok (l.allocated, l') ∧
      Represents l' (xs ++ (l.allocated, a) :: ys) ∧
      l'.count = l.count + 1 ∧ l'.deleter = l.deleter := by
  have hnew : ∀ p ∈ addresses (xs ++ ys), p ≠ l.allocated := fun p hp => Nat.ne_of_lt (ha p hp)
  rw [addresses, List.map_append] at hd
  obtain ⟨hdx, hdy, hxy⟩ := List.nodup_append.mp hd
  have hnx : l.allocated ∉ xs.addresses := fun h => hnew _ (by simp [h]) rfl
  have hny : l.allocated ∉ ys.addresses := fun h => hnew _ (by simp [h]) rfl
  let l0 : LinkedList α := { l with
    nodes := Function.update l.nodes l.allocated (some ⟨a, headOr ys none, lastOr none xs⟩)
    allocated := l.allocated + 1 }
  have h0 : ∀ p, p ≠ l.allocated → l0.nodes p = l.nodes p := fun p hp => Function.update_of_ne hp _ _
  have hx0 : Segment l0.nodes none xs (headOr ys none) :=
    hx.frame (fun p hp => h0 p (by rintro rfl; exact hnx hp))
  obtain ⟨l1, he1, hf1, hs1, hn1, hl1, ha1, hc1, hde1⟩ := linkNext_spec hx0 hf hdx (some l.allocated)
  have hy1 : Segment l1.nodes (lastOr none xs) ys none := by
    refine hy.frame (fun p hp => ?_)
    rw [hn1 p (fun hpx => hxy p hpx p hp rfl), h0 p (by rintro rfl; exact hny hp)]
  obtain ⟨l2, he2, hl2, hs2, hn2, hf2, ha2, hc2, hde2⟩ := linkPrev_spec hy1
    (fun h => by rw [hl1]; exact hl h) hdy (some l.allocated)
  refine ⟨{ l2 with count := l2.count + 1 }, ?_, ?_, by simp [hc2, hc1, l0], by simp [hde2, hde1, l0]⟩
  · simp only [LinkedList.insertBetween]
    rw [show ({ l with
      nodes := Function.update l.nodes l.allocated (some ⟨a, headOr ys none, lastOr none xs⟩)
      allocated := l.allocated + 1 } : LinkedList α) = l0 from rfl, he1]
    simp [he2]
  · refine ⟨?_, ?_, ?_, ?_, ?_⟩
    · simp only [hf2, hf1, headOr_append]
      rfl
    · simp only [hl2, lastOr_append]
      rfl
    · rw [segment_append]
      refine ⟨hs1.frame (fun p hp => hn2 p (fun hpy => hxy p hp p hpy rfl)), ?_, hs2⟩
      rw [hn2 _ hny, hn1 _ hnx]
      exact Function.update_self _ _ _
    · rw [addresses, List.map_append, List.map_cons]
      exact (List.nodup_middle).mpr (List.nodup_cons.mpr ⟨List.mem_append.not.mpr (not_or.mpr ⟨hnx, hny⟩), hd⟩)
    · intro p hp
      simp only [ha2, ha1, l0]
      simp only [addresses, List.map_append, List.map_cons, List.mem_append, List.mem_cons] at hp
      rcases hp with hp | rfl | hp
      · have := ha p (by simp [addresses, hp])
        omega
      · omega
      · have := ha p (by simp [addresses, hp])
        omega

/-- Inserting before a node puts the element right before it. -/
theorem insertBefore_spec {l : LinkedList α} {xs ys : Cells α} {p : Nat} {b : α}
    (h : Represents l (xs ++ (p, b) :: ys)) (a : α) :
    ∃ l', l.insertBefore (some p) a = .ok (l.allocated, l') ∧
      Represents l' (xs ++ (l.allocated, a) :: (p, b) :: ys) ∧
      l'.count = l.count + 1 ∧ l'.deleter = l.deleter := by
  obtain ⟨hx, hy⟩ := (segment_append xs ((p, b) :: ys)).mp h.linked
  have hr := insertBetween_spec hx hy (fun _ => by rw [h.first, headOr_append])
    (fun _ => by rw [h.last, lastOr_append]) h.distinct h.allocated a
  simpa [LinkedList.insertBefore, LinkedList.node, hy.1, headOr] using hr

/-- Inserting before or after no node at all makes the new element the whole list. -/
theorem insertBetween_none_spec (l : LinkedList α) (a : α) :
    ∃ l', l.insertBetween none none a = .ok (l.allocated, l') ∧ Represents l' [(l.allocated, a)] ∧
      l'.count = l.count + 1 ∧ l'.deleter = l.deleter := by
  have hx : Segment l.nodes none [] (headOr ([] : Cells α) none) := trivial
  have hy : Segment l.nodes (lastOr none ([] : Cells α)) [] none := trivial
  exact insertBetween_spec hx hy (by simp) (by simp) List.nodup_nil (by simp) a

theorem insertLast_spec {l : LinkedList α} {cells : Cells α} (h : Represents l cells) (a : α) :
    ∃ l', l.insertLast a = .ok (l.allocated, l') ∧ Represents l' (cells ++ [(l.allocated, a)]) ∧
      l'.count = l.count + 1 ∧ l'.deleter = l.deleter := by
  rcases List.eq_nil_or_concat cells with rfl | ⟨ws, ⟨p, b⟩, rfl⟩
  · rw [LinkedList.insertLast, h.last]
    exact insertBetween_none_spec l a
  · rw [List.concat_eq_append] at *
    have hx : Segment l.nodes none (ws ++ [(p, b)]) (headOr ([] : Cells α) none) := h.linked
    have hy : Segment l.nodes (lastOr none (ws ++ [(p, b)])) [] none := trivial
    have hr := insertBetween_spec hx hy (fun _ => h.first) (by simp)
      (by simpa using h.distinct) (by simpa using h.allocated) a
    have hp := ((segment_append ws [(p, b)]).mp h.linked).2.1
    rw [LinkedList.insertLast, h.last]
    simpa [LinkedList.insertAfter, LinkedList.node, lastOr, hp, headOr] using hr

/-- Removing a node takes its cell out and hands its data to the deleter, if there is one. -/
theorem remove_spec {l : LinkedList α} {xs ys : Cells α} {p : Nat} {a : α}
    (h : Represents l (xs ++ (p, a) :: ys)) :
    ∃ l', l.remove (some p) = .ok (if l.deleter then some a else none, l') ∧
      Represents l' (xs ++ ys) ∧ l'.count = l.count - 1 ∧ l'.deleter = l.deleter ∧
      l'.nodes p = none := by
  obtain ⟨hx, hp, hy⟩ := (segment_append xs ((p, a) :: ys)).mp h.linked
  have hd := h.distinct
  rw [addresses, List.map_append, List.map_cons, List.nodup_middle, List.nodup_cons,
    List.mem_append, not_or] at hd
  obtain ⟨⟨hpx, hpy⟩, hxy⟩ := hd
  obtain ⟨hdx, hdy, hdis⟩ := List.nodup_append.mp hxy
  obtain ⟨l1, he1, hf1, hs1, hn1, hl1, ha1, hc1, hde1⟩ := linkNext_spec hx
    (fun _ => by rw [h.first, headOr_append]) hdx (headOr ys none)
  have hy1 : Segment l1.nodes (some p) ys none :=
    hy.frame (fun q hq => hn1 q (fun hqx => hdis q hqx q hq rfl))
  obtain ⟨l2, he2, hl2, hs2, hn2, hf2, ha2, hc2, hde2⟩ := linkPrev_spec hy1
    (fun _ => by rw [hl1, h.last, lastOr_append]; rfl) hdy (lastOr none xs)
  refine ⟨{ l2 with nodes := Function.update l2.nodes p none, count := l2.count - 1 },
    ?_, ?_, by simp [hc2, hc1], by simp [hde2, hde1], by simp⟩
  · simp [LinkedList.remove, LinkedList.node, hp, he1, he2, hde2, hde1]
  · have hout : ∀ q, q ≠ p → Function.update l2.nodes p none q = l2.nodes q :=
      fun q hq => Function.update_of_ne hq _ _
    refine ⟨by simp [hf2, hf1], by simp [hl2], ?_, by simpa using hxy, ?_⟩
    · rw [segment_append]
      constructor
      · refine hs1.frame (fun q hq => ?_)
        exact (hout q (by rintro rfl; exact hpx hq)).trans (hn2 q (fun hqy => hdis q hq q hqy rfl))
      · exact hs2.frame (fun q hq => hout q (by rintro rfl; exact hpy hq))
    · intro q hq
      simp only [ha2, ha1]
      apply h.allocated q
      simp only [addresses, List.map_append, List.map_cons, List.mem_append, List.mem_cons] at hq ⊢
      tauto

private theorem deleteNodes_spec {fuel : Nat} {l : LinkedList α} {cells : Cells α}
    (h : Represents l cells) (hc : l.count = cells.length) (hf : cells.length ≤ fuel) :
    l.deleteNodes fuel = .ok (if l.deleter then cells.data else []) := by
  induction cells generalizing fuel l with
  | nil =>
    cases fuel <;> simp [LinkedList.deleteNodes, hc]
  | cons c cells ih =>
    obtain ⟨p, a⟩ := c
    obtain ⟨fuel, rfl⟩ := Nat.exists_eq_succ_of_ne_zero (Nat.ne_zero_of_lt hf)
    have h' : Represents l ([] ++ (p, a) :: cells) := h
    obtain ⟨l', he, hr, hc', hd, -⟩ := remove_spec h'
    have hrest := ih hr (by rw [hc', hc]; rfl) (Nat.le_of_succ_le_succ hf)
    have hpos : l.count ≠ 0 := by
      rw [hc]
      exact Nat.succ_ne_zero _
    rw [LinkedList.deleteNodes, if_neg hpos, h.first, show headOr ((p, a) :: cells) none = some p from rfl, he]
    simp only [fault_ok_bind, hrest, hd]
    cases l.deleter <;> rfl

/-- Deleting a list hands each of its elements to the deleter once, in order. -/
theorem delete_spec {l : LinkedList α} {cells : Cells α} (h : Represents l cells)
    (hc : l.count = cells.length) : l.delete = .ok (if l.deleter then cells.data else []) :=
  deleteNodes_spec h hc (Nat.le_of_eq hc.symm)

theorem setData_spec {l : LinkedList α} {xs ys : Cells α} {p : Nat} {a : α}
    (h : Represents l (xs ++ (p, a) :: ys)) (b : α) :
    ∃ l', l.setData p b = .ok l' ∧ Represents l' (xs ++ (p, b) :: ys) ∧
      l'.count = l.count ∧ l'.deleter = l.deleter := by
  obtain ⟨hx, hp, hy⟩ := (segment_append xs ((p, a) :: ys)).mp h.linked
  have hd := h.distinct
  rw [addresses, List.map_append, List.map_cons, List.nodup_middle, List.nodup_cons,
    List.mem_append, not_or] at hd
  obtain ⟨⟨hpx, hpy⟩, -⟩ := hd
  have hout : ∀ q, q ≠ p → Function.update l.nodes p (some ⟨b, headOr ys none, lastOr none xs⟩) q =
      l.nodes q := fun q hq => Function.update_of_ne hq _ _
  refine ⟨{ l with nodes := Function.update l.nodes p (some ⟨b, headOr ys none, lastOr none xs⟩) },
    ?_, ⟨?_, ?_, ?_, by simpa using h.distinct, by simpa using h.allocated⟩, rfl, rfl⟩
  · simp [LinkedList.setData, LinkedList.node, hp]
  · rw [h.first, headOr_append, headOr_append]
    rfl
  · rw [h.last, lastOr_append, lastOr_append]
    rfl
  · rw [segment_append]
    refine ⟨hx.frame (fun q hq => hout q (by rintro rfl; exact hpx hq)), by simp, ?_⟩
    exact hy.frame (fun q hq => hout q (by rintro rfl; exact hpy hq))

section Allocation
variable {l l' : LinkedList α}

private theorem linkNext_allocated {pre next : Option Nat} (h : l.linkNext pre next = .ok l') :
    l'.allocated = l.allocated := by
  cases pre with
  | none =>
    obtain rfl := Except.ok.inj h
    rfl
  | some p =>
    obtain ⟨n, -, hn⟩ := bind_eq_ok.mp h
    obtain rfl := Except.ok.inj hn
    rfl

private theorem linkPrev_allocated {post prev : Option Nat} (h : l.linkPrev post prev = .ok l') :
    l'.allocated = l.allocated := by
  cases post with
  | none =>
    obtain rfl := Except.ok.inj h
    rfl
  | some p =>
    obtain ⟨n, -, hn⟩ := bind_eq_ok.mp h
    obtain rfl := Except.ok.inj hn
    rfl

private theorem insertBetween_allocated {pre post : Option Nat} {a : α} {p : Nat}
    (h : l.insertBetween pre post a = .ok (p, l')) : l'.allocated = l.allocated + 1 := by
  obtain ⟨l1, h1, h⟩ := bind_eq_ok.mp h
  obtain ⟨l2, h2, h⟩ := bind_eq_ok.mp h
  obtain ⟨-, rfl⟩ := Prod.mk.inj (Except.ok.inj h)
  exact (linkPrev_allocated h2).trans (linkNext_allocated h1)

theorem insertBefore_allocated {position : Option Nat} {a : α} {p : Nat}
    (h : l.insertBefore position a = .ok (p, l')) : l'.allocated = l.allocated + 1 := by
  cases position with
  | none => exact insertBetween_allocated h
  | some q =>
    obtain ⟨n, -, h⟩ := bind_eq_ok.mp h
    exact insertBetween_allocated h

theorem insertAfter_allocated {position : Option Nat} {a : α} {p : Nat}
    (h : l.insertAfter position a = .ok (p, l')) : l'.allocated = l.allocated + 1 := by
  cases position with
  | none => exact insertBetween_allocated h
  | some q =>
    obtain ⟨n, -, h⟩ := bind_eq_ok.mp h
    exact insertBetween_allocated h

theorem remove_allocated {position : Option Nat} {deleted : Option α}
    (h : l.remove position = .ok (deleted, l')) : l'.allocated = l.allocated := by
  cases position with
  | none => cases h
  | some p =>
    obtain ⟨n, -, h⟩ := bind_eq_ok.mp h
    obtain ⟨l1, h1, h⟩ := bind_eq_ok.mp h
    obtain ⟨l2, h2, h⟩ := bind_eq_ok.mp h
    obtain ⟨-, rfl⟩ := Prod.mk.inj (Except.ok.inj h)
    exact (linkPrev_allocated h2).trans (linkNext_allocated h1)

end Allocation

/-- The iterator has yet to meet exactly these cells; what it passed does not matter. -/
def Iterator.Ahead (l : LinkedList α) (it : Iterator) (rest : Cells α) : Prop :=
  (if it.started then it.next else l.first) = headOr rest none

theorem ahead_getIterator {l : LinkedList α} {cells : Cells α} (h : Represents l cells) :
    LinkedList.getIterator.Ahead l cells := h.first

/-- At the end the iterator holds no node. -/
theorem iteratorNext_nil {l : LinkedList α} {it : Iterator} (ha : it.Ahead l []) :
    ∃ it', l.iteratorNext it = .ok (none, it') ∧ it'.value = none := by
  unfold Iterator.Ahead at ha
  unfold LinkedList.iteratorNext
  cases hs : it.started with
  | true =>
    rw [hs, if_pos rfl] at ha
    simp [ha, headOr]
  | false =>
    rw [hs, if_neg (by decide)] at ha
    simp [ha, headOr]

/-- A move ends on the next cell, as long as the cells ahead are still in the list; those
behind may have been removed, and the cell itself may be removed now. -/
theorem iteratorNext_cons {l : LinkedList α} {it : Iterator} {xs rest : Cells α} {p : Nat} {a : α}
    (h : Represents l (xs ++ (p, a) :: rest)) (ha : it.Ahead l ((p, a) :: rest)) :
    ∃ it' n, l.iteratorNext it = .ok (some p, it') ∧ it'.value = some p ∧ l.node p = .ok n ∧ n.data = a ∧
      ∀ l' : LinkedList α, it'.Ahead l' rest := by
  have hp := ((segment_append xs ((p, a) :: rest)).mp h.linked).2.1
  have hnode : l.node p = .ok ⟨a, headOr rest none, lastOr none xs⟩ := by rw [LinkedList.node, hp]
  have hnext : (if it.started then it.next else l.first) = some p := ha
  unfold LinkedList.iteratorNext
  cases hs : it.started with
  | true =>
    rw [hs, if_pos rfl] at hnext
    simp [hnext, hnode, Iterator.Ahead]
  | false =>
    rw [hs, if_neg (by decide)] at hnext
    simp [hnext, hnode, Iterator.Ahead]

/-- The shared search loop stops at the first cell ahead that is found, or past the end. -/
theorem findNext_spec {l : LinkedList α} (found : α → Bool) {fuel : Nat} {it : Iterator}
    {xs rest : Cells α} (h : Represents l (xs ++ rest)) (ha : it.Ahead l rest)
    (hfuel : rest.length < fuel) :
    ∃ it', l.findNext found fuel it = .ok it' ∧
      ((it'.value = none ∧ ∀ c ∈ rest, found c.2 = false) ∨
        ∃ us p a vs, rest = us ++ (p, a) :: vs ∧ it'.value = some p ∧ found a = true ∧
          ∀ c ∈ us, found c.2 = false) := by
  induction rest generalizing xs fuel it with
  | nil =>
    obtain ⟨fuel, rfl⟩ := Nat.exists_eq_succ_of_ne_zero (Nat.ne_of_gt hfuel)
    obtain ⟨it', he, hv⟩ := iteratorNext_nil ha
    exact ⟨it', by simp [LinkedList.findNext, he], .inl ⟨hv, by simp⟩⟩
  | cons c rest ih =>
    obtain ⟨p, a⟩ := c
    obtain ⟨fuel, rfl⟩ := Nat.exists_eq_succ_of_ne_zero (Nat.ne_zero_of_lt hfuel)
    obtain ⟨it', n, he, hv, hnode, hdata, hahead⟩ := iteratorNext_cons h ha
    cases hfa : found a with
    | true =>
      refine ⟨it', ?_, .inr ⟨[], p, a, rest, rfl, hv, hfa, by simp⟩⟩
      simp [LinkedList.findNext, he, hnode, hdata, hfa]
    | false =>
      have hrest : Represents l ((xs ++ [(p, a)]) ++ rest) := by simpa using h
      obtain ⟨it'', he', hcases⟩ := ih hrest (hahead l) (by simpa using hfuel)
      refine ⟨it'', ?_, ?_⟩
      · simp [LinkedList.findNext, he, hnode, hdata, hfa, he']
      · rcases hcases with ⟨hnone, hall⟩ | ⟨us, q, b, vs, rfl, hq, hfb, hall⟩
        · exact .inl ⟨hnone, by simpa [hfa] using hall⟩
        · exact .inr ⟨(p, a) :: us, q, b, vs, rfl, hq, hfb, by simpa [hfa] using hall⟩

theorem find_spec {l : LinkedList α} (found : α → Bool) {cells : Cells α} (h : Represents l cells) :
    ∃ it, l.find found = .ok it ∧
      ((it.value = none ∧ ∀ c ∈ cells, found c.2 = false) ∨
        ∃ us p a vs, cells = us ++ (p, a) :: vs ∧ it.value = some p ∧ found a = true ∧
          ∀ c ∈ us, found c.2 = false) := by
  have h' : Represents l ([] ++ cells) := h
  exact findNext_spec found h' (ahead_getIterator h) (Nat.lt_succ_of_le h.length_le)

/-- The same nodes with other data in them. -/
def LinkedList.mapData {β : Type} (f : α → β) (l : LinkedList α) : LinkedList β :=
  ⟨l.count, l.deleter, l.first, l.last, fun p => (l.nodes p).map (fun n => ⟨f n.data, n.next, n.prev⟩), l.allocated⟩

def Cells.mapData {β : Type} (f : α → β) (cells : Cells α) : Cells β := cells.map (fun c => (c.1, f c.2))

section MapData
variable {β : Type} (f : α → β)

theorem Cells.headOr_mapData (cells : Cells α) (stop : Option Nat) : headOr (cells.mapData f) stop = headOr cells stop := by
  cases cells <;> rfl

theorem Cells.lastOr_mapData (prev : Option Nat) (cells : Cells α) :
    lastOr prev (cells.mapData f) = lastOr prev cells := by
  induction cells generalizing prev with
  | nil => rfl
  | cons c cells ih => exact ih (some c.1)

theorem Cells.data_mapData (cells : Cells α) : (cells.mapData f).data = cells.data.map f := by
  simp [Cells.mapData, Cells.data, Function.comp_def]

theorem Segment.mapData {nodes : Nat → Option (Node α)} {prev stop : Option Nat} {cells : Cells α}
    (h : Segment nodes prev cells stop) :
    Segment (fun p => (nodes p).map (fun n => (⟨f n.data, n.next, n.prev⟩ : Node β))) prev (cells.mapData f) stop := by
  induction cells generalizing prev with
  | nil => trivial
  | cons c cells ih =>
    obtain ⟨p, a⟩ := c
    refine ⟨?_, ih h.2⟩
    change (nodes p).map (fun n => Node.mk (f n.data) n.next n.prev) = some ⟨f a, headOr (Cells.mapData f cells) stop, prev⟩
    rw [h.1, headOr_mapData]
    rfl

theorem Represents.mapData {l : LinkedList α} {cells : Cells α} (h : Represents l cells) :
    Represents (l.mapData f) (cells.mapData f) := by
  have haddresses : (cells.mapData f).addresses = cells.addresses := by
    simp [Cells.mapData, Cells.addresses, Function.comp_def]
  refine ⟨?_, ?_, h.linked.mapData f, haddresses ▸ h.distinct, fun p hp => h.allocated p (haddresses ▸ hp)⟩
  · rw [headOr_mapData]
    exact h.first
  · rw [lastOr_mapData]
    exact h.last

end MapData

end CFlare.Storage
