import CFlare.Library.Amortized
import CFlare.Storage.HashtableLoad

/-! What resizing costs. A set that resizes moves every container, but a table that has just been resized is half full, so
that many sets go by until it is resized again. -/
namespace CFlare.Storage
open CFlare.Library

section Moved
variable {V : Type} [DecidableEq V] {map map' : Hashtable V} {es : List (Container V)}

/-- Under the lock nothing moves from list to list. -/
theorem setInBucket_moved {pos : Nat} {list : LinkedList (Container V)} {hash : Hash} {value : Option V} {len : Nat}
    (h : map.setInBucket pos list hash value len = .ok map') : map'.moved = map.moved := by
  unfold Hashtable.setInBucket at h
  obtain ⟨it, -, h⟩ := bind_eq_ok.mp h
  split at h
  · obtain rfl := Except.ok.inj h
    rfl
  · obtain ⟨⟨removed, list'⟩, -, h⟩ := bind_eq_ok.mp h
    obtain rfl := Except.ok.inj h
    cases removed <;> rfl
  · obtain ⟨n, -, h⟩ := bind_eq_ok.mp h
    split at h
    · obtain rfl := Except.ok.inj h
      rfl
    · obtain ⟨list', -, h⟩ := bind_eq_ok.mp h
      obtain rfl := Except.ok.inj h
      rfl
  · obtain ⟨⟨p, list'⟩, -, h⟩ := bind_eq_ok.mp h
    obtain rfl := Except.ok.inj h
    rfl

theorem setLocked_moved {hash : Hash} {value : Option V} {len : Nat} (h : map.setLocked hash value len = .ok map') :
    map'.moved = map.moved := by
  obtain ⟨list, -, h⟩ := bind_eq_ok.mp h
  cases list with
  | none =>
    obtain rfl := Except.ok.inj h
    rfl
  | some list => exact setInBucket_moved h

/-- A set moves the containers of its resize. -/
theorem set_moved (hh : Holds map es) {hash : Hash} {value : Option V} {len : Nat}
    (h : map.set hash value len = .ok map') : map'.moved = map.moved + map.moves value.isNone := by
  have hbuilt : value.isNone = true → map.buckets ≠ none := by
    intro hremoves hnone
    obtain rfl := Option.isNone_iff_eq_none.mp hremoves
    rcases hh.filled with hf | ⟨-, hz, -⟩
    · exact hf.present hnone
    · rw [remove_unbuilt hz] at h
      cases h
  obtain ⟨resized, he, -, -, -, hmoved⟩ := resizeForSet_spec hh value.isNone hbuilt
  rw [Hashtable.set, he, fault_ok_bind] at h
  split at h
  · cases h
  · rw [setLocked_moved h, hmoved]

end Moved

namespace Load
variable {load : Load}

def moves (load : Load) (removing : Bool) : Nat :=
  if load.resized removing = load.buckets then 0 else load.keys.length

/-- What has been saved for the next resize: a table that is more than half full saves for its growth, and one that
has fallen below for its shrinking, if it is large enough to be shrunk. It is counted in half moves. -/
def savings (load : Load) : Nat :=
  if load.buckets ≤ 2 * load.keys.length then 2 * (2 * load.keys.length - load.buckets)
  else if load.buckets ≤ 128 then 0
  else load.buckets - 2 * load.keys.length

/-- An insertion puts at most two moves aside. -/
theorem Balanced.insert_pays (h : load.Balanced) (key : Bytes) :
    2 * load.moves false + (load.set key false).savings ≤ load.savings + 4 := by
  have hfull := h.full
  have hgap := h.size_gap
  have hlength : load.keys.length ≤ (load.set key false).keys.length ∧
      (load.set key false).keys.length ≤ load.keys.length + 1 := by
    rw [set_length_insert]
    split <;> omega
  have hresized : load.resized false =
      if load.buckets * 2 < load.keys.length + 1 then max (load.buckets * 4) 32 else load.buckets := rfl
  unfold moves savings
  rw [show (load.set key false).buckets = load.resized false from rfl, hresized]
  by_cases hgrow : load.buckets * 2 < load.keys.length + 1
  · -- the table was full, so that the savings are three moves for each bucket
    rw [if_pos hgrow]
    split_ifs <;> omega
  · rw [if_neg hgrow, if_pos rfl]
    split_ifs <;> omega

theorem Balanced.remove_pays (h : load.Balanced) (hsize : load.keys.length < sizeLimit) (key : Bytes) :
    2 * load.moves true + (load.set key true).savings ≤ load.savings + 4 := by
  have hfull := h.full
  have hsparse := h.sparse
  have hgap := h.size_gap
  have hlength : load.keys.length - 1 ≤ (load.set key true).keys.length ∧
      (load.set key true).keys.length ≤ load.keys.length := by
    rw [set_length_remove]
    split <;> omega
  have hresized := h.resized_remove hsize key
  unfold moves savings
  rw [show load.resized true = (load.set key true).buckets from rfl, hresized]
  by_cases hshrink : load.keys.length - 1 < load.buckets / 8 ∧ 32 < load.buckets / 4
  · -- one bucket in eight has a value, so that the savings are three moves for eight buckets
    rw [if_pos hshrink]
    split_ifs <;> omega
  · rw [if_neg hshrink, if_pos rfl]
    split_ifs <;> omega

theorem set_length_le (load : Load) (key : Bytes) (removing : Bool) :
    (load.set key removing).keys.length ≤ load.keys.length + 1 := by
  cases removing with
  | true =>
    rw [set_length_remove]
    exact Nat.le_succ_of_le (Nat.sub_le _ _)
  | false =>
    rw [set_length_insert]
    exact Nat.add_le_add_left (by split <;> decide) _

theorem Balanced.pays (h : load.Balanced) (hsize : load.keys.length < sizeLimit) (key : Bytes) (removing : Bool) :
    2 * load.moves removing + (load.set key removing).savings ≤ load.savings + 4 := by
  cases removing with
  | true => exact h.remove_pays hsize key
  | false => exact h.insert_pays key

end Load

section Amortized
variable {V : Type} {map : Hashtable V} {load : Load}

/-- A resize changes the number of buckets. -/
theorem resizeTest_ne {removing : Bool} {newsize : Nat} (h : map.resizeTest removing = some newsize) :
    newsize ≠ map.bucketsCount := by
  unfold Hashtable.resizeTest at h
  dsimp only at h
  split_ifs at h with _ _ hsmall _ hlarge
  · obtain rfl := Option.some.inj h
    rw [startSize] at hsmall ⊢
    omega
  · obtain rfl := Option.some.inj h
    rw [startSize] at hsmall
    omega
  · obtain rfl := Option.some.inj h
    rw [startSize] at hlarge
    omega

theorem Loaded.moves (h : Loaded map load) (removing : Bool) : map.moves removing = load.moves removing := by
  have hresized := h.resized removing
  have hcount := h.count
  obtain ⟨es, -, hbuckets, -⟩ := h
  rw [Hashtable.resizedCount] at hresized
  rw [Hashtable.moves, Load.moves, ← hresized, ← hbuckets, hcount]
  cases htest : map.resizeTest removing with
  | none => simp
  | some newsize => simp [resizeTest_ne htest]

/-- A load of the machine that fits the table and leaves room for the sets that are still to come. -/
def Fits (map : Hashtable V) (calls : List (SetCall V)) : Prop :=
  ∃ load, Loaded map load ∧ load.Balanced ∧ load.keys.length + calls.length < sizeLimit

def Hashtable.savings (map : Hashtable V) : Nat := (Load.mk map.bucketsCount (List.replicate map.count [])).savings

theorem Loaded.savings (h : Loaded map load) : map.savings = load.savings := by
  have hcount := h.count
  obtain ⟨es, -, hbuckets, -⟩ := h
  simp only [Hashtable.savings, Load.savings, List.length_replicate, hcount, hbuckets]

theorem fits_new {calls : List (SetCall V)} (hfit : calls.length < sizeLimit) :
    Fits (Hashtable.new : Hashtable V) calls :=
  ⟨Load.empty, loaded_new, Load.balanced_empty, (Nat.zero_add calls.length).trans_lt hfit⟩

variable [DecidableEq V]

theorem Fits.call {call : SetCall V} {calls : List (SetCall V)} {reply : Unit} {map' : Hashtable V}
    (h : Fits map (call :: calls)) (he : setCall map call = .ok (reply, map')) :
    Fits map' calls ∧ 2 * map'.moved + map'.savings ≤ 2 * map.moved + map.savings + 4 := by
  obtain ⟨load, hload, hb, hsize⟩ := h
  obtain ⟨es, hh, -⟩ := id hload
  obtain ⟨map1, hset, heq⟩ := map_eq_ok.mp he
  obtain ⟨-, rfl⟩ := Prod.mk.inj heq
  have hload' := hload.set hset
  have hlength := load.set_length_le call.key call.value.isNone
  rw [List.length_cons] at hsize
  have hnow : load.keys.length < sizeLimit := by omega
  have hpays := hb.pays hnow call.key call.value.isNone
  refine ⟨⟨_, hload', hb.set hnow _ _, by omega⟩, ?_⟩
  rw [set_moved hh hset, hload.savings, hload'.savings, hload.moves]
  omega

/-- All resizes of a run together move at most two containers for each set, whatever is set and removed. -/
theorem resizes_amortized {calls : List (SetCall V)} (hfit : calls.length < sizeLimit) {replies : List Unit}
    {map : Hashtable V} (hrun : runCalls setCall Hashtable.new calls = .ok (replies, map)) :
    map.moved ≤ 2 * calls.length := by
  have hpaid := runCalls_amortized Fits Hashtable.moved Hashtable.savings
    (fun _ _ _ _ _ h he => h.call he) (fits_new hfit) hrun
  have hnothing : (Hashtable.new : Hashtable V).moved = 0 := rfl
  have hempty : (Hashtable.new : Hashtable V).savings = 0 := rfl
  omega

/-- The 65th value does not fit in 32 buckets any more, and the 64 others move. -/
theorem resizes_amortized_surge : ∃ replies, ∃ map : Hashtable Bytes,
    runCalls setCall Hashtable.new ((numbered 65).map (fun key => ⟨key, some [0], 1⟩)) = .ok (replies, map) ∧
      64 ≤ map.moved ∧ map.moved ≤ 2 * 65 := by
  have hlength : (numbered 64).length = 64 := by rw [numbered, List.length_map, List.length_range]
  have hnew : Reached (fun _ _ _ => True) (Hashtable.new : Hashtable Bytes) := .new
  obtain ⟨first, map1, he1, h1, hl1⟩ := hnew.fill loaded_new ([0] : Bytes) 1
    (numbered_nodup 64) (fun _ _ => List.not_mem_nil) (by rw [hlength]; decide) (fun _ _ => trivial)
  rw [hlength] at hl1
  obtain ⟨es, hh, -⟩ := id hl1
  obtain ⟨map, he⟩ := hl1.set_returns (List.replicate 65 1) (fun hnone => absurd hnone (Option.some_ne_none [0])) 1
  have hkeys : ((numbered 64).reverse ++ Load.empty.keys).length = 64 := by
    rw [List.length_append, List.length_reverse, hlength]
    rfl
  have hmoves : map1.moves false = 64 := by
    rw [hl1.moves, Load.moves, Load.resized, hkeys]
    exact if_neg (by decide +kernel)
  have hmoved : map.moved = map1.moved + 64 := hmoves ▸ set_moved hh he
  have hrun := runCalls_append_singleton he1 (setCall_eq he)
  have hall : (numbered 65).map (fun key => SetCall.mk key (some ([0] : Bytes)) 1) =
      (numbered 64).map (fun key => ⟨key, some [0], 1⟩) ++ [⟨List.replicate 65 1, some [0], 1⟩] := by
    rw [numbered, List.range_succ, List.map_append, List.map_append]
    rfl
  rw [← hall] at hrun
  have hbound := resizes_amortized (by rw [List.length_map, numbered, List.length_map, List.length_range]; decide) hrun
  rw [List.length_map, numbered, List.length_map, List.length_range] at hbound
  exact ⟨_, map, hrun, hmoved ▸ Nat.le_add_left 64 map1.moved, hbound⟩

end Amortized

end CFlare.Storage
