import CFlare.Library.Runs
import CFlare.Storage.HashtableEntries
import Mathlib.Data.Finset.Card

/-! The hashtable as a finite map. One lemma for each function says what it does to the
entries; a run of calls then leaves exactly what the last set of each key stored. -/
namespace CFlare.Storage
open CFlare.Library Cells

section Entries
variable {V : Type} {map map' : Hashtable V} {es es' : List (Container V)} {key : Bytes}

def slotOfKey (map : Hashtable V) (key : Bytes) : Nat :=
  (hashCompute key).hash.toNat % map.bucketsCount

/-- Against a container under its own hash, the search compares keys. -/
theorem holdsKey_iff {cont : Container V} (h : cont.hash = fnvHash1a32 cont.key) :
    Hashtable.holdsKey (hashCompute key) cont = true ↔ cont.key = key := by
  unfold Hashtable.holdsKey
  constructor
  · intro hk
    split at hk
    · cases hk
    · next hne =>
      rw [not_or, not_ne_iff, not_ne_iff] at hne
      have hl : key.length = cont.key.length := hne.1
      have he : key.take key.length = cont.key.take key.length := by
        simpa [Hashtable.memoryEquals, hashCompute] using hk
      rw [List.take_length, hl, List.take_length] at he
      exact he.symm
  · rintro rfl
    simp [hashCompute, h, Hashtable.memoryEquals]

theorem Holds.slot_eq (hh : Holds map es) {e : Container V} (he : e ∈ es) (hk : e.key = key) :
    slotOf map e = slotOfKey map key := by
  rw [slotOf, hh.hashed e he, hk]
  rfl

theorem Holds.mem_slotEntries (hh : Holds map es) {e : Container V} (hk : e.key = key) :
    e ∈ slotEntries map es (slotOfKey map key) ↔ e ∈ es := by
  rw [slotEntries, List.mem_filter]
  constructor
  · exact And.left
  · intro he
    exact ⟨he, by simpa using hh.slot_eq he hk⟩

theorem Holds.slotEntries_distinct (hh : Holds map es) (pos : Nat) :
    ((slotEntries map es pos).map Container.key).Nodup :=
  hh.distinct.sublist (List.filter_sublist.map Container.key)

theorem Holds.slotEntries_hashed (hh : Holds map es) {pos : Nat} {e : Container V}
    (he : e ∈ slotEntries map es pos) : e.hash = fnvHash1a32 e.key :=
  hh.hashed e (List.mem_filter.mp he).1

theorem Holds.entryAt_none (hh : Holds map es)
    (h : ∀ e ∈ slotEntries map es (slotOfKey map key), e.key ≠ key) :
    entryAt Container.key es key = none := by
  rw [entryAt_eq_none]
  intro e he hk
  exact h e ((hh.mem_slotEntries hk).mpr he) hk

/-- The search in a bucket's list stops on the node that holds the key, if one does. -/
theorem Holds.find (hh : Holds map es) {list : LinkedList (Container V)}
    {cells : Cells (Container V)} (hr : Represents list cells)
    (hp : cells.data.Perm (slotEntries map es (slotOfKey map key))) :
    ∃ it, list.find (Hashtable.holdsKey (hashCompute key)) = .ok it ∧
      ((it.value = none ∧ entryAt Container.key es key = none) ∨
        ∃ us p e vs, cells = us ++ (p, e) :: vs ∧ it.value = some p ∧
          entryAt Container.key es key = some e) := by
  have hin : ∀ c ∈ cells, c.2 ∈ slotEntries map es (slotOfKey map key) := fun c hc =>
    hp.mem_iff.mp (List.mem_map_of_mem hc)
  obtain ⟨it, he, hcases⟩ := find_spec (Hashtable.holdsKey (hashCompute key)) hr
  refine ⟨it, he, ?_⟩
  rcases hcases with ⟨hv, hall⟩ | ⟨us, p, e, vs, rfl, hv, hfound, -⟩
  · refine .inl ⟨hv, hh.entryAt_none ?_⟩
    intro e hes hk
    obtain ⟨c, hc, rfl⟩ := List.mem_map.mp (hp.mem_iff.mpr hes)
    have hf := (holdsKey_iff (hh.slotEntries_hashed hes)).mpr hk
    rw [hall c hc] at hf
    cases hf
  · have hes := hin (p, e) (by simp)
    have hk := (holdsKey_iff (hh.slotEntries_hashed hes)).mp hfound
    exact .inr ⟨us, p, e, vs, rfl, hv,
      (entryAt_eq_some hh.distinct).mpr ⟨(hh.mem_slotEntries hk).mp hes, hk⟩⟩

theorem get_spec (hh : Holds map es) (key : Bytes) :
    map.get (hashCompute key) = .ok ((entryAt Container.key es key).map Container.block) := by
  unfold Hashtable.get
  rcases hh.filled with hf | ⟨-, hz, rfl⟩
  · rw [if_pos hf.positive]
    have hb := hf.bucket (slotOfKey map key) (Nat.mod_lt _ hf.positive)
    have hslot : (hashCompute key).hash.toNat % map.bucketsCount = slotOfKey map key := rfl
    have hat : map.bucketAt (slotOfKey map key) = .ok (map.bucket (slotOfKey map key)) :=
      hf.bucketAt (Nat.mod_lt _ hf.positive)
    rw [hslot, hat, fault_ok_bind]
    cases hlist : map.bucket (slotOfKey map key) with
    | none =>
      rw [hlist] at hb
      have hnone : entryAt Container.key es key = none :=
        hh.entryAt_none (fun e he => by rw [show slotEntries map es _ = [] from hb] at he; cases he)
      rw [hnone]
      rfl
    | some list =>
      rw [hlist] at hb
      obtain ⟨cells, hr, hc, -, hp⟩ := hb
      obtain ⟨it, he, hcases⟩ := hh.find hr hp
      rcases hcases with ⟨hv, hnone⟩ | ⟨us, p, e, vs, rfl, hv, hsome⟩
      · rw [hnone]
        dsimp only
        split
        · simp [he, hv]
        · rfl
      · obtain ⟨n, hn, hd⟩ := hr.linked.lookup (show (p, e) ∈ us ++ (p, e) :: vs by simp)
        dsimp only
        rw [if_pos (by rw [hc, List.length_append]; exact Nat.lt_add_left _ (Nat.succ_pos _)), hsome]
        simp [he, hv, LinkedList.node, hn, hd]
  · rw [if_neg (by simp [hz])]
    rfl

/-- What a set does, by what its key holds: the new entries and the books. -/
inductive SetEffect (map map' : Hashtable V) (es : List (Container V)) (key : Bytes) (len : Nat) :
    Option V → List (Container V) → Prop where
  | absent (before : entryAt Container.key es key = none) (books : SameBooks map map') :
      SetEffect map map' es key len none es
  | removed {e : Container V} (before : entryAt Container.key es key = some e)
      (books : SameBooks { map.freeContainer e with count := map.count - 1 } map') :
      SetEffect map map' es key len none (replaceAt Container.key es key none)
  | kept {e : Container V} {value : V} (before : entryAt Container.key es key = some e)
      (same : e.block.size = len ∧ e.block.data = value) (books : SameBooks map map') :
      SetEffect map map' es key len (some value) es
  | updated {e : Container V} {value : V} (before : entryAt Container.key es key = some e)
      (differs : ¬ (e.block.size = len ∧ e.block.data = value))
      (books : SameBooks { map.releaseBlock e.block with blocks := map.blocks + 1 } map') :
      SetEffect map map' es key len (some value)
        (replaceAt Container.key es key (some { e with block := ⟨map.blocks, value, len⟩ }))
  | inserted {value : V} (before : entryAt Container.key es key = none)
      (books : SameBooks { map with count := map.count + 1, blocks := map.blocks + 1 } map') :
      SetEffect map map' es key len (some value)
        (replaceAt Container.key es key
          (some ⟨fnvHash1a32 key, key, ⟨map.blocks, value, len⟩⟩))

/-- The bucket of the key holds what a replacement leaves there; no other bucket notices. -/
theorem Holds.replace (hh : Holds map es) (hf : Filled map es) {new : Option (Container V)}
    (hn : ∀ e, new = some e → e.hash = fnvHash1a32 key ∧ e.key = key)
    {list : LinkedList (Container V)} {cells : Cells (Container V)} (hr : Represents list cells)
    (hc : list.count = cells.length) (hd : list.deleter = true)
    (hp : cells.data.Perm
      ((slotEntries map es (slotOfKey map key)).filter (fun e => e.key ≠ key) ++ new.toList)) :
    Filled (map.setBucket (slotOfKey map key) list) (replaceAt Container.key es key new) := by
  have hslot : ∀ e ∈ new.toList, slotOf map e = slotOfKey map key := by
    intro e he
    rw [slotOf, (hn e (by simpa using he)).1]
    rfl
  refine hf.setBucket ⟨cells, hr, hc, hd, ?_⟩ ?_
  · have hnew : new.toList.filter (fun e => slotOf map e = slotOfKey map key) = new.toList :=
      List.filter_eq_self.mpr (fun e he => by simpa using hslot e he)
    rw [slotEntries, filter_replaceAt, hnew]
    exact hp
  · intro i _ hi
    rw [slotEntries, filter_replaceAt]
    have hnone : new.toList.filter (fun e => slotOf map e = i) = [] := by
      rw [List.filter_eq_nil_iff]
      intro e he
      simpa [hslot e he] using Ne.symm hi
    rw [hnone, List.append_nil]
    refine filter_ne_of_absent (fun e he hk => hi ?_)
    rw [← hh.slot_eq (List.mem_filter.mp he).1 hk]
    exact (of_decide_eq_true (List.mem_filter.mp he).2).symm

/-- Taking out the cell that holds the key leaves the other entries of the bucket. -/
theorem Holds.split_perm (hh : Holds map es) {us vs : Cells (Container V)} {p : Nat}
    {e : Container V} (hk : e.key = key)
    (hp : (data (us ++ (p, e) :: vs)).Perm (slotEntries map es (slotOfKey map key))) :
    (data us ++ data vs).Perm
      ((slotEntries map es (slotOfKey map key)).filter (fun e => e.key ≠ key)) := by
  subst hk
  have hd : ((data us ++ e :: data vs).map Container.key).Nodup := by
    have hn := (hp.map Container.key).nodup_iff.mpr (hh.slotEntries_distinct _)
    simpa using hn
  rw [← filter_ne_of_split hd]
  exact (show (data us ++ e :: data vs).Perm _ by simpa using hp).filter _

section Set
variable [DecidableEq V] (hh : Holds map es) (hf : Filled map es) {list : LinkedList (Container V)}
  {cells : Cells (Container V)} (hr : Represents list cells) (hc : list.count = cells.length)
  (hd : list.deleter = true) (hp : cells.data.Perm (slotEntries map es (slotOfKey map key)))
include hh hf hr hc hd hp

private theorem setInBucket_absent {it : Iterator} (value : Option V) (len : Nat)
    (he : list.find (Hashtable.holdsKey (hashCompute key)) = .ok it) (hv : it.value = none)
    (hnone : entryAt Container.key es key = none) :
    ∃ map' es', map.setInBucket (slotOfKey map key) list (hashCompute key) value len = .ok map' ∧
      SetEffect map map' es key len value es' ∧ Filled map' es' := by
  cases value with
  | none =>
    refine ⟨map.setBucket (slotOfKey map key) list, es,
      by simp [Hashtable.setInBucket, he, hv], .absent hnone ⟨rfl, rfl, rfl, rfl, rfl, rfl⟩, ?_⟩
    exact hf.setBucket ⟨cells, hr, hc, hd, hp⟩ (fun _ _ _ => rfl)
  | some value =>
    let cont : Container V := ⟨fnvHash1a32 key, key, ⟨map.blocks, value, len⟩⟩
    obtain ⟨list', hins, hr', hc', hd'⟩ := insertLast_spec hr cont
    have hins' : list.insertLast ⟨(hashCompute key).hash, (hashCompute key).pointer,
        ⟨map.blocks, value, len⟩⟩ = .ok (list.allocated, list') := hins
    refine ⟨{ map.setBucket (slotOfKey map key) list' with
        count := map.count + 1, blocks := map.blocks + 1 }, _,
      by simp only [Hashtable.setInBucket, he, fault_ok_bind, hv, hins'],
      .inserted hnone ⟨rfl, rfl, rfl, rfl, rfl, rfl⟩, ?_⟩
    refine Filled.congr (hh.replace hf ?_ hr' (by simp [hc', hc]) (hd'.trans hd) ?_) rfl rfl rfl
    · rintro e ⟨⟩
      exact ⟨rfl, rfl⟩
    · have habsent : ∀ e ∈ slotEntries map es (slotOfKey map key), e.key ≠ key := fun e hes hk =>
        entryAt_eq_none.mp hnone e ((hh.mem_slotEntries hk).mp hes) hk
      rw [filter_ne_of_absent habsent]
      simpa using hp.append_right [cont]

private theorem setInBucket_present {it : Iterator} {us vs : Cells (Container V)} {p : Nat}
    {e : Container V} (hcells : cells = us ++ (p, e) :: vs) (value : Option V) (len : Nat)
    (he : list.find (Hashtable.holdsKey (hashCompute key)) = .ok it) (hv : it.value = some p)
    (hsome : entryAt Container.key es key = some e) :
    ∃ map' es', map.setInBucket (slotOfKey map key) list (hashCompute key) value len = .ok map' ∧
      SetEffect map map' es key len value es' ∧ Filled map' es' := by
  subst hcells
  obtain ⟨hes, hk⟩ := (entryAt_eq_some hh.distinct).mp hsome
  have hrest := hh.split_perm hk hp
  obtain ⟨n, hn, hdn⟩ := hr.linked.lookup (show (p, e) ∈ us ++ (p, e) :: vs by simp)
  have hnode : list.node p = .ok n := by rw [LinkedList.node, hn]
  cases value with
  | none =>
    obtain ⟨list', hrem, hr', hc', hd', -⟩ := remove_spec hr
    rw [hd, if_pos rfl] at hrem
    refine ⟨{ (map.freeContainer e).setBucket (slotOfKey map key) list' with count := map.count - 1 }, _,
      by simp only [Hashtable.setInBucket, he, fault_ok_bind, hv, hrem]; rfl,
      .removed hsome ⟨rfl, rfl, rfl, rfl, rfl, rfl⟩, ?_⟩
    refine Filled.congr (hh.replace hf (by simp) hr' (by simp [hc', hc]) (hd'.trans hd) ?_) rfl rfl rfl
    simpa using hrest
  | some value =>
    by_cases heq : e.block.size = len ∧ e.block.data = value
    · refine ⟨map.setBucket (slotOfKey map key) list, es,
        by simp [Hashtable.setInBucket, he, hv, hnode, hdn, heq],
        .kept hsome heq ⟨rfl, rfl, rfl, rfl, rfl, rfl⟩, ?_⟩
      exact hf.setBucket ⟨_, hr, hc, hd, hp⟩ (fun _ _ _ => rfl)
    · let cont : Container V := { e with block := ⟨map.blocks, value, len⟩ }
      obtain ⟨list', hset, hr', hc', hd'⟩ := setData_spec hr cont
      have hset' : list.setData p ⟨e.hash, e.key, ⟨(map.releaseBlock e.block).blocks, value, len⟩⟩ =
          .ok list' := hset
      refine ⟨{ (map.releaseBlock e.block).setBucket (slotOfKey map key) list' with
          blocks := map.blocks + 1 }, _,
        by simp only [Hashtable.setInBucket, he, fault_ok_bind, hv, hnode, hdn, if_neg heq, hset']; rfl,
        .updated hsome heq ⟨rfl, rfl, rfl, rfl, rfl, rfl⟩, ?_⟩
      refine Filled.congr (hh.replace hf ?_ hr' (by simp [hc', hc]) (hd'.trans hd) ?_) rfl rfl rfl
      · rintro _ ⟨⟩
        exact ⟨(hh.hashed e hes).trans (by rw [hk]), hk⟩
      · have hmid : (data (us ++ (p, cont) :: vs)).Perm (data us ++ data vs ++ [cont]) := by
          simpa [data] using (List.perm_middle (a := cont)).trans (List.perm_append_singleton _ _).symm
        exact hmid.trans (hrest.append_right [cont])

end Set

theorem setLocked_spec [DecidableEq V] (hh : Holds map es) (hf : Filled map es) (key : Bytes)
    (value : Option V) (len : Nat) :
    ∃ map' es', map.setLocked (hashCompute key) value len = .ok map' ∧
      SetEffect map map' es key len value es' ∧ Filled map' es' := by
  have hb := hf.bucket (slotOfKey map key) (Nat.mod_lt _ hf.positive)
  have hslot : (hashCompute key).hash.toNat % map.bucketsCount = slotOfKey map key := rfl
  have hat : map.bucketAt (slotOfKey map key) = .ok (map.bucket (slotOfKey map key)) :=
    hf.bucketAt (Nat.mod_lt _ hf.positive)
  unfold Hashtable.setLocked
  rw [hslot]
  dsimp only
  by_cases hskip : map.bucket (slotOfKey map key) = none ∧ value = none
  · -- nothing to remove and no list to search
    obtain ⟨hlist, rfl⟩ := hskip
    rw [hlist] at hb
    have hnone : entryAt Container.key es key = none :=
      hh.entryAt_none (fun e he => by rw [show slotEntries map es _ = [] from hb] at he; cases he)
    exact ⟨map, es, by simp [Hashtable.bucketForSet, hat, hlist], .absent hnone (.refl map), hf⟩
  · obtain ⟨cells, hr, hc, hd, hp⟩ := hb.list
    have hlist : map.bucketForSet (slotOfKey map key) value =
        .ok (some ((map.bucket (slotOfKey map key)).getD Hashtable.newList)) := by
      rw [Hashtable.bucketForSet, hat, fault_ok_bind]
      cases hm : map.bucket (slotOfKey map key) with
      | some list => rfl
      | none =>
        cases value with
        | none => exact absurd ⟨hm, rfl⟩ hskip
        | some value => rfl
    rw [hlist, fault_ok_bind]
    obtain ⟨it, he, hcases⟩ := hh.find hr hp
    rcases hcases with ⟨hv, hnone⟩ | ⟨us, p, e, vs, hcells, hv, hsome⟩
    · exact setInBucket_absent hh hf hr hc hd hp value len he hv hnone
    · exact setInBucket_present hh hf hr hc hd hp hcells value len he hv hsome

theorem SetEffect.holds {len : Nat} {value : Option V} (h : SetEffect map map' es key len value es')
    (hh : Holds map es) (hf : Filled map' es') : Holds map' es' := by
  have hcut : ∀ {e}, entryAt Container.key es key = some e →
      (es.filter (fun e => e.key ≠ key)).length = es.length - 1 := by
    intro e hsome
    obtain ⟨hes, rfl⟩ := (entryAt_eq_some hh.distinct).mp hsome
    obtain ⟨us, vs, rfl⟩ := List.append_of_mem hes
    rw [filter_ne_of_split hh.distinct]
    simp
  have hkept : ∀ {new : Option (Container V)},
      (∀ e, new = some e → e.hash = fnvHash1a32 key ∧ e.key = key) →
      map'.count = (replaceAt Container.key es key new).length →
      Filled map' (replaceAt Container.key es key new) →
      Holds map' (replaceAt Container.key es key new) := by
    intro new hn hc hf
    refine ⟨.inl hf, fun e he => ?_, replaceAt_nodup hh.distinct (fun e he => (hn e he).2), hc⟩
    rcases mem_replaceAt he with hes | hnew
    · exact hh.hashed e hes
    · rw [(hn e hnew).1, (hn e hnew).2]
  cases h with
  | absent before books => exact ⟨.inl hf, hh.hashed, hh.distinct, books.count.trans hh.count⟩
  | kept before same books => exact ⟨.inl hf, hh.hashed, hh.distinct, books.count.trans hh.count⟩
  | removed before books =>
    refine hkept (by simp) ?_ hf
    rw [books.count, replaceAt, List.length_append, hcut before, hh.count]
    rfl
  | @updated e value before differs books =>
    obtain ⟨hes, hk⟩ := (entryAt_eq_some hh.distinct).mp before
    refine hkept ?_ ?_ hf
    · rintro _ ⟨⟩
      exact ⟨(hh.hashed e hes).trans (by rw [hk]), hk⟩
    · have hpos := List.length_pos_of_mem hes
      rw [books.count, replaceAt, List.length_append, hcut before]
      show map.count = es.length - 1 + 1
      rw [hh.count, Nat.sub_add_cancel hpos]
  | inserted before books =>
    refine hkept ?_ ?_ hf
    · rintro _ ⟨⟩
      exact ⟨rfl, rfl⟩
    · rw [books.count, replaceAt, filter_ne_of_absent (entryAt_eq_none.mp before)]
      show map.count + 1 = (es ++ [_]).length
      rw [hh.count, List.length_append]
      rfl

/-- After a set the key's entry is the new value, and no other key's entry has changed. -/
theorem SetEffect.stored {len : Nat} {value : Option V} (h : SetEffect map map' es key len value es')
    (hd : (es.map Container.key).Nodup) (k : Bytes) :
    (entryAt Container.key es' k).map (fun e => (e.block.data, e.block.size)) =
      if k = key then value.map (·, len)
      else (entryAt Container.key es k).map (fun e => (e.block.data, e.block.size)) := by
  cases h with
  | absent before books =>
    split
    · next hk => simp [hk, before]
    · rfl
  | @kept e value before same books =>
    split
    · next hk => simp [hk, before, same]
    · rfl
  | removed before books =>
    rw [entryAt_replaceAt es (by simp) k]
    split <;> simp
  | @updated e value before differs books =>
    have hk := ((entryAt_eq_some hd).mp before).2
    rw [entryAt_replaceAt es (by rintro _ ⟨⟩; exact hk) k]
    split <;> simp
  | inserted before books =>
    rw [entryAt_replaceAt es (by rintro _ ⟨⟩; rfl) k]
    split <;> simp

theorem SetEffect.data {len : Nat} {value : Option V} (h : SetEffect map map' es key len value es')
    (hd : (es.map Container.key).Nodup) (k : Bytes) :
    (entryAt Container.key es' k).map (fun e => e.block.data) =
      if k = key then value else (entryAt Container.key es k).map (fun e => e.block.data) := by
  have hstored := congrArg (Option.map Prod.fst) (h.stored hd k)
  rw [Option.map_map, apply_ite (Option.map Prod.fst), Option.map_map, Option.map_map] at hstored
  refine hstored.trans ?_
  cases value <;> rfl

theorem SetEffect.other {len : Nat} {value : Option V} (h : SetEffect map map' es key len value es')
    (hd : (es.map Container.key).Nodup) {k : Bytes} (hk : k ≠ key) :
    entryAt Container.key es' k = entryAt Container.key es k := by
  cases h with
  | absent before books => rfl
  | kept before same books => rfl
  | removed before books => rw [entryAt_replaceAt es (by simp) k, if_neg hk]
  | @updated e value before differs books =>
    have hkey := ((entryAt_eq_some hd).mp before).2
    rw [entryAt_replaceAt es (by rintro _ ⟨⟩; exact hkey) k, if_neg hk]
  | inserted before books => rw [entryAt_replaceAt es (by rintro _ ⟨⟩; rfl) k, if_neg hk]

theorem SetEffect.bucketsCount {len : Nat} {value : Option V} (h : SetEffect map map' es key len value es') :
    map'.bucketsCount = map.bucketsCount := by
  cases h with
  | absent before books => exact books.bucketsCount
  | removed before books => exact books.bucketsCount
  | kept before same books => exact books.bucketsCount
  | updated before differs books => exact books.bucketsCount
  | inserted before books => exact books.bucketsCount

theorem resizeTest_pos {removing : Bool} {newsize : Nat} (h : map.resizeTest removing = some newsize) :
    0 < newsize := by
  unfold Hashtable.resizeTest at h
  split at h
  · split at h
    · obtain rfl := Option.some.inj h
      split
      · decide
      · next hs => exact Nat.lt_of_lt_of_le (by decide) (Nat.le_of_not_lt hs)
    · cases h
  · split at h
    · dsimp only at h
      split at h
      · next hs =>
        obtain rfl := Option.some.inj h
        exact Nat.lt_of_le_of_lt (Nat.zero_le _) hs
      · cases h
    · cases h

/-- A table without buckets is never found large enough for an insertion. -/
theorem resizeTest_unbuilt (h : map.bucketsCount = 0) : map.resizeTest false ≠ none := by
  rw [Hashtable.resizeTest, if_pos rfl, h, if_pos (Nat.succ_pos _)]
  exact Option.some_ne_none _

def Hashtable.resizedCount (map : Hashtable V) (removing : Bool) : Nat :=
  (map.resizeTest removing).getD map.bucketsCount

def Hashtable.moves (map : Hashtable V) (removing : Bool) : Nat :=
  if (map.resizeTest removing).isSome then map.count else 0

/-- As long as its values fit in memory, a table asks for sizes that do not wrap. -/
theorem resize_eq_rebuild {removing : Bool} {newsize : Nat} (hcount : map.count < 2 ^ 58) (hb : map.bucketsCount < 2 ^ 60)
    (h : map.resizeTest removing = some newsize) : map.resize newsize = map.rebuild newsize := by
  have hsize : newsize < 2 ^ 60 := by
    unfold Hashtable.resizeTest startSize at h
    dsimp only at h
    split_ifs at h <;> · obtain rfl := Option.some.inj h; omega
  rw [Hashtable.rebuild, arrayRoom_of_lt hsize, Hashtable.resize]

/-- The resize of a set keeps the entries; a growth provides buckets where there were none. -/
theorem resizeForSet_spec (hh : Holds map es) (removing : Bool)
    (hb : removing = true → map.buckets ≠ none) :
    ∃ map', map.resizeForSet removing = .ok map' ∧ Holds map' es ∧ Filled map' es ∧
      SameBooks { map with bucketsCount := map.resizedCount removing } map' ∧
      map'.moved = map.moved + map.moves removing := by
  rw [Hashtable.resizeForSet, Hashtable.resizedCount, Hashtable.moves]
  cases htest : map.resizeTest removing with
  | some newsize => exact resize_spec hh (resizeTest_pos htest)
  | none =>
    refine ⟨map, rfl, hh, ?_, .refl map, rfl⟩
    rcases hh.filled with hf | ⟨hnone, hz, -⟩
    · exact hf
    · cases removing with
      | false => exact absurd htest (resizeTest_unbuilt hz)
      | true => exact absurd hnone (hb rfl)

/-- What a set does is decided by the books that its resize keeps. -/
theorem SetEffect.of_books {len : Nat} {value : Option V} {base resized : Hashtable V} (hb : SameBooks base resized)
    (h : SetEffect resized map' es key len value es') : SetEffect base map' es key len value es' := by
  have hrelease : ∀ block, SameBooks (base.releaseBlock block) (resized.releaseBlock block) := by
    intro block
    refine ⟨hb.bucketsCount, hb.count, hb.deleter, hb.blocks, ?_, ?_⟩
    · simp only [Hashtable.releaseBlock, hb.deleter, hb.deleted]
    · simp only [Hashtable.releaseBlock, hb.freed]
  cases h with
  | absent before books => exact .absent before (hb.trans books)
  | kept before same books => exact .kept before same (hb.trans books)
  | @removed e before books =>
    have hr := hrelease e.block
    have hstep : SameBooks { base.freeContainer e with count := base.count - 1 }
        { resized.freeContainer e with count := resized.count - 1 } :=
      ⟨hr.bucketsCount, congrArg (· - 1) hb.count, hr.deleter, hr.blocks, hr.deleted, hr.freed⟩
    exact .removed before (hstep.trans books)
  | @updated e value before differs books =>
    have hr := hrelease e.block
    have hstep : SameBooks { base.releaseBlock e.block with blocks := base.blocks + 1 }
        { resized.releaseBlock e.block with blocks := resized.blocks + 1 } :=
      ⟨hr.bucketsCount, hr.count, hr.deleter, congrArg (· + 1) hb.blocks, hr.deleted, hr.freed⟩
    rw [hb.blocks]
    exact .updated before differs (hstep.trans books)
  | inserted before books =>
    have hstep : SameBooks { base with count := base.count + 1, blocks := base.blocks + 1 }
        { resized with count := resized.count + 1, blocks := resized.blocks + 1 } :=
      ⟨hb.bucketsCount, congrArg (· + 1) hb.count, hb.deleter, congrArg (· + 1) hb.blocks, hb.deleted, hb.freed⟩
    rw [hb.blocks]
    exact .inserted before (hstep.trans books)

/-- A set stores, replaces or removes its own key's entry, whatever resize came first. -/
theorem set_spec [DecidableEq V] (hh : Holds map es) (key : Bytes) (value : Option V) (len : Nat)
    (hb : value = none → map.buckets ≠ none) :
    ∃ map' es', map.set (hashCompute key) value len = .ok map' ∧
      SetEffect { map with bucketsCount := map.resizedCount value.isNone } map' es key len value es' ∧
      Holds map' es' ∧ map'.buckets ≠ none := by
  obtain ⟨resized, hres, hhr, hfr, hbooks, -⟩ := resizeForSet_spec hh value.isNone
    (fun h => hb (Option.isNone_iff_eq_none.mp h))
  obtain ⟨map', es', hset, heffect, hf'⟩ := setLocked_spec hhr hfr key value len
  refine ⟨map', es', ?_, heffect.of_books hbooks, heffect.holds hhr hf', hf'.present⟩
  have hassert : ¬ (resized.buckets.isNone ∨ resized.bucketsCount = 0) := by
    rintro (hnone | hz)
    · exact hfr.present (Option.isNone_iff_eq_none.mp hnone)
    · exact Nat.ne_of_gt hfr.positive hz
  rw [Hashtable.set, hres, fault_ok_bind, if_neg hassert, hset]

/-- A removal from a table that has no buckets yet ends at the assertion. -/
theorem remove_unbuilt [DecidableEq V] (hz : map.bucketsCount = 0) (hash : Hash) (len : Nat) :
    map.set hash none len = .error .assertion := by
  have hres : map.resizeForSet true = .ok map := by
    rw [Hashtable.resizeForSet, Hashtable.resizeTest, if_neg (by decide), hz, if_neg (Nat.not_lt_zero _)]
  rw [Hashtable.set, Option.isNone_none, hres, fault_ok_bind, if_pos (.inr hz)]

theorem set_returned [DecidableEq V] (hh : Holds map es) {value : Option V} {len : Nat}
    (he : map.set (hashCompute key) value len = .ok map') :
    ∃ es', SetEffect { map with bucketsCount := map.resizedCount value.isNone } map' es key len value es' ∧
      Holds map' es' ∧ map'.buckets ≠ none := by
  have hbuilt : value = none → map.buckets ≠ none := by
    rintro rfl hnone
    rcases hh.filled with hf | ⟨-, hz, -⟩
    · exact hf.present hnone
    · rw [remove_unbuilt hz] at he
      cases he
  obtain ⟨map1, es', he1, heffect, hh', hne⟩ := set_spec hh key value len hbuilt
  obtain rfl := Except.ok.inj (he1.symm.trans he)
  exact ⟨es', heffect, hh', hne⟩

theorem holds_new (deleter : Bool) : Holds ((Hashtable.new : Hashtable V).ondelete deleter) [] :=
  ⟨.inr ⟨rfl, rfl, rfl⟩, by simp, by simp, rfl⟩

end Entries

/-- The table holds these values, whatever their sizes. -/
def LooksUp {V : Type} (map : Hashtable V) (values : Bytes → Option V) : Prop :=
  ∃ es, Holds map es ∧ ∀ k, (entryAt Container.key es k).map (fun e => e.block.data) = values k

section LooksUp
variable {V : Type} {map : Hashtable V} {values : Bytes → Option V}

theorem looksUp_new (deleter : Bool) : LooksUp ((Hashtable.new : Hashtable V).ondelete deleter) (fun _ => none) :=
  ⟨[], holds_new deleter, fun _ => rfl⟩

theorem LooksUp.set [DecidableEq V] (h : LooksUp map values) (key : Bytes) (value : V) (len : Nat) :
    ∃ map', map.set (hashCompute key) (some value) len = .ok map' ∧
      LooksUp map' (Function.update values key (some value)) := by
  obtain ⟨es, hh, hv⟩ := h
  obtain ⟨map', es', he, heffect, hh', -⟩ := set_spec hh key (some value) len (fun hn => nomatch hn)
  refine ⟨map', he, es', hh', fun k => ?_⟩
  rw [heffect.data hh.distinct k, Function.update_apply, hv k]

theorem LooksUp.get (h : LooksUp map values) (key : Bytes) :
    ∃ found, map.get (hashCompute key) = .ok found ∧ found.map Block.data = values key := by
  obtain ⟨es, hh, hv⟩ := h
  refine ⟨_, get_spec hh key, ?_⟩
  rw [Option.map_map]
  exact hv key

end LooksUp

inductive TableCall where
  | set (key value : Bytes)
  | remove (key : Bytes)
  | rebuild (count : Nat)
  deriving DecidableEq, Repr

def tableCall (map : Hashtable Bytes) : TableCall → Except Fault (Unit × Hashtable Bytes)
  | .set key value => (map.set (hashCompute key) (some value) value.length).map ((), ·)
  | .remove key => (map.set (hashCompute key) none 0).map ((), ·)
  | .rebuild count => (map.rebuild count).map ((), ·)

/-- A rebuild asks for one bucket at least, and for so few that the size of their array does not wrap. -/
def TableCall.Sized : TableCall → Prop
  | .rebuild count => 0 < count ∧ count < 2 ^ 60
  | _ => True

/-- Removals come on a table that has buckets, as the code asserts: only a set or a rebuild
provides them. -/
def Admissible : Bool → List TableCall → Prop
  | _, [] => True
  | _, .set _ _ :: calls => Admissible true calls
  | hasBuckets, .remove _ :: calls => hasBuckets = true ∧ Admissible hasBuckets calls
  | _, .rebuild count :: calls => (TableCall.rebuild count).Sized ∧ Admissible true calls

theorem tableCall_holds {map map' : Hashtable Bytes} (h : ∃ es, Holds map es) {call : TableCall} (hs : call.Sized)
    {reply : Unit} (he : tableCall map call = .ok (reply, map')) : ∃ es, Holds map' es := by
  obtain ⟨es, hh⟩ := h
  cases call with
  | set key value =>
    obtain ⟨map1, hset, heq⟩ := map_eq_ok.mp he
    obtain ⟨-, rfl⟩ := Prod.mk.inj heq
    obtain ⟨es', -, hh', -⟩ := set_returned hh hset
    exact ⟨es', hh'⟩
  | remove key =>
    obtain ⟨map1, hset, heq⟩ := map_eq_ok.mp he
    obtain ⟨-, rfl⟩ := Prod.mk.inj heq
    obtain ⟨es', -, hh', -⟩ := set_returned hh hset
    exact ⟨es', hh'⟩
  | rebuild count =>
    obtain ⟨map1, hbuild, hh', -⟩ := rebuild_spec hh hs.1 hs.2
    rw [tableCall, hbuild] at he
    obtain ⟨-, rfl⟩ := Prod.mk.inj (Except.ok.inj he)
    exact ⟨es, hh'⟩

def TableCall.setOf (k : Bytes) : TableCall → Option (Option Bytes)
  | .set key value => if k = key then some (some value) else none
  | .remove key => if k = key then some none else none
  | .rebuild _ => none

theorem tableRun_holds {map map' : Hashtable Bytes} {es : List (Container Bytes)} {calls : List TableCall}
    (hs : ∀ call ∈ calls, call.Sized) (hh : Holds map es) {replies : List Unit}
    (hrun : runCalls tableCall map calls = .ok (replies, map')) : ∃ es', Holds map' es' :=
  runCalls_preserves (fun map => ∃ es, Holds map es) (fun _ _ _ _ hc h he => tableCall_holds h (hs _ hc) he) ⟨es, hh⟩ hrun

/-- The value that the last set of a key stored; none if that was a removal, or there is none. -/
def lastSet (calls : List TableCall) (k : Bytes) : Option Bytes :=
  (calls.reverse.findSome? (TableCall.setOf k)).join

/-- The table holds these values, each with its own length. -/
def Stores (map : Hashtable Bytes) (values : Bytes → Option Bytes) : Prop :=
  ∃ es, Holds map es ∧ ∀ k, (entryAt Container.key es k).map (fun e => (e.block.data, e.block.size)) =
    (values k).map (fun v => (v, v.length))

theorem tableCall_stores {map : Hashtable Bytes} {values : Bytes → Option Bytes}
    (hs : Stores map values) {hasBuckets : Bool} (hb : hasBuckets = true → map.buckets ≠ none)
    {call : TableCall} {calls : List TableCall} (ha : Admissible hasBuckets (call :: calls)) :
    ∃ map' hasBuckets', tableCall map call = .ok ((), map') ∧
      Stores map' (fun k => (call.setOf k).getD (values k)) ∧
      (hasBuckets' = true → map'.buckets ≠ none) ∧ Admissible hasBuckets' calls := by
  obtain ⟨es, hh, hv⟩ := hs
  cases call with
  | set key value =>
    obtain ⟨map', es', he, heffect, hh', hne⟩ :=
      set_spec hh key (some value) value.length (by simp)
    refine ⟨map', true, by rw [tableCall, he]; rfl, ⟨es', hh', fun k => ?_⟩, fun _ => hne, ha⟩
    rw [heffect.stored hh.distinct k]
    dsimp only [TableCall.setOf]
    split
    · rfl
    · exact hv k
  | remove key =>
    obtain ⟨map', es', he, heffect, hh', hne⟩ :=
      set_spec hh key none 0 (fun _ => hb ha.1)
    refine ⟨map', true, by rw [tableCall, he]; rfl, ⟨es', hh', fun k => ?_⟩, fun _ => hne, ?_⟩
    · rw [heffect.stored hh.distinct k]
      dsimp only [TableCall.setOf]
      split
      · rfl
      · exact hv k
    · rw [← ha.1]
      exact ha.2
  | rebuild count =>
    obtain ⟨map', he, hh', hf', -⟩ := rebuild_spec hh ha.1.1 ha.1.2
    exact ⟨map', true, by rw [tableCall, he]; rfl, ⟨es, hh', hv⟩, fun _ => hf'.present, ha.2⟩

/-- A run leaves the last set of each key, over whatever the table stored before. -/
theorem tableRun_stores (calls : List TableCall) (ha : Admissible false calls) :
    ∃ replies map, runCalls tableCall Hashtable.new calls = .ok (replies, map) ∧
      Stores map (lastSet calls) := by
  let inv : Hashtable Bytes → List TableCall → Prop := fun map rest =>
    ∃ values hasBuckets, Stores map values ∧ (hasBuckets = true → map.buckets ≠ none) ∧
      Admissible hasBuckets rest ∧
      ∀ k, (rest.reverse.findSome? (TableCall.setOf k)).getD (values k) = lastSet calls k
  have hstep : ∀ map call rest, inv map (call :: rest) →
      ∃ reply map', tableCall map call = .ok (reply, map') ∧ inv map' rest := by
    rintro map call rest ⟨values, hasBuckets, hs, hb, ha, hlast⟩
    obtain ⟨map', hasBuckets', he, hs', hb', ha'⟩ := tableCall_stores hs hb ha
    refine ⟨(), map', he, _, hasBuckets', hs', hb', ha', fun k => ?_⟩
    rw [← hlast k, List.reverse_cons, List.findSome?_append]
    cases rest.reverse.findSome? (TableCall.setOf k) with
    | some v => rfl
    | none => simp
  have hstart : inv Hashtable.new calls := by
    refine ⟨fun _ => none, false, ⟨[], ⟨.inr ⟨rfl, rfl, rfl⟩, by simp, by simp, rfl⟩, fun _ => rfl⟩,
      by simp, ha, fun k => ?_⟩
    rw [lastSet]
    cases calls.reverse.findSome? (TableCall.setOf k) <;> rfl
  obtain ⟨replies, map, he, values, _, ⟨es, hh, hv⟩, -, -, hlast⟩ := runCalls_keeps inv hstep calls hstart
  refine ⟨replies, map, he, es, hh, fun k => ?_⟩
  rw [hv k, ← hlast k]
  rfl

theorem Stores.unique {map : Hashtable Bytes} {values values' : Bytes → Option Bytes}
    (h : Stores map values) (h' : Stores map values') : values = values' := by
  obtain ⟨es, hh, hv⟩ := h
  obtain ⟨es', hh', hv'⟩ := h'
  funext k
  have hget : (entryAt Container.key es k).map Container.block =
      (entryAt Container.key es' k).map Container.block :=
    Except.ok.inj ((get_spec hh k).symm.trans (get_spec hh' k))
  have hsame := congrArg (Option.map (fun block : Block Bytes => (block.data, block.size))) hget
  rw [Option.map_map, Option.map_map] at hsame
  have hvalues := (hv k).symm.trans (hsame.trans (hv' k))
  have hfirst := congrArg (Option.map Prod.fst) hvalues
  simpa [Option.map_map, Function.comp_def] using hfirst

theorem Stores.get {map : Hashtable Bytes} {values : Bytes → Option Bytes} (h : Stores map values)
    (k : Bytes) : ∃ found, map.get (hashCompute k) = .ok found ∧
      found.map (fun block => (block.data, block.size)) = (values k).map (fun v => (v, v.length)) := by
  obtain ⟨es, hh, hv⟩ := h
  refine ⟨_, get_spec hh k, ?_⟩
  rw [← hv k, Option.map_map]
  rfl

theorem Stores.counted {map : Hashtable Bytes} {values : Bytes → Option Bytes} (h : Stores map values) :
    ∃ keys : Finset Bytes, (∀ k, k ∈ keys ↔ (values k).isSome) ∧ map.count = keys.card := by
  obtain ⟨es, hh, hv⟩ := h
  refine ⟨(es.map Container.key).toFinset, fun k => ?_, ?_⟩
  · have hsome : (entryAt Container.key es k).isSome = (values k).isSome := by
      have hk := congrArg Option.isSome (hv k)
      rwa [Option.isSome_map, Option.isSome_map] at hk
    rw [← hsome, List.mem_toFinset, entryAt_isSome]
  · rw [List.toFinset_card_of_nodup hh.distinct, List.length_map, hh.count]

/-- A rebuild to 2^60 buckets allocates nothing, so that the next lookup reads outside the array. -/
theorem rebuild_wraps : ∃ map : Hashtable Bytes,
    runCalls tableCall Hashtable.new [.rebuild (2 ^ 60)] = .ok ([()], map) ∧
      map.get (hashCompute [1]) = .error .overrun :=
  ⟨_, rfl, rfl⟩

/-- The table refines a finite map: after any run of sets, removals and rebuilds a lookup
succeeds exactly on the keys whose last set stored a value, yields that value's bytes and
length, and the count is the number of these keys. -/
theorem hashtable_refines_map (calls : List TableCall) (ha : Admissible false calls) :
    ∃ replies map, runCalls tableCall Hashtable.new calls = .ok (replies, map) ∧
      (∀ k, ∃ found, map.get (hashCompute k) = .ok found ∧
        found.map (fun block => (block.data, block.size)) = (lastSet calls k).map (fun v => (v, v.length))) ∧
      ∃ keys : Finset Bytes, (∀ k, k ∈ keys ↔ (lastSet calls k).isSome) ∧ map.count = keys.card := by
  obtain ⟨replies, map, he, hs⟩ := tableRun_stores calls ha
  exact ⟨replies, map, he, hs.get, hs.counted⟩

/-- Two keys, an update, a removal and an explicit rebuild. -/
theorem hashtable_refines_map_small :
    ∃ replies map, runCalls tableCall Hashtable.new
        [.set [1] [10], .rebuild 3, .set [2] [20], .set [1] [11, 12], .remove [2]] = .ok (replies, map) ∧
      (∀ k, ∃ found, map.get (hashCompute k) = .ok found ∧
        found.map (fun block => (block.data, block.size)) =
          (lastSet [.set [1] [10], .rebuild 3, .set [2] [20], .set [1] [11, 12], .remove [2]] k).map
            (fun v => (v, v.length))) ∧
      ∃ keys : Finset Bytes, (∀ k, k ∈ keys ↔
        (lastSet [.set [1] [10], .rebuild 3, .set [2] [20], .set [1] [11, 12], .remove [2]] k).isSome) ∧
        map.count = keys.card :=
  hashtable_refines_map _ ⟨⟨by decide, by decide⟩, rfl, trivial⟩

end CFlare.Storage
