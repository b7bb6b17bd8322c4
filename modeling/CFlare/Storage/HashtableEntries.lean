import CFlare.Library.Keyed
import CFlare.Storage.Hashtable
import CFlare.Storage.LinkedListCells

/-! The representation invariant of the hashtable: which entries a table holds, where they
lie, and what each function does to them. Entries are known up to their order. -/
namespace CFlare.Storage
open CFlare.Library

variable {V : Type}

/-- A bucket that is not set up is empty; any other has an exact count and a deleter. -/
def BucketHolds : Option (LinkedList (Container V)) → List (Container V) → Prop
  | none, es => es = []
  | some list, es => ∃ cells, Represents list cells ∧ list.count = cells.length ∧
      list.deleter = true ∧ cells.data.Perm es

def slotOf (map : Hashtable V) (cont : Container V) : Nat := cont.hash.toNat % map.bucketsCount

/-- The entries of one bucket. -/
def slotEntries (map : Hashtable V) (es : List (Container V)) (pos : Nat) : List (Container V) :=
  es.filter (fun e => slotOf map e = pos)

/-- The array is whole, and every bucket holds exactly the entries whose hash selects it. -/
structure Filled (map : Hashtable V) (es : List (Container V)) : Prop where
  present : map.buckets ≠ none
  positive : 0 < map.bucketsCount
  whole : map.bucketsCount ≤ map.room
  bucket : ∀ pos < map.bucketsCount, BucketHolds (map.bucket pos) (slotEntries map es pos)

/-- The table holds these entries, each key once and under its own hash. A new table has no
buckets and no entries. -/
structure Holds (map : Hashtable V) (es : List (Container V)) : Prop where
  filled : Filled map es ∨ map.buckets = none ∧ map.bucketsCount = 0 ∧ es = []
  hashed : ∀ e ∈ es, e.hash = fnvHash1a32 e.key
  distinct : (es.map Container.key).Nodup
  count : map.count = es.length

theorem BucketHolds.perm {b : Option (LinkedList (Container V))} {es es' : List (Container V)}
    (h : BucketHolds b es) (hp : es.Perm es') : BucketHolds b es' := by
  cases b with
  | none => exact List.perm_nil.mp ((h ▸ hp).symm)
  | some list =>
    obtain ⟨cells, hr, hc, hd, hperm⟩ := h
    exact ⟨cells, hr, hc, hd, hperm.trans hp⟩

theorem Filled.perm {map : Hashtable V} {es es' : List (Container V)} (h : Filled map es)
    (hp : es.Perm es') : Filled map es' :=
  ⟨h.present, h.positive, h.whole, fun pos hpos => (h.bucket pos hpos).perm (hp.filter _)⟩

theorem Filled.bucketAt {map : Hashtable V} {es : List (Container V)} (h : Filled map es) {pos : Nat}
    (hpos : pos < map.bucketsCount) : map.bucketAt pos = .ok (map.bucket pos) :=
  if_pos (Nat.lt_of_lt_of_le hpos h.whole)

/-- Below 2^60 buckets the size of an array does not wrap. -/
theorem arrayRoom_of_lt {count : Nat} (h : count < 2 ^ 60) : arrayRoom count = count := by
  rw [arrayRoom, bucketSize, sizeLimit]
  omega

/-- The list that an insertion into a bucket works on. -/
theorem BucketHolds.list {b : Option (LinkedList (Container V))} {es : List (Container V)}
    (h : BucketHolds b es) :
    ∃ cells, Represents (b.getD Hashtable.newList) cells ∧
      (b.getD Hashtable.newList).count = cells.length ∧
      (b.getD Hashtable.newList).deleter = true ∧ cells.data.Perm es := by
  cases b with
  | none => exact ⟨[], represents_new.congr rfl rfl rfl rfl, rfl, rfl, h ▸ .nil⟩
  | some list => exact h

section Buckets
variable {map : Hashtable V}

@[simp] theorem setBucket_count (pos : Nat) (list : LinkedList (Container V)) :
    (map.setBucket pos list).count = map.count := rfl

@[simp] theorem setBucket_bucketsCount (pos : Nat) (list : LinkedList (Container V)) :
    (map.setBucket pos list).bucketsCount = map.bucketsCount := rfl

theorem bucket_setBucket (h : map.buckets ≠ none) (pos i : Nat) (list : LinkedList (Container V)) :
    (map.setBucket pos list).bucket i = if i = pos then some list else map.bucket i := by
  obtain ⟨buckets, hb⟩ := Option.ne_none_iff_exists'.mp h
  simp [Hashtable.bucket, Hashtable.setBucket, hb, Function.update_apply]

/-- Rewriting one bucket to hold its part of new entries, which differ nowhere else. -/
theorem Filled.setBucket {es es' : List (Container V)} (h : Filled map es) {pos : Nat}
    {list : LinkedList (Container V)} (hl : BucketHolds (some list) (slotEntries map es' pos))
    (hother : ∀ i < map.bucketsCount, i ≠ pos → slotEntries map es' i = slotEntries map es i) :
    Filled (map.setBucket pos list) es' := by
  refine ⟨?_, h.positive, h.whole, fun i hi => ?_⟩
  · obtain ⟨buckets, hb⟩ := Option.ne_none_iff_exists'.mp h.present
    simp [Hashtable.setBucket, hb]
  · rw [bucket_setBucket h.present]
    show BucketHolds _ (slotEntries map es' i)
    split
    · next he => exact he ▸ hl
    · next hne =>
      rw [hother i hi hne]
      exact h.bucket i hi

theorem Filled.congr {map' : Hashtable V} {es : List (Container V)} (h : Filled map es)
    (hb : map'.buckets = map.buckets) (hc : map'.bucketsCount = map.bucketsCount) (hr : map'.room = map.room) :
    Filled map' es := by
  cases map
  cases map'
  cases hb
  cases hc
  cases hr
  exact ⟨h.present, h.positive, h.whole, h.bucket⟩

end Buckets

theorem slotEntries_append (map : Hashtable V) (xs ys : List (Container V)) (pos : Nat) :
    slotEntries map (xs ++ ys) pos = slotEntries map xs pos ++ slotEntries map ys pos :=
  List.filter_append _ _

/-- Appending an entry extends its own slot and no other. -/
theorem slotEntries_singleton (map : Hashtable V) (e : Container V) (pos : Nat) :
    slotEntries map [e] pos = if slotOf map e = pos then [e] else [] := by
  simp only [slotEntries, List.filter_cons, List.filter_nil, decide_eq_true_eq]

theorem Filled.insert {map : Hashtable V} {es : List (Container V)} (h : Filled map es)
    (e : Container V) :
    ∃ p list, ((map.bucket (slotOf map e)).getD Hashtable.newList).insertLast e = .ok (p, list) ∧
      Filled (map.setBucket (slotOf map e) list) (es ++ [e]) := by
  have hpos : slotOf map e < map.bucketsCount := Nat.mod_lt _ h.positive
  obtain ⟨cells, hr, hc, hd, hp⟩ := (h.bucket _ hpos).list
  obtain ⟨list, he, hr', hc', hd'⟩ := insertLast_spec hr e
  refine ⟨_, list, he, h.setBucket ⟨_, hr', by simp [hc', hc], hd'.trans hd, ?_⟩ ?_⟩
  · rw [slotEntries_append, slotEntries_singleton, if_pos rfl, Cells.data, List.map_append]
    exact hp.append_right [e]
  · intro i _ hne
    rw [slotEntries_append, slotEntries_singleton, if_neg (Ne.symm hne), List.append_nil]

/-- The counters and logs that moving containers leaves as they are. -/
structure SameBooks (map map' : Hashtable V) : Prop where
  bucketsCount : map'.bucketsCount = map.bucketsCount
  count : map'.count = map.count
  deleter : map'.deleter = map.deleter
  blocks : map'.blocks = map.blocks
  deleted : map'.deleted = map.deleted
  freed : map'.freed = map.freed

theorem SameBooks.refl (map : Hashtable V) : SameBooks map map := ⟨rfl, rfl, rfl, rfl, rfl, rfl⟩

theorem SameBooks.trans {a b c : Hashtable V} (h : SameBooks a b) (h' : SameBooks b c) :
    SameBooks a c :=
  ⟨h'.1.trans h.1, h'.2.trans h.2, h'.3.trans h.3, h'.4.trans h.4, h'.5.trans h.5, h'.6.trans h.6⟩

/-- The moving loop of a rebuild empties the old list into the new table. -/
theorem moveContainers_spec {fuel : Nat} {it : Iterator} {list : LinkedList (Container V)}
    {rest : Cells (Container V)} {map : Hashtable V} {es : List (Container V)}
    (hr : Represents list rest) (ha : it.Ahead list rest) (hc : list.count = rest.length)
    (hm : Filled map es) (hfuel : rest.length < fuel) :
    ∃ list' map', Hashtable.moveContainers fuel it list map = .ok (list', map') ∧
      list'.count = 0 ∧ Filled map' (es ++ rest.data) ∧ SameBooks map map' ∧ map'.moved = map.moved + rest.length := by
  induction rest generalizing fuel it list map es with
  | nil =>
    obtain ⟨fuel, rfl⟩ := Nat.exists_eq_succ_of_ne_zero (Nat.ne_of_gt hfuel)
    obtain ⟨it', he, -⟩ := iteratorNext_nil ha
    exact ⟨list, map, by simp [Hashtable.moveContainers, he], hc, by simpa using hm, .refl map, rfl⟩
  | cons c rest ih =>
    obtain ⟨p, e⟩ := c
    obtain ⟨fuel, rfl⟩ := Nat.exists_eq_succ_of_ne_zero (Nat.ne_zero_of_lt hfuel)
    have hr0 : Represents list ([] ++ (p, e) :: rest) := hr
    obtain ⟨it', n, he, -, hnode, hdata, hahead⟩ := iteratorNext_cons hr0 ha
    obtain ⟨q, newBucket, hins, hm'⟩ := hm.insert e
    obtain ⟨list', hrem, hr', hc', -, -⟩ := remove_spec hr0
    have hm1 : Filled { map.setBucket (slotOf map e) newBucket with moved := map.moved + 1 } (es ++ [e]) :=
      hm'.congr rfl rfl rfl
    obtain ⟨list'', map', hrun, hz, hm'', hb, hmoved⟩ := ih hr' (hahead list') (by simp [hc', hc]) hm1
      (by simpa using hfuel)
    have hstep : SameBooks map { map.setBucket (slotOf map e) newBucket with moved := map.moved + 1 } :=
      ⟨rfl, rfl, rfl, rfl, rfl, rfl⟩
    refine ⟨list'', map', ?_, hz, by simpa using hm'', hstep.trans hb, by rw [hmoved, Nat.add_right_comm]; rfl⟩
    have hslot : slotOf map e < map.bucketsCount := Nat.mod_lt _ hm.positive
    simp only [Hashtable.moveContainers, he, fault_ok_bind, hnode, hdata,
      if_neg (Nat.ne_of_gt hm.positive), hrem]
    rw [show e.hash.toNat % map.bucketsCount = slotOf map e from rfl, hm.bucketAt hslot, fault_ok_bind, hins]
    simpa using hrun

/-- One old bucket moves as a whole, and its emptied list is deleted. -/
theorem moveBucket_spec {old map : Hashtable V} {i : Nat} {es part : List (Container V)} (hroom : i < old.room)
    (ho : BucketHolds (old.bucket i) part) (hm : Filled map es) :
    ∃ map', Hashtable.moveBucket old map i = .ok map' ∧ Filled map' (es ++ part) ∧
      SameBooks map map' ∧ map'.moved = map.moved + part.length := by
  rw [Hashtable.moveBucket, Hashtable.bucketAt, if_pos hroom, fault_ok_bind]
  cases hb : old.bucket i with
  | none =>
    rw [hb] at ho
    obtain rfl : part = [] := ho
    exact ⟨map, rfl, by simpa using hm, .refl map, rfl⟩
  | some list =>
    rw [hb] at ho
    obtain ⟨cells, hr, hc, -, hp⟩ := ho
    have hr' : Represents (list.ondelete false) cells := hr.congr rfl rfl rfl rfl
    obtain ⟨list', map', he, hz, hm', hbk, hmoved⟩ := moveContainers_spec hr' (ahead_getIterator hr')
      hc hm (Nat.lt_succ_of_le hr.length_le)
    refine ⟨map', ?_, hm'.perm (hp.append_left es), hbk, by rw [hmoved, ← hp.length_eq, List.length_map]⟩
    simp [he, LinkedList.delete, LinkedList.deleteNodes, hz]

private theorem moveBuckets_spec {old map : Hashtable V} {es : List (Container V)} (ho : Filled old es)
    (hm : Filled map []) (k : Nat) (hk : k ≤ old.bucketsCount) :
    ∃ map', (List.range k).foldlM (Hashtable.moveBucket old) map = .ok map' ∧
      Filled map' (es.filter (fun e => slotOf old e < k)) ∧ SameBooks map map' ∧
      map'.moved = map.moved + (es.filter (fun e => slotOf old e < k)).length := by
  induction k with
  | zero => exact ⟨map, rfl, by simpa using hm, .refl map, by simp⟩
  | succ k ih =>
    obtain ⟨map1, he1, hm1, hb1, hmoved1⟩ := ih (by omega)
    obtain ⟨map2, he2, hm2, hb2, hmoved2⟩ := moveBucket_spec (Nat.lt_of_lt_of_le hk ho.whole) (ho.bucket k hk) hm1
    have hperm := filter_lt_succ_perm (slotOf old) es k
    refine ⟨map2, ?_, hm2.perm hperm, hb1.trans hb2, ?_⟩
    · rw [List.range_succ, List.foldlM_append, he1]
      simp [he2]
    · rw [hmoved2, hmoved1, Nat.add_assoc, ← List.length_append]
      exact congrArg (map.moved + ·) hperm.length_eq

/-- Moving into a whole array of at least one bucket keeps every entry, whatever the two sizes are, and moves each
once. -/
theorem moveInto_spec {map : Hashtable V} {es : List (Container V)} (h : Holds map es) {count room : Nat}
    (hc : 0 < count) (hroom : count ≤ room) :
    ∃ map', map.moveInto count room = .ok map' ∧ Holds map' es ∧ Filled map' es ∧
      SameBooks { map with bucketsCount := count } map' ∧ map'.moved = map.moved + map.count := by
  let cleared : Hashtable V := { map with buckets := some (fun _ => none), bucketsCount := count, room := room }
  have hempty : Filled cleared [] := ⟨by simp [cleared], hc, hroom, fun pos _ => rfl⟩
  have hkeep : ∀ map', Filled map' es → SameBooks cleared map' → Holds map' es := fun map' hf hb =>
    ⟨.inl hf, h.hashed, h.distinct, hb.count.trans h.count⟩
  rcases h.filled with hf | ⟨hn, -, rfl⟩
  · obtain ⟨map', he, hm', hbk, hmoved⟩ := moveBuckets_spec hf hempty map.bucketsCount le_rfl
    have hall : es.filter (fun e => slotOf map e < map.bucketsCount) = es :=
      List.filter_eq_self.mpr (fun e _ => decide_eq_true (Nat.mod_lt _ hf.positive))
    rw [hall] at hm' hmoved
    refine ⟨map', ?_, hkeep map' hm' hbk, hm', ⟨hbk.1, hbk.2, hbk.3, hbk.4, hbk.5, hbk.6⟩, h.count ▸ hmoved⟩
    rw [Hashtable.moveInto, if_neg (by simpa using hf.present)]
    exact he
  · refine ⟨cleared, by rw [Hashtable.moveInto, hn]; rfl, hkeep cleared hempty (.refl _), hempty, ?_, ?_⟩
    · exact ⟨rfl, rfl, rfl, rfl, rfl, rfl⟩
    · rw [h.count]
      rfl

theorem resize_spec {map : Hashtable V} {es : List (Container V)} (h : Holds map es) {newsize : Nat}
    (hc : 0 < newsize) :
    ∃ map', map.resize newsize = .ok map' ∧ Holds map' es ∧ Filled map' es ∧
      SameBooks { map with bucketsCount := newsize } map' ∧ map'.moved = map.moved + map.count :=
  moveInto_spec h hc le_rfl

theorem rebuild_spec {map : Hashtable V} {es : List (Container V)} (h : Holds map es) {count : Nat}
    (hc : 0 < count) (hsize : count < 2 ^ 60) :
    ∃ map', map.rebuild count = .ok map' ∧ Holds map' es ∧ Filled map' es ∧
      SameBooks { map with bucketsCount := count } map' ∧ map'.moved = map.moved + map.count :=
  moveInto_spec h hc (arrayRoom_of_lt hsize).ge

end CFlare.Storage
