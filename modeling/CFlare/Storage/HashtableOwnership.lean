import CFlare.Storage.HashtableMap

/-! Who owns the data blocks of a hashtable. Every block that was allocated either belongs to one entry
or has been freed, and with a deleter it was given to the deleter first. -/
namespace CFlare.Storage
open CFlare.Library

variable {V : Type} {map map' : Hashtable V} {es es' : List (Container V)} {key : Bytes}

def owned (es : List (Container V)) : List Nat := es.map (fun e => e.block.address)

@[simp] theorem owned_append (xs ys : List (Container V)) : owned (xs ++ ys) = owned xs ++ owned ys :=
  List.map_append

theorem owned_perm {xs ys : List (Container V)} (h : xs.Perm ys) : (owned xs).Perm (owned ys) := h.map _

/-- Each block is freed or owned by an entry, and only once. -/
structure Ledger (map : Hashtable V) (es : List (Container V)) : Prop where
  holds : Holds map es
  blocks : (map.freed ++ owned es).Perm (List.range map.blocks)
  deleted : map.deleted = if map.deleter then map.freed else []

theorem ledger_new (deleter : Bool) : Ledger ((Hashtable.new : Hashtable V).ondelete deleter) [] :=
  ⟨holds_new deleter, .nil, by cases deleter <;> rfl⟩

section Blocks
variable {block : Block V}

/-- What a lookup finds is the block of an entry. -/
theorem Ledger.get_iff (h : Ledger map es) :
    map.get (hashCompute key) = .ok (some block) ↔ ∃ e ∈ es, e.key = key ∧ e.block = block := by
  rw [get_spec h.holds key]
  constructor
  · intro hget
    obtain ⟨e, he, hb⟩ := Option.map_eq_some_iff.mp (Except.ok.inj hget)
    obtain ⟨hes, hk⟩ := (entryAt_eq_some h.holds.distinct).mp he
    exact ⟨e, hes, hk, hb⟩
  · rintro ⟨e, hes, hk, rfl⟩
    rw [(entryAt_eq_some h.holds.distinct).mpr ⟨hes, hk⟩]
    rfl

/-- A block that belongs to an entry was allocated, and not freed. -/
theorem Ledger.live (h : Ledger map es) {e : Container V} (he : e ∈ es) :
    e.block.address < map.blocks ∧ e.block.address ∉ map.freed ∧ e.block.address ∉ map.deleted := by
  have hmem : e.block.address ∈ owned es := List.mem_map_of_mem he
  have hnodup := h.blocks.nodup_iff.mpr List.nodup_range
  have hfree : e.block.address ∉ map.freed := fun hf => (List.nodup_append.mp hnodup).2.2 _ hf _ hmem rfl
  refine ⟨List.mem_range.mp (h.blocks.mem_iff.mp (List.mem_append_right _ hmem)), hfree, ?_⟩
  rw [h.deleted]
  split
  · exact hfree
  · exact List.not_mem_nil

theorem Ledger.of_books {base : Hashtable V} (books : SameBooks base map') (hh' : Holds map' es')
    (hblocks : (base.freed ++ owned es').Perm (List.range base.blocks))
    (hdeleted : base.deleted = if base.deleter then base.freed else []) : Ledger map' es' := by
  refine ⟨hh', ?_, ?_⟩
  · rw [books.freed, books.blocks]
    exact hblocks
  · rw [books.deleted, books.deleter, books.freed]
    exact hdeleted

/-- Releasing the block of an entry moves it to the freed ones, -/
theorem Ledger.release (h : Ledger map es) {e : Container V} (he : e ∈ es) :
    ((map.releaseBlock e.block).freed ++ owned (es.filter (fun e' => e'.key ≠ e.key))).Perm
      (List.range map.blocks) := by
  have hsplit := owned_perm (perm_cons_filter_ne h.holds.distinct he)
  rw [Hashtable.releaseBlock, List.append_assoc]
  exact (hsplit.append_left map.freed).trans h.blocks

theorem Ledger.deleted_release (h : Ledger map es) (block : Block V) :
    (map.releaseBlock block).deleted =
      if (map.releaseBlock block).deleter then (map.releaseBlock block).freed else [] := by
  show (if map.deleter then map.deleted ++ [block.address] else map.deleted) =
    if map.deleter then map.freed ++ [block.address] else []
  rw [h.deleted]
  cases map.deleter <;> rfl

end Blocks

section Sets
variable [DecidableEq V]

/-- The block that a set releases: the one of its key, unless it holds the same bytes. -/
def Hashtable.released (map : Hashtable V) (key : Bytes) (value : Option V) (len : Nat) : List Nat :=
  match map.get (hashCompute key) with
  | .ok (some block) => if block.size = len ∧ value = some block.data then [] else [block.address]
  | _ => []

theorem released_eq (hh : Holds map es) (value : Option V) (len : Nat) :
    map.released key value len =
      match entryAt Container.key es key with
      | some e => if e.block.size = len ∧ value = some e.block.data then [] else [e.block.address]
      | none => [] := by
  rw [Hashtable.released, get_spec hh key]
  cases entryAt Container.key es key <;> rfl

/-- A set releases the block it replaces, and a new block goes to the new entry. -/
theorem Ledger.effect (h : Ledger map es) {value : Option V} {len n : Nat}
    (heffect : SetEffect { map with bucketsCount := n } map' es key len value es') (hh' : Holds map' es') :
    Ledger map' es' ∧ map'.deleter = map.deleter ∧ map'.freed = map.freed ++ map.released key value len := by
  have hd := h.holds.distinct
  rw [released_eq h.holds]
  cases heffect with
  | absent before books =>
    rw [before]
    exact ⟨.of_books books hh' h.blocks h.deleted, books.deleter, by simpa using books.freed⟩
  | kept before same books =>
    rw [before]
    dsimp only
    rw [if_pos ⟨same.1, by rw [same.2]⟩]
    exact ⟨.of_books books hh' h.blocks h.deleted, books.deleter, by simpa using books.freed⟩
  | @removed e before books =>
    obtain ⟨hes, rfl⟩ := (entryAt_eq_some hd).mp before
    rw [before]
    dsimp only
    rw [if_neg (by simp)]
    refine ⟨.of_books books hh' ?_ (h.deleted_release e.block), books.deleter, books.freed⟩
    rw [replaceAt, Option.toList_none, List.append_nil]
    exact h.release hes
  | @updated e value before differs books =>
    obtain ⟨hes, rfl⟩ := (entryAt_eq_some hd).mp before
    rw [before]
    dsimp only
    rw [if_neg (by rintro ⟨hs, hv⟩; exact differs ⟨hs, (Option.some.inj hv).symm⟩)]
    refine ⟨.of_books books hh' ?_ (h.deleted_release e.block), books.deleter, books.freed⟩
    rw [replaceAt, owned_append, ← List.append_assoc]
    have hnew := (h.release hes).append_right [map.blocks]
    rwa [← List.range_succ] at hnew
  | inserted before books =>
    rw [before]
    refine ⟨.of_books books hh' ?_ h.deleted, books.deleter, by simpa using books.freed⟩
    rw [replaceAt, filter_ne_of_absent (entryAt_eq_none.mp before), owned_append, ← List.append_assoc]
    have hnew := h.blocks.append_right [map.blocks]
    rwa [← List.range_succ] at hnew

end Sets

def TableCall.released (map : Hashtable Bytes) : TableCall → List Nat
  | .set key value => map.released key (some value) value.length
  | .remove key => map.released key none 0
  | .rebuild _ => []

/-- The calls that the ownership of a block is stated for: values are not empty, so that their copies are
allocated. -/
def TableCall.Owning : TableCall → Prop
  | .set _ value => value ≠ []
  | .remove _ => True
  | .rebuild count => (TableCall.rebuild count).Sized

theorem TableCall.Owning.sized {call : TableCall} (h : call.Owning) : call.Sized := by
  cases call with
  | set key value => trivial
  | remove key => trivial
  | rebuild count => exact h

def Measured (es : List (Container Bytes)) : Prop := ∀ e ∈ es, e.block.size = e.block.data.length

section Calls
variable {map map' : Hashtable Bytes} {es es' : List (Container Bytes)} {key : Bytes}

theorem Measured.effect (h : Measured es) (value : Option Bytes)
    (heffect : SetEffect map map' es key (value.elim 0 List.length) value es') : Measured es' := by
  have hreplace : ∀ new : Option (Container Bytes), (∀ e, new = some e → e.block.size = e.block.data.length) →
      Measured (replaceAt Container.key es key new) := by
    intro new hnew e he
    rcases mem_replaceAt he with hes | hn
    · exact h e hes
    · exact hnew e hn
  cases heffect with
  | absent before books => exact h
  | kept before same books => exact h
  | removed before books => exact hreplace none (fun _ hn => nomatch hn)
  | updated before differs books =>
    apply hreplace
    rintro _ ⟨⟩
    rfl
  | inserted before books =>
    apply hreplace
    rintro _ ⟨⟩
    rfl

theorem Ledger.rebuild (h : Ledger map es) {count : Nat} (hs : (TableCall.rebuild count).Sized) :
    ∃ map', map.rebuild count = .ok map' ∧ Ledger map' es ∧ map'.deleter = map.deleter ∧ map'.freed = map.freed := by
  obtain ⟨map', he, hh', -, books, -⟩ := rebuild_spec h.holds hs.1 hs.2
  exact ⟨map', he, .of_books books hh' h.blocks h.deleted, books.deleter, books.freed⟩

theorem Ledger.call (h : Ledger map es) (hm : Measured es) {call : TableCall} (hs : call.Sized) {reply : Unit}
    (he : tableCall map call = .ok (reply, map')) :
    ∃ es', Ledger map' es' ∧ Measured es' ∧ map'.deleter = map.deleter ∧
      map'.freed = map.freed ++ call.released map := by
  cases call with
  | set key value =>
    obtain ⟨map1, hset, heq⟩ := map_eq_ok.mp he
    obtain ⟨-, rfl⟩ := Prod.mk.inj heq
    obtain ⟨es', heffect, hh', -⟩ := set_returned h.holds hset
    obtain ⟨h', hdel, hfreed⟩ := h.effect heffect hh'
    exact ⟨es', h', hm.effect (some value) heffect, hdel, hfreed⟩
  | remove key =>
    obtain ⟨map1, hset, heq⟩ := map_eq_ok.mp he
    obtain ⟨-, rfl⟩ := Prod.mk.inj heq
    obtain ⟨es', heffect, hh', -⟩ := set_returned h.holds hset
    obtain ⟨h', hdel, hfreed⟩ := h.effect heffect hh'
    exact ⟨es', h', hm.effect none heffect, hdel, hfreed⟩
  | rebuild count =>
    obtain ⟨map1, hbuild, h', hdel, hfreed⟩ := h.rebuild hs
    rw [tableCall, hbuild] at he
    obtain ⟨-, rfl⟩ := Prod.mk.inj (Except.ok.inj he)
    exact ⟨es, h', hm, hdel, by rw [hfreed, TableCall.released, List.append_nil]⟩

theorem ledger_run {deleter : Bool} {calls : List TableCall} (hs : ∀ call ∈ calls, call.Sized) {replies : List Unit}
    (hrun : runCalls tableCall (Hashtable.new.ondelete deleter) calls = .ok (replies, map)) :
    ∃ es, Ledger map es ∧ Measured es ∧ map.deleter = deleter := by
  have hempty : Measured ([] : List (Container Bytes)) := fun _ he => absurd he List.not_mem_nil
  refine runCalls_preserves (fun map => ∃ es, Ledger map es ∧ Measured es ∧ map.deleter = deleter) ?_
    ⟨[], ledger_new deleter, hempty, rfl⟩ hrun
  rintro map call reply map' hc ⟨es, h, hm, hd⟩ he
  obtain ⟨es', h', hm', hdel, -⟩ := h.call hm (hs call hc) he
  exact ⟨es', h', hm', hdel.trans hd⟩

end Calls

section Delete
variable {map : Hashtable V} {es : List (Container V)}

/-- Freeing containers gives their blocks to the deleter, in order. -/
theorem foldl_freeContainer (conts : List (Container V)) (map : Hashtable V) :
    conts.foldl Hashtable.freeContainer map =
      { map with deleted := if map.deleter then map.deleted ++ owned conts else map.deleted
                 freed := map.freed ++ owned conts } := by
  induction conts generalizing map with
  | nil => cases hd : map.deleter <;> simp [owned, ← hd]
  | cons cont conts ih =>
    rw [List.foldl_cons, ih]
    cases hd : map.deleter <;> simp [Hashtable.freeContainer, Hashtable.releaseBlock, owned, hd]

/-- Some blocks more are freed, and given to the deleter. -/
structure Gone (map map' : Hashtable V) (gone : List Nat) : Prop where
  buckets : map'.buckets = map.buckets
  bucketsCount : map'.bucketsCount = map.bucketsCount
  room : map'.room = map.room
  deleter : map'.deleter = map.deleter
  blocks : map'.blocks = map.blocks
  deleted : map'.deleted = if map.deleter then map.deleted ++ gone else map.deleted
  freed : map'.freed = map.freed ++ gone

theorem Gone.trans {a b c : Hashtable V} {xs ys : List Nat} (h : Gone a b xs) (h' : Gone b c ys) :
    Gone a c (xs ++ ys) := by
  refine ⟨h'.buckets.trans h.buckets, h'.bucketsCount.trans h.bucketsCount, h'.room.trans h.room,
    h'.deleter.trans h.deleter,
    h'.blocks.trans h.blocks, ?_, by rw [h'.freed, h.freed, List.append_assoc]⟩
  rw [h'.deleted, h.deleted, h.deleter]
  cases a.deleter with
  | true => exact List.append_assoc _ _ _
  | false => rfl

theorem deleteBucket_spec {pos : Nat} {part : List (Container V)} (hroom : pos < map.room)
    (hb : BucketHolds (map.bucket pos) part) :
    ∃ map' conts, map.deleteBucket pos = .ok map' ∧ conts.Perm part ∧ Gone map map' (owned conts) := by
  rw [Hashtable.deleteBucket, Hashtable.bucketAt, if_pos hroom, fault_ok_bind]
  cases hlist : map.bucket pos with
  | none =>
    rw [hlist] at hb
    refine ⟨map, [], rfl, ?_, rfl, rfl, rfl, rfl, rfl, ?_, (List.append_nil _).symm⟩
    · rw [show part = [] from hb]
    · cases map.deleter <;> simp [owned]
  | some list =>
    rw [hlist] at hb
    obtain ⟨cells, hr, hc, hd, hp⟩ := hb
    have hdelete := delete_spec hr hc
    rw [if_pos hd] at hdelete
    refine ⟨_, cells.data, by simp only [hdelete, fault_ok_bind, foldl_freeContainer]; rfl, hp, ?_⟩
    exact ⟨rfl, rfl, rfl, rfl, rfl, rfl, rfl⟩

private theorem deleteBuckets_spec (hf : Filled map es) (k : Nat) (hk : k ≤ map.bucketsCount) :
    ∃ map' conts, (List.range k).foldlM Hashtable.deleteBucket map = .ok map' ∧
      conts.Perm (es.filter (fun e => slotOf map e < k)) ∧ Gone map map' (owned conts) := by
  induction k with
  | zero =>
    refine ⟨map, [], rfl, by simp, rfl, rfl, rfl, rfl, rfl, ?_, (List.append_nil _).symm⟩
    cases map.deleter <;> simp [owned]
  | succ k ih =>
    obtain ⟨map1, conts1, he1, hp1, hg1⟩ := ih (by omega)
    have hb : BucketHolds (map1.bucket k) (slotEntries map es k) := by
      rw [Hashtable.bucket, hg1.buckets]
      exact hf.bucket k hk
    have hroom : k < map1.room := by
      rw [hg1.room]
      exact Nat.lt_of_lt_of_le hk hf.whole
    obtain ⟨map2, conts2, he2, hp2, hg2⟩ := deleteBucket_spec hroom hb
    refine ⟨map2, conts1 ++ conts2, ?_, ?_, ?_⟩
    · rw [List.range_succ, List.foldlM_append, he1]
      simp [he2]
    · exact (hp1.append hp2).trans (filter_lt_succ_perm (slotOf map) es k)
    · rw [owned_append]
      exact hg1.trans hg2

/-- Deleting a table frees the blocks of all entries. -/
theorem hashtable_delete_spec (h : Ledger map es) :
    ∃ final conts, map.delete = .ok final ∧ conts.Perm es ∧ final.blocks = map.blocks ∧
      final.deleted = (if map.deleter then map.deleted ++ owned conts else map.deleted) ∧
      final.freed = map.freed ++ owned conts := by
  have hbuckets : ∃ map' conts, (List.range map.bucketsCount).foldlM Hashtable.deleteBucket map = .ok map' ∧
      conts.Perm es ∧ Gone map map' (owned conts) := by
    rcases h.holds.filled with hf | ⟨-, hz, rfl⟩
    · obtain ⟨map', conts, he, hp, hg⟩ := deleteBuckets_spec hf map.bucketsCount le_rfl
      have hall : es.filter (fun e => slotOf map e < map.bucketsCount) = es :=
        List.filter_eq_self.mpr (fun e _ => decide_eq_true (Nat.mod_lt _ hf.positive))
      exact ⟨map', conts, he, hall ▸ hp, hg⟩
    · refine ⟨map, [], by rw [hz]; rfl, .nil, rfl, rfl, rfl, rfl, rfl, ?_, (List.append_nil _).symm⟩
      cases map.deleter <;> simp [owned]
  obtain ⟨map', conts, he, hp, hg⟩ := hbuckets
  exact ⟨{ map' with buckets := none }, conts, by rw [Hashtable.delete, he]; rfl, hp, hg.blocks, hg.deleted, hg.freed⟩

end Delete

section DeleteWith
variable {σ : Type} {map : Hashtable V} {es : List (Container V)}

/-- Delete the list of a bucket, with a deleter that changes a state. -/
def Hashtable.deleteBucketWith (map : Hashtable V) (free : σ → Container V → Except Fault σ) (state : σ) (pos : Nat) :
    Except Fault σ := do
  match ← map.bucketAt pos with
  | none => .ok state
  | some list =>
    let conts ← list.delete
    conts.foldlM free state

def Hashtable.deleteWith (map : Hashtable V) (free : σ → Container V → Except Fault σ) (state : σ) : Except Fault σ :=
  (List.range map.bucketsCount).foldlM (map.deleteBucketWith free) state

theorem deleteBucketWith_spec {pos : Nat} {part : List (Container V)} (hroom : pos < map.room)
    (hb : BucketHolds (map.bucket pos) part) (free : σ → Container V → Except Fault σ) :
    ∃ conts : List (Container V), conts.Perm part ∧
      ∀ state, map.deleteBucketWith free state pos = conts.foldlM free state := by
  simp only [Hashtable.deleteBucketWith, Hashtable.bucketAt, if_pos hroom, fault_ok_bind]
  cases hlist : map.bucket pos with
  | none =>
    rw [hlist] at hb
    obtain rfl : part = [] := hb
    exact ⟨[], .nil, fun state => rfl⟩
  | some list =>
    rw [hlist] at hb
    obtain ⟨cells, hr, hc, hd, hp⟩ := hb
    refine ⟨cells.data, hp, fun state => ?_⟩
    simp only [delete_spec hr hc, if_pos hd, fault_ok_bind]

/-- The deleter gets every entry, one bucket after the other. -/
theorem deleteWith_spec (hh : Holds map es) (free : σ → Container V → Except Fault σ) :
    ∃ conts : List (Container V), conts.Perm es ∧ ∀ state, map.deleteWith free state = conts.foldlM free state := by
  rcases hh.filled with hf | ⟨-, hz, rfl⟩
  · have hbuckets : ∀ k ≤ map.bucketsCount,
        ∃ conts : List (Container V), conts.Perm (es.filter (fun e => slotOf map e < k)) ∧
        ∀ state, (List.range k).foldlM (map.deleteBucketWith free) state = conts.foldlM free state := by
      intro k
      induction k with
      | zero => exact fun _ => ⟨[], by simp, fun state => rfl⟩
      | succ k ih =>
        intro hk
        obtain ⟨conts, hp, hrun⟩ := ih (Nat.le_of_succ_le hk)
        obtain ⟨last, hp', hrun'⟩ := deleteBucketWith_spec (Nat.lt_of_lt_of_le hk hf.whole) (hf.bucket k hk) free
        refine ⟨conts ++ last, (hp.append hp').trans (filter_lt_succ_perm (slotOf map) es k), fun state => ?_⟩
        rw [List.range_succ, List.foldlM_append, List.foldlM_append, hrun]
        congr 1
        funext state
        rw [List.foldlM_cons, hrun']
        exact bind_pure _
    obtain ⟨conts, hp, hrun⟩ := hbuckets map.bucketsCount le_rfl
    have hall : es.filter (fun e => slotOf map e < map.bucketsCount) = es :=
      List.filter_eq_self.mpr (fun e _ => decide_eq_true (Nat.mod_lt _ hf.positive))
    exact ⟨conts, hall ▸ hp, hrun⟩
  · exact ⟨[], .nil, fun state => by rw [Hashtable.deleteWith, hz]; rfl⟩

end DeleteWith

section Results
variable {map : Hashtable Bytes} {replies : List Unit}

/-- Whatever sets, removals and rebuilds have been made of a table with a deleter: the next call passes to the
deleter exactly the block it replaces or removes, no lookup finds a block that was passed to it, and deleting the
table passes the blocks that lookups still find, so that every block allocated is passed exactly once. -/
theorem hashtable_deletes_once (calls : List TableCall) (ho : ∀ call ∈ calls, call.Owning)
    (hrun : runCalls tableCall (Hashtable.new.ondelete true) calls = .ok (replies, map)) :
    (∀ call map', call.Owning → tableCall map call = .ok ((), map') →
      map'.deleted = map.deleted ++ call.released map) ∧
    (∀ key block, map.get (hashCompute key) = .ok (some block) → block.address ∉ map.deleted) ∧
    ∃ final gone, map.delete = .ok final ∧ final.deleted = map.deleted ++ gone ∧
      (∀ b, b ∈ gone ↔ ∃ key block, map.get (hashCompute key) = .ok (some block) ∧ block.address = b) ∧
      final.blocks = map.blocks ∧ final.deleted.Perm (List.range final.blocks) := by
  obtain ⟨es, h, hm, hd⟩ := ledger_run (fun call hc => (ho call hc).sized) hrun
  have hall : map.deleted = map.freed := by rw [h.deleted, if_pos hd]
  refine ⟨fun call map' hown he => ?_, fun key block hget => ?_, ?_⟩
  · obtain ⟨es', h', -, hdel, hfreed⟩ := h.call hm hown.sized he
    rw [h'.deleted, if_pos (hdel.trans hd), hfreed, hall]
  · obtain ⟨e, hes, -, rfl⟩ := h.get_iff.mp hget
    exact (h.live hes).2.2
  · obtain ⟨final, conts, he, hp, hblocks, hdeleted, -⟩ := hashtable_delete_spec h
    rw [if_pos hd] at hdeleted
    refine ⟨final, owned conts, he, hdeleted, fun b => ?_, hblocks, ?_⟩
    · rw [owned, List.mem_map]
      constructor
      · rintro ⟨e, hc, rfl⟩
        exact ⟨e.key, e.block, h.get_iff.mpr ⟨e, hp.mem_iff.mp hc, rfl, rfl⟩, rfl⟩
      · rintro ⟨key, block, hget, rfl⟩
        obtain ⟨e, hes, -, rfl⟩ := h.get_iff.mp hget
        exact ⟨e, hp.mem_iff.mpr hes, rfl⟩
    · rw [hdeleted, hblocks, hall]
      exact ((owned_perm hp).append_left map.freed).trans h.blocks

/-- A value that is set, replaced, set again and moved by a rebuild. -/
theorem hashtable_deletes_once_three : ∃ map, runCalls tableCall (Hashtable.new.ondelete true)
      [.set [1] [10], .set [1] [11], .set [1] [11], .rebuild 3] = .ok ([(), (), (), ()], map) ∧
    map.deleted = [0] ∧ ∃ final gone, map.delete = .ok final ∧ final.deleted = map.deleted ++ gone ∧
      (∀ b, b ∈ gone ↔ ∃ key block, map.get (hashCompute key) = .ok (some block) ∧ block.address = b) ∧
      final.blocks = map.blocks ∧ final.deleted.Perm (List.range final.blocks) := by
  have howning : ∀ call ∈ [TableCall.set [1] [10], .set [1] [11], .set [1] [11], .rebuild 3], call.Owning := by
    simp [TableCall.Owning, TableCall.Sized]
  exact ⟨_, rfl, rfl, (hashtable_deletes_once _ howning rfl).2.2⟩

/-- A rebuild to 2^60 buckets has no room for the container that it moves. -/
theorem rebuild_loses_block : runCalls tableCall (Hashtable.new.ondelete true) [.set [1] [10], .rebuild (2 ^ 60)] =
    .error .overrun := rfl

/-- The calls that leave the value of a key as it is: sets and removals of other keys, sets of the key to the
same bytes, and rebuilds. -/
def TableCall.Spares (key value : Bytes) : TableCall → Prop
  | .set k v => k = key → v = value ∧ v ≠ []
  | .remove k => k ≠ key
  | .rebuild count => (TableCall.rebuild count).Sized

section Spared
variable {map map' : Hashtable Bytes} {es es' : List (Container Bytes)} {key k : Bytes} {block : Block Bytes}

/-- A set of another key, or of the key to the same bytes, leaves the block of the key. -/
theorem SetEffect.spares (value : Option Bytes) (h : SetEffect map map' es k (value.elim 0 List.length) value es')
    (hd : (es.map Container.key).Nodup) (hm : Measured es)
    (hat : (entryAt Container.key es key).map Container.block = some block) (hs : k = key → value = some block.data) :
    (entryAt Container.key es' key).map Container.block = some block := by
  by_cases hk : key = k
  · subst hk
    obtain ⟨e, he, rfl⟩ := Option.map_eq_some_iff.mp hat
    have hsize := hm e ((entryAt_eq_some hd).mp he).1
    obtain rfl := hs rfl
    cases h with
    | kept before same books => exact hat
    | updated before differs books =>
      rw [he] at before
      obtain rfl := Option.some.inj before
      exact absurd ⟨hsize, rfl⟩ differs
    | inserted before books =>
      rw [he] at before
      cases before
  · rw [h.other hd hk]
    exact hat

/-- What the table keeps for a key while it is spared. -/
structure Keeps (map : Hashtable Bytes) (es : List (Container Bytes)) (key : Bytes) (block : Block Bytes) : Prop where
  ledger : Ledger map es
  measured : Measured es
  entry : (entryAt Container.key es key).map Container.block = some block

theorem Keeps.present (h : Keeps map es key block) : map.buckets ≠ none := by
  intro hnone
  rcases h.ledger.holds.filled with hf | ⟨-, -, rfl⟩
  · exact hf.present hnone
  · exact absurd h.entry (Option.some_ne_none _).symm

theorem Keeps.call (h : Keeps map es key block) {call : TableCall} (hs : call.Spares key block.data) :
    ∃ map' es', tableCall map call = .ok ((), map') ∧ Keeps map' es' key block := by
  have hd := h.ledger.holds.distinct
  cases call with
  | set k value =>
    obtain ⟨map', es', he, heffect, hh', -⟩ := set_spec h.ledger.holds k (some value) value.length
      (fun hn => nomatch hn)
    refine ⟨map', es', by rw [tableCall, he]; rfl, (h.ledger.effect heffect hh').1, ?_, ?_⟩
    · exact h.measured.effect (some value) heffect
    · exact heffect.spares (some value) hd h.measured h.entry (fun hk => congrArg some (hs hk).1)
  | remove k =>
    obtain ⟨map', es', he, heffect, hh', -⟩ := set_spec h.ledger.holds k none 0 (fun _ => h.present)
    refine ⟨map', es', by rw [tableCall, he]; rfl, (h.ledger.effect heffect hh').1, ?_, ?_⟩
    · exact h.measured.effect none heffect
    · exact heffect.spares none hd h.measured h.entry (fun hk => absurd hk hs)
  | rebuild count =>
    obtain ⟨map', he, h', -, -⟩ := h.ledger.rebuild hs
    exact ⟨map', es, by rw [tableCall, he]; rfl, h', h.measured, h.entry⟩

end Spared

/-- A block that a lookup found stays the block of its key, with its bytes and its length, and is neither freed
nor passed to the deleter, while the calls spare the key. They all return. -/
theorem hashtable_pointers_stay (deleter : Bool) (calls : List TableCall) (hs : ∀ call ∈ calls, call.Sized)
    (hrun : runCalls tableCall (Hashtable.new.ondelete deleter) calls = .ok (replies, map)) {key : Bytes}
    {block : Block Bytes} (hget : map.get (hashCompute key) = .ok (some block)) (further : List TableCall)
    (hf : ∀ call ∈ further, call.Spares key block.data) :
    ∃ replies' map', runCalls tableCall map further = .ok (replies', map') ∧
      map'.get (hashCompute key) = .ok (some block) ∧ block.address ∉ map'.deleted ∧ block.address ∉ map'.freed := by
  obtain ⟨es, h, hm, -⟩ := ledger_run hs hrun
  have hat : (entryAt Container.key es key).map Container.block = some block :=
    Except.ok.inj ((get_spec h.holds key).symm.trans hget)
  have hstep : ∀ map call rest, (∃ es, Keeps map es key block ∧ ∀ c ∈ call :: rest, c.Spares key block.data) →
      ∃ reply map', tableCall map call = .ok (reply, map') ∧
        ∃ es, Keeps map' es key block ∧ ∀ c ∈ rest, c.Spares key block.data := by
    rintro map call rest ⟨es, hk, hspares⟩
    obtain ⟨map', es', he, hk'⟩ := hk.call (hspares call List.mem_cons_self)
    exact ⟨(), map', he, es', hk', fun c hc => hspares c (List.mem_cons_of_mem _ hc)⟩
  obtain ⟨replies', map', he, es', hk, -⟩ := runCalls_keeps
    (fun map rest => ∃ es, Keeps map es key block ∧ ∀ c ∈ rest, c.Spares key block.data) hstep further
    ⟨es, ⟨h, hm, hat⟩, hf⟩
  have hget' := get_spec hk.ledger.holds key
  rw [hk.entry] at hget'
  obtain ⟨e, hes, -, rfl⟩ := hk.ledger.get_iff.mp hget'
  exact ⟨replies', map', he, hget', (hk.ledger.live hes).2.2, (hk.ledger.live hes).2.1⟩

/-- One block while another key is set and removed, the table is rebuilt and the value is set again. -/
theorem hashtable_pointers_stay_one : ∃ map block,
    runCalls tableCall (Hashtable.new.ondelete true) [.set [1] [10]] = .ok ([()], map) ∧
      map.get (hashCompute [1]) = .ok (some block) ∧ ∃ replies' map',
        runCalls tableCall map [.set [2] [20], .rebuild 7, .remove [2], .set [1] [10]] = .ok (replies', map') ∧
          map'.get (hashCompute [1]) = .ok (some block) ∧ block.address ∉ map'.deleted ∧ block.address ∉ map'.freed := by
  have hsized : ∀ call ∈ [TableCall.set [1] [10]], call.Sized := by
    intro call hc
    rw [List.mem_singleton.mp hc]
    trivial
  have hspares : ∀ call ∈ [TableCall.set [2] [20], .rebuild 7, .remove [2], .set [1] [10]],
      call.Spares [1] (⟨0, [10], 1⟩ : Block Bytes).data := by
    simp [TableCall.Spares, TableCall.Sized]
  exact ⟨_, ⟨0, [10], 1⟩, rfl, rfl, hashtable_pointers_stay true _ hsized rfl rfl _ hspares⟩

/-- A block that a lookup found, and a rebuild that writes outside the array which it is to move into. -/
theorem pointer_lost : ∃ map block,
    runCalls tableCall (Hashtable.new.ondelete true) [.set [1] [10]] = .ok ([()], map) ∧
      map.get (hashCompute [1]) = .ok (some block) ∧
      runCalls tableCall map [.rebuild (2 ^ 60)] = .error .overrun :=
  ⟨_, _, rfl, rfl, rfl⟩

end Results

end CFlare.Storage
