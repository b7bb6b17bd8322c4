import CFlare.Library.SharedLock
import CFlare.Library.Steps
import CFlare.Storage.HashtableClients

/-! The locks of the hashtable: one for the table and one in each bucket. Between two turns of a client, which take
a lock, let go of one, or do what is done under them, any other client may have its turns. -/
namespace CFlare.Storage
open CFlare.Library

/-- A pointer to a bucket: the array that it points into, and where. -/
structure BucketRef where
  array : Nat
  pos : Nat

/-- Where a client is in its call. A set tests for the size, may rebuild, asserts that there are buckets, and
locks the table, then the bucket; a lookup locks both to read. -/
inductive LockPhase where
  | idle
  | growing (newsize : Nat) (key : Bytes) (value : Option Bytes)
  | rebuilding (newsize : Nat) (key : Bytes) (value : Option Bytes)
  | rebuilt (key : Bytes) (value : Option Bytes)
  | checking (key : Bytes) (value : Option Bytes)
  | entering (key : Bytes) (value : Option Bytes)
  | inside (key : Bytes) (value : Option Bytes)
  | found (bucket : BucketRef) (key : Bytes) (value : Option Bytes)
  | editing (bucket : BucketRef) (key : Bytes) (value : Option Bytes)
  | edited (bucket : BucketRef)
  | leaving
  | looking (key : Bytes)
  | reading (key : Bytes)
  | met (bucket : BucketRef) (key : Bytes)
  | searching (bucket : BucketRef) (key : Bytes)
  | searched (bucket : BucketRef)
  | returning

/-- The table with its locks; `array` numbers the bucket arrays that it has had. A bucket has a lock as long as
it has a list. -/
structure Locked (ι : Type) where
  map : Hashtable Bytes
  array : Nat
  tableLock : SharedLock ι
  bucketLocks : Nat → SharedLock ι
  phase : ι → LockPhase
  rest : ι → List TableUse

/-- What a client does in its turn. -/
inductive Turn where
  | finished
  | waits
  | goesOn
  | did (reply : ClientReply)

section Turns
variable {ι : Type}

/-- The list behind a pointer to a bucket. -/
def Locked.bucket (s : Locked ι) (b : BucketRef) : Except Fault (LinkedList (Container Bytes)) :=
  if b.array ≠ s.array then .error .undefined
  else do
    match ← s.map.bucketAt b.pos with
    | none => .error .undefined
    | some list => .ok list

def searchList (list : LinkedList (Container Bytes)) (hash : Hash) : Except Fault (Option (Block Bytes)) := do
  let it ← list.find (Hashtable.holdsKey hash)
  match it.value with
  | none => .ok none
  | some p => do
    let n ← list.node p
    .ok (some n.data.block)

variable [DecidableEq ι]

def Locked.enter (s : Locked ι) (i : ι) (phase : LockPhase) : Locked ι :=
  { s with phase := Function.update s.phase i phase }

def Locked.orWait (s : Locked ι) : Option (Locked ι) → Except Fault (Turn × Locked ι)
  | none => .ok (.waits, s)
  | some s' => .ok (.goesOn, s')

/-- The position of a key's bucket. -/
def Locked.slot (s : Locked ι) (key : Bytes) : BucketRef :=
  ⟨s.array, (hashCompute key).hash.toNat % s.map.bucketsCount⟩

/-- A rebuild deletes the locks of the buckets, so none of them may be in use. -/
def Locked.rebuild (s : Locked ι) (newsize : Nat) : Except Fault (Locked ι) :=
  if ∃ pos < s.map.bucketsCount, (s.bucketLocks pos).writer ≠ none ∨ (s.bucketLocks pos).readers ≠ ∅ then
    .error .undefined
  else do
    let map ← s.map.resize newsize
    .ok { s with map := map, array := s.array + 1, bucketLocks := fun _ => .free }

def lockedTurn (s : Locked ι) (i : ι) : Except Fault (Turn × Locked ι) :=
  match s.phase i with
  | .idle =>
    match s.rest i with
    | [] => .ok (.finished, s)
    | .get key :: rest => .ok (.goesOn, { s with rest := Function.update s.rest i rest }.enter i (.looking key))
    | .set key value :: rest =>
      let s' := { s with rest := Function.update s.rest i rest }
      match s.map.resizeTest value.isNone with
      | none => .ok (.goesOn, s'.enter i (.checking key value))
      | some newsize => .ok (.goesOn, s'.enter i (.growing newsize key value))
  | .growing newsize key value =>
    s.orWait ((s.tableLock.writeLock i).map (fun lock =>
      { s with tableLock := lock }.enter i (.rebuilding newsize key value)))
  | .rebuilding newsize key value => do
    let s ← s.rebuild newsize
    .ok (.did .rebuilt, s.enter i (.rebuilt key value))
  | .rebuilt key value => do
    let lock ← s.tableLock.writeUnlock i
    .ok (.goesOn, { s with tableLock := lock }.enter i (.checking key value))
  | .checking key value =>
    if s.map.buckets.isNone ∨ s.map.bucketsCount = 0 then .error .assertion
    else .ok (.goesOn, s.enter i (.entering key value))
  | .entering key value =>
    s.orWait ((s.tableLock.writeLock i).map (fun lock => { s with tableLock := lock }.enter i (.inside key value)))
  | .inside key value => do
    let b := s.slot key
    match ← s.map.bucketAt b.pos with
    | some _ => .ok (.goesOn, s.enter i (.found b key value))
    | none =>
      match value with
      | none => .ok (.did (.stored key none), s.enter i .leaving)
      | some _ =>
        .ok (.goesOn, { s with
          map := s.map.setBucket b.pos Hashtable.newList
          bucketLocks := Function.update s.bucketLocks b.pos .free }.enter i (.found b key value))
  | .found b key value => do
    let _ ← s.bucket b
    s.orWait (((s.bucketLocks b.pos).writeLock i).map (fun lock =>
      { s with bucketLocks := Function.update s.bucketLocks b.pos lock }.enter i (.editing b key value)))
  | .editing b key value => do
    let list ← s.bucket b
    let map ← s.map.setInBucket b.pos list (hashCompute key) value (value.elim 0 List.length)
    .ok (.did (.stored key value), { s with map := map }.enter i (.edited b))
  | .edited b => do
    let _ ← s.bucket b
    let lock ← (s.bucketLocks b.pos).writeUnlock i
    .ok (.goesOn, { s with bucketLocks := Function.update s.bucketLocks b.pos lock }.enter i .leaving)
  | .leaving => do
    let lock ← s.tableLock.writeUnlock i
    .ok (.goesOn, { s with tableLock := lock }.enter i .idle)
  | .looking key =>
    s.orWait ((s.tableLock.readLock i).map (fun lock => { s with tableLock := lock }.enter i (.reading key)))
  | .reading key =>
    if 0 < s.map.bucketsCount then do
      match ← s.map.bucketAt (s.slot key).pos with
      | none => .ok (.did (.found key none), s.enter i .returning)
      | some list =>
        if 0 < list.count then .ok (.goesOn, s.enter i (.met (s.slot key) key))
        else .ok (.did (.found key none), s.enter i .returning)
    else .ok (.did (.found key none), s.enter i .returning)
  | .met b key => do
    let _ ← s.bucket b
    s.orWait (((s.bucketLocks b.pos).readLock i).map (fun lock =>
      { s with bucketLocks := Function.update s.bucketLocks b.pos lock }.enter i (.searching b key)))
  | .searching b key => do
    let list ← s.bucket b
    let found ← searchList list (hashCompute key)
    .ok (.did (.found key (found.map (fun block => (block.data, block.size)))), s.enter i (.searched b))
  | .searched b => do
    let _ ← s.bucket b
    let lock ← (s.bucketLocks b.pos).readUnlock i
    .ok (.goesOn, { s with bucketLocks := Function.update s.bucketLocks b.pos lock }.enter i .returning)
  | .returning => do
    let lock ← s.tableLock.readUnlock i
    .ok (.goesOn, { s with tableLock := lock }.enter i .idle)

end Turns

namespace LockPhase

/-- How a client holds the table's lock. -/
def tableMode : LockPhase → Option LockMode
  | .rebuilding .. | .rebuilt .. | .inside .. | .found .. | .editing .. | .edited .. | .leaving => some .writing
  | .reading .. | .met .. | .searching .. | .searched .. | .returning => some .reading
  | _ => none

def bucketMode (pos : Nat) : LockPhase → Option LockMode
  | .editing b .. | .edited b => if b.pos = pos then some .writing else none
  | .searching b _ | .searched b => if b.pos = pos then some .reading else none
  | _ => none

/-- Only for the table's lock is there ever anything to wait for. -/
def waitsForTable : LockPhase → Bool
  | .growing .. | .entering .. | .looking .. => true
  | _ => false

/-- The turns that a call still takes. -/
def turnsLeft : LockPhase → Nat
  | .idle => 0
  | .growing .. => 10
  | .rebuilding .. => 9
  | .rebuilt .. => 8
  | .checking .. => 7
  | .entering .. => 6
  | .inside .. => 5
  | .found .. => 4
  | .editing .. => 3
  | .edited .. => 2
  | .leaving => 1
  | .looking .. => 6
  | .reading .. => 5
  | .met .. => 4
  | .searching .. => 3
  | .searched .. => 2
  | .returning => 1

/-- The call that is not done yet. -/
def pending : LockPhase → List TableUse
  | .growing _ key value | .rebuilding _ key value | .rebuilt key value | .checking key value
  | .entering key value | .inside key value | .found _ key value | .editing _ key value => [.set key value]
  | .looking key | .reading key | .met _ key | .searching _ key => [.get key]
  | _ => []

end LockPhase

/-- A pointer to a bucket that is there. -/
structure Points (map : Hashtable Bytes) (array : Nat) (b : BucketRef) : Prop where
  array : b.array = array
  within : b.pos < map.room
  list : map.bucket b.pos ≠ none

/-- What a client relies on: the size that it rebuilds for is not zero, the bucket that it points to is there. -/
def LockPhase.Valid (map : Hashtable Bytes) (array : Nat) : LockPhase → Prop
  | .growing newsize _ _ | .rebuilding newsize _ _ => 0 < newsize
  | .found b key _ | .editing b key _ => Points map array b ∧ b.pos = slotOfKey map key
  | .met b key | .searching b key => Points map array b ∧ b.pos = slotOfKey map key ∧
    ∀ list, map.bucket b.pos = some list → 0 < list.count
  | .edited b | .searched b => Points map array b
  | _ => True

namespace Turn

def applied (values : Bytes → Option Bytes) : Turn → Bytes → Option Bytes
  | .did reply => reply.applied values
  | _ => values

def Right (values : Bytes → Option Bytes) : Turn → Prop
  | .did reply => reply.Right values
  | _ => True

/-- The client goes on with its call. -/
def moves : Turn → Bool
  | .finished | .waits => false
  | _ => true

def uses : Turn → List TableUse
  | .did (.stored key value) => [.set key value]
  | .did (.found key _) => [.get key]
  | _ => []

end Turn

section Tables
variable {map map' : Hashtable Bytes} {values : Bytes → Option Bytes} {pos : Nat} {list : LinkedList (Container Bytes)}

theorem Stores.positive (h : Stores map values) (hb : map.buckets ≠ none) : 0 < map.bucketsCount := by
  obtain ⟨es, hh, -⟩ := h
  exact (Stores.filled hh hb).positive

theorem Stores.within (h : Stores map values) (hb : map.buckets ≠ none) (key : Bytes) : slotOfKey map key < map.room := by
  obtain ⟨es, hh, -⟩ := h
  have hf := Stores.filled hh hb
  exact Nat.lt_of_lt_of_le (Nat.mod_lt _ hf.positive) hf.whole

theorem bucketAt_within (h : pos < map.room) : map.bucketAt pos = .ok (map.bucket pos) := if_pos h

theorem Stores.setUp (h : Stores map values) (hb : map.buckets ≠ none) (hpos : pos < map.bucketsCount)
    (hnone : map.bucket pos = none) : Stores (map.setBucket pos Hashtable.newList) values := by
  obtain ⟨es, hh, hv⟩ := h
  have hf := Stores.filled hh hb
  have hempty : slotEntries map es pos = [] := by
    have hholds := hf.bucket pos hpos
    rw [hnone] at hholds
    exact hholds
  have hlist : BucketHolds (some Hashtable.newList) (slotEntries map es pos) := by
    rw [hempty]
    exact ⟨[], represents_new.congr rfl rfl rfl rfl, rfl, rfl, .nil⟩
  exact ⟨es, ⟨.inl (hf.setBucket hlist (fun _ _ _ => rfl)), hh.hashed, hh.distinct, hh.count⟩, hv⟩

theorem setBucket_present (hb : map.buckets ≠ none) : (map.setBucket pos list).buckets ≠ none := by
  obtain ⟨buckets, he⟩ := Option.ne_none_iff_exists'.mp hb
  rw [Hashtable.setBucket, he]
  exact Option.some_ne_none _

theorem setInBucket_bucket (hb : map.buckets ≠ none) {hash : Hash} {value : Option Bytes} {len : Nat}
    (h : map.setInBucket pos list hash value len = .ok map') : map'.room = map.room ∧ map'.bucket pos ≠ none := by
  have hset : ∀ (base : Hashtable Bytes) (list : LinkedList (Container Bytes)), base.buckets = map.buckets →
      (base.setBucket pos list).bucket pos ≠ none := by
    intro base list he
    rw [bucket_setBucket (by rw [he]; exact hb), if_pos rfl]
    exact Option.some_ne_none _
  unfold Hashtable.setInBucket at h
  obtain ⟨it, -, h⟩ := bind_eq_ok.mp h
  split at h
  · obtain rfl := Except.ok.inj h
    exact ⟨rfl, hset map _ rfl⟩
  · obtain ⟨⟨removed, list'⟩, -, h⟩ := bind_eq_ok.mp h
    obtain rfl := Except.ok.inj h
    cases removed with
    | none => exact ⟨rfl, hset map _ rfl⟩
    | some cont => exact ⟨rfl, hset (map.freeContainer cont) _ rfl⟩
  · obtain ⟨n, -, h⟩ := bind_eq_ok.mp h
    split at h
    · obtain rfl := Except.ok.inj h
      exact ⟨rfl, hset map _ rfl⟩
    · obtain ⟨list', -, h⟩ := bind_eq_ok.mp h
      obtain rfl := Except.ok.inj h
      exact ⟨rfl, hset (map.releaseBlock n.data.block) _ rfl⟩
  · obtain ⟨⟨p, list'⟩, -, h⟩ := bind_eq_ok.mp h
    obtain rfl := Except.ok.inj h
    exact ⟨rfl, hset map _ rfl⟩

/-- With a list in the bucket the locked part of a set is its edit. -/
theorem setLocked_found {key : Bytes} (value : Option Bytes) (len : Nat) (hw : slotOfKey map key < map.room)
    (h : map.bucket (slotOfKey map key) = some list) : map.setLocked (hashCompute key) value len =
      map.setInBucket (slotOfKey map key) list (hashCompute key) value len := by
  have hlist : map.bucketForSet ((hashCompute key).hash.toNat % map.bucketsCount) value = .ok (some list) := by
    change map.bucketForSet (slotOfKey map key) value = .ok (some list)
    rw [Hashtable.bucketForSet, bucketAt_within hw, fault_ok_bind, h]
  rw [Hashtable.setLocked, hlist]
  rfl

theorem setLocked_missing {key : Bytes} (len : Nat) (hw : slotOfKey map key < map.room)
    (h : map.bucket (slotOfKey map key) = none) : map.setLocked (hashCompute key) none len = .ok map := by
  have hlist : map.bucketForSet ((hashCompute key).hash.toNat % map.bucketsCount) none = .ok none := by
    change map.bucketForSet (slotOfKey map key) none = .ok none
    rw [Hashtable.bucketForSet, bucketAt_within hw, fault_ok_bind, h]
    rfl
  rw [Hashtable.setLocked, hlist]
  rfl

/-- A lookup searches the list of the bucket, if that has nodes. -/
theorem get_found {key : Bytes} (hz : 0 < map.bucketsCount) (hw : slotOfKey map key < map.room)
    (h : map.bucket (slotOfKey map key) = some list) (hc : 0 < list.count) :
    map.get (hashCompute key) = searchList list (hashCompute key) := by
  have hlist : map.bucketAt ((hashCompute key).hash.toNat % map.bucketsCount) = .ok (some list) :=
    (bucketAt_within hw).trans (congrArg Except.ok h)
  rw [Hashtable.get, if_pos hz, hlist, fault_ok_bind]
  dsimp only
  rw [if_pos hc]
  rfl

theorem get_missing {key : Bytes} (hw : slotOfKey map key < map.room)
    (h : map.bucket (slotOfKey map key) = none ∨
      ∃ list, map.bucket (slotOfKey map key) = some list ∧ list.count = 0) : map.get (hashCompute key) = .ok none := by
  have hat : map.bucketAt ((hashCompute key).hash.toNat % map.bucketsCount) = .ok (map.bucket (slotOfKey map key)) :=
    bucketAt_within hw
  rw [Hashtable.get, hat, fault_ok_bind]
  split
  · rcases h with hnone | ⟨list, hlist, hc⟩
    · rw [hnone]
    · rw [hlist]
      dsimp only
      rw [if_neg (by omega)]
  · rfl

end Tables

/-- The turns that a client still takes, as long as it is not given more calls. -/
def Locked.turnsLeft {ι : Type} (s : Locked ι) (i : ι) : Nat := 11 * (s.rest i).length + (s.phase i).turnsLeft

def Locked.toDo {ι : Type} (s : Locked ι) (i : ι) : List TableUse := (s.phase i).pending ++ s.rest i

section Invariant
variable {ι : Type}

/-- The table stores the values, and the locks are held by the clients whose phase says so; who points to a bucket
points to one of the table. -/
structure Sound (s : Locked ι) (values : Bytes → Option Bytes) : Prop where
  stores : Stores s.map values
  present : s.map.buckets ≠ none
  table : s.tableLock.Held (LockPhase.tableMode ∘ s.phase)
  buckets : ∀ pos, (s.bucketLocks pos).Held (LockPhase.bucketMode pos ∘ s.phase)
  valid : ∀ i, (s.phase i).Valid s.map s.array

/-- What a turn comes to. -/
inductive TurnTaken (s : Locked ι) (i : ι) (values : Bytes → Option Bytes) : Turn → Locked ι → Prop where
  | finished (idle : s.phase i = .idle) (done : s.rest i = []) : TurnTaken s i values .finished s
  | waits (waiting : (s.phase i).waitsForTable = true) (held : ∃ j, (s.phase j).tableMode ≠ none) :
    TurnTaken s i values .waits s
  | moved {turn : Turn} {s' : Locked ι} (moves : turn.moves = true) (right : turn.Right values)
      (sound : Sound s' (turn.applied values)) (less : s'.turnsLeft i < s.turnsLeft i)
      (done : turn.uses ++ s'.toDo i = s.toDo i)
      (others : ∀ j, j ≠ i → s'.phase j = s.phase j ∧ s'.rest j = s.rest j) : TurnTaken s i values turn s'

/-- Without the table's lock it relies on nothing in the table. -/
theorem valid_of_unlocked {phase : LockPhase} (h : phase.tableMode = none) {map map' : Hashtable Bytes}
    {array array' : Nat} (hv : phase.Valid map array) : phase.Valid map' array' := by
  cases phase with
  | found | editing | edited | met | searching | searched => cases h
  | growing | rebuilding => exact hv
  | _ => trivial

/-- Who holds the lock of a bucket holds that of the table in the same way. -/
theorem bucketMode_eq (phase : LockPhase) (pos : Nat) :
    phase.bucketMode pos = none ∨ phase.bucketMode pos = phase.tableMode := by
  cases phase with
  | editing b | edited b | searching b | searched b =>
    by_cases h : b.pos = pos
    · exact .inr (if_pos h)
    · exact .inl (if_neg h)
  | _ => exact .inl rfl

theorem bucketMode_of_unlocked {phase : LockPhase} (h : phase.tableMode = none) (pos : Nat) :
    phase.bucketMode pos = none := by
  rcases bucketMode_eq phase pos with hb | hb
  · exact hb
  · exact hb.trans h

variable {s : Locked ι} {values : Bytes → Option Bytes} {i : ι} {before phase : LockPhase}

theorem Sound.valid_of (h : Sound s values) (hp : s.phase i = before) : before.Valid s.map s.array := hp ▸ h.valid i

theorem Sound.alone (h : Sound s values) (hp : s.phase i = before) (hi : before.tableMode = some .writing) :
    ∀ j, j ≠ i → (s.phase j).tableMode = none :=
  fun _ hj => h.table.alone ((congrArg LockPhase.tableMode hp).trans hi) hj

theorem Sound.unheld (h : Sound s values) (hp : s.phase i = before) (hi : before.tableMode = some .writing)
    {pos : Nat} (hpos : before.bucketMode pos = none) (j : ι) : (s.phase j).bucketMode pos = none := by
  by_cases hj : j = i
  · rw [hj, hp, hpos]
  · exact bucketMode_of_unlocked (h.alone hp hi j hj) pos

theorem bucket_points {b : BucketRef} (h : Points s.map s.array b) :
    ∃ list, s.bucket b = .ok list ∧ s.map.bucket b.pos = some list := by
  obtain ⟨list, hlist⟩ := Option.ne_none_iff_exists'.mp h.list
  refine ⟨list, ?_, hlist⟩
  rw [Locked.bucket, if_neg (fun hne => hne h.array), bucketAt_within h.within, fault_ok_bind, hlist]

def Locked.start (map : Hashtable Bytes) (programs : ι → List TableUse) : Locked ι :=
  ⟨map, 0, .free, fun _ => .free, fun _ => .idle, programs⟩

theorem sound_start {map : Hashtable Bytes} (hs : Stores map values) (hb : map.buckets ≠ none)
    (programs : ι → List TableUse) : Sound (Locked.start map programs) values :=
  ⟨hs, hb, SharedLock.held_free (fun _ => rfl), fun _ => SharedLock.held_free (fun _ => rfl), fun _ => trivial⟩

variable [DecidableEq ι]

/-- A client that moves to another phase keeps the invariant, if it keeps its part of it, and changes the table
only while it has it alone. -/
theorem Sound.enters (h : Sound s values) (s' : Locked ι) {next : Bytes → Option Bytes}
    (hphase : s'.phase = Function.update s.phase i phase) (hs : Stores s'.map next) (hb : s'.map.buckets ≠ none)
    (ht : s'.tableLock.Held (Function.update (LockPhase.tableMode ∘ s.phase) i phase.tableMode))
    (hl : ∀ pos, (s'.bucketLocks pos).Held (Function.update (LockPhase.bucketMode pos ∘ s.phase) i (phase.bucketMode pos)))
    (hv : phase.Valid s'.map s'.array)
    (ho : s'.map = s.map ∧ s'.array = s.array ∨ ∀ j, j ≠ i → (s.phase j).tableMode = none) : Sound s' next := by
  refine ⟨hs, hb, ?_, fun pos => ?_, fun j => ?_⟩
  · rw [hphase, Function.comp_update]
    exact ht
  · rw [hphase, Function.comp_update]
    exact hl pos
  · rw [hphase, Function.update_apply]
    split
    · exact hv
    · next hne =>
      rcases ho with ⟨hmap, harray⟩ | hothers
      · rw [hmap, harray]
        exact h.valid j
      · exact valid_of_unlocked (hothers j hne) (h.valid j)

theorem Sound.moved {s' : Locked ι} {turn : Turn} (hphase : s'.phase = Function.update s.phase i phase)
    (hrest : s'.rest = s.rest) (hmoves : turn.moves = true) (hright : turn.Right values)
    (h' : Sound s' (turn.applied values)) (hless : phase.turnsLeft < (s.phase i).turnsLeft)
    (hdone : turn.uses ++ phase.pending = (s.phase i).pending) : TurnTaken s i values turn s' := by
  refine .moved hmoves hright h' ?_ ?_ (fun j hj => ⟨?_, congrFun hrest j⟩)
  · rw [Locked.turnsLeft, Locked.turnsLeft, hphase, hrest, Function.update_self]
    omega
  · rw [Locked.toDo, Locked.toDo, hphase, hrest, Function.update_self, ← hdone, List.append_assoc]
  · rw [hphase, Function.update_of_ne hj]

/-- A turn that takes no lock and lets go of none. -/
theorem Sound.goesOn (h : Sound s values) (hp : s.phase i = before) {turn : Turn} (hmoves : turn.moves = true)
    (hright : turn.Right values) (hs : Stores s.map (turn.applied values)) (ht : phase.tableMode = before.tableMode)
    (hl : ∀ pos, phase.bucketMode pos = before.bucketMode pos) (hv : phase.Valid s.map s.array)
    (hless : phase.turnsLeft < before.turnsLeft) (hdone : turn.uses ++ phase.pending = before.pending) :
    TurnTaken s i values turn (s.enter i phase) := by
  subst hp
  refine Sound.moved rfl rfl hmoves hright ?_ hless hdone
  exact h.enters (s.enter i phase) rfl hs h.present (h.table.stays ht.symm)
    (fun pos => (h.buckets pos).stays (hl pos).symm) hv (.inl ⟨rfl, rfl⟩)

/-- A turn that takes the table's lock, or has to wait for it. -/
theorem Sound.takes (h : Sound s values) (hp : s.phase i = before) {mode : LockMode} {lock : Option (SharedLock ι)}
    (hlock : (∃ lock', lock = some lock' ∧ lock'.Held (Function.update (LockPhase.tableMode ∘ s.phase) i (some mode))) ∨
      lock = none ∧ ∃ j, (s.phase j).tableMode ≠ none)
    (hw : before.waitsForTable = true) (ht : phase.tableMode = some mode)
    (hl : ∀ pos, phase.bucketMode pos = before.bucketMode pos) (hv : phase.Valid s.map s.array)
    (hless : phase.turnsLeft < before.turnsLeft) (hdone : phase.pending = before.pending) :
    ∃ turn s', s.orWait (lock.map (fun lock => { s with tableLock := lock }.enter i phase)) = .ok (turn, s') ∧
      TurnTaken s i values turn s' := by
  subst hp
  rcases hlock with ⟨lock', rfl, hheld⟩ | ⟨rfl, hbusy⟩
  · refine ⟨.goesOn, _, rfl, Sound.moved rfl rfl rfl trivial ?_ hless hdone⟩
    exact h.enters ({ s with tableLock := lock' }.enter i phase) rfl h.stores h.present (by rw [ht]; exact hheld)
      (fun pos => (h.buckets pos).stays (hl pos).symm) hv (.inl ⟨rfl, rfl⟩)
  · exact ⟨.waits, s, rfl, .waits hw hbusy⟩

theorem Sound.leaves (h : Sound s values) (hp : s.phase i = before) {lock : SharedLock ι}
    (hheld : lock.Held (Function.update (LockPhase.tableMode ∘ s.phase) i none)) (ht : phase.tableMode = none)
    (hl : ∀ pos, phase.bucketMode pos = before.bucketMode pos) (hv : phase.Valid s.map s.array)
    (hless : phase.turnsLeft < before.turnsLeft) (hdone : phase.pending = before.pending) :
    TurnTaken s i values .goesOn ({ s with tableLock := lock }.enter i phase) := by
  subst hp
  refine Sound.moved rfl rfl rfl trivial ?_ hless hdone
  exact h.enters ({ s with tableLock := lock }.enter i phase) rfl h.stores h.present (by rw [ht]; exact hheld)
    (fun pos => (h.buckets pos).stays (hl pos).symm) hv (.inl ⟨rfl, rfl⟩)

/-- A turn that takes the lock of a bucket, or lets go of it. -/
theorem Sound.locks (h : Sound s values) (hp : s.phase i = before) {b : BucketRef} {lock : SharedLock ι}
    (hheld : lock.Held (Function.update (LockPhase.bucketMode b.pos ∘ s.phase) i (phase.bucketMode b.pos)))
    (ht : phase.tableMode = before.tableMode)
    (hl : ∀ pos, pos ≠ b.pos → phase.bucketMode pos = before.bucketMode pos) (hv : phase.Valid s.map s.array)
    (hless : phase.turnsLeft < before.turnsLeft) (hdone : phase.pending = before.pending) :
    TurnTaken s i values .goesOn
      ({ s with bucketLocks := Function.update s.bucketLocks b.pos lock }.enter i phase) := by
  subst hp
  refine Sound.moved rfl rfl rfl trivial ?_ hless hdone
  refine h.enters ({ s with bucketLocks := Function.update s.bucketLocks b.pos lock }.enter i phase) rfl h.stores
    h.present (h.table.stays ht.symm) (fun pos => ?_) hv (.inl ⟨rfl, rfl⟩)
  change (Function.update s.bucketLocks b.pos lock pos).Held _
  by_cases hpos : pos = b.pos
  · subst hpos
    rw [Function.update_self]
    exact hheld
  · rw [Function.update_of_ne hpos]
    exact (h.buckets pos).stays (hl pos hpos).symm

/-- A turn of the client that has the table alone, on the table or on the locks of its buckets. -/
theorem Sound.edits (h : Sound s values) (hp : s.phase i = before) (hi : before.tableMode = some .writing)
    {turn : Turn} {map : Hashtable Bytes} {array : Nat} {bucketLocks : Nat → SharedLock ι}
    (hmoves : turn.moves = true) (hright : turn.Right values) (hs : Stores map (turn.applied values))
    (hb : map.buckets ≠ none) (ht : phase.tableMode = some .writing)
    (hl : ∀ pos, (bucketLocks pos).Held (Function.update (LockPhase.bucketMode pos ∘ s.phase) i (phase.bucketMode pos)))
    (hv : phase.Valid map array) (hless : phase.turnsLeft < before.turnsLeft)
    (hdone : turn.uses ++ phase.pending = before.pending) :
    TurnTaken s i values turn ({ s with map := map, array := array, bucketLocks := bucketLocks }.enter i phase) := by
  have halone := h.alone hp hi
  subst hp
  refine Sound.moved rfl rfl hmoves hright ?_ hless hdone
  exact h.enters ({ s with map := map, array := array, bucketLocks := bucketLocks }.enter i phase) rfl hs hb
    (h.table.stays (hi.trans ht.symm)) hl hv (.inr halone)

section Phases
variable {key : Bytes} {value : Option Bytes} {b : BucketRef} {newsize : Nat}

private theorem turn_idle (h : Sound s values) (hp : s.phase i = .idle) :
    ∃ turn s', lockedTurn s i = .ok (turn, s') ∧ TurnTaken s i values turn s' := by
  have hbegin : ∀ {use : TableUse} {rest : List TableUse} {phase : LockPhase}, s.rest i = use :: rest →
      phase.tableMode = none → phase.Valid s.map s.array → phase.turnsLeft < 11 → phase.pending = [use] →
        TurnTaken s i values .goesOn ({ s with rest := Function.update s.rest i rest }.enter i phase) := by
    intro use rest phase hrest ht hv hless hpending
    refine .moved rfl trivial ?_ ?_ ?_ (fun j hj => ⟨?_, ?_⟩)
    · refine h.enters ({ s with rest := Function.update s.rest i rest }.enter i phase) rfl h.stores h.present
        (h.table.stays ?_) (fun pos => (h.buckets pos).stays ?_) hv (.inl ⟨rfl, rfl⟩)
      · rw [Function.comp_apply, hp]
        exact ht.symm
      · rw [Function.comp_apply, hp]
        exact (bucketMode_of_unlocked ht pos).symm
    · have hone : (s.rest i).length = rest.length + 1 := by rw [hrest, List.length_cons]
      simp only [Locked.turnsLeft, Locked.enter, Function.update_self, hp, hone]
      omega
    · simp only [Locked.toDo, Locked.enter, Function.update_self, hp, hrest, hpending]
      rfl
    · exact Function.update_of_ne hj _ _
    · exact Function.update_of_ne hj _ _
  unfold lockedTurn
  rw [hp]
  dsimp only
  cases hrest : s.rest i with
  | nil => exact ⟨_, _, rfl, .finished hp hrest⟩
  | cons use rest =>
    cases use with
    | get key => exact ⟨_, _, rfl, hbegin hrest rfl trivial (show 6 < 11 by decide) rfl⟩
    | set key value =>
      dsimp only
      cases htest : s.map.resizeTest value.isNone with
      | none => exact ⟨_, _, rfl, hbegin hrest rfl trivial (show 7 < 11 by decide) rfl⟩
      | some newsize => exact ⟨_, _, rfl, hbegin hrest rfl (resizeTest_pos htest) (show 10 < 11 by decide) rfl⟩

private theorem turn_growing (h : Sound s values) (hp : s.phase i = .growing newsize key value) :
    ∃ turn s', lockedTurn s i = .ok (turn, s') ∧ TurnTaken s i values turn s' := by
  unfold lockedTurn
  rw [hp]
  exact h.takes hp (h.table.writeLock (congrArg LockPhase.tableMode hp)) rfl rfl (fun _ => rfl)
    (h.valid_of hp : 0 < newsize) (show 9 < 10 by decide) rfl

private theorem turn_rebuilding (h : Sound s values) (hp : s.phase i = .rebuilding newsize key value) :
    ∃ turn s', lockedTurn s i = .ok (turn, s') ∧ TurnTaken s i values turn s' := by
  have hfree : ∀ pos j, (s.phase j).bucketMode pos = none := fun pos j => h.unheld hp rfl rfl j
  have hunused : ¬ ∃ pos < s.map.bucketsCount, (s.bucketLocks pos).writer ≠ none ∨ (s.bucketLocks pos).readers ≠ ∅ := by
    rintro ⟨pos, -, hused⟩
    have hwriter := (h.buckets pos).noWriter (fun j => by rw [Function.comp_apply, hfree pos j]; exact nofun)
    have hreaders := (h.buckets pos).noReaders (fun j => by rw [Function.comp_apply, hfree pos j]; exact nofun)
    rcases hused with hused | hused
    · exact hused hwriter
    · exact hused hreaders
  obtain ⟨map, he, hs, hb⟩ := h.stores.resize (h.valid_of hp : 0 < newsize)
  unfold lockedTurn
  rw [hp]
  dsimp only
  rw [Locked.rebuild, if_neg hunused, he]
  refine ⟨_, _, rfl, h.edits hp rfl rfl trivial hs hb rfl (fun pos => ?_) trivial (show 8 < 9 by decide) rfl⟩
  refine SharedLock.held_free (fun j => ?_)
  rw [Function.update_apply]
  split
  · rfl
  · exact hfree pos j

private theorem turn_rebuilt (h : Sound s values) (hp : s.phase i = .rebuilt key value) :
    ∃ turn s', lockedTurn s i = .ok (turn, s') ∧ TurnTaken s i values turn s' := by
  obtain ⟨lock, he, hheld⟩ := h.table.writeUnlock (i := i) (congrArg LockPhase.tableMode hp)
  unfold lockedTurn
  rw [hp]
  dsimp only
  rw [he]
  exact ⟨_, _, rfl, h.leaves hp hheld rfl (fun _ => rfl) trivial (show 7 < 8 by decide) rfl⟩

private theorem turn_checking (h : Sound s values) (hp : s.phase i = .checking key value) :
    ∃ turn s', lockedTurn s i = .ok (turn, s') ∧ TurnTaken s i values turn s' := by
  have hassert : ¬ (s.map.buckets.isNone ∨ s.map.bucketsCount = 0) := by
    rintro (hnone | hz)
    · exact h.present (Option.isNone_iff_eq_none.mp hnone)
    · exact Nat.ne_of_gt (h.stores.positive h.present) hz
  unfold lockedTurn
  rw [hp]
  dsimp only
  rw [if_neg hassert]
  exact ⟨_, _, rfl, h.goesOn hp rfl trivial h.stores rfl (fun _ => rfl) trivial (show 6 < 7 by decide) rfl⟩

private theorem turn_entering (h : Sound s values) (hp : s.phase i = .entering key value) :
    ∃ turn s', lockedTurn s i = .ok (turn, s') ∧ TurnTaken s i values turn s' := by
  unfold lockedTurn
  rw [hp]
  exact h.takes hp (h.table.writeLock (congrArg LockPhase.tableMode hp)) rfl rfl (fun _ => rfl) trivial
    (show 5 < 6 by decide) rfl

private theorem turn_inside (h : Sound s values) (hp : s.phase i = .inside key value) :
    ∃ turn s', lockedTurn s i = .ok (turn, s') ∧ TurnTaken s i values turn s' := by
  have hwithin : (s.slot key).pos < s.map.room := h.stores.within h.present key
  unfold lockedTurn
  rw [hp]
  dsimp only
  rw [bucketAt_within hwithin, fault_ok_bind]
  cases hbucket : s.map.bucket (s.slot key).pos with
  | some list =>
    refine ⟨_, _, rfl, h.goesOn hp rfl trivial h.stores rfl (fun _ => rfl) ⟨⟨rfl, hwithin, ?_⟩, rfl⟩
      (show 4 < 5 by decide) rfl⟩
    rw [hbucket]
    exact Option.some_ne_none list
  | none =>
    cases value with
    | none =>
      obtain ⟨map, he, hs, -⟩ := h.stores.setLocked h.present key none
      rw [setLocked_missing _ hwithin hbucket] at he
      obtain rfl := Except.ok.inj he
      exact ⟨_, _, rfl, h.goesOn hp rfl trivial hs rfl (fun _ => rfl) trivial (show 1 < 5 by decide) rfl⟩
    | some v =>
      have hslot : (s.slot key).pos < s.map.bucketsCount := Nat.mod_lt _ (h.stores.positive h.present)
      refine ⟨_, _, rfl, h.edits hp rfl rfl trivial (h.stores.setUp h.present hslot hbucket)
        (setBucket_present h.present) rfl (fun pos => ?_) ⟨⟨rfl, hwithin, ?_⟩, rfl⟩ (show 4 < 5 by decide) rfl⟩
      · rw [Function.update_apply]
        split
        · refine SharedLock.held_free (fun j => ?_)
          rw [Function.update_apply]
          split
          · rfl
          · exact h.unheld hp rfl rfl j
        · refine (h.buckets pos).stays ?_
          rw [Function.comp_apply, hp]
          rfl
      · rw [bucket_setBucket h.present, if_pos rfl]
        exact Option.some_ne_none _

private theorem turn_found (h : Sound s values) (hp : s.phase i = .found b key value) :
    ∃ turn s', lockedTurn s i = .ok (turn, s') ∧ TurnTaken s i values turn s' := by
  obtain ⟨hpoints, hslot⟩ := h.valid_of hp
  obtain ⟨list, hlist, -⟩ := bucket_points hpoints
  have hfree : ∀ j, (s.phase j).bucketMode b.pos = none := fun j => h.unheld hp rfl rfl j
  unfold lockedTurn
  rw [hp]
  dsimp only
  rw [hlist]
  rcases (h.buckets b.pos).writeLock (i := i) (hfree i) with ⟨lock, he, hheld⟩ | ⟨-, j, hj⟩
  · rw [he]
    refine ⟨_, _, rfl, h.locks hp ?_ rfl (fun pos hpos => ?_) ⟨hpoints, hslot⟩ (show 3 < 4 by decide) rfl⟩
    · rw [show LockPhase.bucketMode b.pos (.editing b key value) = some .writing from if_pos rfl]
      exact hheld
    · exact if_neg hpos.symm
  · exact absurd (hfree j) hj

private theorem turn_editing (h : Sound s values) (hp : s.phase i = .editing b key value) :
    ∃ turn s', lockedTurn s i = .ok (turn, s') ∧ TurnTaken s i values turn s' := by
  obtain ⟨hpoints, hslot⟩ := h.valid_of hp
  obtain ⟨list, hlist, hbucket⟩ := bucket_points hpoints
  obtain ⟨map, he, hs, hb⟩ := h.stores.setLocked h.present key value
  have hedit : s.map.setInBucket b.pos list (hashCompute key) value (value.elim 0 List.length) = .ok map := by
    rw [hslot, ← setLocked_found value _ (hslot ▸ hpoints.within) (hslot ▸ hbucket), he]
  obtain ⟨hroom, hthere⟩ := setInBucket_bucket h.present hedit
  unfold lockedTurn
  rw [hp]
  dsimp only
  rw [hlist, fault_ok_bind, hedit]
  refine ⟨_, _, rfl, h.edits hp rfl rfl trivial hs hb rfl (fun pos => (h.buckets pos).stays ?_)
    ⟨hpoints.array, hroom ▸ hpoints.within, hthere⟩ (show 2 < 3 by decide) rfl⟩
  rw [Function.comp_apply, hp]
  rfl

private theorem turn_edited (h : Sound s values) (hp : s.phase i = .edited b) :
    ∃ turn s', lockedTurn s i = .ok (turn, s') ∧ TurnTaken s i values turn s' := by
  obtain ⟨list, hlist, -⟩ := bucket_points (h.valid_of hp : Points s.map s.array b)
  have hmode : (LockPhase.bucketMode b.pos ∘ s.phase) i = some .writing := by
    rw [Function.comp_apply, hp]
    exact if_pos rfl
  obtain ⟨lock, he, hheld⟩ := (h.buckets b.pos).writeUnlock hmode
  unfold lockedTurn
  rw [hp]
  dsimp only
  rw [hlist, fault_ok_bind, he]
  exact ⟨_, _, rfl, h.locks hp hheld rfl (fun pos hpos => (if_neg hpos.symm).symm) trivial (show 1 < 2 by decide) rfl⟩

private theorem turn_leaving (h : Sound s values) (hp : s.phase i = .leaving) :
    ∃ turn s', lockedTurn s i = .ok (turn, s') ∧ TurnTaken s i values turn s' := by
  obtain ⟨lock, he, hheld⟩ := h.table.writeUnlock (i := i) (congrArg LockPhase.tableMode hp)
  unfold lockedTurn
  rw [hp]
  dsimp only
  rw [he]
  exact ⟨_, _, rfl, h.leaves hp hheld rfl (fun _ => rfl) trivial (show 0 < 1 by decide) rfl⟩

private theorem turn_looking (h : Sound s values) (hp : s.phase i = .looking key) :
    ∃ turn s', lockedTurn s i = .ok (turn, s') ∧ TurnTaken s i values turn s' := by
  have hlock := (h.table.readLock (i := i)).imp_right (And.imp_right (Exists.imp (fun j hj =>
    show (s.phase j).tableMode ≠ none by rw [show (s.phase j).tableMode = _ from hj]; exact nofun)))
  unfold lockedTurn
  rw [hp]
  exact h.takes hp hlock rfl rfl (fun _ => rfl) trivial (show 5 < 6 by decide) rfl

private theorem turn_reading (h : Sound s values) (hp : s.phase i = .reading key) :
    ∃ turn s', lockedTurn s i = .ok (turn, s') ∧ TurnTaken s i values turn s' := by
  have hwithin : (s.slot key).pos < s.map.room := h.stores.within h.present key
  have hnothing : ∀ found, s.map.get (hashCompute key) = .ok none → found = none →
      TurnTaken s i values (.did (.found key found)) (s.enter i .returning) := by
    rintro found hget rfl
    refine h.goesOn hp rfl ?_ h.stores rfl (fun _ => rfl) trivial (show 1 < 5 by decide) rfl
    obtain ⟨found', he, hright⟩ := h.stores.get key
    rw [hget] at he
    obtain rfl := Except.ok.inj he
    exact hright
  unfold lockedTurn
  rw [hp]
  dsimp only
  rw [if_pos (h.stores.positive h.present), bucketAt_within hwithin, fault_ok_bind]
  cases hbucket : s.map.bucket (s.slot key).pos with
  | none => exact ⟨_, _, rfl, hnothing none (get_missing hwithin (.inl hbucket)) rfl⟩
  | some list =>
    dsimp only
    split
    · next hc =>
      refine ⟨_, _, rfl, h.goesOn hp rfl trivial h.stores rfl (fun _ => rfl)
        ⟨⟨rfl, hwithin, ?_⟩, rfl, fun list' he => ?_⟩
        (show 4 < 5 by decide) rfl⟩
      · rw [hbucket]
        exact Option.some_ne_none list
      · rw [hbucket] at he
        obtain rfl := Option.some.inj he
        exact hc
    · next hc => exact ⟨_, _, rfl, hnothing none (get_missing hwithin (.inr ⟨list, hbucket, by omega⟩)) rfl⟩

private theorem turn_met (h : Sound s values) (hp : s.phase i = .met b key) :
    ∃ turn s', lockedTurn s i = .ok (turn, s') ∧ TurnTaken s i values turn s' := by
  obtain ⟨hpoints, hslot, hnodes⟩ := h.valid_of hp
  obtain ⟨list, hlist, -⟩ := bucket_points hpoints
  unfold lockedTurn
  rw [hp]
  dsimp only
  rw [hlist]
  rcases (h.buckets b.pos).readLock (i := i) with ⟨lock, he, hheld⟩ | ⟨-, j, hj⟩
  · rw [he]
    refine ⟨_, _, rfl, h.locks hp ?_ rfl (fun pos hpos => ?_) ⟨hpoints, hslot, hnodes⟩ (show 3 < 4 by decide) rfl⟩
    · rw [show LockPhase.bucketMode b.pos (.searching b key) = some .reading from if_pos rfl]
      exact hheld
    · exact if_neg hpos.symm
  · change (s.phase j).bucketMode b.pos = some .writing at hj
    have htable : (s.phase j).tableMode = some .writing := by
      rcases bucketMode_eq (s.phase j) b.pos with hnone | hsame
      · rw [hnone] at hj
        cases hj
      · rw [← hsame, hj]
    have hne : i ≠ j := by
      rintro rfl
      rw [hp] at hj
      cases hj
    have hnone := h.alone rfl htable i hne
    rw [hp] at hnone
    cases hnone

private theorem turn_searching (h : Sound s values) (hp : s.phase i = .searching b key) :
    ∃ turn s', lockedTurn s i = .ok (turn, s') ∧ TurnTaken s i values turn s' := by
  obtain ⟨hpoints, hslot, hnodes⟩ := h.valid_of hp
  obtain ⟨list, hlist, hbucket⟩ := bucket_points hpoints
  obtain ⟨found, he, hright⟩ := h.stores.get key
  have hsearch : searchList list (hashCompute key) = .ok found := by
    rw [← get_found (h.stores.positive h.present) (hslot ▸ hpoints.within) (hslot ▸ hbucket) (hnodes list hbucket), he]
  unfold lockedTurn
  rw [hp]
  dsimp only
  rw [hlist, fault_ok_bind, hsearch]
  exact ⟨_, _, rfl, h.goesOn hp rfl hright h.stores rfl (fun _ => rfl) hpoints (show 2 < 3 by decide) rfl⟩

private theorem turn_searched (h : Sound s values) (hp : s.phase i = .searched b) :
    ∃ turn s', lockedTurn s i = .ok (turn, s') ∧ TurnTaken s i values turn s' := by
  obtain ⟨list, hlist, -⟩ := bucket_points (h.valid_of hp : Points s.map s.array b)
  have hmode : (LockPhase.bucketMode b.pos ∘ s.phase) i = some .reading := by
    rw [Function.comp_apply, hp]
    exact if_pos rfl
  obtain ⟨lock, he, hheld⟩ := (h.buckets b.pos).readUnlock hmode
  unfold lockedTurn
  rw [hp]
  dsimp only
  rw [hlist, fault_ok_bind, he]
  exact ⟨_, _, rfl, h.locks hp hheld rfl (fun pos hpos => (if_neg hpos.symm).symm) trivial (show 1 < 2 by decide) rfl⟩

private theorem turn_returning (h : Sound s values) (hp : s.phase i = .returning) :
    ∃ turn s', lockedTurn s i = .ok (turn, s') ∧ TurnTaken s i values turn s' := by
  obtain ⟨lock, he, hheld⟩ := h.table.readUnlock (i := i) (congrArg LockPhase.tableMode hp)
  unfold lockedTurn
  rw [hp]
  dsimp only
  rw [he]
  exact ⟨_, _, rfl, h.leaves hp hheld rfl (fun _ => rfl) trivial (show 0 < 1 by decide) rfl⟩

theorem lockedTurn_spec (h : Sound s values) (i : ι) :
    ∃ turn s', lockedTurn s i = .ok (turn, s') ∧ TurnTaken s i values turn s' := by
  cases hp : s.phase i with
  | idle => exact turn_idle h hp
  | growing => exact turn_growing h hp
  | rebuilding => exact turn_rebuilding h hp
  | rebuilt => exact turn_rebuilt h hp
  | checking => exact turn_checking h hp
  | entering => exact turn_entering h hp
  | inside => exact turn_inside h hp
  | found => exact turn_found h hp
  | editing => exact turn_editing h hp
  | edited => exact turn_edited h hp
  | leaving => exact turn_leaving h hp
  | looking => exact turn_looking h hp
  | reading => exact turn_reading h hp
  | met => exact turn_met h hp
  | searching => exact turn_searching h hp
  | searched => exact turn_searched h hp
  | returning => exact turn_returning h hp

end Phases

theorem unlocked_of_waits (h : before.waitsForTable = true) : before.tableMode = none := by
  cases before with
  | growing | entering | looking => rfl
  | _ => cases h

theorem turnsLeft_pos (h : before ≠ .idle) : 0 < before.turnsLeft := by
  cases before with
  | idle => exact absurd rfl h
  | _ => exact Nat.succ_pos _

theorem Sound.progress (h : Sound s values) (hi : 0 < s.turnsLeft i) :
    ∃ j turn s', lockedTurn s j = .ok (turn, s') ∧ turn.moves = true := by
  obtain ⟨turn, s', he, htaken⟩ := lockedTurn_spec h i
  cases htaken with
  | finished hidle hrest =>
    rw [Locked.turnsLeft, hidle, hrest] at hi
    cases hi
  | waits _ hheld =>
    obtain ⟨j, hj⟩ := hheld
    obtain ⟨turn', s'', he', htaken'⟩ := lockedTurn_spec h j
    cases htaken' with
    | finished hidle _ =>
      rw [hidle] at hj
      exact absurd rfl hj
    | waits hwaiting _ => exact absurd (unlocked_of_waits hwaiting) hj
    | moved hmoves => exact ⟨j, turn', s'', he', hmoves⟩
  | moved hmoves => exact ⟨i, turn, s', he, hmoves⟩

/-- Along a run each client does its calls in order, and is done after so many turns that move. -/
theorem lockedRun_spec (schedule : List ι) (h : Sound s values) :
    ∃ turns s', runCalls lockedTurn s schedule = .ok (turns, s') ∧ Sound s' (turns.foldl Turn.applied values) ∧
      ∀ i, (repliesOf i schedule turns).flatMap Turn.uses ++ s'.toDo i = s.toDo i ∧
        (repliesOf i schedule turns).countP Turn.moves + s'.turnsLeft i ≤ s.turnsLeft i := by
  induction schedule generalizing s values with
  | nil => exact ⟨[], s, rfl, h, fun i => ⟨rfl, Nat.le_of_eq (Nat.zero_add _)⟩⟩
  | cons j schedule ih =>
    obtain ⟨turn, s', he, htaken⟩ := lockedTurn_spec h j
    have hstep : Sound s' (turn.applied values) ∧ (∀ i, i ≠ j → s'.toDo i = s.toDo i ∧ s'.turnsLeft i = s.turnsLeft i) ∧
        turn.uses ++ s'.toDo j = s.toDo j ∧ [turn].countP Turn.moves + s'.turnsLeft j ≤ s.turnsLeft j := by
      cases htaken with
      | finished | waits => exact ⟨h, fun _ _ => ⟨rfl, rfl⟩, rfl, Nat.le_of_eq (Nat.zero_add _)⟩
      | moved hmoves _ hsound hless hdone hothers =>
        refine ⟨hsound, fun i hi => ?_, hdone, ?_⟩
        · obtain ⟨hphase, hrest⟩ := hothers i hi
          simp only [Locked.toDo, Locked.turnsLeft, hphase, hrest, and_self]
        · rw [List.countP_cons_of_pos hmoves, List.countP_nil]
          omega
    obtain ⟨hsound, hothers, hdone, hcount⟩ := hstep
    obtain ⟨turns, s'', hes, hfinal, hrun⟩ := ih hsound
    refine ⟨turn :: turns, s'', by simp only [runCalls, he, hes], hfinal, fun i => ?_⟩
    obtain ⟨hcalls, hmoved⟩ := hrun i
    by_cases hij : j = i
    · subst hij
      rw [repliesOf, if_pos rfl, List.flatMap_cons, List.append_assoc, hcalls, hdone]
      refine ⟨rfl, ?_⟩
      rw [← List.singleton_append, List.countP_append]
      omega
    · obtain ⟨htodo, hleft⟩ := hothers i (Ne.symm hij)
      rw [repliesOf, if_neg hij, ← htodo, ← hleft]
      exact ⟨hcalls, hmoved⟩

/-- Clients that lock the table and its buckets as the code does, in any order of turns: no turn faults, so that
none follows a pointer into buckets that a rebuild has freed, and no rebuild deletes the lock of a bucket that is
held. Who writes to the table has it alone; it stores what the sets make of it one after another, a lookup finds
what is stored then, and each client does its calls in order, each once. A call takes at most eleven turns besides
those that wait, and as long as some client is not done, some client has a turn in which it goes on. -/
theorem locks_serialize (programs : ι → List TableUse) (calls : List TableCall) (ha : Admissible false calls)
    {replies : List Unit} {map : Hashtable Bytes} (hrun : runCalls tableCall Hashtable.new calls = .ok (replies, map))
    (hb : map.buckets ≠ none) (schedule : List ι) :
    ∃ turns s, runCalls lockedTurn (.start map programs) schedule = .ok (turns, s) ∧
      (∀ values, Stores s.map values ↔ values = turns.foldl Turn.applied (lastSet calls)) ∧
      (∀ i, ∃ turn s', lockedTurn s i = .ok (turn, s') ∧ turn.Right (turns.foldl Turn.applied (lastSet calls))) ∧
      (∀ i j, (s.phase i).tableMode = some .writing → j ≠ i → (s.phase j).tableMode = none) ∧
      (∀ i, (repliesOf i schedule turns).flatMap Turn.uses ++ s.toDo i = programs i ∧
        (repliesOf i schedule turns).countP Turn.moves ≤ 11 * (programs i).length) ∧
      ((∃ i, s.phase i ≠ .idle ∨ s.rest i ≠ []) →
        ∃ j turn s', lockedTurn s j = .ok (turn, s') ∧ turn.moves = true) := by
  obtain ⟨replies', map', hrun', hs⟩ := tableRun_stores calls ha
  rw [hrun] at hrun'
  obtain ⟨-, rfl⟩ := Prod.mk.inj (Except.ok.inj hrun')
  obtain ⟨turns, s, he, h, hclients⟩ := lockedRun_spec schedule (sound_start hs hb programs)
  refine ⟨turns, s, he, fun values => ⟨fun hv => hv.unique h.stores, ?_⟩, fun i => ?_,
    fun i j hi hj => h.alone rfl hi j hj, fun i => ?_, ?_⟩
  · rintro rfl
    exact h.stores
  · obtain ⟨turn, s', hi, htaken⟩ := lockedTurn_spec h i
    refine ⟨turn, s', hi, ?_⟩
    cases htaken with
    | finished | waits => trivial
    | moved _ hright => exact hright
  · obtain ⟨hcalls, hmoved⟩ := hclients i
    have hleft : (Locked.start map programs).turnsLeft i = 11 * (programs i).length := rfl
    exact ⟨hcalls, by omega⟩
  · rintro ⟨i, hi⟩
    refine h.progress (i := i) ?_
    unfold Locked.turnsLeft
    rcases hi with hphase | hrest
    · have hpos := turnsLeft_pos hphase
      omega
    · have hpos := List.length_pos_of_ne_nil hrest
      omega

end Invariant

/-- One client sets a key, another removes it meanwhile and looks it up. -/
theorem locks_serialize_two :
    ∃ map, runCalls tableCall Hashtable.new [.set [1] [10]] = .ok ([()], map) ∧
      ∃ turns s, runCalls lockedTurn
          (.start map (fun i : Bool => if i then [.set [1] (some [2])] else [.set [1] none, .get [1]]))
          [true, false, true, false, true, false, true, false, true, true, true, true, false, false] = .ok (turns, s) ∧
        ∀ values, Stores s.map values ↔ values = turns.foldl Turn.applied (lastSet [.set [1] [10]]) := by
  refine ⟨_, rfl, ?_⟩
  obtain ⟨turns, s, he, hs, -⟩ := locks_serialize
    (fun i : Bool => if i then [.set [1] (some [2])] else [.set [1] none, .get [1]])
    [.set [1] [10]] trivial rfl (Option.some_ne_none _)
    [true, false, true, false, true, false, true, false, true, true, true, true, false, false]
  exact ⟨turns, s, he, hs⟩

end CFlare.Storage
