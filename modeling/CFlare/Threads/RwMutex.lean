import CFlare.Library.Machine
import Mathlib.Data.List.Count
import Mathlib.Logic.Function.Basic
import Mathlib.Logic.Relation

/-! The recursive reader-writer mutex that is built on a slim lock. Each section under the
internal lock is one step of a thread, and so is each operation of the slim lock outside of one. -/
namespace CFlare.Threads
open CFlare.Library

/-- A reader-writer lock that is not recursive: how many hold it shared, or that one holds it. -/
structure SrwLock where
  readers : Nat
  exclusive : Bool
  deriving DecidableEq, Repr

/-- None while the lock is held in a way that excludes this one. -/
def SrwLock.acquireShared (lock : SrwLock) : Option SrwLock :=
  if lock.exclusive then none else some { lock with readers := lock.readers + 1 }

def SrwLock.acquireExclusive (lock : SrwLock) : Option SrwLock :=
  if lock.exclusive ∨ lock.readers ≠ 0 then none else some { lock with exclusive := true }

/-- What happens to a lock that is not held is undefined. -/
def SrwLock.releaseShared (lock : SrwLock) : Except Fault SrwLock :=
  if lock.readers = 0 then .error .undefined else .ok { lock with readers := lock.readers - 1 }

def SrwLock.releaseExclusive (lock : SrwLock) : Except Fault SrwLock :=
  if lock.exclusive then .ok { lock with exclusive := false } else .error .undefined

abbrev Handle := Nat

/-- The entry of a mutex; no thread has the handle zero. -/
structure LockInfo where
  lock : SrwLock
  writeThread : Handle
  writelockDepth : Nat
  readlockDepth : Nat
  deriving DecidableEq, Repr

def LockInfo.unlocked : LockInfo := ⟨⟨0, false⟩, 0, 0, 0⟩

section Sections
variable (mutex : LockInfo) (thread : Handle)

/-- The first section of a read lock, which completes it under the thread's own write lock. -/
def LockInfo.readLock : Option LockInfo :=
  if mutex.writeThread = thread then
    some { mutex with readlockDepth := sizeAdd mutex.readlockDepth 1 }
  else none

def LockInfo.readUnlock : Option LockInfo :=
  if mutex.writeThread = thread then
    some { mutex with readlockDepth := sizeSub mutex.readlockDepth 1 }
  else none

def LockInfo.writeLock : Option LockInfo :=
  if mutex.writeThread = thread then
    some { mutex with writelockDepth := sizeAdd mutex.writelockDepth 1 }
  else none

/-- The second section of a write lock, behind the slim lock. -/
def LockInfo.takeWrite : LockInfo := { mutex with writeThread := thread, writelockDepth := 1 }

def LockInfo.writeUnlock : Except Fault LockInfo :=
  let depth :=
    if mutex.writeThread = thread then sizeSub mutex.writelockDepth 1 else mutex.writelockDepth
  if mutex.writeThread = thread ∧ 0 < depth then .ok { mutex with writelockDepth := depth }
  else do
    let lock ← mutex.lock.releaseExclusive
    .ok { mutex with lock := lock, writeThread := 0, writelockDepth := depth }

end Sections

inductive LockCall where
  | readLock
  | readUnlock
  | writeLock
  | writeUnlock
  deriving DecidableEq, Repr

/-- Where a thread is: outside the four functions, waiting for the slim lock, behind it in a
write lock, or before its release in a read unlock. -/
inductive LockPhase where
  | idle
  | sharing
  | excluding
  | taking
  | releasing
  deriving DecidableEq, Repr

/-- The mutex, the phase of each thread and the sections it is in: the locks that have returned
less the unlocks that were called. -/
structure LockState (ι : Type) where
  info : LockInfo
  phase : ι → LockPhase
  writes : ι → Nat
  reads : ι → Nat

section Steps
variable {ι : Type}

def LockState.start : LockState ι := ⟨.unlocked, fun _ => .idle, fun _ => 0, fun _ => 0⟩

variable [DecidableEq ι]

def LockState.enter (s : LockState ι) (t : ι) (phase : LockPhase) : LockState ι :=
  { s with phase := Function.update s.phase t phase }

/-- A section more or less. -/
def LockState.read (s : LockState ι) (t : ι) (sections : Nat) : LockState ι :=
  { s with reads := Function.update s.reads t sections }

def LockState.write (s : LockState ι) (t : ι) (sections : Nat) : LockState ι :=
  { s with writes := Function.update s.writes t sections }

/-- The next step of a thread, which makes the call if it is in none. A thread that has to wait
stays as it is, and no thread unlocks what it has not locked. -/
def lockStep (current : ι → Handle) (s : LockState ι) (t : ι) (call : LockCall) : Except Fault (LockState ι) :=
  match s.phase t with
  | .idle =>
    match call with
    | .readLock =>
      match s.info.readLock (current t) with
      | some info => .ok { s.read t (s.reads t + 1) with info := info }
      | none => .ok (s.enter t .sharing)
    | .readUnlock =>
      if s.reads t = 0 then .ok s
      else
        match s.info.readUnlock (current t) with
        | some info => .ok { s.read t (s.reads t - 1) with info := info }
        | none => .ok ((s.read t (s.reads t - 1)).enter t .releasing)
    | .writeLock =>
      match s.info.writeLock (current t) with
      | some info => .ok { s.write t (s.writes t + 1) with info := info }
      | none => .ok (s.enter t .excluding)
    | .writeUnlock =>
      if s.writes t = 0 then .ok s
      else do
        let info ← s.info.writeUnlock (current t)
        .ok { s.write t (s.writes t - 1) with info := info }
  | .sharing =>
    match s.info.lock.acquireShared with
    | none => .ok s
    | some lock => .ok { (s.read t (s.reads t + 1)).enter t .idle with info := { s.info with lock := lock } }
  | .excluding =>
    match s.info.lock.acquireExclusive with
    | none => .ok s
    | some lock => .ok { s.enter t .taking with info := { s.info with lock := lock } }
  | .taking =>
    .ok { (s.write t (s.writes t + 1)).enter t .idle with info := s.info.takeWrite (current t) }
  | .releasing => do
    let lock ← s.info.lock.releaseShared
    .ok { s.enter t .idle with info := { s.info with lock := lock } }

/-- While a thread is in a write section, no other one is in a section. -/
def LockState.Exclusive (s : LockState ι) : Prop :=
  ∀ t u, t ≠ u → 0 < s.writes t → s.writes u = 0 ∧ s.reads u = 0

/-- What keeps the mutex safe: a lock finds its own handle only in a thread that is writing, and
the write unlock that counts down to zero leaves its thread in no other section. -/
def LockState.Orderly (s : LockState ι) (current : ι → Handle) (t : ι) : LockCall → Prop
  | .readLock | .writeLock => s.info.writeThread = current t → 0 < s.writes t
  | .writeUnlock => 0 < s.writes t → s.info.writelockDepth = 1 → s.writes t = 1 ∧ s.reads t = 0
  | .readUnlock => True

/-- A step of some thread, and one that meets the condition if it makes a call. -/
def Stepped (current : ι → Handle) (s s' : LockState ι) : Prop :=
  ∃ t call, lockStep current s t call = .ok s'

def OrderlyStepped (current : ι → Handle) (s s' : LockState ι) : Prop :=
  ∃ t call, (s.phase t = .idle → s.Orderly current t call) ∧ lockStep current s t call = .ok s'

end Steps

/-- A pseudo-handle: it names the thread that asks, and is the same number in each. -/
def getCurrentThread {ι : Type} (_ : ι) : Handle := 2^64 - 2

section Safety
variable {ι : Type} [DecidableEq ι] {current : ι → Handle} {s s' : LockState ι} {t : ι} {call : LockCall}

/-- How often a thread holds the slim lock shared, as long as no thread is writing. -/
def LockState.shares (s : LockState ι) (t : ι) : Nat :=
  s.reads t + if s.phase t = .releasing then 1 else 0

private theorem depth_up (sections : Nat) :
    sizeAdd (sections % sizeLimit) 1 = (sections + 1) % sizeLimit := by
  rw [sizeAdd, Nat.mod_add_mod]

private theorem depth_down {sections : Nat} (h : 0 < sections) :
    sizeSub (sections % sizeLimit) 1 = (sections - 1) % sizeLimit := by
  have hone : sections + (sizeLimit - 1 % sizeLimit) = sections - 1 + sizeLimit := by
    rw [Nat.mod_eq_of_lt (by decide : 1 < sizeLimit)]
    unfold sizeLimit
    omega
  rw [sizeSub, Nat.mod_add_mod, hone, Nat.add_mod_right]

/-- Who holds the mutex: readers only, or the thread that has just got the slim lock, or the one
that is writing. -/
inductive Held (current : ι → Handle) (s : LockState ι) : Prop where
  | shared (holders : List ι) (lock : s.info.lock = ⟨holders.length, false⟩)
      (handle : s.info.writeThread = 0) (writes : ∀ t, s.writes t = 0)
      (taking : ∀ t, s.phase t ≠ .taking) (shares : ∀ t, holders.count t = s.shares t)
  | taken (owner : ι) (lock : s.info.lock = ⟨0, true⟩) (handle : s.info.writeThread = 0)
      (writes : ∀ t, s.writes t = 0) (taking : ∀ t, s.phase t = .taking → t = owner)
      (shares : ∀ t, s.shares t = 0)
  | owned (owner : ι) (lock : s.info.lock = ⟨0, true⟩) (handle : s.info.writeThread = current owner)
      (writing : 0 < s.writes owner) (depth : s.info.writelockDepth = s.writes owner % sizeLimit)
      (idle : s.phase owner = .idle) (taking : ∀ t, s.phase t ≠ .taking)
      (releasing : ∀ t, s.phase t ≠ .releasing)
      (others : ∀ t, t ≠ owner → s.writes t = 0 ∧ s.reads t = 0)

theorem Held.start : Held current (LockState.start : LockState ι) :=
  .shared [] rfl rfl (fun _ => rfl) (fun _ h => nomatch h) (fun _ => rfl)

theorem Held.exclusive (h : Held current s) : s.Exclusive := by
  intro t u hne ht
  cases h with
  | shared holders lock handle writes => exact absurd (writes t) (Nat.ne_of_gt ht)
  | taken owner lock handle writes => exact absurd (writes t) (Nat.ne_of_gt ht)
  | owned owner lock handle writing depth idle taking releasing others =>
    by_cases hto : t = owner
    · subst hto
      exact others u hne.symm
    · exact absurd (others t hto).1 (Nat.ne_of_gt ht)

private theorem phase_enter (s : LockState ι) (t u : ι) (phase : LockPhase) :
    (s.enter t phase).phase u = if u = t then phase else s.phase u :=
  Function.update_apply s.phase t phase u

private theorem shares_enter (s : LockState ι) (t u : ι) {phase : LockPhase} (hr : phase ≠ .releasing)
    (ht : s.phase t ≠ .releasing) : (s.enter t phase).shares u = s.shares u := by
  unfold LockState.shares
  rw [phase_enter]
  by_cases hu : u = t
  · rw [if_pos hu, if_neg hr, hu, if_neg ht]
    rfl
  · rw [if_neg hu]
    rfl

private theorem taking_enter (h : ∀ u, s.phase u ≠ .taking) {phase : LockPhase} (hne : phase ≠ .taking)
    (t u : ι) : (s.enter t phase).phase u ≠ .taking := by
  rw [phase_enter]
  split
  · exact hne
  · exact h u

private theorem shared_step (hpos : ∀ t, current t ≠ 0) (t : ι) (call : LockCall) {holders : List ι}
    (lock : s.info.lock = ⟨holders.length, false⟩) (handle : s.info.writeThread = 0)
    (writes : ∀ t, s.writes t = 0) (taking : ∀ t, s.phase t ≠ .taking)
    (shares : ∀ t, holders.count t = s.shares t) :
    ∃ s', lockStep current s t call = .ok s' ∧ Held current s' := by
  have hother : s.info.writeThread ≠ current t := fun h => hpos t (h.symm.trans handle)
  have hsame : Held current s := .shared holders lock handle writes taking shares
  have hwaits : ∀ phase, phase ≠ .taking → phase ≠ .releasing → s.phase t ≠ .releasing →
      Held current (s.enter t phase) := by
    intro phase hnt hnr ht
    refine .shared holders lock handle writes (taking_enter taking hnt t) (fun u => ?_)
    rw [shares_enter s t u hnr ht, shares u]
  unfold lockStep
  cases hp : s.phase t with
  | idle =>
    have ht : s.phase t ≠ .releasing := by simp [hp]
    cases call with
    | readLock => exact ⟨s.enter t .sharing, by simp [LockInfo.readLock, hother], hwaits .sharing (by simp) (by simp) ht⟩
    | readUnlock =>
      by_cases hz : s.reads t = 0
      · exact ⟨s, by simp [hz], hsame⟩
      · refine ⟨(s.read t (s.reads t - 1)).enter t .releasing,
          by simp [hz, LockInfo.readUnlock, hother], ?_⟩
        refine .shared holders lock handle writes (taking_enter taking (by simp) t) (fun u => ?_)
        rw [shares u]
        unfold LockState.shares
        rw [phase_enter]
        change _ = Function.update s.reads t _ u + _
        rw [Function.update_apply]
        by_cases hu : u = t
        · subst hu
          rw [if_neg ht, if_pos rfl, if_pos rfl, if_pos rfl]
          omega
        · rw [if_neg hu, if_neg hu]
          rfl
    | writeLock =>
      exact ⟨s.enter t .excluding, by simp [LockInfo.writeLock, hother], hwaits .excluding (by simp) (by simp) ht⟩
    | writeUnlock => exact ⟨s, by simp [writes t], hsame⟩
  | sharing =>
    have ht : s.phase t ≠ .releasing := by simp [hp]
    refine ⟨_, by simp [SrwLock.acquireShared, lock]; rfl, ?_⟩
    refine .shared (t :: holders) rfl handle writes (taking_enter taking (by simp) t) (fun u => ?_)
    change _ = Function.update s.reads t (s.reads t + 1) u +
      (if (s.enter t .idle).phase u = .releasing then 1 else 0)
    rw [phase_enter, Function.update_apply, List.count_cons, shares u]
    unfold LockState.shares
    by_cases hu : u = t
    · subst hu
      simp [hp]
    · simp [hu, Ne.symm hu]
  | excluding =>
    have ht : s.phase t ≠ .releasing := by simp [hp]
    by_cases hz : holders = []
    · subst hz
      refine ⟨_, by simp [SrwLock.acquireExclusive, lock]; rfl, ?_⟩
      refine .taken t rfl handle writes (fun u hu => ?_) (fun u => ?_)
      · by_contra hne
        change (s.enter t .taking).phase u = _ at hu
        rw [phase_enter, if_neg hne] at hu
        exact taking u hu
      · change (s.enter t .taking).shares u = 0
        rw [shares_enter s t u (by simp) ht, ← shares u, List.count_nil]
    · have hl : holders.length ≠ 0 := fun h => hz (List.eq_nil_of_length_eq_zero h)
      exact ⟨s, by simp [SrwLock.acquireExclusive, lock, hz], hsame⟩
  | taking => exact absurd hp (taking t)
  | releasing =>
    have hmem : t ∈ holders := by
      apply List.count_pos_iff.mp
      rw [shares t, LockState.shares, if_pos hp]
      exact Nat.succ_pos _
    have hl : holders.length ≠ 0 := fun h => by simp [List.eq_nil_of_length_eq_zero h] at hmem
    refine ⟨{ s.enter t .idle with info := { s.info with lock := ⟨holders.length - 1, false⟩ } },
      by simp [SrwLock.releaseShared, lock, List.ne_nil_of_mem hmem], ?_⟩
    refine .shared (holders.erase t) ?_ handle writes (taking_enter taking (by simp) t) (fun u => ?_)
    · rw [List.length_erase_of_mem hmem]
    · change _ = s.reads u + (if (s.enter t .idle).phase u = .releasing then 1 else 0)
      rw [phase_enter]
      by_cases hu : u = t
      · subst hu
        rw [List.count_erase_self, shares u, LockState.shares, if_pos hp, if_pos rfl]
        rfl
      · rw [List.count_erase_of_ne hu, shares u, LockState.shares, if_neg hu]

private theorem taken_step (t : ι) (call : LockCall) (hpos : ∀ t, current t ≠ 0) {owner : ι}
    (lock : s.info.lock = ⟨0, true⟩) (handle : s.info.writeThread = 0) (writes : ∀ t, s.writes t = 0)
    (taking : ∀ t, s.phase t = .taking → t = owner) (shares : ∀ t, s.shares t = 0) :
    ∃ s', lockStep current s t call = .ok s' ∧ Held current s' := by
  have hother : s.info.writeThread ≠ current t := fun h => hpos t (h.symm.trans handle)
  have hreads : ∀ u, s.reads u = 0 := fun u => Nat.eq_zero_of_add_eq_zero_right (shares u)
  have hsame : Held current s := .taken owner lock handle writes taking shares
  have hwaits : ∀ phase, phase ≠ .taking → phase ≠ .releasing → s.phase t = .idle →
      Held current (s.enter t phase) := by
    intro phase hnt hnr hi
    refine .taken owner lock handle writes (fun u hu => ?_) (fun u => ?_)
    · rw [phase_enter] at hu
      split at hu
      · exact absurd hu hnt
      · exact taking u hu
    · rw [shares_enter s t u hnr (by simp [hi]), shares u]
  unfold lockStep
  cases hp : s.phase t with
  | idle =>
    cases call with
    | readLock => exact ⟨_, by simp [LockInfo.readLock, hother], hwaits .sharing (by simp) (by simp) hp⟩
    | readUnlock => exact ⟨s, by simp [hreads t], hsame⟩
    | writeLock => exact ⟨_, by simp [LockInfo.writeLock, hother], hwaits .excluding (by simp) (by simp) hp⟩
    | writeUnlock => exact ⟨s, by simp [writes t], hsame⟩
  | sharing => exact ⟨s, by simp [SrwLock.acquireShared, lock], hsame⟩
  | excluding => exact ⟨s, by simp [SrwLock.acquireExclusive, lock], hsame⟩
  | taking =>
    obtain rfl := taking t hp
    have hnr : ∀ u, s.phase u ≠ .releasing := by
      intro u hu
      have hs := shares u
      rw [LockState.shares, if_pos hu] at hs
      cases hs
    refine ⟨_, rfl, ?_⟩
    refine .owned t lock rfl ?_ ?_ ?_ (fun u => ?_) (fun u => ?_) (fun u hu => ⟨?_, hreads u⟩)
    · change 0 < Function.update s.writes t (s.writes t + 1) t
      rw [Function.update_self]
      exact Nat.succ_pos _
    · change 1 = Function.update s.writes t (s.writes t + 1) t % sizeLimit
      rw [Function.update_self, writes t]
      rfl
    · exact (phase_enter _ t t .idle).trans (if_pos rfl)
    · change (s.enter t .idle).phase u ≠ .taking
      rw [phase_enter]
      split
      · simp
      · next hu => exact fun h => hu (taking u h)
    · change (s.enter t .idle).phase u ≠ .releasing
      rw [phase_enter]
      split
      · simp
      · exact hnr u
    · change Function.update s.writes t (s.writes t + 1) u = 0
      rw [Function.update_of_ne hu, writes u]
  | releasing =>
    have hs := shares t
    rw [LockState.shares, if_pos hp] at hs
    cases hs

/-- A thread is writing. -/
structure Owned (current : ι → Handle) (s : LockState ι) (owner : ι) : Prop where
  lock : s.info.lock = ⟨0, true⟩
  handle : s.info.writeThread = current owner
  writing : 0 < s.writes owner
  depth : s.info.writelockDepth = s.writes owner % sizeLimit
  idle : s.phase owner = .idle
  taking : ∀ t, s.phase t ≠ .taking
  releasing : ∀ t, s.phase t ≠ .releasing
  others : ∀ t, t ≠ owner → s.writes t = 0 ∧ s.reads t = 0

namespace Owned
variable {owner : ι}

theorem held (h : Owned current s owner) : Held current s :=
  .owned owner h.lock h.handle h.writing h.depth h.idle h.taking h.releasing h.others

private theorem enter (h : Owned current s owner) {phase : LockPhase} (hnt : phase ≠ .taking) (hnr : phase ≠ .releasing)
    (hto : t ≠ owner) : Held current (s.enter t phase) := by
  refine .owned owner h.lock h.handle h.writing h.depth ?_ (taking_enter h.taking hnt t) (fun u => ?_) h.others
  · rw [phase_enter, if_neg (Ne.symm hto), h.idle]
  · rw [phase_enter]
    split
    · exact hnr
    · exact h.releasing u

private theorem read (h : Owned current s owner) (sections : Nat) {info : LockInfo} (hl : info.lock = s.info.lock)
    (ht : info.writeThread = s.info.writeThread) (hd : info.writelockDepth = s.info.writelockDepth) :
    Held current { s.read owner sections with info := info } := by
  refine .owned owner (hl.trans h.lock) (ht.trans h.handle) h.writing (hd.trans h.depth) h.idle h.taking h.releasing ?_
  intro u hu
  refine ⟨(h.others u hu).1, ?_⟩
  change Function.update s.reads owner sections u = 0
  rw [Function.update_of_ne hu, (h.others u hu).2]

private theorem write (h : Owned current s owner) {sections : Nat} {info : LockInfo} (hl : info.lock = s.info.lock)
    (ht : info.writeThread = s.info.writeThread) (hs : 0 < sections)
    (hd : info.writelockDepth = sections % sizeLimit) :
    Held current { s.write owner sections with info := info } := by
  refine .owned owner (hl.trans h.lock) (ht.trans h.handle) ?_ ?_ h.idle h.taking h.releasing ?_
  · change 0 < Function.update s.writes owner sections owner
    rwa [Function.update_self]
  · change _ = Function.update s.writes owner sections owner % sizeLimit
    rwa [Function.update_self]
  · intro u hu
    refine ⟨?_, (h.others u hu).2⟩
    change Function.update s.writes owner sections u = 0
    rw [Function.update_of_ne hu, (h.others u hu).1]

private theorem released (h : Owned current s owner) (hw : s.writes owner = 1) (hr : s.reads owner = 0) {info : LockInfo}
    (hl : info.lock = ⟨0, false⟩) (ht : info.writeThread = 0) :
    Held current { s.write owner (s.writes owner - 1) with info := info } := by
  refine .shared [] hl ht (fun u => ?_) h.taking (fun u => ?_)
  · change Function.update s.writes owner (s.writes owner - 1) u = 0
    rw [Function.update_apply, hw]
    split
    · rfl
    · next hu => exact (h.others u hu).1
  · change 0 = s.reads u + if s.phase u = .releasing then 1 else 0
    rw [if_neg (h.releasing u)]
    by_cases hu : u = owner
    · rw [hu, hr]
    · rw [(h.others u hu).2]

private theorem writeUnlock (h : Owned current s owner)
    (ho : s.info.writelockDepth = 1 → s.writes owner = 1 ∧ s.reads owner = 0) :
    ∃ info, s.info.writeUnlock (current owner) = .ok info ∧
      Held current { s.write owner (s.writes owner - 1) with info := info } := by
  rw [LockInfo.writeUnlock]
  dsimp only
  rw [if_pos h.handle, h.depth, depth_down h.writing]
  by_cases hone : s.writes owner % sizeLimit = 1
  · -- the count reaches zero, and by the condition this was the only section
    obtain ⟨hw, hr⟩ := ho (h.depth.trans hone)
    rw [if_neg (by simp [hw]), SrwLock.releaseExclusive, h.lock, if_pos rfl]
    exact ⟨_, rfl, h.released hw hr rfl rfl⟩
  · have hwriting := h.writing
    have hpos : 0 < (s.writes owner - 1) % sizeLimit := by
      unfold sizeLimit at *
      omega
    rw [if_pos ⟨h.handle, hpos⟩]
    exact ⟨_, rfl, h.write rfl rfl (Nat.lt_of_lt_of_le hpos (Nat.mod_le _ _)) rfl⟩

private theorem own_call (h : Owned current s owner) (call : LockCall) (ho : s.Orderly current owner call) :
    ∃ s', lockStep current s owner call = .ok s' ∧ Held current s' := by
  unfold lockStep
  rw [h.idle]
  cases call with
  | readLock =>
    rw [LockInfo.readLock, if_pos h.handle]
    exact ⟨_, rfl, h.read _ rfl rfl rfl⟩
  | readUnlock =>
    dsimp only
    split
    · exact ⟨s, rfl, h.held⟩
    · rw [LockInfo.readUnlock, if_pos h.handle]
      exact ⟨_, rfl, h.read _ rfl rfl rfl⟩
  | writeLock =>
    rw [LockInfo.writeLock, if_pos h.handle]
    refine ⟨_, rfl, h.write rfl rfl (Nat.succ_pos _) ?_⟩
    rw [h.depth, depth_up]
  | writeUnlock =>
    obtain ⟨info, hunlock, hheld⟩ := h.writeUnlock (ho h.writing)
    rw [if_neg (Nat.ne_of_gt h.writing), hunlock]
    exact ⟨_, rfl, hheld⟩

private theorem other_call (h : Owned current s owner) (hto : t ≠ owner) (hp : s.phase t = .idle) (call : LockCall)
    (ho : s.Orderly current t call) : ∃ s', lockStep current s t call = .ok s' ∧ Held current s' := by
  obtain ⟨hw, hr⟩ := h.others t hto
  have hwaits : ∀ phase, phase ≠ .taking → phase ≠ .releasing → Held current (s.enter t phase) :=
    fun phase hnt hnr => h.enter hnt hnr hto
  unfold lockStep
  rw [hp]
  cases call with
  | readLock =>
    have hne : s.info.writeThread ≠ current t := fun he => absurd hw (Nat.ne_of_gt (ho he))
    rw [LockInfo.readLock, if_neg hne]
    exact ⟨_, rfl, hwaits .sharing (by simp) (by simp)⟩
  | readUnlock => exact ⟨s, if_pos hr, h.held⟩
  | writeLock =>
    have hne : s.info.writeThread ≠ current t := fun he => absurd hw (Nat.ne_of_gt (ho he))
    rw [LockInfo.writeLock, if_neg hne]
    exact ⟨_, rfl, hwaits .excluding (by simp) (by simp)⟩
  | writeUnlock => exact ⟨s, if_pos hw, h.held⟩

private theorem step (h : Owned current s owner) (t : ι) (call : LockCall)
    (ho : s.phase t = .idle → s.Orderly current t call) :
    ∃ s', lockStep current s t call = .ok s' ∧ Held current s' := by
  cases hp : s.phase t with
  | idle =>
    by_cases hto : t = owner
    · subst hto
      exact h.own_call call (ho hp)
    · exact h.other_call hto hp call (ho hp)
  | sharing =>
    refine ⟨s, ?_, h.held⟩
    simp [lockStep, hp, SrwLock.acquireShared, h.lock]
  | excluding =>
    refine ⟨s, ?_, h.held⟩
    simp [lockStep, hp, SrwLock.acquireExclusive, h.lock]
  | taking => exact absurd hp (h.taking t)
  | releasing => exact absurd hp (h.releasing t)

end Owned

theorem lockStep_held (hpos : ∀ t, current t ≠ 0) (h : Held current s) (t : ι) (call : LockCall)
    (ho : s.phase t = .idle → s.Orderly current t call) :
    ∃ s', lockStep current s t call = .ok s' ∧ Held current s' := by
  cases h with
  | shared holders lock handle writes taking shares =>
    exact shared_step hpos t call lock handle writes taking shares
  | taken owner lock handle writes taking shares =>
    exact taken_step t call hpos lock handle writes taking shares
  | owned owner lock handle writing depth idle taking releasing others =>
    have howned : Owned current s owner := ⟨lock, handle, writing, depth, idle, taking, releasing, others⟩
    exact howned.step t call ho

theorem orderly_held (hpos : ∀ t, current t ≠ 0) (h : Held current s)
    (hrun : Relation.ReflTransGen (OrderlyStepped current) s s') : Held current s' := by
  induction hrun with
  | refl => exact h
  | tail _ hstep ih =>
    obtain ⟨t, call, ho, he⟩ := hstep
    obtain ⟨s₁, he₁, h₁⟩ := lockStep_held hpos ih t call ho
    rw [he] at he₁
    rwa [Except.ok.inj he₁]

/-- A lock that finds its own handle in a thread that is not writing breaks the exclusion. -/
theorem lock_breaks (hpos : ∀ t, current t ≠ 0) (h : Held current s) (hi : s.phase t = .idle)
    (hc : call = .readLock ∨ call = .writeLock) (ho : ¬ s.Orderly current t call) :
    ∃ s', lockStep current s t call = .ok s' ∧ ¬ s'.Exclusive := by
  have hnot : s.info.writeThread = current t ∧ s.writes t = 0 := by
    rcases hc with rfl | rfl
    all_goals
      obtain ⟨he, hw⟩ := Classical.not_imp.mp ho
      exact ⟨he, Nat.eq_zero_of_not_pos hw⟩
  obtain ⟨he, hw⟩ := hnot
  cases h with
  | shared holders lock handle => exact absurd (he.symm.trans handle) (hpos t)
  | taken owner lock handle => exact absurd (he.symm.trans handle) (hpos t)
  | owned owner lock handle writing =>
    have hne : owner ≠ t := by
      rintro rfl
      exact absurd hw (Nat.ne_of_gt writing)
    unfold lockStep
    rw [hi]
    rcases hc with rfl | rfl
    · rw [LockInfo.readLock, if_pos he]
      refine ⟨_, rfl, fun hx => ?_⟩
      obtain ⟨-, hr⟩ := hx owner t hne writing
      change Function.update s.reads t (s.reads t + 1) t = 0 at hr
      rw [Function.update_self] at hr
      cases hr
    · rw [LockInfo.writeLock, if_pos he]
      refine ⟨_, rfl, fun hx => ?_⟩
      have hwriting : 0 < Function.update s.writes t (s.writes t + 1) owner := by
        rwa [Function.update_of_ne hne]
      obtain ⟨hr, -⟩ := hx owner t hne hwriting
      change Function.update s.writes t (s.writes t + 1) t = 0 at hr
      rw [Function.update_self] at hr
      cases hr

/-- A write unlock that counts down to zero inside another section of its thread lets an idle
thread write beside it. -/
theorem unlock_breaks (hpos : ∀ t, current t ≠ 0) (h : Held current s) (hi : s.phase t = .idle)
    (ho : ¬ s.Orderly current t .writeUnlock) {u : ι} (hne : u ≠ t) (hu : s.phase u = .idle) :
    ∃ s₁, lockStep current s t .writeUnlock = .ok s₁ ∧
      ∃ s₂, Relation.ReflTransGen (Stepped current) s₁ s₂ ∧ ¬ s₂.Exclusive := by
  obtain ⟨hwriting, hrest⟩ := Classical.not_imp.mp ho
  obtain ⟨hone, hinside⟩ := Classical.not_imp.mp hrest
  cases h with
  | shared holders lock handle writes => exact absurd (writes t) (Nat.ne_of_gt hwriting)
  | taken owner lock handle writes => exact absurd (writes t) (Nat.ne_of_gt hwriting)
  | owned owner lock handle writing depth idle taking releasing others =>
    have hto : t = owner := by
      by_contra hto
      exact absurd (others t hto).1 (Nat.ne_of_gt hwriting)
    subst hto
    let info : LockInfo := ⟨⟨0, false⟩, 0, 0, s.info.readlockDepth⟩
    let s₁ : LockState ι := { s.write t (s.writes t - 1) with info := info }
    have hunlock : lockStep current s t .writeUnlock = .ok s₁ := by
      have hdown : sizeSub s.info.writelockDepth 1 = 0 := by
        rw [hone]
        rfl
      unfold lockStep
      rw [hi]
      simp [Nat.ne_of_gt hwriting, LockInfo.writeUnlock, handle, hdown, SrwLock.releaseExclusive, lock, s₁, info]
    let s₂ := s₁.enter u .excluding
    let s₃ := { s₂.enter u .taking with info := { info with lock := ⟨0, true⟩ } }
    have hcheck : lockStep current s₁ u .writeLock = .ok s₂ := by
      have hu₁ : s₁.phase u = .idle := hu
      unfold lockStep
      rw [hu₁]
      simp [LockInfo.writeLock, s₁, info, s₂, Ne.symm (hpos u)]
    have hacquire : lockStep current s₂ u .writeLock = .ok s₃ := by
      have hu₂ : s₂.phase u = .excluding := (phase_enter s₁ u u _).trans (if_pos rfl)
      unfold lockStep
      rw [hu₂]
      rfl
    have htake : lockStep current s₃ u .writeLock =
        .ok { (s₃.write u (s₃.writes u + 1)).enter u .idle with info := s₃.info.takeWrite (current u) } := by
      have hu₃ : s₃.phase u = .taking := (phase_enter s₂ u u _).trans (if_pos rfl)
      unfold lockStep
      rw [hu₃]
    refine ⟨s₁, hunlock, _, .tail (.tail (.tail .refl ⟨u, _, hcheck⟩) ⟨u, _, hacquire⟩) ⟨u, _, htake⟩, ?_⟩
    intro hx
    have hu₄ : 0 < Function.update s₃.writes u (s₃.writes u + 1) u := by
      rw [Function.update_self]
      exact Nat.succ_pos _
    obtain ⟨hw, hr⟩ := hx u t hne hu₄
    change Function.update (Function.update s.writes t (s.writes t - 1)) u _ t = 0 at hw
    rw [Function.update_of_ne (Ne.symm hne), Function.update_self] at hw
    exact hinside ⟨by omega, hr⟩

/-- Threads whose every call meets the condition exclude each other. The first lock that does not
meet it breaks this at once, and the first unlock that does not meet it lets an idle thread do so. -/
theorem write_lock_excludes {s : LockState ι}
    (hrun : Relation.ReflTransGen (OrderlyStepped getCurrentThread) .start s) :
    s.Exclusive ∧
    (∀ t call, s.phase t = .idle → call = .readLock ∨ call = .writeLock →
      ¬ s.Orderly getCurrentThread t call →
      ∃ s', lockStep getCurrentThread s t call = .ok s' ∧ ¬ s'.Exclusive) ∧
    ∀ t u, s.phase t = .idle → ¬ s.Orderly getCurrentThread t .writeUnlock → u ≠ t → s.phase u = .idle →
      ∃ s₁, lockStep getCurrentThread s t .writeUnlock = .ok s₁ ∧
        ∃ s₂, Relation.ReflTransGen (Stepped getCurrentThread) s₁ s₂ ∧ ¬ s₂.Exclusive := by
  have hpos : ∀ t : ι, getCurrentThread t ≠ 0 := fun _ => by simp [getCurrentThread]
  have h := orderly_held hpos .start hrun
  refine ⟨h.exclusive, ?_, ?_⟩
  · intro t call hi hc ho
    exact lock_breaks hpos h hi hc ho
  · intro t u hi ho hne hu
    exact unlock_breaks hpos h hi ho hne hu

end Safety

/-- One of two threads writes while the other waits for it, and then the other does. -/
theorem write_lock_excludes_two :
    ∃ s s' : LockState Bool, Relation.ReflTransGen (OrderlyStepped getCurrentThread) .start s ∧
      0 < s.writes true ∧ s.phase false = .excluding ∧ s.Exclusive ∧
      Relation.ReflTransGen (OrderlyStepped getCurrentThread) .start s' ∧ 0 < s'.writes false ∧ s'.Exclusive := by
  have hfirst : Relation.ReflTransGen (OrderlyStepped getCurrentThread) (.start : LockState Bool) _ :=
    ((((Relation.ReflTransGen.refl.tail
      ⟨true, .writeLock, fun _ h => absurd h (by decide), rfl⟩).tail
      ⟨false, .writeLock, fun _ h => absurd h (by decide), rfl⟩).tail
      ⟨true, .writeLock, fun h => absurd h (by decide), rfl⟩).tail
      ⟨true, .writeLock, fun h => absurd h (by decide), rfl⟩).tail
      ⟨false, .writeLock, fun h => absurd h (by decide), rfl⟩
  have hsecond : Relation.ReflTransGen (OrderlyStepped getCurrentThread) (.start : LockState Bool) _ :=
    ((hfirst.tail
      ⟨true, .writeUnlock, fun _ _ _ => ⟨rfl, rfl⟩, rfl⟩).tail
      ⟨false, .writeLock, fun h => absurd h (by decide), rfl⟩).tail
      ⟨false, .writeLock, fun h => absurd h (by decide), rfl⟩
  exact ⟨_, _, hfirst, Nat.succ_pos _, rfl, (write_lock_excludes hfirst).1, hsecond, Nat.succ_pos _,
    (write_lock_excludes hsecond).1⟩

/-- A second thread takes the write lock that the first one holds. -/
theorem two_threads_write :
    ∃ s : LockState Bool, Relation.ReflTransGen (Stepped getCurrentThread) .start s ∧ ¬ s.Exclusive := by
  refine ⟨_, .tail (.tail (.tail (.tail .refl ⟨true, .writeLock, rfl⟩) ⟨true, .writeLock, rfl⟩)
    ⟨true, .writeLock, rfl⟩) ⟨false, .writeLock, rfl⟩, ?_⟩
  intro hx
  obtain ⟨hw, -⟩ := hx true false (by decide) (by decide)
  exact absurd hw (by decide)

end CFlare.Threads
