import CFlare.Library.Machine
import Mathlib.Data.Finset.Basic
import Mathlib.Logic.Function.Basic

/-! A lock that one writer holds alone, or any number of readers, and a record of who holds it how. To let go of
a lock that one does not hold is undefined. -/
namespace CFlare.Library

structure SharedLock (ι : Type) where
  writer : Option ι
  readers : Finset ι

/-- How a lock is held. -/
inductive LockMode where
  | reading
  | writing
  deriving DecidableEq, Repr

namespace SharedLock
variable {ι : Type}

def free : SharedLock ι := ⟨none, ∅⟩

section Calls
variable [DecidableEq ι]

/-- Nothing is returned where the caller has to wait. -/
def readLock (lock : SharedLock ι) (i : ι) : Option (SharedLock ι) :=
  if lock.writer = none then some { lock with readers := insert i lock.readers } else none

def writeLock (lock : SharedLock ι) (i : ι) : Option (SharedLock ι) :=
  if lock.writer = none ∧ lock.readers = ∅ then some { lock with writer := some i } else none

def readUnlock (lock : SharedLock ι) (i : ι) : Except Fault (SharedLock ι) :=
  if i ∈ lock.readers then .ok { lock with readers := lock.readers.erase i } else .error .undefined

def writeUnlock (lock : SharedLock ι) (i : ι) : Except Fault (SharedLock ι) :=
  if lock.writer = some i then .ok { lock with writer := none } else .error .undefined

end Calls

/-- The lock is held as the record says. -/
structure Held (lock : SharedLock ι) (mode : ι → Option LockMode) : Prop where
  writer : ∀ i, lock.writer = some i ↔ mode i = some .writing
  readers : ∀ i, i ∈ lock.readers ↔ mode i = some .reading
  exclusive : lock.writer ≠ none → lock.readers = ∅

variable {lock : SharedLock ι} {mode : ι → Option LockMode} {i j : ι}

theorem held_free (h : ∀ i, mode i = none) : (free : SharedLock ι).Held mode := by
  refine ⟨fun i => ?_, fun i => ?_, fun _ => rfl⟩
  · rw [h i]
    exact ⟨nofun, nofun⟩
  · rw [h i]
    exact ⟨fun hm => absurd hm (Finset.notMem_empty i), nofun⟩

namespace Held

theorem alone (h : lock.Held mode) (hi : mode i = some .writing) (hj : j ≠ i) : mode j = none := by
  have hwriter := (h.writer i).mpr hi
  cases hm : mode j with
  | none => rfl
  | some m =>
    cases m with
    | reading =>
      have hreader := (h.readers j).mpr hm
      rw [h.exclusive (by rw [hwriter]; exact Option.some_ne_none i)] at hreader
      exact absurd hreader (Finset.notMem_empty j)
    | writing =>
      have hsame := (h.writer j).mpr hm
      rw [hwriter] at hsame
      exact absurd (Option.some.inj hsame).symm hj

theorem noWriter (h : lock.Held mode) (hm : ∀ i, mode i ≠ some .writing) : lock.writer = none := by
  cases hw : lock.writer with
  | none => rfl
  | some i => exact absurd ((h.writer i).mp hw) (hm i)

theorem noReaders (h : lock.Held mode) (hm : ∀ i, mode i ≠ some .reading) : lock.readers = ∅ :=
  Finset.eq_empty_of_forall_notMem (fun i hi => hm i ((h.readers i).mp hi))

section Calls
variable [DecidableEq ι]

/-- Someone who holds the lock as before. -/
theorem stays (h : lock.Held mode) {m : Option LockMode} (hm : mode i = m) :
    lock.Held (Function.update mode i m) := by
  rw [← hm, Function.update_eq_self]
  exact h

/-- A reader waits for a writer only. -/
theorem readLock (h : lock.Held mode) :
    (∃ lock', lock.readLock i = some lock' ∧ lock'.Held (Function.update mode i (some .reading))) ∨
      lock.readLock i = none ∧ ∃ j, mode j = some .writing := by
  unfold SharedLock.readLock
  cases hw : lock.writer with
  | some j => exact .inr ⟨rfl, j, (h.writer j).mp hw⟩
  | none =>
    refine .inl ⟨_, rfl, fun j => ?_, fun j => ?_, fun hne => absurd rfl hne⟩
    · rw [Function.update_apply]
      split
      · exact ⟨nofun, nofun⟩
      · rw [← h.writer j, hw]
    · rw [Function.update_apply, Finset.mem_insert]
      split
      · next he => exact iff_of_true (.inl he) rfl
      · next hne => rw [or_iff_right hne, h.readers j]

/-- A writer waits for anyone. -/
theorem writeLock (h : lock.Held mode) (hi : mode i = none) :
    (∃ lock', lock.writeLock i = some lock' ∧ lock'.Held (Function.update mode i (some .writing))) ∨
      lock.writeLock i = none ∧ ∃ j, mode j ≠ none := by
  unfold SharedLock.writeLock
  split
  · next hfree =>
    obtain ⟨hw, hr⟩ := hfree
    refine .inl ⟨_, rfl, fun j => ?_, fun j => ?_, fun _ => hr⟩
    · rw [Function.update_apply]
      split
      · next he => exact iff_of_true (congrArg some he.symm) rfl
      · next hne =>
        rw [← h.writer j, hw]
        exact ⟨fun he => absurd (Option.some.inj he).symm hne, nofun⟩
    · rw [Function.update_apply]
      split
      · next he =>
        subst he
        rw [h.readers, hi]
        exact ⟨nofun, nofun⟩
      · exact h.readers j
  · next hheld =>
    refine .inr ⟨rfl, ?_⟩
    by_contra hnone
    have hmode : ∀ j, mode j = none := fun j => by
      by_contra hj
      exact hnone ⟨j, hj⟩
    exact hheld ⟨h.noWriter (fun j => by rw [hmode j]; exact nofun), h.noReaders (fun j => by rw [hmode j]; exact nofun)⟩

theorem readUnlock (h : lock.Held mode) (hi : mode i = some .reading) :
    ∃ lock', lock.readUnlock i = .ok lock' ∧ lock'.Held (Function.update mode i none) := by
  refine ⟨_, if_pos ((h.readers i).mpr hi), fun j => ?_, fun j => ?_, fun hne => ?_⟩
  · rw [Function.update_apply]
    split
    · next he =>
      subst he
      rw [h.writer, hi]
      exact ⟨nofun, nofun⟩
    · exact h.writer j
  · rw [Function.update_apply, Finset.mem_erase]
    split
    · next he => exact ⟨fun hm => absurd he hm.1, nofun⟩
    · next hne => rw [and_iff_right hne, h.readers j]
  · have hempty := h.exclusive hne
    change lock.readers.erase i = ∅
    rw [hempty, Finset.erase_empty]

theorem writeUnlock (h : lock.Held mode) (hi : mode i = some .writing) :
    ∃ lock', lock.writeUnlock i = .ok lock' ∧ lock'.Held (Function.update mode i none) := by
  have hw := (h.writer i).mpr hi
  refine ⟨_, if_pos hw, fun j => ?_, fun j => ?_, fun hne => absurd rfl hne⟩
  · rw [Function.update_apply]
    split
    · exact ⟨nofun, nofun⟩
    · next hne =>
      rw [h.alone hi hne]
      exact ⟨nofun, nofun⟩
  · rw [Function.update_apply]
    split
    · next he =>
      subst he
      rw [h.readers, hi]
      exact ⟨nofun, nofun⟩
    · exact h.readers j

end Calls

end Held

end SharedLock

end CFlare.Library
