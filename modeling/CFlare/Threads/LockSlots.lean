import CFlare.Library.Heap
import CFlare.Threads.RwMutex

/-! The array that the entries of all mutexes are in. An id is the number of an entry; one that is free is looked for in
a circle, from where the last one was found. -/
namespace CFlare.Threads
open CFlare.Library

/-- An element of the array: the entry of a mutex, and whether there is one. -/
structure LockSlot where
  isUsed : Bool
  position : Nat
  info : LockInfo
  deriving DecidableEq, Repr

def lockSize : Nat := 56

/-- The static variables, with the array that `infos` points to. -/
structure Locks where
  infos : Nat
  slots : List LockSlot
  infosLen : Nat
  infosFree : Nat
  infosCurpos : Nat
  deriving DecidableEq, Repr

/-- The elements as they are initialised, from a position on. -/
def newSlots (start count : Nat) : List LockSlot := (List.range' start count).map (fun i => ⟨false, i, .unlocked⟩)

namespace Locks

def initial : Locks := ⟨0, [], 0, 0, 0⟩

/-- A larger array. What is behind the old length in it is initialised. -/
def reallocLocks (st : Locks) (realloc : Realloc) (newsize : Nat) : Except Fault Locks :=
  let oldsize := st.infosLen
  let newcount := sizeSub newsize st.infosLen
  let len := lockSize * newsize % sizeLimit
  let newInfos := realloc.answer len
  if newInfos = 0 then .error .assertion
  else if len < lockSize * newsize then .error .overrun
  else .ok { st with
    infos := newInfos
    slots := st.slots.take oldsize ++ newSlots oldsize (newsize - oldsize)
    infosLen := newsize
    infosFree := sizeAdd st.infosFree newcount }

/-- The loop that looks for a free element; the first argument bounds its turns. -/
def search (st : Locks) : Nat → Nat → Except Fault Nat
  | 0, _ => .error .diverged
  | turns + 1, curpos =>
    match st.slots[curpos]? with
    | none => .error .overrun
    | some info =>
      if info.isUsed = false then .ok curpos
      else if st.infosLen = 0 then .error .undefined
      else st.search turns ((curpos + 1) % st.infosLen)

/-- The first call sets up the array; later ones enlarge it when it is full. -/
def ready (st : Locks) (realloc : Realloc) : Except Fault Locks := do
  let st ←
    if st.infos = 0 then ({ st with infosLen := 0, infosFree := 0 } : Locks).reallocLocks realloc 16 else .ok st
  if st.infosFree = 0 then st.reallocLocks realloc (st.infosLen * 2 % sizeLimit) else .ok st

def allocLock (st : Locks) (realloc : Realloc) : Except Fault (Nat × Locks) := do
  let st ← st.ready realloc
  let curpos ← st.search st.infosLen st.infosCurpos
  match st.slots[curpos]? with
  | none => .error .overrun
  | some info =>
    .ok (sizeAdd info.position 1, { st with
      slots := st.slots.set curpos { info with isUsed := true }
      infosFree := sizeSub st.infosFree 1
      infosCurpos := curpos })

/-- The element of an id. An id behind the array is fatal, but not the first one. -/
def getInfo (st : Locks) (id : Nat) : Except Fault LockSlot :=
  if id = 0 then .error .abort
  else if st.infosLen < id - 1 then .error .abort
  else
    match st.slots[id - 1]? with
    | none => .error .overrun
    | some info => .ok info

def freeLock (st : Locks) (lock : Nat) : Except Fault Locks := do
  let info ← st.getInfo lock
  if info.isUsed = false then .error .abort
  else .ok { st with
    slots := st.slots.set (lock - 1) { info with isUsed := false }
    infosFree := sizeAdd st.infosFree 1 }

def unused (st : Locks) : Nat := st.slots.countP (fun info => !info.isUsed)

end Locks

inductive SlotCall where
  | alloc (realloc : Realloc)
  | free (id : Nat)

/-- The array, and the ids that were handed out and not given back. -/
structure SlotTrack where
  st : Locks
  inUse : List Nat

/-- One call. An id that is given back is in use. -/
inductive SlotStep : SlotTrack → SlotCall → SlotTrack → Prop where
  | alloc {t : SlotTrack} {realloc : Realloc} {id : Nat} {st : Locks} (h : t.st.allocLock realloc = .ok (id, st)) :
      SlotStep t (.alloc realloc) ⟨st, id :: t.inUse⟩
  | free {t : SlotTrack} {id : Nat} {st : Locks} (hm : id ∈ t.inUse) (h : t.st.freeLock id = .ok st) :
      SlotStep t (.free id) ⟨st, t.inUse.erase id⟩

inductive SlotRun : List SlotCall → SlotTrack → Prop where
  | start : SlotRun [] ⟨.initial, []⟩
  | call {calls : List SlotCall} {t t' : SlotTrack} {call : SlotCall} (h : SlotRun calls t)
      (hstep : SlotStep t call t') : SlotRun (calls ++ [call]) t'

section Circle

/-- Every position of a circle is met from every other one. -/
theorem circle_meets {len start i : Nat} (hi : i < len) (hstart : start < len) : ∃ j < len, (start + j) % len = i := by
  rcases Nat.lt_or_ge i start with hlt | hge
  · refine ⟨i + len - start, by omega, ?_⟩
    rw [show start + (i + len - start) = i + len by omega, Nat.add_mod_right, Nat.mod_eq_of_lt hi]
  · refine ⟨i - start, by omega, ?_⟩
    rw [show start + (i - start) = i by omega, Nat.mod_eq_of_lt hi]

end Circle

/-- What holds of the array between two calls. -/
structure Locks.Sound (st : Locks) : Prop where
  length : st.slots.length = st.infosLen
  fits : lockSize * st.infosLen < 2^63
  free : st.infosFree = st.unused
  placed : ∀ (i : Nat), ∀ info ∈ st.slots[i]?, info.position = i

section Array
variable {st st' : Locks}

/-- The search ends at a free element if there is one on its way. -/
theorem search_spec (hlen : st.slots.length = st.infosLen) {turns curpos : Nat} (hcur : curpos < st.infosLen)
    (h : ∃ j < turns, ∃ info ∈ st.slots[(curpos + j) % st.infosLen]?, info.isUsed = false) :
    ∃ k, st.search turns curpos = .ok k ∧ ∃ info, st.slots[k]? = some info ∧ info.isUsed = false := by
  induction turns generalizing curpos with
  | zero =>
    obtain ⟨j, hj, -⟩ := h
    exact absurd hj (Nat.not_lt_zero j)
  | succ turns ih =>
    obtain ⟨info, hinfo⟩ : ∃ info, st.slots[curpos]? = some info := ⟨_, List.getElem?_eq_getElem (by omega)⟩
    rw [Locks.search, hinfo]
    by_cases hfree : info.isUsed = false
    · exact ⟨curpos, if_pos hfree, info, hinfo, hfree⟩
    · have hpos : st.infosLen ≠ 0 := by omega
      dsimp only
      rw [if_neg hfree, if_neg hpos]
      apply ih (Nat.mod_lt _ (by omega))
      obtain ⟨j, hj, found, hfound, hunused⟩ := h
      cases j with
      | zero =>
        rw [Nat.add_zero, Nat.mod_eq_of_lt hcur, hinfo] at hfound
        obtain rfl := Option.some.inj hfound
        exact absurd hunused hfree
      | succ j =>
        refine ⟨j, Nat.lt_of_succ_lt_succ hj, found, ?_, hunused⟩
        rw [Nat.mod_add_mod, Nat.add_assoc, Nat.add_comm 1 j]
        exact hfound

theorem newSlots_get (start count : Nat) {i : Nat} {info : LockSlot} (h : (newSlots start count)[i]? = some info) :
    info.isUsed = false ∧ info.position = start + i := by
  rw [newSlots, List.getElem?_map] at h
  obtain ⟨p, hp, rfl⟩ := Option.map_eq_some_iff.mp h
  obtain ⟨hi, rfl⟩ := List.getElem?_eq_some_iff.mp hp
  exact ⟨rfl, by simp⟩

theorem newSlots_unused (start count : Nat) : (newSlots start count).countP (fun info => !info.isUsed) = count := by
  rw [List.countP_eq_length.mpr]
  · simp [newSlots]
  · intro info hm
    obtain ⟨i, hi⟩ := List.getElem?_of_mem hm
    rw [(newSlots_get start count hi).1]
    rfl

/-- A larger array has the old elements and free ones behind them, or could not be allocated. -/
theorem Locks.Sound.realloc (h : st.Sound) (realloc : Realloc) (newsize : Nat) (hmore : st.infosLen < newsize)
    (hnew : lockSize * newsize < sizeLimit) :
    realloc.answer (lockSize * newsize) = 0 ∧ st.reallocLocks realloc newsize = .error .assertion ∨
      ∃ st', st.reallocLocks realloc newsize = .ok st' ∧ st'.Sound ∧ st'.infos ≠ 0 ∧ st'.infosLen = newsize ∧
        st'.infosCurpos = st.infosCurpos ∧ 0 < st'.infosFree ∧
        st'.slots = st.slots ++ newSlots st.infosLen (newsize - st.infosLen) := by
  have hlen : lockSize * newsize % sizeLimit = lockSize * newsize := Nat.mod_eq_of_lt hnew
  have hslots : st.slots.take st.infosLen = st.slots := List.take_of_length_le (Nat.le_of_eq h.length)
  rw [Locks.reallocLocks]
  simp only [hlen, hslots]
  by_cases hnull : realloc.answer (lockSize * newsize) = 0
  · exact .inl ⟨hnull, if_pos hnull⟩
  · right
    have hfits : lockSize * newsize < 2^63 := Nat.lt_of_not_le fun hle => hnull (realloc.limited _ hle)
    have hold : st.unused ≤ st.infosLen := h.length ▸ List.countP_le_length
    have hfree := h.free
    rw [lockSize] at hfits hnew
    have hsub : sizeSub newsize st.infosLen = newsize - st.infosLen := sizeSub_of_le (Nat.le_of_lt hmore) (by omega)
    have hadd : sizeAdd st.infosFree (newsize - st.infosLen) = st.infosFree + (newsize - st.infosLen) :=
      sizeAdd_of_lt (by rw [hfree]; omega)
    rw [if_neg hnull, if_neg (Nat.lt_irrefl _), hsub, hadd]
    refine ⟨_, rfl, ⟨?_, hfits, ?_, ?_⟩, hnull, rfl, rfl, ?_, rfl⟩
    · have hlength := h.length
      simp [newSlots]
      omega
    · show st.infosFree + (newsize - st.infosLen) = List.countP _ _
      rw [List.countP_append, newSlots_unused, hfree]
      rfl
    · intro i info hm
      rcases Nat.lt_or_ge i st.slots.length with hlt | hge
      · rw [List.getElem?_append_left hlt] at hm
        exact h.placed i info hm
      · rw [List.getElem?_append_right hge] at hm
        have hposition := (newSlots_get _ _ hm).2
        rw [h.length] at hge hposition
        omega
    · show 0 < st.infosFree + (newsize - st.infosLen)
      omega

/-- Nothing has been called yet, or there is an array with a current position in it. -/
def Locks.Started (st : Locks) : Prop := st = .initial ∨ st.infos ≠ 0 ∧ st.infosCurpos < st.infosLen

def Locks.Uses (st : Locks) (id : Nat) : Prop := 0 < id ∧ ∃ info ∈ st.slots[id - 1]?, info.isUsed = true

theorem ready_initial (realloc : Realloc) : Locks.initial.ready realloc =
    (Locks.initial.reallocLocks realloc 16 >>= fun st =>
      if st.infosFree = 0 then st.reallocLocks realloc (st.infosLen * 2 % sizeLimit) else .ok st) := rfl

theorem ready_later (h : st.infos ≠ 0) (realloc : Realloc) : st.ready realloc =
    if st.infosFree = 0 then st.reallocLocks realloc (st.infosLen * 2 % sizeLimit) else .ok st := by
  rw [Locks.ready, if_neg h]
  rfl

def Locks.nextSize (st : Locks) : Nat := if st.infosLen = 0 then 16 else st.infosLen * 2

/-- An array of that size is needed, and cannot be had. -/
def Locks.Denied (st : Locks) (realloc : Realloc) : Prop :=
  st.infosFree = 0 ∧ realloc.answer (lockSize * st.nextSize) = 0

theorem Locks.Sound.ready (h : st.Sound) (hstarted : st.Started) (realloc : Realloc) :
    st.Denied realloc ∧ st.ready realloc = .error .assertion ∨
      ∃ st' more, st.ready realloc = .ok st' ∧ st'.Sound ∧ st'.infos ≠ 0 ∧ st'.infosCurpos < st'.infosLen ∧
        0 < st'.infosFree ∧ st'.slots = st.slots ++ more ∧ ∀ info ∈ more, info.isUsed = false := by
  have hnew : ∀ start count, ∀ info ∈ newSlots start count, info.isUsed = false := by
    intro start count info hm
    obtain ⟨i, hi⟩ := List.getElem?_of_mem hm
    exact (newSlots_get start count hi).1
  rcases hstarted with rfl | ⟨hinfos, hcur⟩
  · rw [ready_initial]
    rcases h.realloc realloc 16 (by decide) (by decide) with
      ⟨hdenied, hfail⟩ | ⟨st', he, hsound, hnull, hlen, hcur, hfree, hslots⟩
    · left
      rw [hfail]
      exact ⟨⟨rfl, hdenied⟩, rfl⟩
    · right
      refine ⟨st', _, ?_, hsound, hnull, by rw [hcur, hlen]; decide, hfree, hslots, hnew _ _⟩
      rw [he, fault_ok_bind, if_neg (Nat.ne_of_gt hfree)]
  · rw [ready_later hinfos]
    by_cases hfull : st.infosFree = 0
    · have hfits := h.fits
      rw [lockSize] at hfits
      have hsize : st.infosLen * 2 % sizeLimit = st.infosLen * 2 := Nat.mod_eq_of_lt (by rw [sizeLimit]; omega)
      rw [if_pos hfull, hsize]
      rcases h.realloc realloc (st.infosLen * 2) (by omega) (by rw [lockSize, sizeLimit]; omega) with
        ⟨hdenied, hfail⟩ | ⟨st', he, hsound, hnull, hlen, hcur', hfree, hslots⟩
      · refine .inl ⟨⟨hfull, ?_⟩, hfail⟩
        rw [Locks.nextSize, if_neg (by omega)]
        exact hdenied
      · exact .inr ⟨st', _, he, hsound, hnull, by omega, hfree, hslots, hnew _ _⟩
    · rw [if_neg hfull]
      exact .inr ⟨st, [], rfl, h, hinfos, hcur, Nat.pos_of_ne_zero hfull, (List.append_nil _).symm,
        fun _ hm => by cases hm⟩

theorem Locks.Sound.mark (h : st.Sound) {k : Nat} {info : LockSlot} (hget : st.slots[k]? = some info) (isUsed : Bool)
    {infosFree infosCurpos : Nat}
    (hfree : infosFree = (st.slots.set k { info with isUsed := isUsed }).countP (fun info => !info.isUsed)) :
    Locks.Sound { st with
      slots := st.slots.set k { info with isUsed := isUsed }, infosFree := infosFree, infosCurpos := infosCurpos } := by
  refine ⟨List.length_set.trans h.length, h.fits, hfree, fun i other hm => ?_⟩
  rw [List.getElem?_set] at hm
  split at hm
  · next heq =>
    split at hm
    · obtain rfl := Option.some.inj hm
      subst heq
      exact h.placed k info hget
    · cases hm
  · exact h.placed i other hm

/-- The free elements behind the old array make no id used. -/
theorem uses_append {more : List LockSlot} (hslots : st'.slots = st.slots ++ more)
    (hmore : ∀ info ∈ more, info.isUsed = false) (id : Nat) : st'.Uses id ↔ st.Uses id := by
  rw [Locks.Uses, Locks.Uses, hslots]
  refine and_congr_right fun _ => ?_
  rcases Nat.lt_or_ge (id - 1) st.slots.length with hlt | hge
  · rw [List.getElem?_append_left hlt]
  · rw [List.getElem?_append_right hge, List.getElem?_eq_none hge]
    constructor
    · rintro ⟨info, hm, hused⟩
      rw [hmore info (List.mem_of_getElem? hm)] at hused
      cases hused
    · rintro ⟨info, hm, -⟩
      cases hm

theorem uses_mark {k : Nat} {info : LockSlot} (hget : st.slots[k]? = some info) (isUsed : Bool) (hst : st'.slots =
    st.slots.set k { info with isUsed := isUsed }) (id : Nat) :
    st'.Uses id ↔ if id = k + 1 then isUsed = true else st.Uses id := by
  have hlt : k < st.slots.length := (List.getElem?_eq_some_iff.mp hget).1
  rw [Locks.Uses, Locks.Uses, hst]
  by_cases heq : id = k + 1
  · subst heq
    rw [if_pos rfl, Nat.add_sub_cancel, List.getElem?_set_self hlt]
    simp
  · rw [if_neg heq]
    refine and_congr_right fun hpos => ?_
    rw [List.getElem?_set_ne (by omega)]

theorem Locks.Sound.allocLock (h : st.Sound) (hstarted : st.Started) (realloc : Realloc) :
    st.Denied realloc ∧ st.allocLock realloc = .error .assertion ∨
      ∃ id st', st.allocLock realloc = .ok (id, st') ∧ st'.Sound ∧ (st'.infos ≠ 0 ∧ st'.infosCurpos < st'.infosLen) ∧
        (1 ≤ id ∧ id ≤ st'.infosLen) ∧ ¬ st.Uses id ∧ (∀ other, st'.Uses other ↔ other = id ∨ st.Uses other) ∧
        ∀ other, st.Uses other → st'.slots[other - 1]? = st.slots[other - 1]? := by
  rcases h.ready hstarted realloc with ⟨hdenied, hfail⟩ | ⟨mid, more, hready, hsound, hinfos, hcur, hpos, hslots, hmore⟩
  · left
    rw [Locks.allocLock, hfail]
    exact ⟨hdenied, rfl⟩
  · right
    obtain ⟨free, hmem, hunused⟩ := List.countP_pos_iff.mp (hsound.free ▸ hpos)
    obtain ⟨i, hi⟩ := List.getElem?_of_mem hmem
    have hlt : i < mid.infosLen := hsound.length ▸ (List.getElem?_eq_some_iff.mp hi).1
    obtain ⟨j, hj, hmeets⟩ := circle_meets hlt hcur
    obtain ⟨k, hsearch, info, hget, hfree⟩ := search_spec hsound.length hcur
      ⟨j, hj, free, hmeets ▸ hi, by simpa using hunused⟩
    have hk : k < mid.slots.length := (List.getElem?_eq_some_iff.mp hget).1
    have hlength := hsound.length
    have hfits := hsound.fits
    rw [lockSize] at hfits
    have hcount : mid.infosFree ≤ mid.infosLen := hsound.free ▸ hlength ▸ List.countP_le_length
    have hid : sizeAdd info.position 1 = k + 1 := by
      rw [hsound.placed k info hget, sizeAdd_of_lt (by rw [sizeLimit]; omega)]
    have hless : sizeSub mid.infosFree 1 = mid.infosFree - 1 := sizeSub_of_le hpos (by rw [sizeLimit]; omega)
    have hmarked : mid.infosFree - 1 =
        (mid.slots.set k { info with isUsed := true }).countP (fun info => !info.isUsed) := by
      have hgetElem : mid.slots[k] = info := (List.getElem?_eq_some_iff.mp hget).2
      rw [List.countP_set hk, hgetElem, hfree, hsound.free]
      rfl
    have hmid := uses_append hslots hmore
    have hunusedId : ∀ id, id - 1 = k → ¬ st.Uses id := by
      intro id heq hused
      obtain ⟨-, other, hother, hused⟩ := (hmid id).mpr hused
      rw [heq, hget] at hother
      obtain rfl := Option.some.inj hother
      rw [hfree] at hused
      cases hused
    refine ⟨k + 1, _, ?_, hsound.mark hget true hmarked, ⟨hinfos, hlength ▸ hk⟩, ⟨Nat.succ_pos k, hlength ▸ hk⟩, ?_,
      ?_, ?_⟩
    · rw [Locks.allocLock, hready, fault_ok_bind, hsearch, fault_ok_bind, hget]
      simp only [hid, hless]
    · exact fun hused => hunusedId (k + 1) (Nat.add_sub_cancel k 1) hused
    · intro other
      rw [uses_mark hget true rfl, hmid]
      by_cases heq : other = k + 1 <;> simp [heq]
    · intro other hused
      have hold : other - 1 < st.slots.length := by
        obtain ⟨-, found, hfound, -⟩ := hused
        exact (List.getElem?_eq_some_iff.mp hfound).1
      have hne : k ≠ other - 1 := fun heq => hunusedId other heq.symm hused
      dsimp only
      rw [List.getElem?_set_ne hne, hslots, List.getElem?_append_left hold]

theorem Locks.Sound.getInfo (h : st.Sound) {id : Nat} (hused : st.Uses id) :
    ∃ info, st.getInfo id = .ok info ∧ st.slots[id - 1]? = some info ∧ info.isUsed = true ∧ info.position + 1 = id := by
  obtain ⟨hpos, info, hget, hinfo⟩ := hused
  have hlt : id - 1 < st.slots.length := (List.getElem?_eq_some_iff.mp hget).1
  have hlength := h.length
  have hposition := h.placed _ info hget
  refine ⟨info, ?_, hget, hinfo, by omega⟩
  rw [Locks.getInfo, if_neg (by omega), if_neg (by omega), hget]

theorem Locks.Sound.freeLock (h : st.Sound) {id : Nat} (hused : st.Uses id) :
    ∃ st', st.freeLock id = .ok st' ∧ st'.Sound ∧ st'.infos = st.infos ∧ st'.infosLen = st.infosLen ∧
      st'.infosCurpos = st.infosCurpos ∧ (∀ other, st'.Uses other ↔ other ≠ id ∧ st.Uses other) ∧
      ∀ other, other ≠ id → st.Uses other → st'.slots[other - 1]? = st.slots[other - 1]? := by
  obtain ⟨info, hgetInfo, hget, hinfo, hposition⟩ := h.getInfo hused
  have hlt : id - 1 < st.slots.length := (List.getElem?_eq_some_iff.mp hget).1
  have hpos : 0 < id := hused.1
  have hlength := h.length
  have hfits := h.fits
  rw [lockSize] at hfits
  have hcount : st.infosFree ≤ st.infosLen := h.free ▸ hlength ▸ List.countP_le_length
  have hmore : sizeAdd st.infosFree 1 = st.infosFree + 1 := sizeAdd_of_lt (by rw [sizeLimit]; omega)
  have hmarked : st.infosFree + 1 =
      (st.slots.set (id - 1) { info with isUsed := false }).countP (fun info => !info.isUsed) := by
    have hgetElem : st.slots[id - 1] = info := (List.getElem?_eq_some_iff.mp hget).2
    rw [List.countP_set hlt, hgetElem, hinfo, h.free]
    rfl
  refine ⟨_, ?_, h.mark hget false hmarked, rfl, rfl, rfl, ?_, ?_⟩
  · rw [Locks.freeLock, hgetInfo, fault_ok_bind, hinfo, hmore]
    rfl
  · intro other
    rw [uses_mark hget false rfl, Nat.sub_add_cancel hpos]
    by_cases heq : other = id <;> simp [heq]
  · intro other hne hother
    have hother := hother.1
    exact List.getElem?_set_ne (by omega)

end Array

/-- What holds between two calls: the ids in use are the numbers of the used elements. -/
structure SlotTrack.Kept (t : SlotTrack) : Prop where
  sound : t.st.Sound
  started : t.st.Started
  used : ∀ id, id ∈ t.inUse ↔ t.st.Uses id
  nodup : t.inUse.Nodup

section Runs
variable {calls : List SlotCall} {call : SlotCall} {t t' : SlotTrack}

/-- One call keeps the books, leaves a current position in the array, and does not touch the elements of other ids. -/
theorem SlotTrack.Kept.step (h : t.Kept) (hstep : SlotStep t call t') :
    t'.Kept ∧ t'.st.infosCurpos < t'.st.infosLen ∧
      ∀ id ∈ t.inUse, id ∈ t'.inUse → t'.st.slots[id - 1]? = t.st.slots[id - 1]? := by
  cases hstep with
  | @alloc realloc id st halloc =>
    rcases h.sound.allocLock h.started realloc with ⟨-, hfail⟩ | ⟨new, st', he, hsound, harray, -, hfresh, huses, hkeeps⟩
    · rw [hfail] at halloc
      cases halloc
    · rw [he] at halloc
      obtain ⟨rfl, rfl⟩ := Prod.mk.inj (Except.ok.inj halloc)
      refine ⟨⟨hsound, .inr harray, fun other => ?_, ?_⟩, harray.2,
        fun other hm _ => hkeeps other ((h.used other).mp hm)⟩
      · rw [List.mem_cons, h.used, huses]
      · exact List.nodup_cons.mpr ⟨fun hm => hfresh ((h.used new).mp hm), h.nodup⟩
  | @free id st hm hfree =>
    have hused := (h.used id).mp hm
    obtain ⟨st', he, hsound, hinfos, hlen, hcur, huses, hkeeps⟩ := h.sound.freeLock hused
    rw [he] at hfree
    obtain rfl := Except.ok.inj hfree
    have harray : t.st.infos ≠ 0 ∧ t.st.infosCurpos < t.st.infosLen := by
      rcases h.started with hinitial | harray
      · rw [hinitial] at hused
        obtain ⟨-, info, hinfo, -⟩ := hused
        cases hinfo
      · exact harray
    rw [← hinfos, ← hlen, ← hcur] at harray
    refine ⟨⟨hsound, .inr harray, fun other => ?_, h.nodup.erase id⟩, harray.2, fun other hother hin => ?_⟩
    · rw [h.nodup.mem_erase_iff, h.used, huses]
    · exact hkeeps other (h.nodup.mem_erase_iff.mp hin).1 ((h.used other).mp hother)

theorem SlotRun.kept (h : SlotRun calls t) : t.Kept := by
  induction h with
  | start =>
    refine ⟨⟨rfl, by decide, rfl, fun i info hm => ?_⟩, .inl rfl, fun id => ?_, List.nodup_nil⟩
    · cases hm
    · refine iff_of_false List.not_mem_nil ?_
      rintro ⟨-, info, hinfo, -⟩
      cases hinfo
  | call _ hstep ih => exact (ih.step hstep).1

end Runs

/-- Whatever ids were handed out and taken back, one call after the other: the count of the free elements is right, each
id in use leads to its own element, and can be taken back. The next call that hands out an id finds one that is not in
use, unless the array is full and cannot be made larger; and after each call the current position is in the array, and
the ids in use before and after it have kept their elements. -/
theorem lock_slots {calls : List SlotCall} {t : SlotTrack} (h : SlotRun calls t) :
    t.st.infosFree = t.st.unused ∧ t.inUse.Nodup ∧
      (∀ id ∈ t.inUse, ∃ info, t.st.getInfo id = .ok info ∧ info.isUsed = true ∧ info.position + 1 = id) ∧
      (∀ id ∈ t.inUse, ∃ st, t.st.freeLock id = .ok st) ∧
      (∀ realloc, t.st.Denied realloc ∧ t.st.allocLock realloc = .error .assertion ∨
        ∃ id st, t.st.allocLock realloc = .ok (id, st) ∧ 1 ≤ id ∧ id ≤ st.infosLen ∧ id ∉ t.inUse) ∧
      ∀ call t', SlotStep t call t' → t'.st.infosFree = t'.st.unused ∧ t'.st.infosCurpos < t'.st.infosLen ∧
        ∀ id ∈ t.inUse, id ∈ t'.inUse → t'.st.getInfo id = t.st.getInfo id := by
  have hkept := h.kept
  refine ⟨hkept.sound.free, hkept.nodup, fun id hm => ?_, fun id hm => ?_, fun realloc => ?_, fun call t' hstep => ?_⟩
  · obtain ⟨info, he, -, hinfo, hposition⟩ := hkept.sound.getInfo ((hkept.used id).mp hm)
    exact ⟨info, he, hinfo, hposition⟩
  · obtain ⟨st, he, -⟩ := hkept.sound.freeLock ((hkept.used id).mp hm)
    exact ⟨st, he⟩
  · rcases hkept.sound.allocLock hkept.started realloc with hfail | ⟨id, st, he, -, -, hrange, hfresh, -⟩
    · exact .inl hfail
    · exact .inr ⟨id, st, he, hrange.1, hrange.2, fun hm => hfresh ((hkept.used id).mp hm)⟩
  · obtain ⟨hkept', hcur, hkeeps⟩ := hkept.step hstep
    refine ⟨hkept'.sound.free, hcur, fun id hm hm' => ?_⟩
    obtain ⟨info, he, hget, -⟩ := hkept.sound.getInfo ((hkept.used id).mp hm)
    obtain ⟨info', he', hget', -⟩ := hkept'.sound.getInfo ((hkept'.used id).mp hm')
    rw [he, he', ← Option.some.inj (hget'.symm.trans ((hkeeps id hm hm').trans hget))]

def littleRealloc : Realloc := .upTo 4096 (by decide)

/-- The array when so many ids have been handed out, up to all that there are at first. -/
def handedOut : Nat → Locks
  | 0 => Locks.initial
  | n + 1 => ⟨4096, (List.range 16).map (fun i => ⟨decide (i ≤ n), i, .unlocked⟩), 16, 15 - n, n⟩

private theorem handedOut_run {n : Nat} (hn : n ≤ 16) :
    ∃ inUse, SlotRun (List.replicate n (.alloc littleRealloc)) ⟨handedOut n, inUse⟩ ∧
      ∀ id, 0 < id → id ≤ n → id ∈ inUse := by
  induction n with
  | zero => exact ⟨[], .start, fun id hpos hle => absurd hle (Nat.not_le.mpr hpos)⟩
  | succ n ih =>
    obtain ⟨inUse, hrun, hall⟩ := ih (Nat.le_of_succ_le hn)
    have halloc : ∀ k < 16, (handedOut k).allocLock littleRealloc = .ok (k + 1, handedOut (k + 1)) := by decide +kernel
    rw [List.replicate_succ']
    refine ⟨(n + 1) :: inUse, .call hrun (.alloc (halloc n hn)), fun id hpos hle => ?_⟩
    rcases Nat.le_succ_iff.mp hle with hle | rfl
    · exact List.mem_cons_of_mem _ (hall id hpos hle)
    · exact List.mem_cons_self

/-- All ids are handed out and one is given back: it is found again from the other end, and then the array grows. -/
theorem lock_slots_full : ∃ t, SlotRun (List.replicate 16 (.alloc littleRealloc) ++ [.free 3] ++ [.alloc littleRealloc] ++
      [.alloc littleRealloc]) t ∧ 3 ∈ t.inUse ∧ 17 ∈ t.inUse ∧ t.st.infosLen = 32 ∧ t.st.infosFree = t.st.unused ∧
    ∀ id ∈ t.inUse, ∃ info, t.st.getInfo id = .ok info ∧ info.isUsed = true ∧ info.position + 1 = id := by
  obtain ⟨inUse, hfull, hall⟩ := handedOut_run (Nat.le_refl 16)
  have hcalls : ∃ freed reused grown, (handedOut 16).freeLock 3 = .ok freed ∧
      freed.allocLock littleRealloc = .ok (3, reused) ∧ reused.allocLock littleRealloc = .ok (17, grown) ∧
      grown.infosLen = 32 := ⟨_, _, _, rfl, rfl, rfl, rfl⟩
  obtain ⟨freed, reused, grown, hfree, hagain, hgrows, hlen⟩ := hcalls
  have hrun := SlotRun.call (.call (.call hfull (.free (hall 3 (by decide) (by decide)) hfree)) (.alloc hagain))
    (.alloc hgrows)
  obtain ⟨hcount, -, hlead, -⟩ := lock_slots hrun
  exact ⟨_, hrun, List.mem_cons_of_mem _ List.mem_cons_self, List.mem_cons_self, hlen, hcount, hlead⟩

end CFlare.Threads
