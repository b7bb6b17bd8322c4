import CFlare.Http.Hosts
import Mathlib.Data.List.Nodup

/-! Runs of the host table. Descriptors hold up, but the array is doubled for each new host, whether or not there is a
free slot, and nothing is released when the table is unloaded. -/
namespace CFlare.Http
open CFlare.Library CFlare.Storage

inductive HostCall where
  | new (domain : CString) (realloc : Realloc)
  | delete (host : Nat)

/-- A host that was created and not deleted: its descriptor, and where the copy of its name and its routes are. -/
structure LiveHost where
  descriptor : Nat
  domain : CString
  name : Nat
  staticRoutes : Nat
  deriving DecidableEq

/-- The table with what its callers know: the live hosts, how many there were at most, and whether the array was ever
made larger while a slot was free. -/
structure HostTrack where
  st : Hosts
  live : List LiveHost
  peak : Nat
  early : Prop

/-- One call. A descriptor that is deleted is that of a live host. -/
inductive HostStep : HostTrack → HostCall → HostTrack → Prop where
  | new {t : HostTrack} {domain : CString} {realloc : Realloc} {host : Nat} {st : Hosts}
      (h : t.st.hostNew domain realloc = .ok (host, st)) :
      HostStep t (.new domain realloc)
        ⟨st, t.live ++ [⟨host, domain, t.st.strings.next, t.st.tables.next⟩], max t.peak (t.live.length + 1),
          t.early ∨ st.hostsAlloc ≠ t.st.hostsAlloc ∧ ∃ slot ∈ t.st.slots, slot.name = none⟩
  | delete {t : HostTrack} {host : LiveHost} {st : Hosts} (hm : host ∈ t.live)
      (h : t.st.hostDelete host.descriptor = .ok st) :
      HostStep t (.delete host.descriptor) ⟨st, t.live.erase host, t.peak, t.early⟩

/-- The calls made since the table was loaded. -/
inductive HostRun : List HostCall → HostTrack → Prop where
  | load {ptr : Nat} {st : Hosts} (h : Hosts.initial.hostsLoad ptr = .ok st) : HostRun [] ⟨st, [], 0, False⟩
  | call {calls : List HostCall} {t t' : HostTrack} {call : HostCall} (h : HostRun calls t)
      (hstep : HostStep t call t') : HostRun (calls ++ [call]) t'

/-- The descriptor leads to the host's slot, and with it to its name and its routes. -/
def Hosts.Denotes (st : Hosts) (host : LiveHost) : Prop :=
  st.slotOf host.descriptor = some ⟨some host.name, some host.staticRoutes⟩ ∧
    st.strings.read host.name = some host.domain ∧ st.tables.read host.staticRoutes = some newRoutes

/-- Descriptors are distinct and keep what they denote. -/
def HostTrack.Denoting (t : HostTrack) : Prop :=
  (t.live.map LiveHost.descriptor).Nodup ∧ ∀ host ∈ t.live, t.st.Denotes host

/-- The array was doubled only when it was full, so that it has never been much too large. -/
def HostTrack.Sized (t : HostTrack) : Prop := ¬ t.early ∧ t.st.hostsAlloc ≤ max 32 (2 * t.peak)

/-- Unloading the table releases each live host. One that is released twice would be a fault. -/
def HostTrack.Released (t : HostTrack) : Prop :=
  ∃ st, t.st.hostsUnload = .ok st ∧
    ∀ host ∈ t.live, st.strings.read host.name = none ∧ st.tables.read host.staticRoutes = none

def HostCall.creates : HostCall → Bool
  | .new .. => true
  | .delete _ => false

def creations (calls : List HostCall) : Nat := calls.countP HostCall.creates

theorem nodup_map_concat {α β : Type} {f : α → β} {l : List α} {a : α} (h : (l.map f).Nodup)
    (hnew : ∀ b ∈ l, f b ≠ f a) : ((l ++ [a]).map f).Nodup := by
  rw [List.map_append, List.map_singleton, List.nodup_append_comm, List.singleton_append, List.nodup_cons]
  refine ⟨fun hm => ?_, h⟩
  obtain ⟨b, hb, heq⟩ := List.mem_map.mp hm
  exact hnew b hb heq

section Search
variable {slots : List HostSlot} {i : Nat}

/-- The search ends in front of the first slots that are all free. -/
theorem searchFree_spec (hfree : ∀ slot ∈ slots[i]?, slot.name = none) (hi : i < slots.length) :
    ∃ k ≤ i, searchFree slots.length slots = .ok k ∧ ∃ slot, slots[k]? = some slot ∧ slot.name = none := by
  induction slots generalizing i with
  | nil => exact absurd hi (Nat.not_lt_zero _)
  | cons slot slots ih =>
    rw [List.length_cons, searchFree]
    by_cases hname : slot.name = none
    · rw [if_pos hname]
      exact ⟨0, Nat.zero_le _, rfl, slot, rfl, hname⟩
    · cases i with
      | zero => exact absurd (hfree slot rfl) hname
      | succ i =>
        obtain ⟨k, hk, he, hslot⟩ := ih hfree (Nat.lt_of_succ_lt_succ hi)
        rw [if_neg hname, he]
        exact ⟨k + 1, Nat.succ_le_succ hk, rfl, hslot⟩

end Search

/-- What holds after `count` creations. The slots from `count` on have never been used, the array has been doubled each
time, and the live hosts own their blocks. -/
structure HostTrack.Kept (count : Nat) (t : HostTrack) : Prop where
  array : t.st.slots.length = t.st.hostsAlloc
  doubled : t.st.hostsAlloc = 32 * 2 ^ count
  fits : hostSize * t.st.hostsAlloc < 2^63
  uncounted : t.st.hostsLen = 0
  unused : ∀ i, count ≤ i → ∀ slot ∈ t.st.slots[i]?, slot.name = none
  descriptors : (t.live.map LiveHost.descriptor).Nodup
  names : (t.live.map LiveHost.name).Nodup
  routes : (t.live.map LiveHost.staticRoutes).Nodup
  placed : ∀ host ∈ t.live, 0 < host.descriptor ∧ host.descriptor ≤ t.st.hostsAlloc
  denotes : ∀ host ∈ t.live, t.st.Denotes host
  fewer : t.live.length ≤ count
  peak : t.peak ≤ count
  early : t.early ↔ 0 < count

section Steps
variable {t t' : HostTrack} {count : Nat}

theorem HostTrack.Kept.free (h : t.Kept count) : ∃ k ≤ count, searchFree t.st.hostsAlloc t.st.slots = .ok k ∧
    ∃ slot, t.st.slots[k]? = some slot ∧ slot.name = none := by
  have hlt : count < t.st.slots.length := by
    rw [h.array, h.doubled]
    have hpow : count < 2 ^ count := Nat.lt_two_pow_self
    omega
  have hsearch := searchFree_spec (h.unused count le_rfl) hlt
  rwa [h.array] at hsearch

theorem HostTrack.Kept.grow (h : t.Kept count) (realloc : Realloc) :
    t.st.grow realloc = .error .assertion ∨
      hostSize * (t.st.hostsAlloc * 2) < 2^63 ∧
        t.st.grow realloc = .ok { t.st with
          hosts := realloc.answer (hostSize * (t.st.hostsAlloc * 2))
          hostsAlloc := t.st.hostsAlloc * 2
          slots := t.st.slots ++ List.replicate t.st.hostsAlloc clearedSlot } := by
  have hfits := h.fits
  rw [hostSize] at hfits
  have halloc : t.st.hostsAlloc * 2 % sizeLimit = t.st.hostsAlloc * 2 := Nat.mod_eq_of_lt (by rw [sizeLimit]; omega)
  have hlen : hostSize * (t.st.hostsAlloc * 2) % sizeLimit = hostSize * (t.st.hostsAlloc * 2) :=
    Nat.mod_eq_of_lt (by rw [sizeLimit, hostSize]; omega)
  have hhalf : t.st.hostsAlloc * hostSize % sizeLimit = t.st.hostsAlloc * hostSize :=
    Nat.mod_eq_of_lt (by rw [sizeLimit, hostSize]; omega)
  rw [Hosts.grow]
  simp only [halloc, hlen, hhalf]
  by_cases hnull : realloc.answer (hostSize * (t.st.hostsAlloc * 2)) = 0
  · exact .inl (if_pos hnull)
  · refine .inr ⟨?_, ?_⟩
    · exact Nat.lt_of_not_le fun hle => hnull (realloc.limited _ hle)
    · rw [if_neg hnull, if_neg (by rw [hostSize]; omega)]

/-- The table with a new host in a slot of the doubled array. -/
def Hosts.withHost (st : Hosts) (i newptr : Nat) (domain : CString) : Hosts :=
  { st with
    hosts := newptr
    slots := (st.slots ++ List.replicate st.hostsAlloc clearedSlot).set i ⟨some st.strings.next, some st.tables.next⟩
    hostsAlloc := st.hostsAlloc * 2
    strings := st.strings.alloc domain
    tables := st.tables.alloc newRoutes }

theorem HostTrack.Kept.hostNew (h : t.Kept count) (domain : CString) (realloc : Realloc) :
    t.st.hostNew domain realloc = .error .assertion ∨
      ∃ k ≤ count, (∃ slot, t.st.slots[k]? = some slot ∧ slot.name = none) ∧ hostSize * (t.st.hostsAlloc * 2) < 2^63 ∧
        ∃ newptr, t.st.hostNew domain realloc = .ok (k + 1, t.st.withHost k newptr domain) := by
  obtain ⟨k, hk, hsearch, hslot⟩ := h.free
  obtain ⟨slot, hget, hname⟩ := hslot
  have hlt : k < t.st.slots.length := (List.getElem?_eq_some_iff.mp hget).1
  have hpos : 0 < 2 ^ count := Nat.two_pow_pos count
  have hdoubled := h.doubled
  have htest : Hosts.notNumber k < t.st.hostsAlloc := by
    rw [Hosts.notNumber]
    split <;> omega
  rcases h.grow realloc with hfail | ⟨hfits, hgrow⟩
  · left
    rw [Hosts.hostNew, hsearch, fault_ok_bind, if_pos htest, hfail]
    rfl
  · right
    refine ⟨k, hk, ⟨slot, hget, hname⟩, hfits, realloc.answer (hostSize * (t.st.hostsAlloc * 2)), ?_⟩
    have hgrown : k < (t.st.slots ++ List.replicate t.st.hostsAlloc clearedSlot).length := by
      rw [List.length_append]
      exact Nat.lt_add_right _ hlt
    rw [Hosts.hostNew, hsearch, fault_ok_bind, if_pos htest, hgrow]
    exact if_pos hgrown

theorem Hosts.slotOf_eq (st : Hosts) {host : Nat} (hpos : 0 < host) (hlt : host < sizeLimit) :
    st.slotOf host = st.slots[host - 1]? := by
  rw [Hosts.slotOf, sizeSub_of_le hpos hlt]

theorem HostTrack.Kept.slotOf (h : t.Kept count) {host : LiveHost} (hm : host ∈ t.live) (st : Hosts) :
    st.slotOf host.descriptor = st.slots[host.descriptor - 1]? := by
  obtain ⟨hpos, hle⟩ := h.placed host hm
  have hfits := h.fits
  rw [hostSize] at hfits
  exact st.slotOf_eq hpos (by rw [sizeLimit]; omega)

/-- A creation keeps the books, and doubles the array. -/
theorem HostTrack.Kept.new (h : t.Kept count) {k newptr : Nat} {slot : HostSlot} {domain : CString} (hk : k ≤ count)
    (hget : t.st.slots[k]? = some slot) (hname : slot.name = none) (hfits : hostSize * (t.st.hostsAlloc * 2) < 2^63)
    {early : Prop} (hearly : early) :
    HostTrack.Kept (count + 1) ⟨t.st.withHost k newptr domain,
      t.live ++ [⟨k + 1, domain, t.st.strings.next, t.st.tables.next⟩], max t.peak (t.live.length + 1), early⟩ := by
  have hlt : k < t.st.slots.length := (List.getElem?_eq_some_iff.mp hget).1
  have hother : ∀ host ∈ t.live, host.descriptor - 1 ≠ k := by
    intro host hm heq
    have hslot := (h.denotes host hm).1
    rw [h.slotOf hm, heq, hget] at hslot
    rw [Option.some.inj hslot] at hname
    cases hname
  have hplaced : ∀ host ∈ t.live, 0 < host.descriptor ∧ host.descriptor ≤ t.st.hostsAlloc := h.placed
  have harray := h.array
  rw [hostSize] at hfits
  constructor
  case array =>
    simp [Hosts.withHost, harray, Nat.mul_two]
  case doubled =>
    simp only [Hosts.withHost, h.doubled, pow_succ, Nat.mul_assoc]
  case fits => exact hfits
  case uncounted => exact h.uncounted
  case unused =>
    intro i hi slot hslot
    have hne : k ≠ i := by omega
    rw [Hosts.withHost, List.getElem?_set_ne hne] at hslot
    rcases Nat.lt_or_ge i t.st.slots.length with hold | hnew
    · rw [List.getElem?_append_left hold] at hslot
      exact h.unused i (by omega) slot hslot
    · rw [List.getElem?_append_right hnew] at hslot
      rw [List.eq_of_mem_replicate (List.mem_of_getElem? hslot)]
      rfl
  case descriptors => exact nodup_map_concat h.descriptors fun host hm heq => hother host hm (by rw [heq]; rfl)
  case names => exact nodup_map_concat h.names fun host hm => Nat.ne_of_lt (Heap.read_lt (h.denotes host hm).2.1)
  case routes => exact nodup_map_concat h.routes fun host hm => Nat.ne_of_lt (Heap.read_lt (h.denotes host hm).2.2)
  case placed =>
    intro host hm
    rcases List.mem_append.mp hm with hm | hm
    · have hold := hplaced host hm
      simp only [Hosts.withHost]
      omega
    · rw [List.mem_singleton.mp hm]
      simp only [Hosts.withHost]
      omega
  case denotes =>
    intro host hm
    rcases List.mem_append.mp hm with hm | hm
    · obtain ⟨hslot, hstring, htable⟩ := h.denotes host hm
      refine ⟨?_, Heap.read_alloc_old hstring domain, Heap.read_alloc_old htable newRoutes⟩
      rw [h.slotOf hm] at hslot ⊢
      have hin : host.descriptor - 1 < t.st.slots.length := (List.getElem?_eq_some_iff.mp hslot).1
      rw [Hosts.withHost, List.getElem?_set_ne (hother host hm).symm, List.getElem?_append_left hin, hslot]
    · rw [List.mem_singleton.mp hm]
      refine ⟨?_, Heap.read_alloc _ _, Heap.read_alloc _ _⟩
      rw [Hosts.slotOf_eq _ (Nat.succ_pos k) (by rw [sizeLimit]; omega)]
      exact List.getElem?_set_self (by simp; omega)
  case fewer =>
    have hfewer := h.fewer
    simp
    exact hfewer
  case peak =>
    have hpeak := h.peak
    have hfewer := h.fewer
    exact max_le (by omega) (by omega)
  case early => exact iff_of_true hearly (Nat.succ_pos _)

/-- The table of routes of a live host can be deleted. -/
theorem newRoutes_delete : ∃ final, newRoutes.delete = .ok final := by
  obtain ⟨final, -, he, -⟩ := hashtable_delete_spec (ledger_new (V := StaticRoute) true)
  exact ⟨final, he⟩

/-- What the deletion of a live host does. -/
theorem HostTrack.Kept.hostDelete (h : t.Kept count) {host : LiveHost} (hm : host ∈ t.live) :
    ∃ strings tables, t.st.strings.free host.name = .ok strings ∧ t.st.tables.free host.staticRoutes = .ok tables ∧
      t.st.hostDelete host.descriptor = .ok { t.st with
        slots := t.st.slots.set (host.descriptor - 1) ⟨none, some host.staticRoutes⟩
        strings := strings
        tables := tables } := by
  obtain ⟨hslot, hstring, htable⟩ := h.denotes host hm
  obtain ⟨final, hdelete⟩ := newRoutes_delete
  have hindex : sizeSub host.descriptor 1 = host.descriptor - 1 := by
    obtain ⟨hpos, hle⟩ := h.placed host hm
    have hfits := h.fits
    rw [hostSize] at hfits
    exact sizeSub_of_le hpos (by rw [sizeLimit]; omega)
  have hstrings := Heap.free_ok hstring
  have htables := Heap.free_ok htable
  refine ⟨_, _, hstrings, htables, ?_⟩
  rw [Hosts.hostDelete, hslot]
  simp only [Option.bind_some, htable, Option.map_some, hdelete, fault_ok_bind, htables, Option.elim_some, hstrings,
    hindex]

theorem HostTrack.Kept.delete (h : t.Kept count) {host : LiveHost} (hm : host ∈ t.live) {strings : Heap CString}
    {tables : Heap (Hashtable StaticRoute)} (hstrings : t.st.strings.free host.name = .ok strings)
    (htables : t.st.tables.free host.staticRoutes = .ok tables) :
    HostTrack.Kept count ⟨{ t.st with
      slots := t.st.slots.set (host.descriptor - 1) ⟨none, some host.staticRoutes⟩
      strings := strings
      tables := tables }, t.live.erase host, t.peak, t.early⟩ := by
  have hmem : ∀ other, other ∈ t.live.erase host ↔ other ≠ host ∧ other ∈ t.live :=
    fun other => (List.Nodup.of_map _ h.descriptors).mem_erase_iff
  have hsub : (t.live.erase host).Sublist t.live := List.erase_sublist
  constructor
  case array => exact List.length_set.trans h.array
  case doubled => exact h.doubled
  case fits => exact h.fits
  case uncounted => exact h.uncounted
  case unused =>
    intro i hi slot hslot
    rw [List.getElem?_set] at hslot
    split at hslot
    · split at hslot
      · rw [← Option.some.inj hslot]
      · cases hslot
    · exact h.unused i hi slot hslot
  case descriptors => exact h.descriptors.sublist (hsub.map _)
  case names => exact h.names.sublist (hsub.map _)
  case routes => exact h.routes.sublist (hsub.map _)
  case placed => exact fun other hother => h.placed other ((hmem other).mp hother).2
  case denotes =>
    intro other hother
    obtain ⟨hne, hlive⟩ := (hmem other).mp hother
    obtain ⟨hslot, hstring, htable⟩ := h.denotes other hlive
    have hdescriptor : host.descriptor - 1 ≠ other.descriptor - 1 := by
      intro heq
      have hhost := (h.placed host hm).1
      have hpos := (h.placed other hlive).1
      exact hne (List.inj_on_of_nodup_map h.descriptors hlive hm (by omega))
    refine ⟨?_, ?_, ?_⟩
    · rw [h.slotOf hlive] at hslot ⊢
      exact (List.getElem?_set_ne hdescriptor).trans hslot
    · rw [Heap.read_free_other hstrings fun heq => hne (List.inj_on_of_nodup_map h.names hlive hm heq)]
      exact hstring
    · rw [Heap.read_free_other htables fun heq => hne (List.inj_on_of_nodup_map h.routes hlive hm heq)]
      exact htable
  case fewer => exact (hsub.length_le).trans h.fewer
  case peak => exact h.peak
  case early => exact h.early

theorem HostTrack.Kept.step (h : t.Kept count) {call : HostCall} (hstep : HostStep t call t') :
    t'.Kept (count + if call.creates then 1 else 0) := by
  cases hstep with
  | @new domain realloc host st hnew =>
    rcases h.hostNew domain realloc with hfail | ⟨k, hk, ⟨slot, hget, hname⟩, hfits, newptr, hok⟩
    · rw [hfail] at hnew
      cases hnew
    · rw [hok] at hnew
      obtain ⟨rfl, rfl⟩ := Prod.mk.inj (Except.ok.inj hnew)
      have hdoubled := h.doubled
      have hpos : 0 < 2 ^ count := Nat.two_pow_pos count
      have hmore : t.st.hostsAlloc * 2 ≠ t.st.hostsAlloc := by omega
      exact h.new hk hget hname hfits (.inr ⟨hmore, slot, List.mem_of_getElem? hget, hname⟩)
  | delete hm hdelete =>
    obtain ⟨strings, tables, hstrings, htables, hok⟩ := h.hostDelete hm
    rw [hok] at hdelete
    obtain rfl := Except.ok.inj hdelete
    exact h.delete hm hstrings htables

end Steps

section Runs
variable {calls : List HostCall} {t : HostTrack}

theorem hostsLoad_kept {ptr : Nat} {st : Hosts} (h : Hosts.initial.hostsLoad ptr = .ok st) :
    HostTrack.Kept 0 ⟨st, [], 0, False⟩ := by
  unfold Hosts.hostsLoad at h
  split at h
  · cases h
  · split at h
    · cases h
    · obtain rfl := Except.ok.inj h
      constructor
      case unused =>
        intro i _ slot hslot
        rw [List.eq_of_mem_replicate (List.mem_of_getElem? hslot)]
        rfl
      all_goals simp [Hosts.initial, hostSize, sizeLimit]

theorem HostRun.kept (h : HostRun calls t) : t.Kept (creations calls) := by
  induction h with
  | load hload => exact hostsLoad_kept hload
  | @call calls t t' call _ hstep ih =>
    have hcount : creations (calls ++ [call]) = creations calls + if call.creates then 1 else 0 := by
      rw [creations, List.countP_append, List.countP_singleton]
      rfl
    rw [hcount]
    exact ih.step hstep

variable {count : Nat}

/-- Unloading releases nothing, as no host was counted. -/
theorem HostTrack.Kept.hostsUnload (h : t.Kept count) :
    t.st.hostsUnload = .ok { t.st with hosts := 0, slots := [], hostsLen := 0, hostsAlloc := 32 } := by
  rw [Hosts.hostsUnload, h.uncounted]
  rfl

theorem HostTrack.Kept.released_iff (h : t.Kept count) : t.Released ↔ t.live = [] := by
  rw [Released, h.hostsUnload]
  constructor
  · rintro ⟨st, he, hall⟩
    obtain rfl := Except.ok.inj he
    refine List.eq_nil_iff_forall_not_mem.mpr fun host hm => ?_
    have hread := (h.denotes host hm).2.1
    rw [(hall host hm).1] at hread
    cases hread
  · intro hlive
    refine ⟨_, rfl, fun host hm => ?_⟩
    rw [hlive] at hm
    cases hm

/-- The array has the right size only as long as no host is created. -/
theorem HostTrack.Kept.sized_iff (h : t.Kept count) : t.Sized ↔ count = 0 := by
  rw [Sized, h.early]
  constructor
  · rintro ⟨hearly, -⟩
    omega
  · rintro rfl
    have hdoubled := h.doubled
    exact ⟨Nat.lt_irrefl 0, by omega⟩

theorem creations_eq_zero : creations calls = 0 ↔ ∀ call ∈ calls, call.creates = false := by
  simp [creations, List.countP_eq_zero]

/-- The deletion of a live host releases it. No call faults, except that a creation asserts that the array could be
doubled. -/
theorem host_calls_return (h : HostRun calls t) :
    (∀ host ∈ t.live, ∃ st, t.st.hostDelete host.descriptor = .ok st ∧ st.strings.read host.name = none ∧
      st.tables.read host.staticRoutes = none) ∧
    ∀ domain realloc,
      t.st.hostNew domain realloc = .error .assertion ∨ ∃ host st, t.st.hostNew domain realloc = .ok (host, st) := by
  constructor
  · intro host hm
    obtain ⟨strings, tables, hstrings, htables, hok⟩ := h.kept.hostDelete hm
    exact ⟨_, hok, Heap.read_free hstrings, Heap.read_free htables⟩
  · intro domain realloc
    rcases h.kept.hostNew domain realloc with hfail | ⟨k, -, -, -, newptr, hok⟩
    · exact .inl hfail
    · exact .inr ⟨_, _, hok⟩

end Runs

/-- After any calls that returned the descriptors of live hosts hold up, and the array's size in bytes has not wrapped.
But the array has been doubled in time, and not before, only if no host was created at all, and unloading the table
releases the live hosts only if there are none. The deletion of a live host returns and frees its name and its routes,
and a creation returns, or asserts that the array could be doubled. -/
theorem host_table_iff {calls : List HostCall} {t : HostTrack} (h : HostRun calls t) :
    t.Denoting ∧ hostSize * t.st.hostsAlloc < sizeLimit ∧ (t.Released ↔ t.live = []) ∧
      (t.Denoting ∧ t.Sized ∧ hostSize * t.st.hostsAlloc < sizeLimit ∧ t.Released ↔
        ∀ call ∈ calls, call.creates = false) ∧
      (∀ host ∈ t.live, ∃ st, t.st.hostDelete host.descriptor = .ok st ∧ st.strings.read host.name = none ∧
        st.tables.read host.staticRoutes = none) ∧
      ∀ domain realloc,
        t.st.hostNew domain realloc = .error .assertion ∨ ∃ host st, t.st.hostNew domain realloc = .ok (host, st) := by
  have hkept := h.kept
  have hdenoting : t.Denoting := ⟨hkept.descriptors, hkept.denotes⟩
  have hbytes : hostSize * t.st.hostsAlloc < sizeLimit := Nat.lt_trans hkept.fits (by decide)
  refine ⟨hdenoting, hbytes, hkept.released_iff, ?_, host_calls_return h⟩
  rw [← creations_eq_zero]
  constructor
  · rintro ⟨-, hsized, -⟩
    exact hkept.sized_iff.mp hsized
  · intro hnone
    have hlive : t.live = [] := List.eq_nil_of_length_eq_zero (Nat.le_zero.mp (hnone ▸ hkept.fewer))
    exact ⟨hdenoting, hkept.sized_iff.mpr hnone, hbytes, hkept.released_iff.mpr hlive⟩

def someRealloc : Realloc := .upTo 65536 (by decide)

def someHost : CString := ⟨ascii "host", by decide, by decide⟩

/-- The table when it is loaded, and with one host. -/
def loadedHosts : Hosts := { Hosts.initial with hosts := 64, slots := List.replicate 32 clearedSlot }

def firstHost : LiveHost := ⟨1, someHost, 0, 0⟩

def firstCreated : HostTrack :=
  ⟨loadedHosts.withHost 0 4096 someHost, [firstHost], 1,
    False ∨ (64 : Nat) ≠ 32 ∧ ∃ slot ∈ loadedHosts.slots, slot.name = none⟩

theorem firstCreated_run : HostRun [.new someHost someRealloc] firstCreated := by
  have hload : Hosts.initial.hostsLoad 64 = .ok loadedHosts := rfl
  have hnew : loadedHosts.hostNew someHost someRealloc = .ok (1, loadedHosts.withHost 0 4096 someHost) := rfl
  exact .call (.load hload) (.new hnew)

/-- A host is created and deleted. -/
theorem host_table_iff_one : ∃ t, HostRun [.new someHost someRealloc, .delete 1] t ∧ t.Denoting ∧ t.Released := by
  have hdelete : HostStep firstCreated (.delete firstHost.descriptor) _ :=
    .delete (List.mem_singleton_self firstHost) rfl
  have hrun : HostRun [.new someHost someRealloc, .delete 1] _ := .call firstCreated_run hdelete
  exact ⟨_, hrun, (host_table_iff hrun).1, (host_table_iff hrun).2.2.1.mpr rfl⟩

/-- One host in a table with 32 free slots: the table is doubled, and unloading it does not release the host. -/
theorem host_table_fails : HostRun [.new someHost someRealloc] firstCreated ∧ firstCreated.st.hostsAlloc = 64 ∧
    ¬ firstCreated.Sized ∧ ¬ firstCreated.Released := by
  refine ⟨firstCreated_run, rfl, fun h => absurd h.2 (by decide), ?_⟩
  rintro ⟨st, he, hall⟩
  obtain rfl := Except.ok.inj he
  have hread := (hall firstHost (List.mem_singleton_self firstHost)).1
  cases hread

end CFlare.Http
