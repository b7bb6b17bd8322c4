import CFlare.Storage.HashtableMap

/-! How full a hashtable gets. Its number of buckets and the keys that hold a value make a small
machine of their own, which decides when the table grows and when it shrinks. -/
namespace CFlare.Storage
open CFlare.Library

/-- How full a table is. Each key is listed once. -/
structure Load where
  buckets : Nat
  keys : List Bytes
  deriving DecidableEq, Repr

namespace Load

def empty : Load := ⟨0, []⟩

/-- Four times the buckets for more than two values a bucket; a quarter for less than one in eight. -/
def resizedTo (buckets count : Nat) (removing : Bool) : Nat :=
  if removing then
    if sizeSub count 1 < buckets / 8 ∧ startSize < buckets / 4 then buckets / 4 else buckets
  else if buckets * 2 < count + 1 then max (buckets * 4) startSize
  else buckets

def resized (load : Load) (removing : Bool) : Nat := resizedTo load.buckets load.keys.length removing

/-- The buckets after so many new keys. -/
def filled : Nat → Nat → Nat → Nat
  | 0, buckets, _ => buckets
  | n + 1, buckets, count => filled n (resizedTo buckets count false) (count + 1)

def drained : Nat → Nat → Nat → Nat
  | 0, buckets, _ => buckets
  | n + 1, buckets, count => drained n (resizedTo buckets count true) (count - 1)

def set (load : Load) (key : Bytes) (removing : Bool) : Load :=
  ⟨load.resized removing, if removing then load.keys.erase key else load.keys.insert key⟩

end Load

variable {V : Type} {map map' : Hashtable V} {load : Load} {key : Bytes}

/-- The table is as full as that. -/
def Loaded (map : Hashtable V) (load : Load) : Prop :=
  ∃ es, Holds map es ∧ map.bucketsCount = load.buckets ∧ (es.map Container.key).Perm load.keys

theorem loaded_new : Loaded (Hashtable.new : Hashtable V) Load.empty :=
  ⟨[], holds_new false, rfl, .nil⟩

namespace Loaded

theorem buckets (h : Loaded map load) : map.bucketsCount = load.buckets := by
  obtain ⟨es, -, hb, -⟩ := h
  exact hb

theorem count (h : Loaded map load) : map.count = load.keys.length := by
  obtain ⟨es, hh, -, hp⟩ := h
  rw [hh.count, ← hp.length_eq, List.length_map]

theorem nodup (h : Loaded map load) : load.keys.Nodup := by
  obtain ⟨es, hh, -, hp⟩ := h
  exact hp.nodup_iff.mp hh.distinct

theorem mem_keys (h : Loaded map load) : key ∈ load.keys ↔ map.get (hashCompute key) ≠ .ok none := by
  obtain ⟨es, hh, -, hp⟩ := h
  rw [get_spec hh key, ← hp.mem_iff, ← entryAt_isSome]
  cases entryAt Container.key es key <;> simp

theorem resized (h : Loaded map load) (removing : Bool) : map.resizedCount removing = load.resized removing := by
  have hc := h.count
  obtain ⟨es, hh, hb, -⟩ := h
  rw [Hashtable.resizedCount, Hashtable.resizeTest, Load.resized, Load.resizedTo, hc, hb]
  cases removing with
  | true =>
    simp only [Bool.true_eq_false, if_false, if_true]
    by_cases hless : sizeSub load.keys.length 1 < load.buckets / 8
    · by_cases hlarge : startSize < load.buckets / 4
      · simp [hless, hlarge]
      · simp [hless, hlarge]
    · simp [hless]
  | false =>
    simp only [Bool.false_eq_true, if_false, if_true]
    by_cases hfull : load.buckets * 2 < load.keys.length + 1
    · rw [if_pos hfull, if_pos hfull]
      dsimp only [Option.getD_some]
      split
      · next hlt => exact (Nat.max_eq_right (Nat.le_of_lt hlt)).symm
      · next hge => exact (Nat.max_eq_left (Nat.le_of_not_lt hge)).symm
    · rw [if_neg hfull, if_neg hfull]
      rfl

variable [DecidableEq V]

/-- Every set returns, but for a removal on a table without buckets. -/
theorem set_returns (h : Loaded map load) (key : Bytes) {value : Option V} (hb : value = none → 0 < load.buckets)
    (len : Nat) : ∃ map', map.set (hashCompute key) value len = .ok map' := by
  obtain ⟨es, hh, hbuckets, -⟩ := h
  obtain ⟨map', es', he, -⟩ := set_spec hh key value len (fun hnone => by
    have hpos := hb hnone
    rcases hh.filled with hf | ⟨-, hz, -⟩
    · exact hf.present
    · omega)
  exact ⟨map', he⟩

/-- A set that returns does to the load what the small machine says. -/
theorem set (h : Loaded map load) {value : Option V} {len : Nat}
    (he : map.set (hashCompute key) value len = .ok map') : Loaded map' (load.set key value.isNone) := by
  have hnodup := h.nodup
  have hresized := h.resized value.isNone
  obtain ⟨es, hh, hb, hp⟩ := h
  obtain ⟨es', heffect, hh', -⟩ := set_returned hh he
  refine ⟨es', hh', heffect.bucketsCount.trans hresized, ?_⟩
  have hmem : ∀ k, k ∈ es'.map Container.key ↔ if k = key then value.isSome = true else k ∈ load.keys := by
    intro k
    have hstored := congrArg Option.isSome (heffect.stored hh.distinct k)
    rw [Option.isSome_map] at hstored
    rw [← entryAt_isSome, hstored, ← hp.mem_iff, ← entryAt_isSome]
    split <;> simp
  cases value with
  | none =>
    refine (List.perm_ext_iff_of_nodup hh'.distinct (hnodup.erase key)).mpr (fun k => ?_)
    rw [hmem k, hnodup.mem_erase_iff]
    by_cases hk : k = key <;> simp [hk]
  | some value =>
    refine (List.perm_ext_iff_of_nodup hh'.distinct (hnodup.insert)).mpr (fun k => ?_)
    rw [hmem k, List.mem_insert_iff]
    by_cases hk : k = key <;> simp [hk]

end Loaded

/-- What the resize policy keeps: sizes are the start size and its multiples by four, no bucket holds more
than two values on average, and only the two smallest sizes may be sparse. -/
structure Load.Balanced (load : Load) : Prop where
  size : load.buckets = 0 ∨ ∃ k, load.buckets = 32 * 4 ^ k
  full : load.keys.length ≤ 2 * load.buckets
  sparse : load.buckets ≤ 128 ∨ load.buckets / 8 ≤ load.keys.length

/-- The policy in the code's own words: from 128 buckets on, one value for eight buckets. -/
def Load.Policy (load : Load) : Prop := load.buckets ≤ 32 ∨ load.buckets / 8 ≤ load.keys.length

namespace Load

theorem balanced_empty : empty.Balanced := ⟨.inl rfl, Nat.le_refl 0, .inl (Nat.zero_le 128)⟩

theorem set_length_insert (load : Load) (key : Bytes) :
    (load.set key false).keys.length = load.keys.length + if key ∈ load.keys then 0 else 1 := by
  show (load.keys.insert key).length = _
  split
  · next hm => rw [List.insert_of_mem hm, Nat.add_zero]
  · next hm => rw [List.length_insert_of_not_mem hm]

/-- A removal takes out the key, if it is there. -/
theorem set_length_remove (load : Load) (key : Bytes) :
    (load.set key true).keys.length = load.keys.length - if key ∈ load.keys then 1 else 0 := by
  show (load.keys.erase key).length = _
  split
  · next hm => rw [List.length_erase_of_mem hm]
  · next hm => rw [List.erase_of_not_mem hm, Nat.sub_zero]

/-- No table is between the two smallest sizes and the third. -/
theorem Balanced.size_gap {load : Load} (h : load.Balanced) :
    load.buckets = 0 ∨ load.buckets = 32 ∨ load.buckets = 128 ∨
      512 ≤ load.buckets ∧ ∃ k, load.buckets / 4 = 32 * 4 ^ k := by
  rcases h.size with hz | ⟨k, hk⟩
  · exact .inl hz
  rcases k with _ | _ | k
  · exact .inr (.inl hk)
  · exact .inr (.inr (.inl hk))
  · have hpos : 0 < 4 ^ k := Nat.pow_pos (by decide)
    rw [pow_succ, pow_succ] at hk
    refine .inr (.inr (.inr ⟨by omega, k + 1, ?_⟩))
    rw [pow_succ]
    omega

/-- The resize test of a removal: where it counts, the table is not empty and the difference does not wrap. -/
theorem Balanced.resized_remove {load : Load} (h : load.Balanced) (hsize : load.keys.length < sizeLimit) (key : Bytes) :
    (load.set key true).buckets =
      if load.keys.length - 1 < load.buckets / 8 ∧ 32 < load.buckets / 4 then load.buckets / 4 else load.buckets := by
  have hbuckets : (load.set key true).buckets = load.resized true := rfl
  rw [hbuckets, resized, resizedTo, if_pos rfl, startSize]
  by_cases hlarge : 32 < load.buckets / 4
  · have hpos : 1 ≤ load.keys.length := by
      rcases h.sparse with hs | hs <;> rcases h.size_gap with hg | hg | hg | hg <;> omega
    rw [sizeSub_of_le hpos hsize]
  · rw [if_neg (fun hb => hlarge hb.2), if_neg (fun hb => hlarge hb.2)]

theorem Balanced.insert {load : Load} (h : load.Balanced) (key : Bytes) : (load.set key false).Balanced := by
  have hlength := set_length_insert load key
  have hfull := h.full
  have hadded : (load.set key false).keys.length ≤ load.keys.length + 1 ∧
      load.keys.length ≤ (load.set key false).keys.length := by
    rw [hlength]
    split <;> omega
  have hbuckets : (load.set key false).buckets =
      if load.buckets * 2 < load.keys.length + 1 then max (load.buckets * 4) 32 else load.buckets := rfl
  split at hbuckets
  · next hgrow =>
    rcases h.size with hz | ⟨k, hk⟩
    · have hstart : (load.set key false).buckets = 32 := by rw [hbuckets, hz]; rfl
      exact ⟨.inr ⟨0, hstart⟩, by omega, .inl (by omega)⟩
    · have hpos : 0 < 4 ^ k := Nat.pow_pos (by decide)
      refine ⟨.inr ⟨k + 1, ?_⟩, by omega, .inr (by omega)⟩
      rw [pow_succ]
      omega
  · exact ⟨by rw [hbuckets]; exact h.size, by omega, h.sparse.imp (by omega) (by omega)⟩

/-- A removal shrinks a sparse table by four, but none of the two smallest sizes. -/
theorem Balanced.remove {load : Load} (h : load.Balanced) (hsize : load.keys.length < sizeLimit) (key : Bytes) :
    (load.set key true).Balanced := by
  have hlength := set_length_remove load key
  have hfull := h.full
  have hsparse := h.sparse
  have hremoved : load.keys.length - 1 ≤ (load.set key true).keys.length ∧
      (load.set key true).keys.length ≤ load.keys.length := by
    rw [hlength]
    split <;> omega
  have hbuckets := h.resized_remove hsize key
  rcases h.size_gap with hsmall | hsmall | hsmall | ⟨hlarge, k, hk⟩
  · rw [if_neg (by omega)] at hbuckets
    exact ⟨.inl (by omega), by omega, .inl (by omega)⟩
  · rw [if_neg (by omega)] at hbuckets
    exact ⟨.inr ⟨0, by omega⟩, by omega, .inl (by omega)⟩
  · rw [if_neg (by omega)] at hbuckets
    exact ⟨.inr ⟨1, by omega⟩, by omega, .inl (by omega)⟩
  · split at hbuckets
    · exact ⟨.inr ⟨k, by omega⟩, by omega, .inr (by omega)⟩
    · exact ⟨by rw [hbuckets]; exact h.size, by omega, .inr (by omega)⟩

theorem Balanced.set {load : Load} (h : load.Balanced) (hsize : load.keys.length < sizeLimit) (key : Bytes)
    (removing : Bool) : (load.set key removing).Balanced := by
  cases removing with
  | true => exact h.remove hsize key
  | false => exact h.insert key

/-- The one call that breaks the policy is the removal that leaves 128 buckets with less than 16 values. -/
theorem Balanced.policy_iff {load : Load} (h : load.Balanced) (hsize : load.keys.length < sizeLimit)
    (hp : load.Policy) (key : Bytes) (removing : Bool) :
    (load.set key removing).Policy ↔
      ¬ (removing = true ∧ key ∈ load.keys ∧ load.buckets = 128 ∧ load.keys.length ≤ 16) := by
  unfold Policy at hp ⊢
  have hafter := h.set hsize key removing
  have hsparse := hafter.sparse
  cases removing with
  | false =>
    have hlength := set_length_insert load key
    have hbuckets : (load.set key false).buckets =
        if load.buckets * 2 < load.keys.length + 1 then max (load.buckets * 4) 32 else load.buckets := rfl
    simp only [Bool.false_eq_true, false_and, not_false_eq_true, iff_true]
    have hfull := h.full
    split at hbuckets <;> split at hlength <;> omega
  | true =>
    have hlength := set_length_remove load key
    have hbuckets := h.resized_remove hsize key
    rcases h.size_gap with hsmall | hsmall | hsmall | ⟨hlarge, -⟩
    · rw [if_neg (by omega)] at hbuckets
      simp [hsmall, hbuckets]
    · rw [if_neg (by omega)] at hbuckets
      simp [hsmall, hbuckets]
    · rw [if_neg (by omega)] at hbuckets
      by_cases hm : key ∈ load.keys
      · rw [if_pos hm] at hlength
        simp only [hm, true_and, hsmall]
        omega
      · rw [if_neg hm] at hlength
        simp only [hm, false_and, and_false, not_false_eq_true, iff_true]
        omega
    · rw [show (load.buckets = 128) = False from eq_false (by omega)]
      simp only [false_and, and_false, not_false_eq_true, iff_true]
      have hbefore := h.sparse
      split at hbuckets <;> split at hlength <;> omega

end Load

/-- The shrink policy as the table of the source states it. -/
def ShrinkPolicy (map : Hashtable V) : Prop := map.bucketsCount ≤ 32 ∨ map.bucketsCount / 8 ≤ map.count

/-- The call does not take one of the last 16 values out of 128 buckets. -/
def SparesMinimum (map : Hashtable V) (key : Bytes) (value : Option V) : Prop :=
  ¬ (value = none ∧ map.get (hashCompute key) ≠ .ok none ∧ map.bucketsCount = 128 ∧ map.count ≤ 16)

theorem Loaded.policy_iff (h : Loaded map load) : ShrinkPolicy map ↔ load.Policy := by
  have hcount := h.count
  obtain ⟨es, -, hbuckets, -⟩ := h
  rw [ShrinkPolicy, Load.Policy, hcount, hbuckets]

theorem Loaded.spares_iff (h : Loaded map load) (key : Bytes) (value : Option V) :
    SparesMinimum map key value ↔
      ¬ (value.isNone = true ∧ key ∈ load.keys ∧ load.buckets = 128 ∧ load.keys.length ≤ 16) := by
  have hcount := h.count
  have hkeys : key ∈ load.keys ↔ map.get (hashCompute key) ≠ .ok none := h.mem_keys
  obtain ⟨es, -, hbuckets, -⟩ := h
  rw [SparesMinimum, hcount, hbuckets, hkeys, Option.isNone_iff_eq_none]

section Reached
variable [DecidableEq V] {meets : Hashtable V → Bytes → Option V → Prop}

/-- The tables that calls of set, each meeting a condition, make of a new one. A null value removes. No table
holds more values than a size can count. -/
inductive Reached (meets : Hashtable V → Bytes → Option V → Prop) : Hashtable V → Prop where
  | new : Reached meets Hashtable.new
  | set {map map' : Hashtable V} {key : Bytes} {value : Option V} {len : Nat} (before : Reached meets map)
      (condition : meets map key value) (returns : map.set (hashCompute key) value len = .ok map')
      (counted : map'.count < sizeLimit) : Reached meets map'

/-- What the small machine keeps holds of every table reached. -/
theorem Reached.loaded {inv : Load → Prop} (hnew : inv Load.empty)
    (hstep : ∀ (map : Hashtable V) (load : Load) key value, Loaded map load → load.keys.length < sizeLimit →
      meets map key value → inv load → inv (load.set key value.isNone))
    (h : Reached meets map) : ∃ load, Loaded map load ∧ load.keys.length < sizeLimit ∧ inv load := by
  induction h with
  | new => exact ⟨Load.empty, loaded_new, by decide, hnew⟩
  | set before condition returns counted ih =>
    obtain ⟨load, hl, hsize, hi⟩ := ih
    have hl' := hl.set returns
    exact ⟨_, hl', hl'.count ▸ counted, hstep _ load _ _ hl hsize condition hi⟩

theorem Reached.balanced (h : Reached meets map) :
    ∃ load, Loaded map load ∧ load.keys.length < sizeLimit ∧ load.Balanced :=
  h.loaded Load.balanced_empty (fun _ _ _ _ _ hsize _ hb => hb.set hsize _ _)

/-- A call of set. A null value removes. -/
structure SetCall (V : Type) where
  key : Bytes
  value : Option V
  len : Nat

def setCall (map : Hashtable V) (call : SetCall V) : Except Fault (Unit × Hashtable V) :=
  (map.set (hashCompute call.key) call.value call.len).map ((), ·)

theorem setCall_eq {value : Option V} {len : Nat} (he : map.set (hashCompute key) value len = .ok map') :
    setCall map ⟨key, value, len⟩ = .ok ((), map') := by
  rw [setCall, he]
  rfl

theorem Reached.fill (h : Reached meets map) (hl : Loaded map load) (value : V) (len : Nat) {keys : List Bytes}
    (hnodup : keys.Nodup) (hnew : ∀ key ∈ keys, key ∉ load.keys) (hsize : load.keys.length + keys.length < sizeLimit)
    (hmeets : ∀ map key, meets map key (some value)) :
    ∃ replies map', runCalls setCall map (keys.map (fun key => ⟨key, some value, len⟩)) = .ok (replies, map') ∧
      Reached meets map' ∧
      Loaded map' ⟨Load.filled keys.length load.buckets load.keys.length, keys.reverse ++ load.keys⟩ := by
  induction keys generalizing map load with
  | nil => exact ⟨[], map, rfl, h, hl⟩
  | cons key keys ih =>
    obtain ⟨hkey, hkeys⟩ := List.nodup_cons.mp hnodup
    obtain ⟨map1, he⟩ := hl.set_returns key (fun hnone => absurd hnone (Option.some_ne_none value)) len
    have hinsert : load.set key false = ⟨load.resized false, key :: load.keys⟩ :=
      congrArg (Load.mk _) (List.insert_of_not_mem (hnew key List.mem_cons_self))
    have hl1 := hl.set he
    rw [Option.isNone_some, hinsert] at hl1
    rw [List.length_cons] at hsize
    have hcount : map1.count < sizeLimit := by
      rw [hl1.count, List.length_cons]
      omega
    have hrest : ∀ k ∈ keys, k ∉ key :: load.keys := by
      intro k hk hmem
      rcases List.mem_cons.mp hmem with rfl | hold
      · exact hkey hk
      · exact hnew k (List.mem_cons_of_mem _ hk) hold
    obtain ⟨replies, map', hes, h', hl'⟩ := ih (.set h (hmeets map key) he hcount) hl1 hkeys hrest
      (by rw [List.length_cons]; omega)
    refine ⟨() :: replies, map', ?_, h', ?_⟩
    · simp only [List.map_cons, runCalls, setCall_eq he, hes]
    · rw [List.reverse_cons, List.append_assoc]
      exact hl'

theorem Reached.drain {buckets : Nat} {keys rest : List Bytes} (h : Reached meets map)
    (hl : Loaded map ⟨buckets, keys ++ rest⟩) (hsize : (keys ++ rest).length < sizeLimit)
    (hmeets : ∀ (map : Hashtable V) load key, Loaded map load → rest.length < load.keys.length → meets map key none) :
    ∃ replies map', runCalls setCall map (keys.map (fun key => ⟨key, none, 0⟩)) = .ok (replies, map') ∧
      Reached meets map' ∧ Loaded map' ⟨Load.drained keys.length buckets (keys ++ rest).length, rest⟩ := by
  induction keys generalizing map buckets with
  | nil => exact ⟨[], map, rfl, h, hl⟩
  | cons key keys ih =>
    have hlength : (key :: keys ++ rest).length = (keys ++ rest).length + 1 := rfl
    have hb : 0 < buckets := by
      obtain ⟨load, hload, -, hbalanced⟩ := h.balanced
      have hfull := hbalanced.full
      rw [← hload.buckets, ← hload.count, hl.buckets, hl.count] at hfull
      dsimp only at hfull
      omega
    obtain ⟨map1, he⟩ := hl.set_returns key (fun _ => hb) 0
    have hremove : (Load.mk buckets (key :: keys ++ rest)).set key true =
        ⟨Load.resizedTo buckets (key :: keys ++ rest).length true, keys ++ rest⟩ :=
      congrArg (Load.mk _) (List.erase_cons_head key (keys ++ rest))
    have hl1 := hl.set he
    rw [Option.isNone_none, hremove] at hl1
    have hcount : map1.count < sizeLimit := by
      rw [hl1.count]
      exact (Nat.lt_succ_self (keys ++ rest).length).trans hsize
    have hmany : rest.length < (key :: keys ++ rest).length := by
      rw [hlength, List.length_append]
      omega
    obtain ⟨replies, map', hes, h', hl'⟩ := ih (.set h (hmeets map _ key hl hmany) he hcount) hl1 (by omega)
    refine ⟨() :: replies, map', ?_, h', hl'⟩
    simp only [List.map_cons, runCalls, setCall_eq he, hes]

def numbered (n : Nat) : List Bytes := (List.range n).map (fun i => List.replicate (i + 1) 1)

theorem numbered_nodup (n : Nat) : (numbered n).Nodup := by
  refine List.nodup_range.map (fun i j hij => ?_)
  simpa using congrArg List.length hij

/-- Sets of so many keys, and removals of the last of them. -/
def surge (n m : Nat) : List (SetCall Bytes) :=
  (numbered n).map (fun key => ⟨key, some [0], 1⟩) ++ ((numbered n).reverse.take m).map (fun key => ⟨key, none, 0⟩)

theorem surge_run (meets : Hashtable Bytes → Bytes → Option Bytes → Prop) {n m : Nat} (hm : m ≤ n) (hn : n < sizeLimit)
    (hset : ∀ map key, meets map key (some [0]))
    (hremove : ∀ (map : Hashtable Bytes) load key, Loaded map load → n - m < load.keys.length → meets map key none) :
    ∃ replies map load, runCalls setCall Hashtable.new (surge n m) = .ok (replies, map) ∧ Reached meets map ∧
      Loaded map load ∧ load.buckets = Load.drained m (Load.filled n 0 0) n ∧ load.keys.length = n - m := by
  have hlength : (numbered n).length = n := by rw [numbered, List.length_map, List.length_range]
  have hsplit := List.take_append_drop m (numbered n).reverse
  have htake : ((numbered n).reverse.take m).length = m := by
    rw [List.length_take, List.length_reverse, hlength, Nat.min_eq_left hm]
  have hdrop : ((numbered n).reverse.drop m).length = n - m := by
    rw [List.length_drop, List.length_reverse, hlength]
  have hall : ((numbered n).reverse.take m ++ (numbered n).reverse.drop m).length = n := by
    rw [hsplit, List.length_reverse, hlength]
  obtain ⟨first, map1, he1, h1, hl1⟩ := Reached.new.fill loaded_new ([0] : Bytes) 1 (numbered_nodup n)
    (fun _ _ => List.not_mem_nil) (by rw [hlength]; exact (Nat.zero_add n).trans_lt hn) hset
  rw [hlength, show Load.empty.keys = [] from rfl, List.append_nil, ← hsplit] at hl1
  obtain ⟨second, map2, he2, h2, hl2⟩ := h1.drain hl1 (hall.trans_lt hn)
    (fun map load key hl hmany => hremove map load key hl (hdrop ▸ hmany))
  rw [htake, hall] at hl2
  exact ⟨first ++ second, map2, _, runCalls_append_eq_ok.mpr ⟨first, map1, second, he1, he2, rfl⟩, h2, hl2, rfl, hdrop⟩

/-- Whatever sets and removals have been made, the table has no buckets or 32 times a power of four, and at
most two values for each of them. -/
theorem hashtable_load_bound (h : Reached (fun _ _ _ => True) map) :
    (map.bucketsCount = 0 ∨ ∃ k, map.bucketsCount = 32 * 4 ^ k) ∧ map.count ≤ 2 * map.bucketsCount := by
  obtain ⟨load, hl, -, hb⟩ := h.balanced
  have hcount := hl.count
  obtain ⟨es, -, hbuckets, -⟩ := hl
  rw [hbuckets, hcount]
  exact ⟨hb.size, hb.full⟩

/-- Values come in until the table has 512 buckets, and most of them go again. -/
theorem hashtable_load_bound_surge : ∃ replies map, runCalls setCall Hashtable.new (surge 257 241) = .ok (replies, map) ∧
    map.bucketsCount = 128 ∧
      (map.bucketsCount = 0 ∨ ∃ k, map.bucketsCount = 32 * 4 ^ k) ∧ map.count ≤ 2 * map.bucketsCount := by
  obtain ⟨replies, map, load, he, h, hl, hbuckets, -⟩ := surge_run (fun _ _ _ => True) (n := 257) (m := 241)
    (by decide) (by decide) (fun _ _ => trivial) (fun _ _ _ _ _ => trivial)
  exact ⟨replies, map, he, hl.buckets.trans (hbuckets.trans (by decide +kernel)), hashtable_load_bound h⟩

/-- A table that no call took below 16 values while it had 128 buckets satisfies the policy, and the next call
keeps the policy exactly if it does not do that either. -/
theorem hashtable_shrink_policy (h : Reached SparesMinimum map) :
    ShrinkPolicy map ∧ ∀ key value len map', map.set (hashCompute key) value len = .ok map' →
      (ShrinkPolicy map' ↔ SparesMinimum map key value) := by
  have hstep : ∀ (map : Hashtable V) (load : Load) key value, Loaded map load → load.keys.length < sizeLimit →
      SparesMinimum map key value → load.Balanced ∧ load.Policy →
      (load.set key value.isNone).Balanced ∧ (load.set key value.isNone).Policy := by
    intro map load key value hl hsize hspares hi
    exact ⟨hi.1.set hsize _ _, (hi.1.policy_iff hsize hi.2 _ _).mpr ((hl.spares_iff key value).mp hspares)⟩
  obtain ⟨load, hl, hsize, hbalanced, hpolicy⟩ := h.loaded ⟨Load.balanced_empty, .inl (Nat.zero_le 32)⟩ hstep
  refine ⟨hl.policy_iff.mpr hpolicy, fun key value len map' he => ?_⟩
  rw [(hl.set he).policy_iff, hl.spares_iff]
  exact hbalanced.policy_iff hsize hpolicy key value.isNone

/-- Values come in until the table has 512 buckets, and go until 16 are left in 128, the fewest that spare the minimum:
without one more of them the table breaks the policy. -/
theorem hashtable_shrink_policy_surge : ∃ replies map, runCalls setCall Hashtable.new (surge 257 241) = .ok (replies, map) ∧
    map.bucketsCount = 128 ∧ map.count = 16 ∧ ShrinkPolicy map ∧
      ∀ key value len map', map.set (hashCompute key) value len = .ok map' →
        (ShrinkPolicy map' ↔ SparesMinimum map key value) := by
  have hset : ∀ (map : Hashtable Bytes) key, SparesMinimum map key (some [0]) := fun _ _ h => Option.some_ne_none _ h.1
  have hremove : ∀ (map : Hashtable Bytes) (load : Load) key, Loaded map load → 257 - 241 < load.keys.length →
      SparesMinimum map key none := by
    intro map load key hl hmany h
    have hfew := h.2.2.2
    rw [hl.count] at hfew
    omega
  obtain ⟨replies, map, load, he, h, hl, hbuckets, hlength⟩ := surge_run SparesMinimum (n := 257) (m := 241)
    (by decide) (by decide) hset hremove
  exact ⟨replies, map, he, hl.buckets.trans (hbuckets.trans (by decide +kernel)), hl.count.trans hlength,
    hashtable_shrink_policy h⟩

/-- Sets of 65 keys and removals of 50 of them leave 15 values in 128 buckets. -/
theorem hashtable_shrink_policy_fails :
    ¬ ∀ map : Hashtable Bytes, Reached (fun _ _ _ => True) map → ShrinkPolicy map := by
  intro hall
  obtain ⟨replies, map, load, he, h, hl, hbuckets, hlength⟩ := surge_run (fun _ _ _ => True) (n := 65) (m := 50)
    (by decide) (by decide) (fun _ _ => trivial) (fun _ _ _ _ _ => trivial)
  have hpolicy := hl.policy_iff.mp (hall map h)
  rw [Load.Policy, hbuckets, hlength] at hpolicy
  exact absurd hpolicy (by decide +kernel)

end Reached

/-- Removing the key does nothing, and the difference in the resize test is below the count. -/
structure RemovesNothing [DecidableEq V] (map : Hashtable V) (key : Bytes) : Prop where
  returns : ∀ len, ∃ map', map.set (hashCompute key) none len = .ok map' ∧ map'.count = map.count ∧
    ∀ k, map'.get (hashCompute k) = map.get (hashCompute k)
  below : sizeSub map.count 1 < map.count

/-- From a table that has buckets an absent key is removed without an effect. -/
theorem remove_absent [DecidableEq V] {es : List (Container V)} (hh : Holds map es) (hb : map.buckets ≠ none)
    (habsent : map.get (hashCompute key) = .ok none) (len : Nat) :
    ∃ map', map.set (hashCompute key) none len = .ok map' ∧ map'.count = map.count ∧
      ∀ k, map'.get (hashCompute k) = map.get (hashCompute k) := by
  obtain ⟨map', es', he, heffect, hh', -⟩ := set_spec hh key none len (fun _ => hb)
  have hnone : entryAt Container.key es key = none :=
    Option.map_eq_none_iff.mp (Except.ok.inj ((get_spec hh key).symm.trans habsent))
  have hsame : es' = es := by
    cases heffect with
    | absent before books => rfl
    | removed before books => exact absurd (hnone.symm.trans before) (Option.some_ne_none _).symm
  subst hsame
  exact ⟨map', he, by rw [hh'.count, hh.count], fun k => by rw [get_spec hh' k, get_spec hh k]⟩

/-- After any run of sets, removals and rebuilds that returns, removing an absent key is without effect exactly
on the tables that hold a value: a new table ends at the assertion, and with no value the difference wraps. -/
theorem hashtable_remove_absent (deleter : Bool) (calls : List TableCall) (hs : ∀ call ∈ calls, call.Sized)
    {replies : List Unit} {map : Hashtable Bytes}
    (hrun : runCalls tableCall (Hashtable.new.ondelete deleter) calls = .ok (replies, map)) {key : Bytes}
    (habsent : map.get (hashCompute key) = .ok none) : RemovesNothing map key ↔ 0 < map.count := by
  obtain ⟨es, hh⟩ := tableRun_holds hs (holds_new deleter) hrun
  constructor
  · intro h
    exact Nat.zero_lt_of_lt h.below
  · intro hpos
    have hbuilt : map.buckets ≠ none := by
      intro hnone
      rcases hh.filled with hf | ⟨-, -, rfl⟩
      · exact hf.present hnone
      · rw [hh.count] at hpos
        exact absurd hpos (Nat.lt_irrefl 0)
    refine ⟨remove_absent hh hbuilt habsent, ?_⟩
    rcases Nat.lt_or_ge map.count sizeLimit with hlt | hge
    · rw [sizeSub_of_le hpos hlt]
      exact Nat.sub_lt hpos Nat.one_pos
    · exact Nat.lt_of_lt_of_le (sizeSub_lt map.count 1) hge

/-- A key that is absent from a table of one value. -/
theorem hashtable_remove_absent_one : ∃ map, runCalls tableCall (Hashtable.new.ondelete true) [.set [1] [10]] =
    .ok ([()], map) ∧ (RemovesNothing map [2] ↔ 0 < map.count) :=
  ⟨_, rfl, hashtable_remove_absent true [.set [1] [10]] (fun _ hc => by cases List.mem_singleton.mp hc; trivial) rfl rfl⟩

/-- On a new table the removal of a key does not return. -/
theorem hashtable_remove_absent_fails :
    ¬ ∀ (calls : List TableCall) (replies : List Unit) (map : Hashtable Bytes) (key : Bytes),
      (∀ call ∈ calls, call.Sized) → runCalls tableCall Hashtable.new calls = .ok (replies, map) →
      map.get (hashCompute key) = .ok none → RemovesNothing map key := by
  intro hall
  have h := hall [] [] Hashtable.new [1] (fun _ hc => absurd hc List.not_mem_nil) rfl rfl
  obtain ⟨map', he, -⟩ := h.returns 0
  rw [remove_unbuilt rfl] at he
  cases he

end CFlare.Storage
