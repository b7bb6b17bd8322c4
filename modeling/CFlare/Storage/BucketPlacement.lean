import CFlare.Storage.HashtableLoad
import Mathlib.Data.List.Forall2
import Mathlib.Data.Nat.Bitwise
import Mathlib.Data.Nat.ModEq

/-! Which bucket a key is in. The number of buckets is a power of two, so that only the low bits of a hash count, and these
are made of the low bits of the key's bytes alone. -/
namespace CFlare.Storage
open CFlare.Library

def fnvStep (h : UInt32) (b : UInt8) : UInt32 := (h ^^^ b.toUInt32) * 0x01000193

def Hashtable.position {V : Type} (map : Hashtable V) (key : Bytes) : Nat :=
  (hashCompute key).hash.toNat % map.bucketsCount

/-- Bytes that agree in what counts for this many buckets. -/
def Alike (count : Nat) (a b : UInt8) : Prop := a.toNat % count = b.toNat % count

section Bits
variable {k : Nat}

theorem fnvStep_low (hk : k ≤ 32) (h : UInt32) (b : UInt8) :
    (fnvStep h b).toNat % 2^k = ((h.toNat % 2^k) ^^^ (b.toNat % 2^k)) * 0x01000193 % 2^k := by
  have hdvd : 2^k ∣ 2^32 := Nat.pow_dvd_pow 2 hk
  rw [fnvStep, UInt32.toNat_mul, UInt32.toNat_xor, UInt8.toNat_toUInt32, Nat.mod_mod_of_dvd _ hdvd,
    ← Nat.xor_mod_two_pow]
  exact (Nat.ModEq.mul_right _ (Nat.mod_modEq _ _)).symm

theorem mul_odd_iff {x y : Nat} : x * 0x01000193 % 2^k = y * 0x01000193 % 2^k ↔ x % 2^k = y % 2^k := by
  have hodd : Nat.Coprime (2^k) 0x01000193 := Nat.Coprime.pow_left k (by decide)
  constructor
  · intro h
    exact Nat.ModEq.cancel_right_of_coprime hodd h
  · intro h
    exact Nat.ModEq.mul_right _ h

/-- Two turns give the same low bits where the bits that go into them do. -/
theorem fnvStep_iff (hk : k ≤ 32) {h h' : UInt32} {a b : UInt8} :
    (fnvStep h a).toNat % 2^k = (fnvStep h' b).toNat % 2^k ↔
      (h.toNat % 2^k) ^^^ (a.toNat % 2^k) = (h'.toNat % 2^k) ^^^ (b.toNat % 2^k) := by
  rw [fnvStep_low hk, fnvStep_low hk, mul_odd_iff, Nat.xor_mod_two_pow, Nat.xor_mod_two_pow]
  simp only [Nat.mod_mod]

/-- What the hash was in front of some bytes can be told from what it is behind them. -/
theorem fnv_behind_iff (hk : k ≤ 32) (bytes : Bytes) {h h' : UInt32} :
    (bytes.foldl fnvStep h).toNat % 2^k = (bytes.foldl fnvStep h').toNat % 2^k ↔ h.toNat % 2^k = h'.toNat % 2^k := by
  induction bytes generalizing h h' with
  | nil => rfl
  | cons b bytes ih =>
    rw [List.foldl_cons, List.foldl_cons, ih, fnvStep_iff hk]
    exact Nat.xor_left_inj

/-- Keys that differ in one byte have the same low bits exactly if the byte does. -/
theorem fnv_differ_iff (hk : k ≤ 32) (front back : Bytes) (a b : UInt8) :
    (fnvHash1a32 (front ++ a :: back)).toNat % 2^k = (fnvHash1a32 (front ++ b :: back)).toNat % 2^k ↔ Alike (2^k) a b := by
  have hsplit : ∀ c, fnvHash1a32 (front ++ c :: back) = back.foldl fnvStep (fnvStep (fnvHash1a32 front) c) := by
    intro c
    show (front ++ c :: back).foldl fnvStep _ = _
    rw [List.foldl_append, List.foldl_cons]
    rfl
  rw [hsplit, hsplit, fnv_behind_iff hk, fnvStep_iff hk, Alike]
  exact Nat.xor_right_inj

theorem fnv_alike (hk : k ≤ 32) {key key' : Bytes} (halike : List.Forall₂ (Alike (2^k)) key key') {h h' : UInt32}
    (hh : h.toNat % 2^k = h'.toNat % 2^k) :
    (key.foldl fnvStep h).toNat % 2^k = (key'.foldl fnvStep h').toNat % 2^k := by
  induction halike generalizing h h' with
  | nil => exact hh
  | @cons a b key key' hab hrest ih =>
    refine ih ((fnvStep_iff hk).mpr ?_)
    rw [hh, show a.toNat % 2^k = b.toNat % 2^k from hab]

end Bits

section Positions
variable {V : Type} {map : Hashtable V} {j : Nat}

/-- A number of buckets beyond all hashes counts as the number of hashes. -/
theorem low_bits {j n : Nat} (hn : n < 2^32) : n % 2^j = n % 2^(min j 32) := by
  rcases Nat.le_total j 32 with hle | hle
  · rw [Nat.min_eq_left hle]
  · have hpow : 2^32 ≤ 2^j := Nat.pow_le_pow_right (by decide) hle
    rw [Nat.min_eq_right hle, Nat.mod_eq_of_lt hn, Nat.mod_eq_of_lt (by omega)]

theorem alike_low {a b : UInt8} : Alike (2^j) a b ↔ Alike (2^(min j 32)) a b := by
  have ha := a.toNat_lt
  have hb := b.toNat_lt
  rw [Alike, Alike, low_bits (show a.toNat < 2^32 by omega), low_bits (show b.toNat < 2^32 by omega)]

theorem position_low (hj : map.bucketsCount = 2^j) (key : Bytes) :
    map.position key = (fnvHash1a32 key).toNat % 2^(min j 32) := by
  rw [Hashtable.position, hj]
  exact low_bits (fnvHash1a32 key).toNat_lt

theorem position_differ_iff (hj : map.bucketsCount = 2^j) (front back : Bytes) (a b : UInt8) :
    map.position (front ++ a :: back) = map.position (front ++ b :: back) ↔ Alike map.bucketsCount a b := by
  rw [position_low hj, position_low hj, fnv_differ_iff (Nat.min_le_right _ _), hj]
  exact alike_low.symm

theorem position_alike (hj : map.bucketsCount = 2^j) {key key' : Bytes}
    (h : List.Forall₂ (Alike map.bucketsCount) key key') : map.position key = map.position key' := by
  rw [hj] at h
  rw [position_low hj, position_low hj]
  exact fnv_alike (Nat.min_le_right _ _) (h.imp fun a b => alike_low.mp) rfl

/-- The search of a list for a key stops at its container. -/
def Lists (list : LinkedList (Container V)) (key : Bytes) : Prop :=
  ∃ it p n, list.find (Hashtable.holdsKey (hashCompute key)) = .ok it ∧ it.value = some p ∧ list.node p = .ok n ∧
    n.data.key = key

theorem stored_entry {es : List (Container V)} (hh : Holds map es) {key : Bytes}
    (hstored : map.get (hashCompute key) ≠ .ok none) : ∃ e ∈ es, e.key = key := by
  rw [get_spec hh key] at hstored
  cases hat : entryAt Container.key es key with
  | none =>
    rw [hat] at hstored
    exact absurd rfl hstored
  | some e =>
    obtain ⟨he, hk⟩ := (entryAt_eq_some hh.distinct).mp hat
    exact ⟨e, he, hk⟩

theorem listed_at {es : List (Container V)} (hh : Holds map es) {key : Bytes}
    (hstored : map.get (hashCompute key) ≠ .ok none) :
    ∃ list, map.bucket (map.position key) = some list ∧ Lists list key := by
  obtain ⟨e, he, hk⟩ := stored_entry hh hstored
  have hfilled : Filled map es := hh.filled.resolve_right fun hnone => by
    rw [hnone.2.2] at he
    cases he
  have hslot : e ∈ slotEntries map es (map.position key) := (hh.mem_slotEntries hk).mpr he
  have hbucket := hfilled.bucket (map.position key) (Nat.mod_lt _ hfilled.positive)
  cases hlist : map.bucket (map.position key) with
  | none =>
    rw [hlist] at hbucket
    rw [show slotEntries map es (map.position key) = [] from hbucket] at hslot
    cases hslot
  | some list =>
    rw [hlist] at hbucket
    obtain ⟨cells, hr, -, -, hperm⟩ := hbucket
    obtain ⟨it, hfind, hcases⟩ := hh.find hr hperm
    rcases hcases with ⟨-, hnone⟩ | ⟨us, p, e', vs, rfl, hv, hsome⟩
    · exact absurd hk (entryAt_eq_none.mp hnone e he)
    · obtain ⟨n, hn, hdata⟩ := hr.linked.lookup (show (p, e') ∈ us ++ (p, e') :: vs by simp)
      refine ⟨list, rfl, it, p, n, hfind, hv, by simp [LinkedList.node, hn], ?_⟩
      rw [hdata]
      exact ((entryAt_eq_some hh.distinct).mp hsome).2

theorem bucket_count {es : List (Container V)} (hh : Holds map es) (hb : 0 < map.bucketsCount) {pos : Nat}
    (hpos : pos < map.bucketsCount) {list : LinkedList (Container V)} (hlist : map.bucket pos = some list) :
    list.count = (slotEntries map es pos).length := by
  have hfilled : Filled map es := hh.filled.resolve_right fun hnone => by
    rw [hnone.2.1] at hb
    exact absurd hb (Nat.lt_irrefl 0)
  have hbucket := hfilled.bucket pos hpos
  rw [hlist] at hbucket
  obtain ⟨cells, -, hcount, -, hperm⟩ := hbucket
  rw [hcount, ← hperm.length_eq, List.length_map]

/-- Keys with one position are all in the list of one bucket. -/
theorem position_crowded {es : List (Container V)} (hh : Holds map es) (hb : 0 < map.bucketsCount) {keys : List Bytes}
    (hnodup : keys.Nodup) (hstored : ∀ key ∈ keys, map.get (hashCompute key) ≠ .ok none) {first : Bytes}
    (hfirst : first ∈ keys) (hsame : ∀ key ∈ keys, map.position first = map.position key) :
    ∃ list, map.bucket (map.position first) = some list ∧ (∀ key ∈ keys, Lists list key) ∧
      keys.length ≤ list.count := by
  obtain ⟨list, hlist, -⟩ := listed_at hh (hstored first hfirst)
  refine ⟨list, hlist, fun key hm => ?_, ?_⟩
  · obtain ⟨list', hlist', hlists⟩ := listed_at hh (hstored key hm)
    rw [← hsame key hm, hlist] at hlist'
    obtain rfl := Option.some.inj hlist'
    exact hlists
  · have hslots : keys ⊆ (slotEntries map es (map.position first)).map Container.key := by
      intro key hm
      obtain ⟨e, he, hk⟩ := stored_entry hh (hstored key hm)
      rw [hsame key hm]
      exact List.mem_map.mpr ⟨e, (hh.mem_slotEntries hk).mpr he, hk⟩
    rw [bucket_count hh hb (Nat.mod_lt _ hb) hlist, ← List.length_map Container.key]
    exact (hnodup.subperm hslots).length_le

end Positions

/-- In every table that sets and removals make, keys that differ in one byte share a bucket exactly if the byte does not
change modulo the number of buckets, and stored keys of bytes that agree modulo this number are all in the list of one
bucket. -/
theorem bucket_placement {V : Type} [DecidableEq V] {map : Hashtable V} (h : Reached (fun _ _ _ => True) map)
    (hb : 0 < map.bucketsCount) :
    (∀ front back a b, map.position (front ++ a :: back) = map.position (front ++ b :: back) ↔
      a.toNat % map.bucketsCount = b.toNat % map.bucketsCount) ∧
    ∀ keys : List Bytes, keys.Nodup → (∀ key ∈ keys, map.get (hashCompute key) ≠ .ok none) → ∀ first ∈ keys,
      (∀ key ∈ keys, List.Forall₂ (Alike map.bucketsCount) first key) →
        ∃ list, map.bucket (map.position first) = some list ∧ (∀ key ∈ keys, Lists list key) ∧
          keys.length ≤ list.count := by
  obtain ⟨load, ⟨es, hh, hbuckets, -⟩, -, hbalanced⟩ := h.balanced
  obtain ⟨j, hj⟩ : ∃ j, map.bucketsCount = 2^j := by
    rcases hbalanced.size with hz | ⟨k, hk⟩
    · omega
    · exact ⟨5 + 2 * k, by rw [hbuckets, hk, Nat.pow_add, Nat.pow_mul]⟩
  refine ⟨fun front back a b => position_differ_iff hj front back a b, ?_⟩
  intro keys hnodup hstored first hfirst halike
  exact position_crowded hh hb hnodup hstored hfirst fun key hm => position_alike hj (halike key hm)

/-- In a table of 32 buckets the case of a letter does not count: three spellings of a name share a list, which another
name is not in. -/
theorem bucket_placement_case : ∃ replies, ∃ map : Hashtable Bytes,
    runCalls setCall Hashtable.new ([[72, 111], [104, 111], [72, 79], [80, 111]].map (fun key => ⟨key, some [10], 1⟩)) =
      .ok (replies, map) ∧
      (∃ list, map.bucket (map.position [72, 111]) = some list ∧
        (∀ key ∈ [[72, 111], [104, 111], [72, 79]], Lists list key) ∧ 3 ≤ list.count) ∧
      map.position [72, 111] ≠ map.position [80, 111] := by
  have hnew : Reached (fun _ _ _ => True) (Hashtable.new : Hashtable Bytes) := .new
  have hnodup : ([[72, 111], [104, 111], [72, 79], [80, 111]] : List Bytes).Nodup := by decide
  obtain ⟨replies, map, he, h, hl⟩ := hnew.fill loaded_new ([10] : Bytes) 1 hnodup (fun _ _ => List.not_mem_nil) (by decide)
    (fun _ _ => trivial)
  have hbuckets : map.bucketsCount = 32 := hl.buckets.trans (by decide)
  obtain ⟨hshared, hcrowded⟩ := bucket_placement h (by omega)
  rw [hbuckets] at hshared hcrowded
  refine ⟨replies, map, he, ?_, fun hsame => ?_⟩
  · refine hcrowded [[72, 111], [104, 111], [72, 79]] (by decide) (fun key hm => hl.mem_keys.mp ?_) _ (by simp) ?_
    · rcases List.mem_cons.mp hm with rfl | hm
      · decide
      · rcases List.mem_cons.mp hm with rfl | hm
        · decide
        · obtain rfl := List.mem_singleton.mp hm
          decide
    · unfold Alike
      decide
  · exact absurd ((hshared [] [111] 72 80).mp hsame) (by decide)

end CFlare.Storage
