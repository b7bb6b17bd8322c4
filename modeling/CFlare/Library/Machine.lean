import Mathlib.Algebra.Group.Int.Defs
import Mathlib.Algebra.Group.Nat.Defs
import Mathlib.Data.List.Basic
import Mathlib.Data.List.GetD
import Mathlib.Data.List.TakeWhile
import Mathlib.Data.Nat.Basic

/-! What a C function computes with: wrapping sizes, byte memory and null-terminated
strings. Nothing here belongs to one program. -/
namespace CFlare.Library

abbrev Bytes := List UInt8

/-- The ways in which a call does not return to its caller. An `overrun` leaves an array. -/
inductive Fault where
  | assertion
  | abort
  | undefined
  | overrun
  | diverged
  deriving DecidableEq, Repr

section Calls
variable {ε α β : Type}

@[simp] theorem fault_ok_bind (a : α) (f : α → Except ε β) : (Except.ok a >>= f) = f a := rfl

@[simp] theorem fault_error_bind (e : ε) (f : α → Except ε β) :
    ((Except.error e : Except ε α) >>= f) = .error e := rfl

/-- A sequence of two calls returns when both do. -/
theorem bind_eq_ok {x : Except ε α} {f : α → Except ε β} {b : β} :
    (x >>= f) = .ok b ↔ ∃ a, x = .ok a ∧ f a = .ok b := by
  cases x with
  | error e => simp
  | ok a => simp

theorem map_eq_ok {x : Except ε α} {f : α → β} {b : β} : x.map f = .ok b ↔ ∃ a, x = .ok a ∧ f a = b := by
  cases x with
  | error e => simp [Except.map]
  | ok a => simp [Except.map]

end Calls

abbrev sizeLimit : Nat := 2^64

def sizeAdd (a b : Nat) : Nat := (a + b) % sizeLimit
def sizeSub (a b : Nat) : Nat := (a + (sizeLimit - b % sizeLimit)) % sizeLimit

theorem sizeSub_of_le {a b : Nat} (h : b ≤ a) (ha : a < sizeLimit) : sizeSub a b = a - b := by
  have hb : b % sizeLimit = b := Nat.mod_eq_of_lt (Nat.lt_of_le_of_lt h ha)
  rw [sizeSub, hb, show a + (sizeLimit - b) = (a - b) + sizeLimit by omega, Nat.add_mod_right]
  exact Nat.mod_eq_of_lt (by omega)

/-- A difference below zero comes out above every number of the same distance. -/
theorem sizeSub_of_lt {a b : Nat} (h : a < b) (hb : b < sizeLimit) :
    sizeSub a b = sizeLimit - (b - a) := by
  rw [sizeSub, Nat.mod_eq_of_lt hb, show a + (sizeLimit - b) = sizeLimit - (b - a) by omega]
  exact Nat.mod_eq_of_lt (by omega)

theorem sizeSub_lt (a b : Nat) : sizeSub a b < sizeLimit := Nat.mod_lt _ (by decide)

/-- Adding to a base what is left of a length behind an offset reaches the length's end, wrapped
or not. -/
theorem sizeAdd_sizeSub {a k c : Nat} (hk : k < sizeLimit) (h : a + c < sizeLimit) :
    sizeAdd (a + k) (sizeSub c k) = a + c := by
  rcases Nat.lt_or_ge c k with hlt | hle
  · rw [sizeSub_of_lt hlt hk, sizeAdd, show a + k + (sizeLimit - (k - c)) = a + c + sizeLimit by omega,
      Nat.add_mod_right]
    exact Nat.mod_eq_of_lt h
  · rw [sizeSub_of_le hle (by omega), sizeAdd, show a + k + (c - k) = a + c by omega]
    exact Nat.mod_eq_of_lt h

theorem sizeAdd_of_lt {a b : Nat} (h : a + b < sizeLimit) : sizeAdd a b = a + b :=
  Nat.mod_eq_of_lt h

def ascii (text : String) : Bytes := text.toList.map (fun c => c.toNat.toUInt8)

/-- A string as a caller hands it over: no null byte inside, and with the one behind it an
object of the machine, so that its length is far from the limit of sizes. -/
structure CString where
  bytes : Bytes
  noNull : (0 : UInt8) ∉ bytes
  short : bytes.length + 1 < 2^63
  deriving DecidableEq, Repr

/-- Addressable bytes; an array is a range of addresses. -/
abbrev Memory := Nat → UInt8

/-- The bytes at `start`, `start + 1` and so on, `count` of them. -/
def slice (m : Memory) : Nat → Nat → Bytes
  | _, 0 => []
  | start, count + 1 => m start :: slice m (start + 1) count

/-- Copy bytes into memory, as `memcpy` does. -/
def store (m : Memory) (start : Nat) (bytes : Bytes) : Memory := fun i =>
  if start ≤ i ∧ i < start + bytes.length then bytes.getD (i - start) 0 else m i

/-- The null-terminated string at `start`. None when the array ends, `room` bytes on,
before a null byte does. -/
def cstring (m : Memory) : Nat → Nat → Option Bytes
  | _, 0 => none
  | start, room + 1 =>
    if m start = 0 then some [] else (cstring m (start + 1) room).map (m start :: ·)

/-- Where a text first occurs in another, as `strstr` finds it. -/
def occurrence (text part : Bytes) : Option Nat :=
  match text with
  | [] => if part = [] then some 0 else none
  | b :: rest => if part <+: b :: rest then some 0 else (occurrence rest part).map (· + 1)

section Slices
variable (m : Memory) (start : Nat)

@[simp] theorem slice_zero : slice m start 0 = [] := rfl

@[simp] theorem slice_length (count : Nat) : (slice m start count).length = count := by
  induction count generalizing start with
  | zero => rfl
  | succ count ih => simp [slice, ih]

theorem slice_add (a b : Nat) :
    slice m start (a + b) = slice m start a ++ slice m (start + a) b := by
  induction a generalizing start with
  | zero => simp
  | succ a ih =>
    rw [Nat.add_right_comm, slice, slice, ih, List.cons_append,
      show start + 1 + a = start + (a + 1) by omega]

theorem slice_getElem? (count i : Nat) (h : i < count) :
    (slice m start count)[i]? = some (m (start + i)) := by
  induction count generalizing start i with
  | zero => omega
  | succ count ih =>
    cases i with
    | zero => simp [slice]
    | succ i =>
      have hi := ih (start + 1) i (by omega)
      simpa [slice, Nat.add_assoc, Nat.add_comm 1 i] using hi

/-- A slice depends only on the addresses it covers. -/
theorem slice_congr {m m' : Memory} {start count : Nat}
    (h : ∀ i, start ≤ i → i < start + count → m i = m' i) :
    slice m start count = slice m' start count := by
  induction count generalizing start with
  | zero => rfl
  | succ count ih =>
    rw [slice, slice, h start (Nat.le_refl _) (by omega), ih (fun i hl hu => h i (by omega) (by omega))]

theorem slice_drop (a b : Nat) : (slice m start (a + b)).drop a = slice m (start + a) b := by
  rw [slice_add, List.drop_left' (slice_length m start a)]

theorem slice_append {xs ys : Bytes} (h : slice m start (xs ++ ys).length = xs ++ ys) :
    slice m start xs.length = xs ∧ slice m (start + xs.length) ys.length = ys := by
  rw [List.length_append, slice_add] at h
  exact List.append_inj h (slice_length m start xs.length)

theorem slice_append_cons {xs ys : Bytes} {b : UInt8} (h : slice m start (xs ++ b :: ys).length = xs ++ b :: ys) :
    slice m start xs.length = xs ∧ m (start + xs.length) = b ∧ slice m (start + xs.length + 1) ys.length = ys := by
  obtain ⟨hxs, hys⟩ := slice_append m start h
  exact ⟨hxs, List.cons.inj hys⟩

/-- Knowing a slice is knowing each byte of it. -/
theorem slice_eq_iff (bytes : Bytes) :
    slice m start bytes.length = bytes ↔ ∀ i (h : i < bytes.length), m (start + i) = bytes[i] := by
  induction bytes generalizing start with
  | nil => simp
  | cons b bytes ih =>
    simp only [List.length_cons, slice, List.cons.injEq, ih]
    constructor
    · rintro ⟨h0, hs⟩ i hi
      cases i with
      | zero => simpa using h0
      | succ i =>
        have := hs i (by simpa using hi)
        simpa [Nat.add_assoc, Nat.add_comm 1 i] using this
    · intro h
      refine ⟨by simpa using h 0 (by simp), fun i hi => ?_⟩
      have := h (i + 1) (by simpa using hi)
      simpa [Nat.add_assoc, Nat.add_comm 1 i] using this

end Slices

section Stores
variable {m : Memory} {start : Nat} {bytes : Bytes}

theorem store_before {i : Nat} (h : i < start) : store m start bytes i = m i :=
  if_neg (by omega)

theorem store_after {i : Nat} (h : start + bytes.length ≤ i) : store m start bytes i = m i :=
  if_neg (by omega)

theorem store_at {i : Nat} (h : i < bytes.length) : store m start bytes (start + i) = bytes[i] := by
  rw [store, if_pos (by omega)]
  simp [h]

theorem slice_store : slice (store m start bytes) start bytes.length = bytes :=
  (slice_eq_iff _ _ _).mpr (fun _ h => store_at h)

theorem slice_store_past {n count : Nat} (h : n + bytes.length ≤ start) :
    slice (store m n bytes) start count = slice m start count :=
  slice_congr (fun _ hl _ => store_after (h.trans hl))

theorem slice_store_front {n count : Nat} (h : start + count ≤ n) :
    slice (store m n bytes) start count = slice m start count :=
  slice_congr (fun _ _ hu => store_before (Nat.lt_of_lt_of_le hu h))

theorem store_nil (m : Memory) (start : Nat) : store m start [] = m := by
  funext i
  exact if_neg (by simp)

/-- Bytes stored one after the other are stored as one text. -/
theorem store_append (m : Memory) (start : Nat) (xs ys : Bytes) :
    store (store m start xs) (start + xs.length) ys = store m start (xs ++ ys) := by
  funext i
  simp only [store, List.length_append]
  by_cases h1 : start + xs.length ≤ i ∧ i < start + xs.length + ys.length
  · rw [if_pos h1, if_pos (by omega), List.getD_append_right _ _ _ _ (by omega)]
    congr 1
    omega
  · rw [if_neg h1]
    by_cases h2 : start ≤ i ∧ i < start + xs.length
    · rw [if_pos h2, if_pos (by omega), List.getD_append _ _ _ _ (by omega)]
    · rw [if_neg h2, if_neg (by omega)]

end Stores

section Strings
variable {m : Memory}

/-- Bytes with a null byte behind them are read as a string up to their first null byte. -/
theorem cstring_takeWhile {start room : Nat} (bytes : Bytes) (hs : slice m start bytes.length = bytes)
    (hz : m (start + bytes.length) = 0) (hr : bytes.length < room) :
    cstring m start room = some (bytes.takeWhile (· ≠ 0)) := by
  induction bytes generalizing start room with
  | nil =>
    obtain ⟨r, rfl⟩ := Nat.exists_eq_add_of_lt hr
    simpa [cstring] using hz
  | cons b bytes ih =>
    obtain ⟨r, rfl⟩ := Nat.exists_eq_add_of_lt hr
    simp only [List.length_cons, slice, List.cons.injEq] at hs
    rw [List.length_cons, cstring, hs.1]
    by_cases hb : b = 0
    · rw [if_pos hb, List.takeWhile_cons_of_neg (by simpa using hb)]
    · have hrest : cstring m (start + 1) (bytes.length + 1 + r) = some (bytes.takeWhile (· ≠ 0)) :=
        ih hs.2 (by simpa [Nat.add_assoc, Nat.add_comm 1] using hz) (by omega)
      rw [if_neg hb, hrest, List.takeWhile_cons_of_pos (by simpa using hb)]
      rfl

/-- A null-free run of bytes with a null byte behind it is read as a string. -/
theorem cstring_of_slice {start room : Nat} (text : Bytes) (hs : slice m start text.length = text)
    (hn : (0 : UInt8) ∉ text) (hz : m (start + text.length) = 0) (hr : text.length < room) :
    cstring m start room = some text := by
  rw [cstring_takeWhile text hs hz hr, List.takeWhile_eq_self_iff.mpr]
  intro b hb
  simpa using ne_of_mem_of_not_mem hb hn

/-- A string is decided by the bytes up to its null byte, whatever lies beyond. -/
theorem cstring_congr {m' : Memory} {start bound room room' : Nat}
    (h : ∀ i, start ≤ i → i < bound → m i = m' i)
    (hz : ∃ z, start ≤ z ∧ z < bound ∧ m z = 0) (hr : bound ≤ start + room) (hr' : bound ≤ start + room') :
    cstring m start room = cstring m' start room' := by
  induction room generalizing start room' with
  | zero =>
    obtain ⟨z, hl, hu, _⟩ := hz
    omega
  | succ room ih =>
    obtain ⟨z, hl, hu, hzz⟩ := hz
    obtain ⟨r, rfl⟩ : ∃ r, room' = r + 1 := ⟨room' - 1, by omega⟩
    rw [cstring, cstring, ← h start (Nat.le_refl _) (by omega)]
    by_cases h0 : m start = 0
    · rw [if_pos h0, if_pos h0]
    · have hzs : start + 1 ≤ z := by
        rcases Nat.eq_or_lt_of_le hl with rfl | hlt
        · exact absurd hzz h0
        · exact hlt
      have hrest : cstring m (start + 1) room = cstring m' (start + 1) r :=
        ih (fun i hi hb => h i (by omega) hb) ⟨z, hzs, hu, hzz⟩ (by omega) (by omega)
      rw [if_neg h0, if_neg h0, hrest]

theorem cstring_congr_above {m' : Memory} {start room : Nat} (h : ∀ i, start ≤ i → m i = m' i) :
    cstring m start room = cstring m' start room := by
  induction room generalizing start with
  | zero => rfl
  | succ room ih => rw [cstring, cstring, h start (Nat.le_refl _), ih (fun i hi => h i (Nat.le_of_succ_le hi))]

/-- The bytes of a string are those in memory, and none of them is null. -/
theorem cstring_byte {start room j : Nat} {text : Bytes} (h : cstring m start room = some text)
    (hj : j < text.length) : text[j] = m (start + j) ∧ m (start + j) ≠ 0 := by
  induction room generalizing start j text with
  | zero => cases h
  | succ room ih =>
    rw [cstring] at h
    split at h
    · obtain rfl := Option.some.inj h
      cases hj
    · next h0 =>
      obtain ⟨rest, hrest, rfl⟩ := Option.map_eq_some_iff.mp h
      cases j with
      | zero => exact ⟨rfl, h0⟩
      | succ j =>
        rw [← Nat.add_assoc, Nat.add_right_comm]
        exact ih hrest (Nat.lt_of_succ_lt_succ hj)

/-- A string ends no later than at any null byte behind its start. -/
theorem cstring_length_le {start room k : Nat} {text : Bytes} (h : cstring m start room = some text)
    (hz : m (start + k) = 0) : text.length ≤ k := by
  induction room generalizing start k text with
  | zero => cases h
  | succ room ih =>
    rw [cstring] at h
    split at h
    · obtain rfl := Option.some.inj h
      exact Nat.zero_le _
    · next h0 =>
      obtain ⟨rest, hr, rfl⟩ := Option.map_eq_some_iff.mp h
      cases k with
      | zero => exact absurd hz h0
      | succ k =>
        rw [← Nat.add_assoc, Nat.add_right_comm] at hz
        exact Nat.succ_le_succ (ih hr hz)

theorem cstring_null {start room : Nat} {text : Bytes} (h : cstring m start room = some text) :
    m (start + text.length) = 0 := by
  induction room generalizing start text with
  | zero => cases h
  | succ room ih =>
    rw [cstring] at h
    split at h
    · next h0 =>
      obtain rfl := Option.some.inj h
      exact h0
    · obtain ⟨rest, hrest, rfl⟩ := Option.map_eq_some_iff.mp h
      rw [List.length_cons, ← Nat.add_assoc, Nat.add_right_comm]
      exact ih hrest

theorem cstring_drop {start room k : Nat} {text : Bytes} (h : cstring m start room = some text)
    (hk : k ≤ text.length) : cstring m (start + k) (room - k) = some (text.drop k) := by
  induction k generalizing start room text with
  | zero => exact h
  | succ k ih =>
    cases room with
    | zero => cases h
    | succ room =>
      rw [cstring] at h
      split at h
      · obtain rfl := Option.some.inj h
        cases hk
      · obtain ⟨rest, hrest, rfl⟩ := Option.map_eq_some_iff.mp h
        rw [← Nat.add_assoc, Nat.add_right_comm, Nat.add_sub_add_right]
        exact ih hrest (Nat.le_of_succ_le_succ hk)

theorem cstring_eq_none {start room : Nat} :
    cstring m start room = none ↔ ∀ i < room, m (start + i) ≠ 0 := by
  induction room generalizing start with
  | zero => simp [cstring]
  | succ room ih =>
    rw [cstring]
    split
    · next h0 =>
      constructor
      · intro h
        cases h
      · intro h
        exact absurd h0 (h 0 (Nat.succ_pos _))
    · next h0 =>
      rw [Option.map_eq_none_iff, ih]
      constructor
      · intro h i hi
        cases i with
        | zero => exact h0
        | succ i =>
          rw [← Nat.add_assoc, Nat.add_right_comm]
          exact h i (Nat.lt_of_succ_lt_succ hi)
      · intro h i hi
        rw [Nat.add_right_comm]
        exact h (i + 1) (Nat.succ_lt_succ hi)

theorem occurrence_le {text part : Bytes} {k : Nat} (h : occurrence text part = some k) :
    k + part.length ≤ text.length := by
  induction text generalizing k with
  | nil =>
    rw [occurrence] at h
    split at h
    · next hp =>
      obtain rfl := Option.some.inj h
      rw [hp]
      exact Nat.le_refl _
    · cases h
  | cons b rest ih =>
    rw [occurrence] at h
    split at h
    · next hp =>
      obtain rfl := Option.some.inj h
      rw [Nat.zero_add]
      exact hp.length_le
    · obtain ⟨j, hj, rfl⟩ := Option.map_eq_some_iff.mp h
      have hle := ih hj
      rw [List.length_cons]
      omega

/-- What is found in a front part of a text is found in the text, in front of the part's end. -/
theorem occurrence_take {text part : Bytes} {d j : Nat} :
    occurrence (text.take d) part = some j ↔ occurrence text part = some j ∧ j + part.length ≤ d := by
  induction text generalizing d j with
  | nil =>
    rw [List.take_nil]
    constructor
    · intro h
      have hle := occurrence_le h
      rw [List.length_nil] at hle
      exact ⟨h, hle.trans (Nat.zero_le d)⟩
    · exact fun h => h.1
  | cons b rest ih =>
    cases d with
    | zero =>
      rw [List.take_zero, occurrence]
      constructor
      · intro h
        split at h
        · next hp =>
          obtain rfl := Option.some.inj h
          subst hp
          rw [occurrence, if_pos List.nil_prefix]
          exact ⟨rfl, Nat.le_refl _⟩
        · cases h
      · rintro ⟨h, hle⟩
        have hj : j = 0 := by omega
        have hp : part = [] := List.length_eq_zero_iff.mp (by omega)
        rw [if_pos hp, hj]
    | succ d =>
      rw [List.take_succ_cons, occurrence, occurrence]
      by_cases hp : part <+: b :: rest
      · rw [if_pos hp]
        by_cases hd : part.length ≤ d + 1
        · have hp' : part <+: b :: rest.take d := by
            rw [← List.take_succ_cons]
            exact List.prefix_take_iff.mpr ⟨hp, hd⟩
          rw [if_pos hp']
          constructor
          · intro h
            obtain rfl := Option.some.inj h
            exact ⟨rfl, by omega⟩
          · exact fun h => h.1
        · constructor
          · intro h
            have hle : j + part.length ≤ (b :: rest.take d).length := occurrence_le (by rw [occurrence]; exact h)
            rw [List.length_cons, List.length_take] at hle
            omega
          · rintro ⟨-, hle⟩
            omega
      · have hp' : ¬ part <+: b :: rest.take d := by
          intro h
          apply hp
          rw [← List.take_succ_cons] at h
          exact h.trans (List.take_prefix _ _)
        rw [if_neg hp, if_neg hp']
        constructor
        · intro h
          obtain ⟨i, hi, rfl⟩ := Option.map_eq_some_iff.mp h
          obtain ⟨hfound, hle⟩ := ih.mp hi
          exact ⟨by rw [hfound]; rfl, by omega⟩
        · rintro ⟨h, hle⟩
          obtain ⟨i, hi, rfl⟩ := Option.map_eq_some_iff.mp h
          rw [ih.mpr ⟨hi, by omega⟩]
          rfl

/-- Null bytes written behind a string's start leave a front part of it, up to the first of them. -/
theorem cstring_cut {m' : Memory} {start room : Nat} {text : Bytes} (h : cstring m start room = some text)
    (hm : ∀ i, start ≤ i → m' i = 0 ∨ m' i = m i) :
    ∃ d, d ≤ text.length ∧ cstring m' start room = some (text.take d) ∧ (∀ j < d, m' (start + j) = m (start + j)) ∧
      (d < text.length → m' (start + d) = 0 ∧ m (start + d) ≠ 0) := by
  induction room generalizing start text with
  | zero => cases h
  | succ room ih =>
    rw [cstring] at h
    split at h
    · next h0 =>
      obtain rfl := Option.some.inj h
      have hnull : m' start = 0 := (hm start (Nat.le_refl _)).elim id (fun he => he.trans h0)
      refine ⟨0, Nat.le_refl _, by rw [cstring, if_pos hnull, List.take_nil], fun j hj => ?_, fun hlt => ?_⟩
      · exact absurd hj (Nat.not_lt_zero j)
      · exact absurd hlt (Nat.lt_irrefl 0)
    · next h0 =>
      obtain ⟨rest, hrest, rfl⟩ := Option.map_eq_some_iff.mp h
      by_cases hnull : m' start = 0
      · refine ⟨0, Nat.zero_le _, by rw [cstring, if_pos hnull, List.take_zero], fun j hj => ?_, fun _ => ⟨hnull, h0⟩⟩
        exact absurd hj (Nat.not_lt_zero j)
      · have hfirst : m' start = m start := (hm start (Nat.le_refl _)).resolve_left hnull
        obtain ⟨d, hd, hcut, hsame, hend⟩ := ih hrest (fun i hi => hm i (Nat.le_of_succ_le hi))
        refine ⟨d + 1, Nat.succ_le_succ hd, ?_, fun j hj => ?_, fun hlt => ?_⟩
        · rw [cstring, if_neg hnull, hcut, hfirst]
          rfl
        · cases j with
          | zero => exact hfirst
          | succ j =>
            rw [← Nat.add_assoc, Nat.add_right_comm]
            exact hsame j (Nat.lt_of_succ_lt_succ hj)
        · rw [← Nat.add_assoc, Nat.add_right_comm]
          exact hend (Nat.lt_of_succ_lt_succ hlt)

end Strings

end CFlare.Library
