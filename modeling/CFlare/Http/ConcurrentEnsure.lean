import CFlare.Http.HeaderIdentity
import Mathlib.Data.Fintype.Card

/-! One name ensured by several threads at once. The lookup, the next id and the insertion are steps of
their own, and an insertion frees the entry it replaces. -/
namespace CFlare.Http
open CFlare.Library CFlare.Storage

/-- What a call does next. -/
inductive EnsurePhase where
  | looking
  | allocating
  | setting (id : Int)
  | confirming
  | returned (header : Header)
  deriving DecidableEq, Repr

/-- The call has missed the name and has not made its insertion yet. -/
def EnsurePhase.Pending : EnsurePhase → Prop
  | .allocating | .setting _ => True
  | _ => False

def EnsurePhase.rank : EnsurePhase → Nat
  | .looking => 4
  | .allocating => 3
  | .setting _ => 2
  | .confirming => 1
  | .returned _ => 0

def EnsurePhase.takesId : EnsurePhase → Bool
  | .looking | .allocating => true
  | _ => false

theorem EnsurePhase.returned_of_rank {phase : EnsurePhase} (h : phase.rank = 0) :
    ∃ header, phase = .returned header := by
  cases phase with
  | returned header => exact ⟨header, rfl⟩
  | _ => cases h

/-- The table with the next id, the entries freed so far, and where each call is. -/
structure Ensures (n : Nat) where
  table : Hashtable LoadedHeader
  gid : Nat
  freed : List LoadedHeader
  phase : Fin n → EnsurePhase

variable {n : Nat}

def Ensures.start (table : GlobalTable) (n : Nat) : Ensures n := ⟨table.1, table.2, [], fun _ => .looking⟩

def Ensures.turn (s : Ensures n) (i : Fin n) (phase : EnsurePhase) : Ensures n :=
  { s with phase := Function.update s.phase i phase }

/-- One step of a call. A call that has returned makes none. -/
def ensureStep (name : Fin n → CString) (s : Ensures n) (i : Fin n) : Except Fault (Ensures n) :=
  match s.phase i with
  | .looking => do
    let got ← headersGet s.table (name i).bytes
    if headersValid got then .ok (s.turn i (.returned got))
    else if maxHeaderLength < (name i).bytes.length then .error .assertion
    else .ok (s.turn i .allocating)
  | .allocating => .ok { s.turn i (.setting (int32 s.gid)) with gid := s.gid + 1 }
  | .setting id => do
    let hash := hashCompute (normalizeHeader (name i).bytes)
    -- the deleter frees the header that the name had
    let old ← s.table.get hash
    let table ← s.table.set hash (some ⟨id, name i⟩) headerPointerSize
    .ok { s.turn i .confirming with table := table, freed := s.freed ++ (old.map Block.data).toList }
  | .confirming => do
    let got ← headersGet s.table (name i).bytes
    if headersValid got then .ok (s.turn i (.returned got)) else .error .assertion
  | .returned _ => .ok s

def ensureCall (name : Fin n → CString) (s : Ensures n) (i : Fin n) : Except Fault (Unit × Ensures n) :=
  (ensureStep name s i).map ((), ·)

/-- All calls that have returned did so with the same id, and none with a name that is freed. -/
structure Agree (s : Ensures n) : Prop where
  same : ∀ i j x y, s.phase i = .returned x → s.phase j = .returned y → x.id = y.id
  kept : ∀ i x, s.phase i = .returned x → ∀ e ∈ s.freed, e.id ≠ x.id

/-- The call's next step is a lookup that finds the name. -/
def Finds (name : Fin n → CString) (s : Ensures n) (i : Fin n) : Prop :=
  (s.phase i = .looking ∨ s.phase i = .confirming) ∧
    ∃ header, headersGet s.table (name i).bytes = .ok header ∧ headersValid header = true

/-- No lookup finds the name while another call is between its miss and its insertion. -/
def Orderly (name : Fin n → CString) : Ensures n → List (Fin n) → Prop
  | _, [] => True
  | s, i :: schedule => (Finds name s i → ∀ j, ¬ (s.phase j).Pending) ∧
      ∀ s', ensureStep name s i = .ok s' → Orderly name s' schedule

section Steps
variable {name : Fin n → CString} {key : Bytes} {cur : Option LoadedHeader} {s s' : Ensures n} {i : Fin n}

@[simp] theorem turn_phase_self (s : Ensures n) (i : Fin n) (phase : EnsurePhase) :
    (s.turn i phase).phase i = phase :=
  Function.update_self _ _ _

theorem turn_phase_of_ne (s : Ensures n) {i j : Fin n} (phase : EnsurePhase) (h : j ≠ i) :
    (s.turn i phase).phase j = s.phase j :=
  Function.update_of_ne h _ _

/-- What holds between the steps: all ids in use are distinct and below the next one, and there are enough. -/
structure Racing (key : Bytes) (cur : Option LoadedHeader) (s : Ensures n) : Prop where
  table : ∃ values, LooksUp s.table values ∧ values key = cur
  known : ∀ e, cur = some e → 0 < e.id ∧ e.id < s.gid ∧ ∀ f ∈ s.freed, f.id ≠ e.id
  freed : ∀ f ∈ s.freed, f.id < s.gid
  setting : ∀ j id, s.phase j = .setting id → 0 < id ∧ id < s.gid ∧ (∀ e, cur = some e → e.id ≠ id) ∧
    ∀ f ∈ s.freed, f.id ≠ id
  apart : ∀ j k id, s.phase j = .setting id → s.phase k = .setting id → j = k
  confirming : ∀ j, s.phase j = .confirming → cur ≠ none
  positive : 0 < s.gid
  room : s.gid + (Finset.univ.filter (fun j => (s.phase j).takesId = true)).card ≤ 2^31

/-- What a step can do: `cur` is what the table holds for the name, before and after it. -/
inductive Stepped (name : Fin n → CString) (i : Fin n) (s : Ensures n) :
    Option LoadedHeader → Ensures n → Option LoadedHeader → Prop where
  | found {e : LoadedHeader} (phase : s.phase i = .looking ∨ s.phase i = .confirming) :
      Stepped name i s (some e) (s.turn i (.returned ⟨e.id, some e.name⟩)) (some e)
  | missed (phase : s.phase i = .looking) : Stepped name i s none (s.turn i .allocating) none
  | allocated {cur : Option LoadedHeader} (phase : s.phase i = .allocating) :
      Stepped name i s cur { s.turn i (.setting (int32 s.gid)) with gid := s.gid + 1 } cur
  | stored {cur : Option LoadedHeader} {id : Int} {table : Hashtable LoadedHeader}
      (phase : s.phase i = .setting id) :
      Stepped name i s cur { s.turn i .confirming with table := table, freed := s.freed ++ cur.toList }
        (some ⟨id, name i⟩)
  | idle {cur : Option LoadedHeader} {header : Header} (phase : s.phase i = .returned header) :
      Stepped name i s cur s cur

theorem Racing.get (h : Racing key cur s) (hkey : normalizeHeader (name i).bytes = key) :
    headersGet s.table (name i).bytes = .ok (cur.elim ⟨0, none⟩ (fun e => ⟨e.id, some e.name⟩)) := by
  obtain ⟨values, hlooks, rfl⟩ := h.table
  obtain ⟨found, hget, hdata⟩ := hlooks.get key
  rw [headersGet, hkey, hget, ← hdata]
  cases found <;> rfl

theorem Racing.valid (h : Racing key cur s) :
    headersValid (cur.elim ⟨0, none⟩ (fun e => ⟨e.id, some e.name⟩)) = cur.isSome := by
  cases cur with
  | none => rfl
  | some e => simp [headersValid, (h.known e rfl).1]

theorem Racing.finds (h : Racing key cur s) (hkey : normalizeHeader (name i).bytes = key) :
    Finds name s i ↔ (s.phase i = .looking ∨ s.phase i = .confirming) ∧ cur ≠ none := by
  refine and_congr_right fun _ => ?_
  rw [h.get hkey]
  constructor
  · rintro ⟨header, he, hv⟩ rfl
    obtain rfl := Except.ok.inj he
    cases hv
  · intro hcur
    refine ⟨_, rfl, ?_⟩
    rw [h.valid]
    exact Option.isSome_iff_ne_none.mpr hcur

private theorem card_turn_le (s : Ensures n) (i : Fin n) {phase : EnsurePhase}
    (hp : phase.takesId = true → (s.phase i).takesId = true) :
    (Finset.univ.filter (fun j => ((s.turn i phase).phase j).takesId = true)).card ≤
      (Finset.univ.filter (fun j => (s.phase j).takesId = true)).card := by
  apply Finset.card_le_card
  intro j hj
  rw [Finset.mem_filter] at hj ⊢
  refine ⟨Finset.mem_univ j, ?_⟩
  by_cases hji : j = i
  · subst hji
    rw [turn_phase_self] at hj
    exact hp hj.2
  · rw [turn_phase_of_ne s phase hji] at hj
    exact hj.2

private theorem card_turn_lt (s : Ensures n) (i : Fin n) {phase : EnsurePhase} (hi : (s.phase i).takesId = true)
    (hp : phase.takesId = false) :
    (Finset.univ.filter (fun j => ((s.turn i phase).phase j).takesId = true)).card <
      (Finset.univ.filter (fun j => (s.phase j).takesId = true)).card := by
  apply Finset.card_lt_card
  refine (Finset.ssubset_iff_of_subset ?_).mpr ⟨i, by simp [hi], by simp [hp]⟩
  intro j hj
  rw [Finset.mem_filter] at hj ⊢
  refine ⟨Finset.mem_univ j, ?_⟩
  by_cases hji : j = i
  · rwa [hji]
  · rw [turn_phase_of_ne s phase hji] at hj
    exact hj.2

private theorem Racing.turn (h : Racing key cur s) (i : Fin n) {phase : EnsurePhase}
    (hs : ∀ id, phase ≠ .setting id) (hc : phase = .confirming → cur ≠ none)
    (ht : phase.takesId = true → (s.phase i).takesId = true) : Racing key cur (s.turn i phase) := by
  have hold : ∀ j id, (s.turn i phase).phase j = .setting id → s.phase j = .setting id := by
    intro j id hj
    by_cases hji : j = i
    · rw [hji, turn_phase_self] at hj
      exact absurd hj (hs id)
    · rwa [turn_phase_of_ne s phase hji] at hj
  refine ⟨h.table, h.known, h.freed, fun j id hj => h.setting j id (hold j id hj),
    fun j k id hj hk => h.apart j k id (hold j id hj) (hold k id hk), fun j hj => ?_, h.positive,
    (Nat.add_le_add_left (card_turn_le s i ht) s.gid).trans h.room⟩
  by_cases hji : j = i
  · rw [hji, turn_phase_self] at hj
    exact hc hj
  · rw [turn_phase_of_ne s phase hji] at hj
    exact h.confirming j hj

private theorem Racing.allocated (h : Racing key cur s) (hi : s.phase i = .allocating) :
    Racing key cur { s.turn i (.setting (int32 s.gid)) with gid := s.gid + 1 } := by
  have hcard := card_turn_lt s i (by rw [hi]; rfl) (show (EnsurePhase.setting (int32 s.gid)).takesId = false from rfl)
  have hroom := h.room
  have hid : int32 s.gid = s.gid := int32_of_lt (by omega)
  have hpositive := h.positive
  have hcases : ∀ j id, (s.turn i (.setting (int32 s.gid))).phase j = .setting id →
      (j = i ∧ id = s.gid) ∨ (j ≠ i ∧ s.phase j = .setting id) := by
    intro j id hj
    by_cases hji : j = i
    · rw [hji, turn_phase_self, hid] at hj
      exact .inl ⟨hji, (EnsurePhase.setting.inj hj).symm⟩
    · rw [turn_phase_of_ne s _ hji] at hj
      exact .inr ⟨hji, hj⟩
  refine ⟨h.table, fun e he => ?_, fun f hf => ?_, fun j id hj => ?_, fun j k id hj hk => ?_, fun j hj => ?_,
    Nat.succ_pos _, ?_⟩
  · obtain ⟨hpos, hlt, hfree⟩ := h.known e he
    exact ⟨hpos, by push_cast; omega, hfree⟩
  · have hlt := h.freed f hf
    push_cast
    omega
  · rcases hcases j id hj with ⟨-, rfl⟩ | ⟨-, hold⟩
    · refine ⟨by omega, by push_cast; omega, fun e he => ?_, fun f hf => (h.freed f hf).ne⟩
      exact (h.known e he).2.1.ne
    · obtain ⟨hpos, hlt, hother⟩ := h.setting j id hold
      exact ⟨hpos, by push_cast; omega, hother⟩
  · rcases hcases j id hj with ⟨rfl, rfl⟩ | ⟨-, hold⟩
    · rcases hcases k _ hk with ⟨rfl, -⟩ | ⟨-, hold'⟩
      · rfl
      · exact absurd (h.setting k _ hold').2.1 (Int.lt_irrefl _)
    · rcases hcases k id hk with ⟨-, rfl⟩ | ⟨-, hold'⟩
      · exact absurd (h.setting j _ hold).2.1 (Int.lt_irrefl _)
      · exact h.apart j k id hold hold'
  · refine h.confirming j ?_
    by_cases hji : j = i
    · have hsame : (s.turn i (.setting (int32 s.gid))).phase j = .confirming := hj
      rw [hji, turn_phase_self] at hsame
      cases hsame
    · have hsame : (s.turn i (.setting (int32 s.gid))).phase j = .confirming := hj
      rwa [turn_phase_of_ne s _ hji] at hsame
  · show s.gid + 1 + _ ≤ 2^31
    exact (show s.gid + 1 + (Finset.univ.filter (fun j =>
      ((s.turn i (.setting (int32 s.gid))).phase j).takesId = true)).card ≤ 2^31 by omega)

private theorem Racing.stored (h : Racing key cur s) {id : Int} (hi : s.phase i = .setting id)
    {table : Hashtable LoadedHeader} {text : CString}
    (htable : ∃ values, LooksUp table values ∧ values key = some ⟨id, text⟩) :
    Racing key (some ⟨id, text⟩)
      { s.turn i .confirming with table := table, freed := s.freed ++ cur.toList } := by
  obtain ⟨hpos, hlt, hknown, hfree⟩ := h.setting i id hi
  have hold : ∀ j k, (s.turn i .confirming).phase j = .setting k → j ≠ i ∧ s.phase j = .setting k := by
    intro j k hj
    by_cases hji : j = i
    · rw [hji, turn_phase_self] at hj
      cases hj
    · rw [turn_phase_of_ne s _ hji] at hj
      exact ⟨hji, hj⟩
  have hfreed : ∀ f ∈ s.freed ++ cur.toList, f ∈ s.freed ∨ cur = some f := by
    intro f hf
    rcases List.mem_append.mp hf with hf | hf
    · exact .inl hf
    · exact .inr (Option.mem_toList.mp hf)
  have hcard := card_turn_le s i (show EnsurePhase.confirming.takesId = true → _ from nofun)
  refine ⟨htable, fun e he => ?_, fun f hf => ?_, fun j k hj => ?_,
    fun j k m hj hk => h.apart j k m (hold j m hj).2 (hold k m hk).2, fun _ _ => Option.some_ne_none _, h.positive,
    (Nat.add_le_add_left hcard s.gid).trans h.room⟩
  · obtain rfl := Option.some.inj he
    refine ⟨hpos, hlt, fun f hf => ?_⟩
    rcases hfreed f hf with hf | hf
    · exact hfree f hf
    · exact hknown f hf
  · rcases hfreed f hf with hf | hf
    · exact h.freed f hf
    · exact (h.known f hf).2.1
  · obtain ⟨hji, hset⟩ := hold j k hj
    obtain ⟨hkpos, hklt, hkknown, hkfree⟩ := h.setting j k hset
    refine ⟨hkpos, hklt, fun e he => ?_, fun f hf => ?_⟩
    · obtain rfl := Option.some.inj he
      rintro rfl
      exact hji (h.apart j i _ hset hi)
    · rcases hfreed f hf with hf | hf
      · exact hkfree f hf
      · exact hkknown f hf

theorem ensureStep_spec (h : Racing key cur s) (hkey : normalizeHeader (name i).bytes = key)
    (hlen : (name i).bytes.length ≤ maxHeaderLength) :
    ∃ s' cur', ensureStep name s i = .ok s' ∧ Stepped name i s cur s' cur' ∧ Racing key cur' s' := by
  have hget := h.get hkey
  have hvalid := h.valid
  cases hi : s.phase i with
  | looking =>
    cases cur with
    | none =>
      refine ⟨s.turn i .allocating, none, ?_, .missed hi, h.turn i nofun nofun fun _ => by rw [hi]; rfl⟩
      simp only [ensureStep, hi, hget, fault_ok_bind, hvalid, Option.isSome_none]
      rw [if_neg Bool.false_ne_true, if_neg (Nat.not_lt.mpr hlen)]
    | some e =>
      refine ⟨_, some e, ?_, .found (.inl hi), h.turn i nofun nofun nofun⟩
      simp only [ensureStep, hi, hget, fault_ok_bind, hvalid]
      rfl
  | allocating => exact ⟨_, cur, by simp only [ensureStep, hi], .allocated hi, h.allocated hi⟩
  | setting id =>
    obtain ⟨values, hlooks, rfl⟩ := h.table
    obtain ⟨found, hfound, hdata⟩ := hlooks.get key
    obtain ⟨table, hset, hlooks'⟩ := hlooks.set key (⟨id, name i⟩ : LoadedHeader) headerPointerSize
    refine ⟨_, _, ?_, .stored hi, h.stored hi ⟨_, hlooks', Function.update_self _ _ _⟩⟩
    simp only [ensureStep, hi, hkey, hfound, hset, fault_ok_bind, hdata]
  | confirming =>
    obtain ⟨e, rfl⟩ := Option.ne_none_iff_exists'.mp (h.confirming i hi)
    refine ⟨_, some e, ?_, .found (.inr hi), h.turn i nofun nofun nofun⟩
    simp only [ensureStep, hi, hget, fault_ok_bind, hvalid]
    rfl
  | returned header => exact ⟨s, cur, by simp only [ensureStep, hi], .idle hi, h⟩

/-- All returned headers are what the table holds, and then no insertion is to come. -/
structure Settled (cur : Option LoadedHeader) (s : Ensures n) : Prop where
  returned : ∀ j x, s.phase j = .returned x → ∃ e, cur = some e ∧ x.id = e.id
  quiet : ∀ j x, s.phase j = .returned x → ∀ k, ¬ (s.phase k).Pending

/-- The id belongs to a name that is freed, or that an insertion to come frees. -/
def Doomed (id : Int) (cur : Option LoadedHeader) (s : Ensures n) : Prop :=
  (∃ e ∈ s.freed, e.id = id) ∨ ∃ e, cur = some e ∧ e.id = id ∧ ∃ j, (s.phase j).Pending

theorem Settled.agree (hs : Settled cur s) (h : Racing key cur s) : Agree s := by
  constructor
  · intro i j x y hx hy
    obtain ⟨e, rfl, hxe⟩ := hs.returned i x hx
    obtain ⟨f, hf, hyf⟩ := hs.returned j y hy
    rw [hxe, hyf, Option.some.inj hf]
  · intro i x hx
    obtain ⟨e, rfl, hxe⟩ := hs.returned i x hx
    rw [hxe]
    exact (h.known e rfl).2.2

private theorem Settled.unreturned (hs : Settled cur s) (hi : (s.phase i).Pending) (j : Fin n) (x : Header) :
    s.phase j ≠ .returned x :=
  fun hj => hs.quiet j x hj i hi

private theorem settled_turn (s : Ensures n) (phase : EnsurePhase) (hs : ∀ j x, s.phase j ≠ .returned x)
    (hp : ∀ x, phase ≠ .returned x) {s' : Ensures n} (hs' : s'.phase = (s.turn i phase).phase) : Settled cur s' := by
  have hnone : ∀ j x, s'.phase j ≠ .returned x := by
    intro j x
    rw [hs']
    by_cases hji : j = i
    · rw [hji, turn_phase_self]
      exact hp x
    · rw [turn_phase_of_ne s phase hji]
      exact hs j x
  exact ⟨fun j x hj => absurd hj (hnone j x), fun j x hj => absurd hj (hnone j x)⟩

theorem Stepped.settled {cur' : Option LoadedHeader} (h : Stepped name i s cur s' cur') (hs : Settled cur s)
    (hquiet : (s.phase i = .looking ∨ s.phase i = .confirming) → cur ≠ none → ∀ j, ¬ (s.phase j).Pending) :
    Settled cur' s' := by
  cases h with
  | @found e hi =>
    have hnone := hquiet hi (Option.some_ne_none e)
    constructor
    · intro j x hj
      by_cases hji : j = i
      · rw [hji, turn_phase_self] at hj
        obtain rfl := EnsurePhase.returned.inj hj
        exact ⟨e, rfl, rfl⟩
      · rw [turn_phase_of_ne s _ hji] at hj
        exact hs.returned j x hj
    · intro j x _ k
      by_cases hki : k = i
      · rw [hki, turn_phase_self]
        exact id
      · rw [turn_phase_of_ne s _ hki]
        exact hnone k
  | missed hi =>
    refine settled_turn s .allocating (fun j x hj => ?_) nofun rfl
    obtain ⟨e, he, -⟩ := hs.returned j x hj
    cases he
  | allocated hi => exact settled_turn s (.setting _) (hs.unreturned (by rw [hi]; trivial)) nofun rfl
  | stored hi => exact settled_turn s .confirming (hs.unreturned (by rw [hi]; trivial)) nofun rfl
  | idle hi => exact hs

/-- A pending call stays so until it frees what the table holds for the name. -/
theorem Stepped.doomed {id : Int} {cur' : Option LoadedHeader} (h : Stepped name i s cur s' cur')
    (hd : Doomed id cur s) : Doomed id cur' s' := by
  have hother : ∀ {phase : EnsurePhase} {j : Fin n}, (s.phase j).Pending → (j = i → phase.Pending) →
      ((s.turn i phase).phase j).Pending := by
    intro phase j hj hp
    by_cases hji : j = i
    · rw [hji, turn_phase_self]
      exact hp hji
    · rwa [turn_phase_of_ne s phase hji]
  rcases hd with ⟨e, he, hid⟩ | ⟨e, rfl, hid, j, hj⟩
  · left
    cases h with
    | stored hi => exact ⟨e, List.mem_append_left _ he, hid⟩
    | _ => exact ⟨e, he, hid⟩
  · cases h with
    | found hi =>
      refine .inr ⟨e, rfl, hid, j, hother hj ?_⟩
      rintro rfl
      rcases hi with hi | hi <;> exact absurd hj (by rw [hi]; exact not_false)
    | allocated hi => exact .inr ⟨e, rfl, hid, j, hother hj fun _ => trivial⟩
    | stored hi => exact .inl ⟨e, List.mem_append_right _ List.mem_cons_self, hid⟩
    | idle hi => exact .inr ⟨e, rfl, hid, j, hj⟩

theorem Stepped.returned {cur' : Option LoadedHeader} (h : Stepped name i s cur s' cur') {j : Fin n} {x : Header}
    (hj : s.phase j = .returned x) : s'.phase j = .returned x := by
  have hother : ∀ phase, s.phase i ≠ .returned x → (s.turn i phase).phase j = .returned x := by
    intro phase hi
    have hji : j ≠ i := by
      rintro rfl
      exact hi hj
    rw [turn_phase_of_ne s phase hji, hj]
  cases h with
  | found hi => exact hother _ (by rcases hi with hi | hi <;> rw [hi] <;> exact nofun)
  | missed hi => exact hother _ (by rw [hi]; exact nofun)
  | allocated hi => exact hother _ (by rw [hi]; exact nofun)
  | stored hi => exact hother _ (by rw [hi]; exact nofun)
  | idle hi => exact hj

/-- Each call has a number of steps to make; a step of a call is one of them. -/
theorem Stepped.rank {cur' : Option LoadedHeader} (h : Stepped name i s cur s' cur') (j : Fin n) :
    (s'.phase j).rank ≤ if j = i then (s.phase j).rank - 1 else (s.phase j).rank := by
  have hturn : ∀ phase, phase.rank ≤ (s.phase i).rank - 1 →
      ((s.turn i phase).phase j).rank ≤ if j = i then (s.phase j).rank - 1 else (s.phase j).rank := by
    intro phase hp
    by_cases hji : j = i
    · rw [if_pos hji, hji, turn_phase_self]
      exact hp
    · rw [if_neg hji, turn_phase_of_ne s phase hji]
  cases h with
  | found hi => exact hturn _ (Nat.zero_le _)
  | missed hi => exact hturn _ (by rw [hi]; exact Nat.le_refl _)
  | allocated hi => exact hturn _ (by rw [hi]; exact Nat.le_refl _)
  | stored hi => exact hturn _ (by rw [hi]; exact Nat.le_refl _)
  | idle hi =>
    by_cases hji : j = i
    · rw [if_pos hji, hji, hi]
      exact Nat.le_refl _
    · rw [if_neg hji]

end Steps

section Runs
variable {name : Fin n → CString} {key : Bytes} {cur : Option LoadedHeader} {s : Ensures n}

theorem ensureCall_eq {s' : Ensures n} {i : Fin n} (h : ensureStep name s i = .ok s') :
    ensureCall name s i = .ok ((), s') := by
  rw [ensureCall, h]
  rfl

/-- A run returns. An orderly one keeps the returned headers, and a doomed name stays so. -/
theorem ensures_run (hkey : ∀ i, normalizeHeader (name i).bytes = key)
    (hlen : ∀ i, (name i).bytes.length ≤ maxHeaderLength) (schedule : List (Fin n)) (h : Racing key cur s) :
    ∃ replies t cur', runCalls (ensureCall name) s schedule = .ok (replies, t) ∧ Racing key cur' t ∧
      (Settled cur s → Orderly name s schedule → Settled cur' t) ∧
      (∀ id, Doomed id cur s → Doomed id cur' t) ∧
      (∀ i x, s.phase i = .returned x → t.phase i = .returned x) ∧
      ∀ i, (t.phase i).rank ≤ (s.phase i).rank - schedule.count i := by
  induction schedule generalizing cur s with
  | nil => exact ⟨[], s, cur, rfl, h, fun hs _ => hs, fun _ hd => hd, fun _ _ hx => hx, fun _ => Nat.le_refl _⟩
  | cons i schedule ih =>
    obtain ⟨s', cur', hstep, hstepped, h'⟩ := ensureStep_spec h (hkey i) (hlen i)
    obtain ⟨replies, t, curT, hrun, ht, hsettled, hdoomed, hreturned, hrank⟩ := ih h'
    refine ⟨() :: replies, t, curT, by simp only [runCalls, ensureCall_eq hstep, hrun], ht, fun hs horder => ?_,
      fun id hd => hdoomed id (hstepped.doomed hd), fun j x hj => hreturned j x (hstepped.returned hj), fun j => ?_⟩
    · refine hsettled (hstepped.settled hs fun hi hcur => ?_) (horder.2 s' hstep)
      exact horder.1 ((h.finds (hkey i)).mpr ⟨hi, hcur⟩)
    · have hle := hrank j
      have hless := hstepped.rank j
      rw [List.count_cons]
      by_cases hji : i = j
      · rw [if_pos hji.symm] at hless
        rw [if_pos (beq_iff_eq.mpr hji)]
        omega
      · rw [if_neg (Ne.symm hji)] at hless
        rw [if_neg (fun hb => hji (beq_iff_eq.mp hb))]
        omega

/-- When all calls have returned and agree, the run was orderly. -/
theorem orderly_of_agree (hkey : ∀ i, normalizeHeader (name i).bytes = key)
    (hlen : ∀ i, (name i).bytes.length ≤ maxHeaderLength) {schedule : List (Fin n)} (h : Racing key cur s)
    {replies : List Unit} {t : Ensures n} (hrun : runCalls (ensureCall name) s schedule = .ok (replies, t))
    (hdone : ∀ i, ∃ header, t.phase i = .returned header) (hagree : Agree t) : Orderly name s schedule := by
  induction schedule generalizing cur s replies with
  | nil => trivial
  | cons i schedule ih =>
    obtain ⟨s', cur', hstep, hstepped, h'⟩ := ensureStep_spec h (hkey i) (hlen i)
    obtain ⟨reply, s1, rest, hcall, hrest⟩ := runCalls_cons_ok hrun
    obtain ⟨-, rfl⟩ := Prod.mk.inj (Except.ok.inj ((ensureCall_eq hstep).symm.trans hcall))
    refine ⟨fun hfinds j hj => ?_, fun s2 hs2 => ?_⟩
    · obtain ⟨hi, hcur⟩ := (h.finds (hkey i)).mp hfinds
      obtain ⟨e, rfl⟩ := Option.ne_none_iff_exists'.mp hcur
      obtain ⟨replies', t', curT, hrun', -, -, hdoomed, hreturned, -⟩ := ensures_run hkey hlen schedule h'
      obtain ⟨-, rfl⟩ := Prod.mk.inj (Except.ok.inj (hrest.symm.trans hrun'))
      have hx : s'.phase i = .returned ⟨e.id, some e.name⟩ := by
        cases hstepped with
        | found _ => exact turn_phase_self s i _
        | allocated hp => rcases hi with hi | hi <;> rw [hi] at hp <;> cases hp
        | stored hp => rcases hi with hi | hi <;> rw [hi] at hp <;> cases hp
        | idle hp => rcases hi with hi | hi <;> rw [hi] at hp <;> cases hp
      have hd : Doomed e.id (some e) s := .inr ⟨e, rfl, rfl, j, hj⟩
      -- All have returned, so none is pending: the entry is freed.
      rcases hdoomed e.id (hstepped.doomed hd) with ⟨f, hf, hfid⟩ | ⟨_, -, -, k, hk⟩
      · exact hagree.kept i _ (hreturned i _ hx) f hf hfid
      · obtain ⟨header, hheader⟩ := hdone k
        rw [hheader] at hk
        exact hk
    · obtain rfl := Except.ok.inj (hstep.symm.trans hs2)
      exact ih h' hrest

theorem ensureStep_returned {i : Fin n} {header : Header} (hi : s.phase i = .returned header) :
    ensureStep name s i = .ok s := by
  simp only [ensureStep, hi]

private theorem ensure_created {i : Fin n} (hi : s.phase i = .allocating) {old : Option (Block LoadedHeader)}
    {map : Hashtable LoadedHeader} {got : Header}
    (hold : s.table.get (hashCompute (normalizeHeader (name i).bytes)) = .ok old)
    (hset : s.table.set (hashCompute (normalizeHeader (name i).bytes)) (some ⟨int32 s.gid, name i⟩)
      headerPointerSize = .ok map)
    (hgot : headersGet map (name i).bytes = .ok got) (hv : headersValid got = true) :
    ∃ t, runCalls (ensureCall name) s [i, i, i] = .ok ([(), (), ()], t) ∧ t.phase i = .returned got ∧
      (t.table, t.gid) = (map, s.gid + 1) := by
  let s1 := { s.turn i (.setting (int32 s.gid)) with gid := s.gid + 1 }
  let s2 := { s1.turn i .confirming with table := map, freed := s.freed ++ (old.map Block.data).toList }
  have htake : ensureStep name s i = .ok s1 := by
    rw [ensureStep, hi]
  have hstore : ensureStep name s1 i = .ok s2 := by
    rw [ensureStep, show s1.phase i = .setting (int32 s.gid) from turn_phase_self s i _]
    exact bind_eq_ok.mpr ⟨old, hold, bind_eq_ok.mpr ⟨map, hset, rfl⟩⟩
  have hconfirm : ensureStep name s2 i = .ok (s2.turn i (.returned got)) := by
    rw [ensureStep, show s2.phase i = .confirming from turn_phase_self s1 i _]
    exact bind_eq_ok.mpr ⟨got, hgot, if_pos hv⟩
  refine ⟨s2.turn i (.returned got), ?_, turn_phase_self s2 i _, rfl⟩
  simp only [runCalls, ensureCall_eq htake, ensureCall_eq hstore, ensureCall_eq hconfirm]

/-- A call that no other interrupts is `headersEnsure`. -/
theorem ensure_alone {i : Fin n} (hi : s.phase i = .looking) {header : Header} {table : GlobalTable}
    (h : headersEnsure (s.table, s.gid) (name i) = .ok (header, table)) :
    ∃ replies t, runCalls (ensureCall name) s [i, i, i, i] = .ok (replies, t) ∧
      t.phase i = .returned header ∧ (t.table, t.gid) = table := by
  rw [headersEnsure] at h
  obtain ⟨got, hgot, h⟩ := bind_eq_ok.mp h
  by_cases hv : headersValid got = true
  · rw [if_pos hv] at h
    obtain ⟨rfl, rfl⟩ := Prod.mk.inj (Except.ok.inj h)
    have hlook : ensureStep name s i = .ok (s.turn i (.returned got)) := by
      simp only [ensureStep, hi, hgot, fault_ok_bind, if_pos hv]
    have hstay : ensureStep name (s.turn i (.returned got)) i = .ok (s.turn i (.returned got)) :=
      ensureStep_returned (turn_phase_self s i _)
    refine ⟨[(), (), (), ()], _, ?_, turn_phase_self s i _, rfl⟩
    simp only [runCalls, ensureCall_eq hlook, ensureCall_eq hstay]
  · rw [if_neg hv] at h
    by_cases hlen : maxHeaderLength < (name i).bytes.length
    · rw [if_pos hlen] at h
      cases h
    · rw [if_neg hlen] at h
      obtain ⟨made, hmade, h⟩ := bind_eq_ok.mp h
      obtain ⟨confirmed, hconfirmed, h⟩ := bind_eq_ok.mp h
      by_cases hv' : headersValid confirmed = true
      · rw [if_pos hv'] at h
        obtain ⟨rfl, rfl⟩ := Prod.mk.inj (Except.ok.inj h)
        rw [createHeader, if_neg hlen] at hmade
        obtain ⟨map, hset, hmap⟩ := bind_eq_ok.mp hmade
        obtain rfl := Except.ok.inj hmap
        have hmiss : ensureStep name s i = .ok (s.turn i .allocating) := by
          simp only [ensureStep, hi, hgot, fault_ok_bind, if_neg hv, if_neg hlen]
        rw [headersGet] at hgot
        obtain ⟨old, hold, -⟩ := bind_eq_ok.mp hgot
        obtain ⟨t, hrun, hphase, htable⟩ := ensure_created (turn_phase_self s i _) hold hset hconfirmed hv'
        exact ⟨() :: [(), (), ()], t, by rw [runCalls, ensureCall_eq hmiss]; dsimp only; rw [hrun], hphase, htable⟩
      · rw [if_neg hv'] at h
        cases h

end Runs

/-- Before its first step, a table that was loaded and used is one to start from. -/
theorem Loading.racing {table : GlobalTable} {names : List CString} {es : List (Container LoadedHeader)}
    (h : Loading table names es) (key : Bytes) (hroom : names.length + n < 2^31) :
    ∃ cur, Racing key cur (Ensures.start table n) ∧ Settled cur (Ensures.start table n) := by
  refine ⟨(entryAt Container.key es key).map (fun e => e.block.data), ?_, ⟨nofun, nofun⟩⟩
  refine ⟨⟨_, ⟨es, h.holds, fun _ => rfl⟩, rfl⟩, fun loaded he => ?_, nofun, nofun, nofun, nofun, ?_, ?_⟩
  · obtain ⟨e, hat, rfl⟩ := Option.map_eq_some_iff.mp he
    obtain ⟨hpos, hlt⟩ := h.ids e (List.mem_of_find?_eq_some hat)
    exact ⟨hpos, hlt, nofun⟩
  · show 0 < table.2
    rw [h.next]
    exact Nat.succ_pos _
  · show table.2 + _ ≤ 2^31
    have hcard := Finset.card_filter_le Finset.univ
      (fun j => (((Ensures.start table n).phase j).takesId = true))
    rw [Finset.card_univ, Fintype.card_fin] at hcard
    rw [h.next]
    omega

/-- One name ensured by `n` calls, each four steps at most: all return one id, none of a name that is
freed, when the run is orderly, and once all have returned only then. A call that no other interrupts is
`headersEnsure`. -/
theorem concurrent_ensure_iff (lines : List CString) (before : List HeaderUse) (name : Fin n → CString)
    (hsame : ∀ i j, SameName (name i).bytes (name j).bytes)
    (hbefore : ∀ name, .ensure name ∈ before → name.bytes.length ≤ maxHeaderLength)
    (hlen : ∀ i, (name i).bytes.length ≤ maxHeaderLength)
    (hroom : (before.foldl created (lines.filterMap lineName)).length + n < 2^31) :
    ∃ start headers table, linesLoaded lines = .ok start ∧ runCalls headerUse start before = .ok (headers, table) ∧
      (∀ schedule, ∃ replies t, runCalls (ensureCall name) (Ensures.start table n) schedule = .ok (replies, t) ∧
        (∀ i, 4 ≤ schedule.count i → ∃ header, t.phase i = .returned header) ∧
        (Orderly name (Ensures.start table n) schedule → Agree t) ∧
        ((∀ i, ∃ header, t.phase i = .returned header) → Agree t →
          Orderly name (Ensures.start table n) schedule)) ∧
      ∀ i header table', headersEnsure table (name i) = .ok (header, table') → ∃ replies t,
        runCalls (ensureCall name) (Ensures.start table n) [i, i, i, i] = .ok (replies, t) ∧
        t.phase i = .returned header ∧ (t.table, t.gid) = table' := by
  have hused := Nat.lt_of_le_of_lt (Nat.le_add_right _ n) hroom
  obtain ⟨start, es, hstart, hs⟩ := linesLoaded_spec lines (Nat.lt_of_le_of_lt (created_run_length _ before) hused)
  obtain ⟨headers, table, es', hrun, h, -⟩ := headerUses_spec before hs hbefore hused
  obtain ⟨key, hkey⟩ : ∃ key, ∀ i, normalizeHeader (name i).bytes = key := by
    cases n with
    | zero => exact ⟨[], fun i => i.elim0⟩
    | succ n => exact ⟨_, fun i => normalizeHeader_eq_iff.mpr (hsame i 0)⟩
  obtain ⟨cur, hracing, hsettled⟩ := h.racing key hroom
  refine ⟨start, headers, table, hstart, hrun, fun schedule => ?_,
    fun i header table' halone => ensure_alone (s := Ensures.start table n) rfl halone⟩
  obtain ⟨replies, t, curT, hcalls, ht, hkeep, -, -, hrank⟩ := ensures_run hkey hlen schedule hracing
  refine ⟨replies, t, hcalls, fun i hi => ?_, fun horder => (hkeep hsettled horder).agree ht,
    fun hdone hagree => orderly_of_agree hkey hlen hracing hcalls hdone hagree⟩
  have hzero := hrank i
  rw [show ((Ensures.start table n).phase i).rank = 4 from rfl] at hzero
  exact EnsurePhase.returned_of_rank (by omega)

/-- Two calls that both miss the name return two ids, the first of an entry that the second frees. -/
theorem concurrent_ensure_fails :
    ∃ replies t, runCalls (ensureCall fun _ => ⟨ascii "X", by decide, by decide⟩)
        (Ensures.start (Hashtable.new.ondelete true, 1) 2) [0, 1, 0, 0, 0, 1, 1, 1] = .ok (replies, t) ∧
      (∀ i, ∃ header, t.phase i = .returned header) ∧ ¬ Agree t := by
  have hrun : (runCalls (ensureCall fun _ => ⟨ascii "X", by decide, by decide⟩)
      (Ensures.start (Hashtable.new.ondelete true, 1) 2) [0, 1, 0, 0, 0, 1, 1, 1]).map
        (fun r => (r.2.phase 0, r.2.phase 1)) =
      .ok (.returned ⟨1, some ⟨ascii "X", by decide, by decide⟩⟩,
        .returned ⟨2, some ⟨ascii "X", by decide, by decide⟩⟩) := by decide +kernel
  obtain ⟨⟨replies, t⟩, hcalls, hphases⟩ := map_eq_ok.mp hrun
  obtain ⟨hzero, hone⟩ := Prod.mk.inj hphases
  refine ⟨replies, t, hcalls, fun i => ?_, fun hagree => ?_⟩
  · match i with
    | 0 => exact ⟨_, hzero⟩
    | 1 => exact ⟨_, hone⟩
  · exact absurd (hagree.same 0 1 _ _ hzero hone) (by decide)

/-- Two spellings of a name that no file lists. -/
theorem concurrent_ensure_two :
    ∃ start headers table, linesLoaded [] = .ok start ∧ runCalls headerUse start [] = .ok (headers, table) ∧
      ∃ replies t, runCalls (ensureCall
          (fun i => if i = 0 then ⟨ascii "X-Nope", by decide, by decide⟩ else ⟨ascii "x-nope", by decide, by decide⟩))
          (Ensures.start table 2) [0, 0, 0, 0, 1, 1, 1, 1] = .ok (replies, t) ∧
        ∃ header, t.phase 1 = .returned header := by
  obtain ⟨start, headers, table, hstart, hrun, hall, -⟩ := concurrent_ensure_iff (n := 2) [] []
    (fun i => if i = 0 then ⟨ascii "X-Nope", by decide, by decide⟩ else ⟨ascii "x-nope", by decide, by decide⟩)
    (fun i j => normalizeHeader_eq_iff.mp (by revert i j; decide)) nofun (by decide) (by decide)
  obtain ⟨replies, t, hcalls, hreturned, -⟩ := hall [0, 0, 0, 0, 1, 1, 1, 1]
  exact ⟨start, headers, table, hstart, hrun, replies, t, hcalls, hreturned 1 (by decide)⟩

end CFlare.Http
