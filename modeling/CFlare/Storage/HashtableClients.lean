import CFlare.Storage.HashtableMap

/-! Clients that share one hashtable. The resize test of a set reads the table before any lock;
the rebuild it asks for, the locked part of the set and a lookup are one step each. -/
namespace CFlare.Storage
open CFlare.Library

/-- A null value removes. -/
inductive TableUse where
  | set (key : Bytes) (value : Option Bytes)
  | get (key : Bytes)

/-- Where a client is: between calls, or in a set, before its rebuild, its assertion or its
locked part. -/
inductive Phase where
  | idle
  | rebuilding (newsize : Nat) (key : Bytes) (value : Option Bytes)
  | checking (key : Bytes) (value : Option Bytes)
  | locking (key : Bytes) (value : Option Bytes)

/-- The table, and for each client its phase and the calls it has yet to make. -/
structure Clients (ι : Type) where
  map : Hashtable Bytes
  phase : ι → Phase
  rest : ι → List TableUse

/-- What a step of a client did. -/
inductive ClientReply where
  | read
  | rebuilt
  | stored (key : Bytes) (value : Option Bytes)
  | found (key : Bytes) (result : Option (Bytes × Nat))

section Steps
variable {ι : Type} [DecidableEq ι]

def Clients.enter (s : Clients ι) (i : ι) (phase : Phase) : Clients ι :=
  { s with phase := Function.update s.phase i phase }

/-- The next step of a client; one that has made its calls stays as it is. -/
def clientStep (s : Clients ι) (i : ι) : Except Fault (ClientReply × Clients ι) :=
  match s.phase i with
  | .idle =>
    match s.rest i with
    | [] => .ok (.read, s)
    | .get key :: rest => do
      let found ← s.map.get (hashCompute key)
      .ok (.found key (found.map (fun block => (block.data, block.size))),
        { s with rest := Function.update s.rest i rest })
    | .set key value :: rest =>
      let s' := { s with rest := Function.update s.rest i rest }
      match s.map.resizeTest value.isNone with
      | none => .ok (.read, s'.enter i (.checking key value))
      | some newsize => .ok (.read, s'.enter i (.rebuilding newsize key value))
  | .rebuilding newsize key value => do
    let map ← s.map.resize newsize
    .ok (.rebuilt, { s with map := map }.enter i (.checking key value))
  | .checking key value =>
    if s.map.buckets.isNone ∨ s.map.bucketsCount = 0 then .error .assertion
    else .ok (.read, s.enter i (.locking key value))
  | .locking key value => do
    let map ← s.map.setLocked (hashCompute key) value (value.elim 0 List.length)
    .ok (.stored key value, { s with map := map }.enter i .idle)

end Steps

/-- The call that a step does, if it is not one of the steps before that. -/
def ClientReply.uses : ClientReply → List TableUse
  | .stored key value => [.set key value]
  | .found key _ => [.get key]
  | _ => []

def Phase.pending : Phase → List TableUse
  | .idle => []
  | .rebuilding _ key value | .checking key value | .locking key value => [.set key value]

def Phase.stepsLeft : Phase → Nat
  | .idle => 0
  | .rebuilding .. => 3
  | .checking .. => 2
  | .locking .. => 1

section ToDo
variable {ι : Type}

/-- The calls that a client still makes. -/
def Clients.toDo (s : Clients ι) (i : ι) : List TableUse := (s.phase i).pending ++ s.rest i

def Clients.stepsLeft (s : Clients ι) (i : ι) : Nat := 4 * (s.rest i).length + (s.phase i).stepsLeft

theorem Clients.done_of_stepsLeft {s : Clients ι} {i : ι} (h : s.stepsLeft i = 0) : s.toDo i = [] := by
  obtain ⟨hrest, hphase⟩ : (s.rest i).length = 0 ∧ (s.phase i).stepsLeft = 0 := by
    unfold Clients.stepsLeft at h
    omega
  rw [Clients.toDo, List.length_eq_zero_iff.mp hrest, List.append_nil]
  cases hp : s.phase i with
  | idle => rfl
  | rebuilding | checking | locking =>
    rw [hp] at hphase
    cases hphase

end ToDo

/-- The values after a step: those before, but at the key of a set. -/
def ClientReply.applied (values : Bytes → Option Bytes) : ClientReply → Bytes → Option Bytes
  | .stored key value => Function.update values key value
  | _ => values

/-- A lookup found what is stored at that moment. -/
def ClientReply.Right (values : Bytes → Option Bytes) : ClientReply → Prop
  | .found key result => result = (values key).map (fun v => (v, v.length))
  | _ => True

section Stored
variable {map : Hashtable Bytes} {values : Bytes → Option Bytes}

theorem Stores.filled {es : List (Container Bytes)} (h : Holds map es) (hb : map.buckets ≠ none) :
    Filled map es := by
  rcases h.filled with hf | ⟨hn, -, -⟩
  · exact hf
  · exact absurd hn hb

/-- The rebuild of a set stores the same values, whatever size it is asked for. -/
theorem Stores.resize (h : Stores map values) {newsize : Nat} (hn : 0 < newsize) :
    ∃ map', map.resize newsize = .ok map' ∧ Stores map' values ∧ map'.buckets ≠ none := by
  obtain ⟨es, hh, hv⟩ := h
  obtain ⟨map', he, hh', hf', -⟩ := resize_spec hh hn
  exact ⟨map', he, ⟨es, hh', hv⟩, hf'.present⟩

theorem Stores.setLocked (h : Stores map values) (hb : map.buckets ≠ none) (key : Bytes)
    (value : Option Bytes) :
    ∃ map', map.setLocked (hashCompute key) value (value.elim 0 List.length) = .ok map' ∧
      Stores map' (Function.update values key value) ∧ map'.buckets ≠ none := by
  obtain ⟨es, hh, hv⟩ := h
  obtain ⟨map', es', he, heffect, hf'⟩ := setLocked_spec hh (Stores.filled hh hb) key value
    (value.elim 0 List.length)
  refine ⟨map', he, ⟨es', heffect.holds hh hf', fun k => ?_⟩, hf'.present⟩
  rw [heffect.stored hh.distinct k, Function.update_apply]
  split
  · cases value <;> rfl
  · exact hv k

end Stored

/-- The invariant of the clients: the table stores the values and has buckets, and whatever
size a client is about to rebuild for, it is not zero. -/
structure Coherent {ι : Type} (s : Clients ι) (values : Bytes → Option Bytes) : Prop where
  stores : Stores s.map values
  present : s.map.buckets ≠ none
  positive : ∀ i newsize key value, s.phase i = .rebuilding newsize key value → 0 < newsize

/-- What a step of a client does to the calls to come: its own one goes on, or is done, and no other is touched. -/
structure StepTaken {ι : Type} (s : Clients ι) (i : ι) (reply : ClientReply) (s' : Clients ι) : Prop where
  done : reply.uses ++ s'.toDo i = s.toDo i
  less : s'.stepsLeft i ≤ s.stepsLeft i - 1
  others : ∀ j, j ≠ i → s'.phase j = s.phase j ∧ s'.rest j = s.rest j

section Runs
variable {ι : Type} [DecidableEq ι] {s : Clients ι} {values : Bytes → Option Bytes}

private theorem Coherent.enter (h : Coherent s values) {map : Hashtable Bytes} {next : Bytes → Option Bytes}
    (hs : Stores map next) (hb : map.buckets ≠ none) (rest : ι → List TableUse) (i : ι) {phase : Phase}
    (hp : ∀ newsize key value, phase = .rebuilding newsize key value → 0 < newsize) :
    Coherent (Clients.enter ⟨map, s.phase, rest⟩ i phase) next := by
  refine ⟨hs, hb, fun j newsize key value hj => ?_⟩
  change Function.update s.phase i phase j = _ at hj
  rw [Function.update_apply] at hj
  split at hj
  · exact hp newsize key value hj
  · exact h.positive j newsize key value hj

private theorem taken_begin {map : Hashtable Bytes} {i : ι} {use : TableUse} {rest : List TableUse} {phase : Phase}
    {reply : ClientReply} (hphase : s.phase i = .idle) (hrest : s.rest i = use :: rest) (hleft : phase.stepsLeft ≤ 3)
    (hdone : reply.uses ++ phase.pending = [use]) :
    StepTaken s i reply (Clients.enter ⟨map, s.phase, Function.update s.rest i rest⟩ i phase) := by
  refine ⟨?_, ?_, fun j hj => ⟨Function.update_of_ne hj _ _, Function.update_of_ne hj _ _⟩⟩
  · simp only [Clients.toDo, Clients.enter, Function.update_self, hphase, hrest]
    rw [← List.append_assoc, hdone]
    rfl
  · simp only [Clients.stepsLeft, Clients.enter, Function.update_self, hphase, hrest, List.length_cons]
    omega

private theorem taken_next {map : Hashtable Bytes} {i : ι} {before phase : Phase} {reply : ClientReply}
    (hphase : s.phase i = before) (hleft : phase.stepsLeft < before.stepsLeft)
    (hdone : reply.uses ++ phase.pending = before.pending) :
    StepTaken s i reply (Clients.enter ⟨map, s.phase, s.rest⟩ i phase) := by
  refine ⟨?_, ?_, fun j hj => ⟨Function.update_of_ne hj _ _, rfl⟩⟩
  · simp only [Clients.toDo, Clients.enter, Function.update_self, hphase]
    rw [← List.append_assoc, hdone]
  · simp only [Clients.stepsLeft, Clients.enter, Function.update_self, hphase]
    omega

/-- A step returns, and does to the values what its reply says. -/
theorem clientStep_spec (h : Coherent s values) (i : ι) :
    ∃ reply s', clientStep s i = .ok (reply, s') ∧ reply.Right values ∧
      Coherent s' (reply.applied values) ∧ StepTaken s i reply s' := by
  unfold clientStep
  cases hphase : s.phase i with
  | idle =>
    cases hrest : s.rest i with
    | nil =>
      refine ⟨.read, s, rfl, trivial, h, rfl, ?_, fun _ _ => ⟨rfl, rfl⟩⟩
      simp [Clients.stepsLeft, Phase.stepsLeft, hphase, hrest]
    | cons use rest =>
      cases use with
      | get key =>
        obtain ⟨found, he, hv⟩ := h.stores.get key
        dsimp only
        rw [he]
        refine ⟨_, _, rfl, hv, ⟨h.stores, h.present, h.positive⟩, ?_, ?_, fun j hj =>
          ⟨rfl, Function.update_of_ne hj _ _⟩⟩
        · simp [Clients.toDo, ClientReply.uses, Phase.pending, hphase, hrest]
        · simp only [Clients.stepsLeft, Phase.stepsLeft, Function.update_self, hphase, hrest, List.length_cons]
          omega
      | set key value =>
        dsimp only
        cases htest : s.map.resizeTest value.isNone with
        | none =>
          refine ⟨.read, _, rfl, trivial, h.enter h.stores h.present _ i ?_,
            taken_begin hphase hrest (show 2 ≤ 3 by decide) rfl⟩
          intro newsize key value hp
          cases hp
        | some newsize =>
          refine ⟨.read, _, rfl, trivial, h.enter h.stores h.present _ i ?_, taken_begin hphase hrest le_rfl rfl⟩
          rintro _ _ _ ⟨⟩
          exact resizeTest_pos htest
  | rebuilding newsize key value =>
    obtain ⟨map, he, hs, hb⟩ := h.stores.resize (h.positive i newsize key value hphase)
    dsimp only
    rw [he]
    refine ⟨.rebuilt, _, rfl, trivial, h.enter hs hb _ i ?_, taken_next hphase (show 2 < 3 by decide) rfl⟩
    intro newsize key value hp
    cases hp
  | checking key value =>
    obtain ⟨es, hh, -⟩ := h.stores
    have hf := Stores.filled hh h.present
    have hassert : ¬ (s.map.buckets.isNone ∨ s.map.bucketsCount = 0) := by
      rintro (hnone | hz)
      · exact h.present (Option.isNone_iff_eq_none.mp hnone)
      · exact Nat.ne_of_gt hf.positive hz
    dsimp only
    rw [if_neg hassert]
    refine ⟨.read, _, rfl, trivial, h.enter h.stores h.present _ i ?_, taken_next hphase (show 1 < 2 by decide) rfl⟩
    intro newsize key value hp
    cases hp
  | locking key value =>
    obtain ⟨map, he, hs, hb⟩ := h.stores.setLocked h.present key value
    dsimp only
    rw [he]
    refine ⟨.stored key value, _, rfl, trivial, h.enter hs hb _ i ?_, taken_next hphase (show 0 < 1 by decide) rfl⟩
    intro newsize key value hp
    cases hp

theorem clientRun_spec (schedule : List ι) (h : Coherent s values) :
    ∃ replies s', runCalls clientStep s schedule = .ok (replies, s') ∧
      Coherent s' (replies.foldl ClientReply.applied values) ∧
      ∀ i, (repliesOf i schedule replies).flatMap ClientReply.uses ++ s'.toDo i = s.toDo i ∧
        s'.stepsLeft i ≤ s.stepsLeft i - schedule.count i := by
  induction schedule generalizing s values with
  | nil => exact ⟨[], s, rfl, h, fun i => ⟨rfl, le_rfl⟩⟩
  | cons j schedule ih =>
    obtain ⟨reply, s', he, -, h', htaken⟩ := clientStep_spec h j
    obtain ⟨replies, s'', hes, h'', hrun⟩ := ih h'
    refine ⟨reply :: replies, s'', by simp only [runCalls, he, hes], h'', fun i => ?_⟩
    obtain ⟨hcalls, hsteps⟩ := hrun i
    by_cases hij : j = i
    · subst hij
      have hless := htaken.less
      rw [repliesOf, if_pos rfl, List.flatMap_cons, List.append_assoc, hcalls, htaken.done, List.count_cons_self]
      exact ⟨rfl, by omega⟩
    · obtain ⟨hphase, hrest⟩ := htaken.others i (Ne.symm hij)
      have htodo : s'.toDo i = s.toDo i := by rw [Clients.toDo, Clients.toDo, hphase, hrest]
      have hleft : s'.stepsLeft i = s.stepsLeft i := by rw [Clients.stepsLeft, Clients.stepsLeft, hphase, hrest]
      rw [repliesOf, if_neg hij, List.count_cons_of_ne hij, ← htodo, ← hleft]
      exact ⟨hcalls, hsteps⟩

/-- Clients on a table that has buckets, in any interleaving: at every moment the table stores
exactly what the sets done so far make of it and counts its keys, and the next step of any client
returns, finds what is stored if it is a lookup, and changes the stored values as its set says or
not at all. The calls that the steps of a client have done, in their order, and those that it has
still to do are its program; after four steps for each call it has done them all. -/
theorem clients_lose_no_update (programs : ι → List TableUse) (calls : List TableCall)
    (ha : Admissible false calls) {replies : List Unit} {map : Hashtable Bytes}
    (hrun : runCalls tableCall Hashtable.new calls = .ok (replies, map)) (hb : map.buckets ≠ none)
    (schedule : List ι) :
    ∃ steps s, runCalls clientStep ⟨map, fun _ => .idle, programs⟩ schedule = .ok (steps, s) ∧
      (∀ values, Stores s.map values ↔ values = steps.foldl ClientReply.applied (lastSet calls)) ∧
      (∃ keys : Finset Bytes,
        (∀ k, k ∈ keys ↔ (steps.foldl ClientReply.applied (lastSet calls) k).isSome) ∧
        s.map.count = keys.card) ∧
      (∀ i, ∃ reply s', clientStep s i = .ok (reply, s') ∧
        reply.Right (steps.foldl ClientReply.applied (lastSet calls)) ∧
        Stores s'.map (reply.applied (steps.foldl ClientReply.applied (lastSet calls)))) ∧
      ∀ i, (repliesOf i schedule steps).flatMap ClientReply.uses ++ s.toDo i = programs i ∧
        (4 * (programs i).length ≤ schedule.count i → s.toDo i = []) := by
  obtain ⟨replies', map', hrun', hs⟩ := tableRun_stores calls ha
  rw [hrun] at hrun'
  obtain ⟨-, rfl⟩ := Prod.mk.inj (Except.ok.inj hrun')
  have hstart : Coherent (⟨map, fun _ => .idle, programs⟩ : Clients ι) (lastSet calls) := by
    refine ⟨hs, hb, ?_⟩
    intro i newsize key value hi
    cases hi
  obtain ⟨steps, s, he, h, hclients⟩ := clientRun_spec schedule hstart
  refine ⟨steps, s, he, fun values => ⟨fun hv => hv.unique h.stores, ?_⟩, h.stores.counted, fun i => ?_, fun i => ?_⟩
  · rintro rfl
    exact h.stores
  · obtain ⟨reply, s', hi, hright, h', -⟩ := clientStep_spec h i
    exact ⟨reply, s', hi, hright, h'.stores⟩
  · obtain ⟨hcalls, hsteps⟩ := hclients i
    refine ⟨hcalls, fun henough => Clients.done_of_stepsLeft ?_⟩
    have hstart : (⟨map, fun _ => .idle, programs⟩ : Clients ι).stepsLeft i = 4 * (programs i).length := rfl
    omega

end Runs

/-- Two clients set the same key while one of them removes it, on a table with one value: both have done their calls,
and the table stores what the sets made of it. -/
theorem clients_lose_no_update_two :
    ∃ map, runCalls tableCall Hashtable.new [.set [1] [10]] = .ok ([()], map) ∧
      ∃ steps s, runCalls clientStep
          (⟨map, fun _ => .idle, fun i => if i then [.set [1] (some [2]), .get [1]]
            else [.set [1] none]⟩ : Clients Bool)
          [true, false, true, false, false, true, true, true, false, true, true, true] = .ok (steps, s) ∧
        (∀ values, Stores s.map values ↔
          values = steps.foldl ClientReply.applied (lastSet [.set [1] [10]])) ∧
        (repliesOf true [true, false, true, false, false, true, true, true, false, true, true, true] steps).flatMap
          ClientReply.uses = [.set [1] (some [2]), .get [1]] ∧
        (repliesOf false [true, false, true, false, false, true, true, true, false, true, true, true] steps).flatMap
          ClientReply.uses = [.set [1] none] := by
  refine ⟨_, rfl, ?_⟩
  obtain ⟨steps, s, he, hs, -, -, hclients⟩ := clients_lose_no_update
    (fun i : Bool => if i then [.set [1] (some [2]), .get [1]] else [.set [1] none])
    [.set [1] [10]] trivial rfl (Option.some_ne_none _)
    [true, false, true, false, false, true, true, true, false, true, true, true]
  obtain ⟨htrue, hdoneTrue⟩ := hclients true
  obtain ⟨hfalse, hdoneFalse⟩ := hclients false
  rw [hdoneTrue (by decide), List.append_nil] at htrue
  rw [hdoneFalse (by decide), List.append_nil] at hfalse
  exact ⟨steps, s, he, hs, htrue, hfalse⟩

end CFlare.Storage
