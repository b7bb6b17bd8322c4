import CFlare.Hooks.HookOrder
import CFlare.Storage.LinkedListSequence
import Mathlib.Algebra.Ring.Nat
import Mathlib.Logic.Relation

/-! Two adds to one name at the same time. Each call of the hashtable and of a list is one step, and so is each
access to the memory of a hook between them: a hook is in the list before any of its fields is stored. -/
namespace CFlare.Hooks
open CFlare.Library CFlare.Storage

/-- A hook in the memory of a node, which is zeros at first. A null pointer is none. -/
structure HookSlot (P F X : Type) where
  id : Option Bytes
  priority : P
  context : Option X
  func : Option F

/-- What an add stores in a node, in this order. -/
inductive HookField where
  | id
  | priority
  | context
  | func

def HookField.next : HookField → Option HookField
  | .id => some .priority
  | .priority => some .context
  | .context => some .func
  | .func => none

section Slots
variable {P F X : Type}

def HookSlot.zero [Zero P] : HookSlot P F X := ⟨none, 0, none, none⟩

def HookSlot.store (slot : HookSlot P F X) (hook : Hook P F X) : HookField → HookSlot P F X
  | .id => { slot with id := some hook.id }
  | .priority => { slot with priority := hook.priority }
  | .context => { slot with context := some hook.context }
  | .func => { slot with func := some hook.func }

def Hook.slot (hook : Hook P F X) : HookSlot P F X :=
  ⟨some hook.id, hook.priority, some hook.context, some hook.func⟩

def Hook.upTo [Zero P] (hook : Hook P F X) : HookField → HookSlot P F X
  | .id => .zero
  | .priority => HookSlot.zero.store hook .id
  | .context => (HookSlot.zero.store hook .id).store hook .priority
  | .func => ((HookSlot.zero.store hook .id).store hook .priority).store hook .context

theorem upTo_store [Zero P] (hook : Hook P F X) (field : HookField) :
    (hook.upTo field).store hook field = (field.next.map hook.upTo).getD hook.slot := by
  cases field <;> rfl

theorem upTo_id [Zero P] (hook : Hook P F X) (field : HookField) {id : Bytes} (h : (hook.upTo field).id = some id) :
    id = hook.id := by
  cases field with
  | id => cases h
  | priority | context | func => exact (Option.some.inj h).symm

end Slots

/-- What an add does next. A table is named by the address of its list. -/
inductive AddPhase where
  | removing
  | walking (a : Nat) (it : Iterator)
  | comparing (a : Nat) (it : Iterator) (p : Nat)
  | deleting (a : Nat) (it : Iterator) (p : Nat)
  | finding
  | creating
  | owning (a : Nat)
  | storing (a : Nat)
  | confirming
  | searching (a : Nat) (it : Iterator)
  | ranking (a : Nat) (it : Iterator) (p : Nat)
  | inserting (a : Nat) (position : Option Nat)
  | filling (a : Nat) (p : Nat) (field : HookField)
  | done

namespace AddPhase

def table : AddPhase → Option Nat
  | .walking a _ | .comparing a _ _ | .deleting a _ _ | .searching a _ | .ranking a _ _ | .inserting a _
  | .filling a _ _ => some a
  | _ => none

/-- The list that an add has made and not stored yet. -/
def made : AddPhase → Option Nat
  | .owning a | .storing a => some a
  | _ => none

/-- The node that it has inserted and not filled yet. -/
def node : AddPhase → Option Nat
  | .filling _ p _ => some p
  | _ => none

/-- The add has not begun to walk its name's list. -/
def Early : AddPhase → Prop
  | .removing => True
  | .walking _ it => it.started = false
  | _ => False

end AddPhase

section Steps
variable {P F X : Type}

/-- A set on a name that has a table frees it, and its list with it. -/
def storeTable {α : Type} (reg : Tables α) (name : Bytes) (a : Nat) : Except Fault (Tables α) := do
  let old ← reg.hookTables.get (hashCompute name)
  let tables ← reg.hookTables.set (hashCompute name) (some ⟨name, a⟩) hookTableSize
  match old with
  | none => .ok { reg with hookTables := tables }
  | some tbl =>
    let list ← reg.list tbl.data.funcs
    let _ ← list.delete
    .ok { reg with hookTables := tables, lists := Function.update reg.lists tbl.data.funcs none }

variable [LT P] [DecidableLT P] [Zero P]

def addStep (reg : Tables (HookSlot P F X)) (name : Bytes) (hook : Hook P F X) :
    AddPhase → Except Fault (AddPhase × Tables (HookSlot P F X))
  | .removing =>
    if reg.hookLoaded = false then .error .abort
    else do
      match ← reg.hookTables.get (hashCompute name) with
      | none => .ok (.finding, reg)
      | some tbl => .ok (.walking tbl.data.funcs LinkedList.getIterator, reg)
  | .walking a it => do
    let list ← reg.list a
    let (position, it) ← list.iteratorNext it
    .ok (position.elim .finding (.comparing a it), reg)
  | .comparing a it p => do
    let list ← reg.list a
    let n ← list.node p
    match n.data.id with
    -- strcmp follows the null pointer
    | none => .error .undefined
    | some id => .ok (if id = hook.id then .deleting a it p else .walking a it, reg)
  | .deleting a it p => do
    let list ← reg.list a
    let (_, list) ← list.remove (some p)
    .ok (.walking a it, reg.setList a list)
  | .finding => do
    match ← reg.hookTables.get (hashCompute name) with
    | none => .ok (.creating, reg)
    | some tbl => .ok (.searching tbl.data.funcs LinkedList.getIterator, reg)
  | .creating =>
    let a := reg.listsCount
    .ok (.owning a, { reg.setList a LinkedList.new with listsCount := a + 1 })
  | .owning a => do
    let list ← reg.list a
    .ok (.storing a, reg.setList a (list.ondelete true))
  | .storing a => do
    let reg ← storeTable reg name a
    .ok (.confirming, reg)
  | .confirming => do
    match ← reg.hookTables.get (hashCompute name) with
    | none => .error .assertion
    | some tbl => .ok (.searching tbl.data.funcs LinkedList.getIterator, reg)
  | .searching a it => do
    let list ← reg.list a
    let (position, it) ← list.iteratorNext it
    .ok (position.elim (.inserting a none) (.ranking a it), reg)
  | .ranking a it p => do
    let list ← reg.list a
    let n ← list.node p
    .ok (if hook.priority < n.data.priority then .inserting a (some p) else .searching a it, reg)
  | .inserting a position => do
    let list ← reg.list a
    let (p, list) ← list.insertBefore position HookSlot.zero
    .ok (.filling a p .id, reg.setList a list)
  | .filling a p field => do
    let list ← reg.list a
    let n ← list.node p
    let list ← list.setData p (n.data.store hook field)
    .ok (field.next.elim .done (.filling a p), reg.setList a list)
  | .done => .ok (.done, reg)

/-- The registry, and where each of the two adds is. -/
structure TwoAdds (P F X : Type) where
  reg : Tables (HookSlot P F X)
  phase : Bool → AddPhase

/-- In a registry that calls have left every hook is stored whole. -/
def TwoAdds.start (reg : Registry P F X) : TwoAdds P F X :=
  ⟨{ reg with lists := fun a => (reg.lists a).map (LinkedList.mapData Hook.slot) }, fun _ => .removing⟩

def TwoAdds.step (name : Bytes) (hook : Bool → Hook P F X) (s : TwoAdds P F X) (i : Bool) :
    Except Fault (TwoAdds P F X) := do
  let (phase, reg) ← addStep s.reg name (hook i) (s.phase i)
  .ok ⟨reg, Function.update s.phase i phase⟩

/-- The hooks of a name, as a walk over its list meets them. -/
def Tables.hooksOf {α : Type} (reg : Tables α) (name : Bytes) : Except Fault (List α) := do
  match ← reg.hookTables.get (hashCompute name) with
  | none => .ok []
  | some tbl =>
    let list ← reg.list tbl.data.funcs
    let cells ← list.forwards
    .ok cells.data

/-- A node that is still in a list holds this. -/
def Tables.Linked {α : Type} (reg : Tables α) (a p : Nat) (x : α) : Prop :=
  ∃ list cells, reg.lists a = some list ∧ list.forwards = .ok cells ∧ (p, x) ∈ cells

/-- What keeps the adds safe. A walk goes on to, and a hook is compared with and inserted before, a node that is
still in the list, and where ids are compared the node's has been stored. A set meets no table of the name, or one
that is empty and that the other add does not have in its hands. A hook is inserted before no node when the list is
empty, or when the other add has yet to remove all that is in it. -/
def TwoAdds.Orderly (name : Bytes) (hook : Bool → Hook P F X) (s : TwoAdds P F X) (i : Bool) : Prop :=
  match s.phase i with
  | .walking a it | .searching a it => it.started = true → ∀ p, it.next = some p → ∃ x, s.reg.Linked a p x
  | .comparing a _ p => ∃ x, s.reg.Linked a p x ∧ x.id ≠ none
  | .ranking a _ p | .inserting a (some p) => ∃ x, s.reg.Linked a p x
  | .storing _ => ∀ tbl, s.reg.hookTables.get (hashCompute name) = .ok (some tbl) →
      (∃ list, s.reg.lists tbl.data.funcs = some list ∧ list.forwards = .ok [] ∧ list.count = 0) ∧
        (s.phase !i).table = none
  | .inserting a none => ∀ list cells, s.reg.lists a = some list → list.forwards = .ok cells →
      cells = [] ∨ ((∀ c ∈ cells, c.2.id = some (hook !i).id) ∧ (s.phase !i).Early)
  | _ => True

/-- A step of one of the adds, and one that meets the condition. -/
def AddStepped (name : Bytes) (hook : Bool → Hook P F X) (s s' : TwoAdds P F X) : Prop :=
  ∃ i, s.step name hook i = .ok s'

def OrderlyAdd (name : Bytes) (hook : Bool → Hook P F X) (s s' : TwoAdds P F X) : Prop :=
  ∃ i, s.Orderly name hook i ∧ s.step name hook i = .ok s'

end Steps

section Registries
variable {α : Type} {reg : Tables α} {es : List (Container HookTable)} {order : Bytes → List α}

theorem Tracks.hooksOf (h : Tracks reg es order) (name : Bytes) : reg.hooksOf name = .ok (order name) := by
  unfold Tables.hooksOf
  rw [get_spec h.tables name]
  cases hat : entryAt Container.key es name with
  | none =>
    rw [h.absent name hat]
    rfl
  | some e =>
    obtain ⟨he, rfl⟩ := (entryAt_eq_some h.tables.distinct).mp hat
    obtain ⟨list, cells, hl, hr, hd⟩ := h.lookup he
    rw [Option.map_some, fault_ok_bind]
    dsimp only
    rw [hl, fault_ok_bind, forwards_spec hr, fault_ok_bind, hd]

/-- A list that belongs to no name may change, and be freed. -/
theorem Tracks.setOther (h : Tracks reg es order) {a : Nat} (ha : ∀ e ∈ es, e.block.data.funcs ≠ a)
    (list : Option (LinkedList α)) {count : Nat} (hc : reg.listsCount ≤ count) :
    Tracks { reg with lists := Function.update reg.lists a list, listsCount := count } es order := by
  refine ⟨h.loaded, h.tables, fun e he => Nat.lt_of_lt_of_le (h.handed e he) hc, h.apart, ?_, h.absent⟩
  intro e he
  obtain ⟨list', cells, hl, hr, hd⟩ := h.hooks e he
  exact ⟨list', cells, (Function.update_of_ne (ha e he) _ _).trans hl, hr, hd⟩

/-- Storing an empty list under a name that has no table, or an empty one. -/
theorem storeTable_spec (h : Tracks reg es order) (name : Bytes) {a : Nat} {list : LinkedList α}
    (hlt : a < reg.listsCount) (hfresh : ∀ e ∈ es, e.block.data.funcs ≠ a) (hl : reg.lists a = some list)
    (hr : Represents list [])
    (hold : ∀ e ∈ es, e.key = name → ∃ old, reg.lists e.block.data.funcs = some old ∧ Represents old [] ∧
      old.count = 0) :
    ∃ reg' es', storeTable reg name a = .ok reg' ∧ Tracks reg' es' order ∧ (∃ e ∈ es', e.key = name) ∧
      (∀ b, (∀ e ∈ es, e.block.data.funcs ≠ b) → reg'.lists b = reg.lists b) ∧
      reg'.listsCount = reg.listsCount ∧
      (∀ b, b ≠ a → (∀ e ∈ es, e.block.data.funcs ≠ b) → ∀ e ∈ es', e.block.data.funcs ≠ b) := by
  obtain ⟨tables, es', hset, heffect, hh', -⟩ :=
    set_spec h.tables name (some ⟨name, a⟩) hookTableSize (by simp)
  have hempty : order name = [] := by
    cases hat : entryAt Container.key es name with
    | none => exact h.absent name hat
    | some e =>
      obtain ⟨he, rfl⟩ := (entryAt_eq_some h.tables.distinct).mp hat
      obtain ⟨old, hlold, hrold, -⟩ := hold e he rfl
      obtain ⟨list', cells, hl', hr', hd'⟩ := h.hooks e he
      obtain rfl := Option.some.inj (hlold.symm.trans hl')
      rw [← hd', ← hrold.unique hr']
      rfl
  -- the new entry takes the place of the name's old one
  obtain ⟨new, rfl, rfl, rfl⟩ : ∃ new : Container HookTable, new.key = name ∧
      new.block.data.funcs = a ∧ es' = es.filter (fun e => e.key ≠ new.key) ++ [new] := by
    cases heffect with
    | @kept e _ before same books =>
      exact absurd (congrArg HookTable.funcs same.2)
        (hfresh e ((entryAt_eq_some h.tables.distinct).mp before).1)
    | @updated e _ before differs books =>
      obtain rfl := ((entryAt_eq_some h.tables.distinct).mp before).2
      exact ⟨{ e with block := ⟨reg.hookTables.blocks, ⟨e.key, a⟩, hookTableSize⟩ }, rfl, rfl, rfl⟩
    | inserted before books =>
      exact ⟨⟨fnvHash1a32 name, name, ⟨reg.hookTables.blocks, ⟨name, a⟩, hookTableSize⟩⟩, rfl, rfl, rfl⟩
  have htracks : ∀ lists : Nat → Option (LinkedList α),
      (∀ e ∈ es, e.key ≠ new.key → lists e.block.data.funcs = reg.lists e.block.data.funcs) →
      lists new.block.data.funcs = some list → Tracks { reg with hookTables := tables, lists := lists } _ order :=
    fun lists hkeep hnew => h.replaced hh' hfresh hempty (Nat.le_refl _) hlt hnew hr hkeep
  have hlater : ∀ b, b ≠ new.block.data.funcs → (∀ e ∈ es, e.block.data.funcs ≠ b) →
      ∀ e ∈ es.filter (fun e => e.key ≠ new.key) ++ [new], e.block.data.funcs ≠ b := by
    intro b hba hb e he
    rcases List.mem_append.mp he with he | he
    · exact hb e (List.mem_filter.mp he).1
    · exact fun hf => hba (hf.symm.trans (congrArg (fun e => e.block.data.funcs) (List.mem_singleton.mp he)))
  have hnewmem : ∃ e ∈ es.filter (fun e => e.key ≠ new.key) ++ [new], e.key = new.key :=
    ⟨new, List.mem_append_right _ List.mem_cons_self, rfl⟩
  cases hat : entryAt Container.key es new.key with
  | none =>
    refine ⟨{ reg with hookTables := tables }, _, ?_, htracks reg.lists (fun _ _ _ => rfl) hl, hnewmem,
      fun _ _ => rfl, rfl, hlater⟩
    rw [storeTable, get_spec h.tables new.key, hat, Option.map_none, fault_ok_bind, hset, fault_ok_bind]
  | some e =>
    obtain ⟨he, hek⟩ := (entryAt_eq_some h.tables.distinct).mp hat
    obtain ⟨old, hlold, hrold, hcount⟩ := hold e he hek
    have hdelete : old.delete = .ok [] := by
      rw [LinkedList.delete, hcount, LinkedList.deleteNodes, if_pos hcount]
    refine ⟨{ reg with hookTables := tables, lists := Function.update reg.lists e.block.data.funcs none }, _, ?_,
      htracks _ ?_ ?_, hnewmem, ?_, rfl, hlater⟩
    · rw [storeTable, get_spec h.tables new.key, hat, Option.map_some, fault_ok_bind, hset, fault_ok_bind]
      dsimp only
      rw [Tables.list, hlold]
      dsimp only
      rw [fault_ok_bind, hdelete, fault_ok_bind]
    · intro e' he' hne
      refine Function.update_of_ne (fun hf => hne ?_) _ _
      rw [← hek]
      exact congrArg Container.key (List.inj_on_of_nodup_map h.apart he' he hf)
    · exact (Function.update_of_ne (Ne.symm (hfresh e he)) _ _).trans hl
    · intro b hb
      exact Function.update_of_ne (Ne.symm (hb e he)) _ _

end Registries

section Adds
variable {P F X : Type} {reg : Tables (HookSlot P F X)} {es : List (Container HookTable)}
  {order before : Bytes → List (HookSlot P F X)} {name : Bytes} {hook : Bool → Hook P F X}

def ListOf (es : List (Container HookTable)) (name : Bytes) (a : Nat) : Prop :=
  ∃ e ∈ es, e.key = name ∧ e.block.data.funcs = a

def CellOf (reg : Tables (HookSlot P F X)) (a p : Nat) (x : HookSlot P F X) : Prop :=
  ∃ list cells, reg.lists a = some list ∧ Represents list cells ∧ (p, x) ∈ cells

/-- What an add may rely on where it is. -/
def AddPhase.Sound [Zero P] (reg : Tables (HookSlot P F X)) (es : List (Container HookTable))
    (order : Bytes → List (HookSlot P F X)) (name : Bytes) (hook : Hook P F X) : AddPhase → Prop
  | .walking a _ | .comparing a _ _ | .searching a _ | .ranking a _ _ | .inserting a _ => ListOf es name a
  | .deleting a _ p => ListOf es name a ∧ ∃ x, CellOf reg a p x ∧ x.id = some hook.id
  | .filling a p field => ListOf es name a ∧ CellOf reg a p (hook.upTo field)
  | .owning a | .storing a => a < reg.listsCount ∧ (∀ e ∈ es, e.block.data.funcs ≠ a) ∧
      ∃ list, reg.lists a = some list ∧ Represents list []
  | .confirming => ∃ e ∈ es, e.key = name
  | .done => hook.slot ∈ order name
  | _ => True

/-- The hooks with an id that neither add is about. -/
def others (hook : Bool → Hook P F X) (slots : List (HookSlot P F X)) : List (HookSlot P F X) :=
  slots.filter (fun x => x.id ≠ none ∧ ∀ i, x.id ≠ some (hook i).id)

theorem others_append (xs ys : List (HookSlot P F X)) :
    others hook (xs ++ ys) = others hook xs ++ others hook ys := List.filter_append xs ys

/-- Memory that one of the adds is about: its id is one of theirs, or not stored yet. -/
def Own (hook : Bool → Hook P F X) (x : HookSlot P F X) : Prop := ∀ id, x.id = some id → ∃ i, id = (hook i).id

theorem own_of_id {x : HookSlot P F X} {i : Bool} (h : x.id = some (hook i).id) : Own hook x := by
  intro id hid
  exact ⟨i, Option.some.inj (hid.symm.trans h)⟩

theorem own_upTo [Zero P] (i : Bool) (field : HookField) : Own hook ((hook i).upTo field) :=
  fun _ hid => ⟨i, upTo_id (hook i) field hid⟩

theorem others_cons_own {x : HookSlot P F X} (hx : Own hook x) (xs : List (HookSlot P F X)) :
    others hook (x :: xs) = others hook xs := by
  apply List.filter_cons_of_neg
  intro hall
  obtain ⟨hstored, hno⟩ := of_decide_eq_true hall
  obtain ⟨id, hid⟩ := Option.ne_none_iff_exists'.mp hstored
  obtain ⟨i, rfl⟩ := hx id hid
  exact hno i hid

/-- The invariant of two adds: other names are as before, and so are the hooks of this name that
neither add is about. -/
structure Registering [Zero P] (name : Bytes) (hook : Bool → Hook P F X) (before : Bytes → List (HookSlot P F X))
    (s : TwoAdds P F X) (es : List (Container HookTable)) (order : Bytes → List (HookSlot P F X)) : Prop where
  tracks : Tracks s.reg es order
  names : ∀ n, n ≠ name → order n = before n
  kept : others hook (order name) = others hook (before name)
  sound : ∀ i, (s.phase i).Sound s.reg es order name (hook i)
  apart : ∀ i a b, (s.phase i).made = some a → (s.phase !i).made = some b → a ≠ b
  distinct : ∀ i p q, (s.phase i).node = some p → (s.phase !i).node = some q → p ≠ q

/-- Memory of hooks that are stored whole. -/
theorem Tracks.slots {reg : Registry P F X} {hooks : Bytes → List (Hook P F X)} (h : Tracks reg es hooks) :
    Tracks (TwoAdds.start reg).reg es (fun n => (hooks n).map Hook.slot) := by
  refine ⟨h.loaded, h.tables, h.handed, h.apart, fun e he => ?_, fun n hn => ?_⟩
  · obtain ⟨list, cells, hl, hr, hd⟩ := h.hooks e he
    refine ⟨list.mapData Hook.slot, cells.mapData Hook.slot, ?_, hr.mapData Hook.slot, ?_⟩
    · exact congrArg (Option.map (LinkedList.mapData Hook.slot)) hl
    · rw [Cells.data_mapData, hd]
  · rw [h.absent n hn]
    rfl

variable [Zero P]

theorem Registering.start {reg : Registry P F X} (h : Tracks (TwoAdds.start reg).reg es order) :
    Registering name hook order (.start reg) es order :=
  ⟨h, fun _ _ => rfl, rfl, fun _ => trivial, fun _ _ _ h => (Option.some_ne_none _ h.symm).elim,
    fun _ _ _ h => (Option.some_ne_none _ h.symm).elim⟩

variable {s : TwoAdds P F X} {i : Bool}

private theorem Registering.after {reg' : Tables (HookSlot P F X)} {es' : List (Container HookTable)}
    {order' : Bytes → List (HookSlot P F X)} {phase' : AddPhase} (ht : Tracks reg' es' order')
    (hn : ∀ n, n ≠ name → order' n = before n) (hk : others hook (order' name) = others hook (before name))
    (hself : phase'.Sound reg' es' order' name (hook i))
    (hother : (s.phase !i).Sound reg' es' order' name (hook !i))
    (hmade : ∀ a b, phase'.made = some a → (s.phase !i).made = some b → a ≠ b)
    (hnode : ∀ p q, phase'.node = some p → (s.phase !i).node = some q → p ≠ q) :
    Registering name hook before ⟨reg', Function.update s.phase i phase'⟩ es' order' := by
  have hat : ∀ j, j ≠ i → j = !i := by
    intro j hj
    cases i <;> cases j <;> first | rfl | exact absurd rfl hj
  have hphase : Function.update s.phase i phase' (!i) = s.phase !i := Function.update_of_ne (by simp) _ _
  -- what differs between the two adds before the step differs after it
  have hpair : ∀ f : AddPhase → Option Nat, (∀ a b, f phase' = some a → f (s.phase !i) = some b → a ≠ b) →
      ∀ j a b, f (Function.update s.phase i phase' j) = some a →
        f (Function.update s.phase i phase' !j) = some b → a ≠ b := by
    intro f hf j a b hja hjb
    by_cases hj : j = i
    · rw [hj, Function.update_self] at hja
      rw [hj, hphase] at hjb
      exact hf a b hja hjb
    · rw [hat j hj, hphase] at hja
      rw [hat j hj, Bool.not_not, Function.update_self] at hjb
      exact (hf b a hjb hja).symm
  refine ⟨ht, hn, hk, fun j => ?_, hpair AddPhase.made hmade, hpair AddPhase.node hnode⟩
  change (Function.update s.phase i phase' j).Sound reg' es' order' name (hook j)
  by_cases hj : j = i
  · rw [hj, Function.update_self]
    exact hself
  · rw [hat j hj, hphase]
    exact hother

private theorem Registering.stay (h : Registering name hook before s es order) {phase' : AddPhase}
    (hself : phase'.Sound s.reg es order name (hook i)) (hmade : phase'.made = none) (hnode : phase'.node = none) :
    Registering name hook before ⟨s.reg, Function.update s.phase i phase'⟩ es order := by
  refine Registering.after h.tracks h.names h.kept hself (h.sound !i) ?_ ?_
  · intro a b ha
    rw [hmade] at ha
    cases ha
  · intro p q hp
    rw [hnode] at hp
    cases hp

theorem Registering.list (h : Registering name hook before s es order) {a : Nat} (ha : ListOf es name a) :
    ∃ list cells, s.reg.lists a = some list ∧ Represents list cells ∧ cells.data = order name := by
  obtain ⟨e, he, rfl, rfl⟩ := ha
  exact h.tracks.hooks e he

omit [Zero P] in
/-- A cell is one of those that the list represents. -/
theorem CellOf.mem {a p : Nat} {x : HookSlot P F X} (h : CellOf reg a p x) {list : LinkedList (HookSlot P F X)}
    {cells : Cells (HookSlot P F X)} (hl : reg.lists a = some list) (hr : Represents list cells) : (p, x) ∈ cells := by
  obtain ⟨list', cells', hl', hr', hx⟩ := h
  obtain rfl := Option.some.inj (hl'.symm.trans hl)
  rwa [hr'.unique hr] at hx

omit [Zero P] in
theorem Tables.Linked.mem {a p : Nat} {x : HookSlot P F X} (h : reg.Linked a p x) {list : LinkedList (HookSlot P F X)}
    {cells : Cells (HookSlot P F X)} (hl : reg.lists a = some list) (hr : Represents list cells) : (p, x) ∈ cells := by
  obtain ⟨list', cells', hl', hf, hp⟩ := h
  obtain rfl := Option.some.inj (hl'.symm.trans hl)
  rw [forwards_spec hr] at hf
  rwa [Except.ok.inj hf]

omit [Zero P] in
private theorem node_of_mem {list : LinkedList (HookSlot P F X)} {cells : Cells (HookSlot P F X)}
    (hr : Represents list cells) {p : Nat} {x : HookSlot P F X} (hx : (p, x) ∈ cells) :
    ∃ n, list.node p = .ok n ∧ n.data = x := by
  obtain ⟨n, hn, hd⟩ := hr.linked.lookup hx
  exact ⟨n, by rw [LinkedList.node, hn], hd⟩

omit [Zero P] in
private theorem iteratorNext_linked {list : LinkedList (HookSlot P F X)} {cells : Cells (HookSlot P F X)}
    (hr : Represents list cells) {it : Iterator}
    (hnext : it.started = true → ∀ p, it.next = some p → p ∈ cells.addresses) :
    ∃ position it', list.iteratorNext it = .ok (position, it') := by
  cases hto : (if it.started then it.next else list.first) with
  | none =>
    have hahead : it.Ahead list [] := hto
    obtain ⟨it', he, -⟩ := iteratorNext_nil hahead
    exact ⟨none, it', he⟩
  | some p =>
    have hp : p ∈ cells.addresses := by
      by_cases hs : it.started = true
      · rw [if_pos hs] at hto
        exact hnext hs p hto
      · rw [if_neg hs, hr.first] at hto
        cases cells with
        | nil => cases hto
        | cons c cells => exact Option.some.inj hto ▸ List.mem_cons_self
    obtain ⟨⟨_, x⟩, hx, rfl⟩ := List.mem_map.mp hp
    obtain ⟨us, vs, rfl⟩ := List.append_of_mem hx
    have hahead : it.Ahead list ((_, x) :: vs) := hto
    obtain ⟨it', -, he, -⟩ := iteratorNext_cons hr hahead
    exact ⟨_, it', he⟩

omit [Zero P] in
private theorem Tracks.get (h : Tracks reg es order) (name : Bytes) :
    (reg.hookTables.get (hashCompute name) = .ok none ∧ ∀ e ∈ es, e.key ≠ name) ∨
    ∃ tbl, reg.hookTables.get (hashCompute name) = .ok (some tbl) ∧ ListOf es name tbl.data.funcs := by
  rw [get_spec h.tables name]
  cases hat : entryAt Container.key es name with
  | none => exact .inl ⟨rfl, entryAt_eq_none.mp hat⟩
  | some e =>
    obtain ⟨he, hk⟩ := (entryAt_eq_some h.tables.distinct).mp hat
    exact .inr ⟨e.block, rfl, e, he, hk, rfl⟩

omit [Zero P] in
private theorem ListOf.unique (h : Tracks reg es order) {a b : Nat} (ha : ListOf es name a)
    (hb : ListOf es name b) : a = b := by
  obtain ⟨e, he, hek, rfl⟩ := ha
  obtain ⟨f, hf, hfk, rfl⟩ := hb
  rw [List.inj_on_of_nodup_map h.tables.distinct he hf (hek.trans hfk.symm)]

omit [Zero P] in
private theorem ListOf.tracks {a : Nat} (ha : ListOf es name a) (h : Tracks reg es order)
    {list : LinkedList (HookSlot P F X)} {cells : Cells (HookSlot P F X)} (hr : Represents list cells) :
    Tracks (reg.setList a list) es (Function.update order name cells.data) := by
  obtain ⟨e, he, rfl, rfl⟩ := ha
  exact h.setList he hr

private theorem AddPhase.Sound.relist {phase : AddPhase} {x : Hook P F X} (h : phase.Sound reg es order name x)
    (ht : Tracks reg es order) {a : Nat} (ha : ListOf es name a) {list list' : LinkedList (HookSlot P F X)}
    {cells cells' : Cells (HookSlot P F X)} (hl : reg.lists a = some list) (hr : Represents list cells)
    (hd : cells.data = order name) (hr' : Represents list' cells')
    (hkeep : phase.Early ∨ ∀ c ∈ cells, c.2.id = some x.id ∨ phase.node = some c.1 → c ∈ cells') :
    phase.Sound (reg.setList a list') es (Function.update order name cells'.data) name x := by
  have hcell : ∀ {b p y}, ListOf es name b → CellOf reg b p y → ¬ phase.Early → y.id = some x.id ∨ phase.node = some p →
      CellOf (reg.setList a list') b p y := by
    intro b p y hb hy hearly hown
    obtain rfl := ListOf.unique ht ha hb
    exact ⟨list', cells', Function.update_self _ _ _, hr', hkeep.resolve_left hearly (p, y) (hy.mem hl hr) hown⟩
  cases phase with
  | removing | finding | creating => trivial
  | walking | comparing | searching | ranking | inserting | confirming => exact h
  | deleting b it p =>
    obtain ⟨hb, y, hy, hid⟩ := h
    exact ⟨hb, y, hcell hb hy id (.inl hid), hid⟩
  | filling b p field =>
    obtain ⟨hb, hy⟩ := h
    exact ⟨hb, hcell hb hy id (.inr rfl)⟩
  | owning b | storing b =>
    obtain ⟨hlt, hfresh, l, hl2, hr2⟩ := h
    obtain ⟨e, he, -, rfl⟩ := ha
    exact ⟨hlt, hfresh, l, (Function.update_of_ne (Ne.symm (hfresh e he)) _ _).trans hl2, hr2⟩
  | done =>
    have hx : x.slot ∈ cells.data := hd ▸ h
    obtain ⟨c, hc, hslot⟩ := List.mem_map.mp hx
    change x.slot ∈ Function.update order name cells'.data name
    rw [Function.update_self, ← hslot]
    exact List.mem_map_of_mem (hkeep.resolve_left id c hc (.inl (congrArg HookSlot.id hslot)))

/-- One add goes on, and keeps the invariant. -/
def TwoAdds.Proceeds [LT P] [DecidableLT P] (name : Bytes) (hook : Bool → Hook P F X)
    (before : Bytes → List (HookSlot P F X)) (s : TwoAdds P F X) (i : Bool) : Prop :=
  ∃ phase' reg' es' order', addStep s.reg name (hook i) (s.phase i) = .ok (phase', reg') ∧
    Registering name hook before ⟨reg', Function.update s.phase i phase'⟩ es' order'

variable [LT P] [DecidableLT P]

private theorem Registering.looks (h : Registering name hook before s es order)
    (hp : s.phase i = .removing ∨ s.phase i = .finding ∨ s.phase i = .confirming) :
    s.Proceeds name hook before i := by
  have hsound := h.sound i
  rcases h.tracks.get name with ⟨hget, hnone⟩ | ⟨tbl, hget, hlist⟩
  · rcases hp with hp | hp | hp
    · refine ⟨.finding, s.reg, es, order, ?_, h.stay trivial rfl rfl⟩
      rw [hp, addStep, if_neg (by simp [h.tracks.loaded]), hget, fault_ok_bind]
    · refine ⟨.creating, s.reg, es, order, ?_, h.stay trivial rfl rfl⟩
      rw [hp, addStep, hget, fault_ok_bind]
    · rw [hp] at hsound
      obtain ⟨e, he, hk⟩ := hsound
      exact absurd hk (hnone e he)
  · rcases hp with hp | hp | hp
    · refine ⟨.walking tbl.data.funcs LinkedList.getIterator, s.reg, es, order, ?_, h.stay hlist rfl rfl⟩
      rw [hp, addStep, if_neg (by simp [h.tracks.loaded]), hget, fault_ok_bind]
    · refine ⟨.searching tbl.data.funcs LinkedList.getIterator, s.reg, es, order, ?_, h.stay hlist rfl rfl⟩
      rw [hp, addStep, hget, fault_ok_bind]
    · refine ⟨.searching tbl.data.funcs LinkedList.getIterator, s.reg, es, order, ?_, h.stay hlist rfl rfl⟩
      rw [hp, addStep, hget, fault_ok_bind]

private theorem Registering.moves (h : Registering name hook before s es order) {a : Nat} {it : Iterator}
    (hp : s.phase i = .walking a it ∨ s.phase i = .searching a it) (ho : s.Orderly name hook i) :
    s.Proceeds name hook before i := by
  have hlist : ListOf es name a := by
    have hsound := h.sound i
    rcases hp with hp | hp <;> rw [hp] at hsound <;> exact hsound
  have hnext : it.started = true → ∀ p, it.next = some p → ∃ x, s.reg.Linked a p x := by
    unfold TwoAdds.Orderly at ho
    rcases hp with hp | hp <;> rw [hp] at ho <;> exact ho
  obtain ⟨list, cells, hl, hr, -⟩ := h.list hlist
  have hget : s.reg.list a = .ok list := by rw [Tables.list, hl]
  obtain ⟨position, it', he⟩ := iteratorNext_linked hr (fun hs p hpn => by
    obtain ⟨x, hx⟩ := hnext hs p hpn
    exact List.mem_map_of_mem (hx.mem hl hr))
  rcases hp with hp | hp
  · refine ⟨position.elim .finding (.comparing a it'), s.reg, es, order, ?_, ?_⟩
    · rw [hp, addStep, hget, fault_ok_bind, he, fault_ok_bind]
    · cases position with
      | none => exact h.stay trivial rfl rfl
      | some p => exact h.stay hlist rfl rfl
  · refine ⟨position.elim (.inserting a none) (.ranking a it'), s.reg, es, order, ?_, ?_⟩
    · rw [hp, addStep, hget, fault_ok_bind, he, fault_ok_bind]
    · cases position with
      | none => exact h.stay hlist rfl rfl
      | some p => exact h.stay hlist rfl rfl

private theorem Registering.compares (h : Registering name hook before s es order) {a p : Nat} {it : Iterator}
    (hp : s.phase i = .comparing a it p) (ho : s.Orderly name hook i) : s.Proceeds name hook before i := by
  have hlist : ListOf es name a := by
    have hsound := h.sound i
    rw [hp] at hsound
    exact hsound
  unfold TwoAdds.Orderly at ho
  rw [hp] at ho
  obtain ⟨x, hx, hstored⟩ := ho
  obtain ⟨id, hid⟩ := Option.ne_none_iff_exists'.mp hstored
  obtain ⟨list, cells, hl, hr, -⟩ := h.list hlist
  obtain ⟨n, hn, rfl⟩ := node_of_mem hr (hx.mem hl hr)
  refine ⟨if id = (hook i).id then .deleting a it p else .walking a it, s.reg, es, order, ?_, ?_⟩
  · rw [hp, addStep, Tables.list, hl]
    dsimp only
    rw [fault_ok_bind, hn, fault_ok_bind, hid]
  · by_cases hsame : id = (hook i).id
    · rw [if_pos hsame]
      exact h.stay ⟨hlist, n.data, ⟨list, cells, hl, hr, hx.mem hl hr⟩, hid.trans (congrArg some hsame)⟩ rfl rfl
    · rw [if_neg hsame]
      exact h.stay hlist rfl rfl

private theorem Registering.ranks (h : Registering name hook before s es order) {a p : Nat} {it : Iterator}
    (hp : s.phase i = .ranking a it p) (ho : s.Orderly name hook i) : s.Proceeds name hook before i := by
  have hlist : ListOf es name a := by
    have hsound := h.sound i
    rw [hp] at hsound
    exact hsound
  unfold TwoAdds.Orderly at ho
  rw [hp] at ho
  obtain ⟨x, hx⟩ := ho
  obtain ⟨list, cells, hl, hr, -⟩ := h.list hlist
  obtain ⟨n, hn, -⟩ := node_of_mem hr (hx.mem hl hr)
  refine ⟨if (hook i).priority < n.data.priority then .inserting a (some p) else .searching a it, s.reg, es, order,
    ?_, ?_⟩
  · rw [hp, addStep, Tables.list, hl]
    dsimp only
    rw [fault_ok_bind, hn, fault_ok_bind]
  · by_cases hlt : (hook i).priority < n.data.priority
    · rw [if_pos hlt]
      exact h.stay hlist rfl rfl
    · rw [if_neg hlt]
      exact h.stay hlist rfl rfl

omit [LT P] [DecidableLT P] in
private theorem Registering.relisted (h : Registering name hook before s es order) {a : Nat}
    (ha : ListOf es name a) {list list' : LinkedList (HookSlot P F X)} {cells cells' : Cells (HookSlot P F X)}
    (hl : s.reg.lists a = some list) (hr : Represents list cells) (hd : cells.data = order name)
    (hr' : Represents list' cells') (hothers : others hook cells'.data = others hook cells.data)
    (hkeep : (s.phase !i).Early ∨
      ∀ c ∈ cells, c.2.id = some (hook !i).id ∨ (s.phase !i).node = some c.1 → c ∈ cells') {phase' : AddPhase}
    (hself : phase'.Sound (s.reg.setList a list') es (Function.update order name cells'.data) name (hook i))
    (hmade : phase'.made = none) (hnode : ∀ p q, phase'.node = some p → (s.phase !i).node = some q → p ≠ q) :
    Registering name hook before ⟨s.reg.setList a list', Function.update s.phase i phase'⟩ es
      (Function.update order name cells'.data) := by
  refine Registering.after (ha.tracks h.tracks hr') ?_ ?_ hself ?_ ?_ hnode
  · intro n hn
    rw [Function.update_of_ne hn]
    exact h.names n hn
  · rw [Function.update_self, hothers, hd]
    exact h.kept
  · exact (h.sound !i).relist h.tracks ha hl hr hd hr' hkeep
  · intro b c hb
    rw [hmade] at hb
    cases hb

omit [LT P] [DecidableLT P] in
private theorem Registering.filled (h : Registering name hook before s es order) {q : Nat}
    (hq : (s.phase i).node = some q) {a : Nat} (ha : ListOf es name a) {list : LinkedList (HookSlot P F X)}
    {cells : Cells (HookSlot P F X)} (hl : s.reg.lists a = some list) (hr : Represents list cells) :
    ∃ field, (q, (hook i).upTo field) ∈ cells := by
  have hsound := h.sound i
  cases hphase : s.phase i with
  | filling b p field =>
    rw [hphase] at hsound hq
    obtain rfl := Option.some.inj hq
    obtain ⟨hb, hcell⟩ := hsound
    obtain rfl := ListOf.unique h.tracks ha hb
    exact ⟨field, hcell.mem hl hr⟩
  | _ =>
    rw [hphase] at hq
    cases hq

private theorem Registering.deletes (h : Registering name hook before s es order)
    (hids : (hook !i).id ≠ (hook i).id) {a p : Nat} {it : Iterator} (hp : s.phase i = .deleting a it p) :
    s.Proceeds name hook before i := by
  have hsound := h.sound i
  rw [hp] at hsound
  obtain ⟨hlist, x, hx, hid⟩ := hsound
  obtain ⟨list, cells, hl, hr, hd⟩ := h.list hlist
  have hmem := hx.mem hl hr
  have hnode : ∀ q, (s.phase !i).node = some q → q ≠ p := by
    rintro q hq rfl
    obtain ⟨field, hcell⟩ := h.filled hq hlist hl hr
    have hsame : (hook !i).upTo field = x := congrArg Prod.snd (List.inj_on_of_nodup_map hr.distinct hcell hmem rfl)
    rw [← hsame] at hid
    exact hids (upTo_id _ field hid).symm
  obtain ⟨us, vs, rfl⟩ := List.append_of_mem hmem
  obtain ⟨list', hrem, hr', -⟩ := remove_spec hr
  refine ⟨.walking a it, s.reg.setList a list', es, _, ?_,
    h.relisted hlist hl hr hd hr' ?_ (.inr ?_) hlist rfl (fun _ _ hp => (Option.some_ne_none _ hp.symm).elim)⟩
  · rw [hp, addStep, Tables.list, hl]
    dsimp only
    rw [fault_ok_bind, hrem, fault_ok_bind]
  · rw [Cells.data, Cells.data, List.map_append, List.map_append, others_append, others_append, List.map_cons,
      others_cons_own (own_of_id hid)]
  · intro c hc hown
    rcases List.mem_append.mp hc with hc | hc
    · exact List.mem_append_left _ hc
    · rcases List.mem_cons.mp hc with rfl | hc
      · rcases hown with hcid | hq
        · exact absurd (Option.some.inj (hcid.symm.trans hid)) hids
        · exact absurd rfl (hnode _ hq)
      · exact List.mem_append_right _ hc

private theorem Registering.inserts (h : Registering name hook before s es order) {a : Nat} {position : Option Nat}
    (hp : s.phase i = .inserting a position) (ho : s.Orderly name hook i) : s.Proceeds name hook before i := by
  have hlist : ListOf es name a := by
    have hsound := h.sound i
    rw [hp] at hsound
    exact hsound
  obtain ⟨list, cells, hl, hr, hd⟩ := h.list hlist
  have hrun : ∀ (list' : LinkedList (HookSlot P F X)),
      list.insertBefore position HookSlot.zero = .ok (list.allocated, list') →
      addStep s.reg name (hook i) (s.phase i) = .ok (.filling a list.allocated .id, s.reg.setList a list') := by
    intro list' hins
    rw [hp, addStep, Tables.list, hl]
    dsimp only
    rw [fault_ok_bind, hins, fault_ok_bind]
  have hown : Own hook HookSlot.zero := own_upTo i .id
  -- the new node is not the one that the other add fills
  have hnode : ∀ p q, (AddPhase.filling a list.allocated .id).node = some p → (s.phase !i).node = some q → p ≠ q := by
    intro p q hnew hq
    obtain rfl := Option.some.inj hnew
    obtain ⟨field, hcell⟩ := h.filled hq hlist hl hr
    exact (hr.allocated q (List.mem_map_of_mem (f := Prod.fst) hcell)).ne'
  unfold TwoAdds.Orderly at ho
  rw [hp] at ho
  cases position with
  | some p =>
    obtain ⟨x, hx⟩ := ho
    obtain ⟨us, vs, rfl⟩ := List.append_of_mem (hx.mem hl hr)
    obtain ⟨list', hins, hr', -⟩ := insertBefore_spec hr HookSlot.zero
    refine ⟨_, s.reg.setList a list', es, _, hrun _ hins, h.relisted hlist hl hr hd hr' ?_ (.inr ?_)
      ⟨hlist, list', _, Function.update_self _ _ _, hr', List.mem_append_right _ List.mem_cons_self⟩ rfl hnode⟩
    · rw [Cells.data, Cells.data, List.map_append, List.map_append, others_append, others_append, List.map_cons,
        others_cons_own hown]
    · intro c hc _
      rcases List.mem_append.mp hc with hc | hc
      · exact List.mem_append_left _ hc
      · exact List.mem_append_right _ (List.mem_cons_of_mem _ hc)
  | none =>
    obtain ⟨list', hins, hr', -⟩ := insertBetween_none_spec list HookSlot.zero
    have hempty := ho list cells hl (forwards_spec hr)
    refine ⟨_, s.reg.setList a list', es, _, hrun _ hins, h.relisted hlist hl hr hd hr' ?_ ?_
      ⟨hlist, list', _, Function.update_self _ _ _, hr', List.mem_singleton_self _⟩ rfl hnode⟩
    · have hnone : others hook cells.data = [] := by
        rcases hempty with rfl | ⟨hall, -⟩
        · rfl
        · apply List.filter_eq_nil_iff.mpr
          intro x hx hno
          obtain ⟨c, hc, rfl⟩ := List.mem_map.mp hx
          exact (of_decide_eq_true hno).2 (!i) (hall c hc)
      rw [hnone]
      exact others_cons_own hown []
    · rcases hempty with rfl | ⟨-, hearly⟩
      · exact .inr (fun c hc => absurd hc List.not_mem_nil)
      · exact .inl hearly

private theorem Registering.fills (h : Registering name hook before s es order) (hids : (hook !i).id ≠ (hook i).id)
    {a p : Nat} {field : HookField} (hp : s.phase i = .filling a p field) : s.Proceeds name hook before i := by
  have hsound := h.sound i
  rw [hp] at hsound
  obtain ⟨hlist, hx⟩ := hsound
  obtain ⟨list, cells, hl, hr, hd⟩ := h.list hlist
  have hmem := hx.mem hl hr
  obtain ⟨n, hn, hdata⟩ := node_of_mem hr hmem
  obtain ⟨us, vs, rfl⟩ := List.append_of_mem hmem
  obtain ⟨list', hset, hr', -⟩ := setData_spec hr ((hook i).upTo field |>.store (hook i) field)
  have hown : Own hook ((hook i).upTo field |>.store (hook i) field) := by
    rw [upTo_store]
    cases field.next with
    | none => exact own_of_id rfl
    | some next => exact own_upTo i next
  refine ⟨field.next.elim .done (.filling a p), s.reg.setList a list', es, _, ?_,
    h.relisted hlist hl hr hd hr' ?_ (.inr ?_) ?_ ?_ ?_⟩
  · rw [hp, addStep, Tables.list, hl]
    dsimp only
    rw [fault_ok_bind, hn, fault_ok_bind, hdata, hset, fault_ok_bind]
  · simp only [Cells.data, List.map_append, List.map_cons, others_append]
    rw [others_cons_own hown, others_cons_own (own_upTo i field)]
  · intro c hc hother
    rcases List.mem_append.mp hc with hc | hc
    · exact List.mem_append_left _ hc
    · rcases List.mem_cons.mp hc with rfl | hc
      · rcases hother with hcid | hq
        · exact absurd (upTo_id _ field hcid) hids
        · exact absurd rfl (h.distinct i p p (by rw [hp]; rfl) hq)
      · exact List.mem_append_right _ (List.mem_cons_of_mem _ hc)
  · rw [upTo_store] at hr' ⊢
    cases hnext : field.next with
    | none =>
      change (hook i).slot ∈ Function.update order name _ name
      rw [Function.update_self]
      exact List.mem_map.mpr ⟨(p, (hook i).slot), List.mem_append_right _ List.mem_cons_self, rfl⟩
    | some next =>
      rw [hnext] at hr'
      exact ⟨hlist, list', _, Function.update_self _ _ _, hr', List.mem_append_right _ List.mem_cons_self⟩
  · cases field.next <;> rfl
  · intro p' q hp' hq
    cases hnext : field.next with
    | none =>
      rw [hnext] at hp'
      cases hp'
    | some next =>
      rw [hnext] at hp'
      obtain rfl := Option.some.inj hp'
      exact h.distinct i _ q (by rw [hp]; rfl) hq

omit [LT P] [DecidableLT P] in
private theorem AddPhase.Sound.setOther {phase : AddPhase} {x : Hook P F X} (h : phase.Sound reg es order name x)
    {a : Nat} (ha : ∀ e ∈ es, e.block.data.funcs ≠ a) (hmade : ∀ b, phase.made = some b → b ≠ a)
    (list : Option (LinkedList (HookSlot P F X))) {count : Nat} (hc : reg.listsCount ≤ count) :
    phase.Sound { reg with lists := Function.update reg.lists a list, listsCount := count } es order name x := by
  have hcell : ∀ {b p y}, ListOf es name b → CellOf reg b p y →
      CellOf { reg with lists := Function.update reg.lists a list, listsCount := count } b p y := by
    rintro b p y ⟨e, he, -, rfl⟩ ⟨l, cells, hl, hr, hmem⟩
    exact ⟨l, cells, (Function.update_of_ne (ha e he) _ _).trans hl, hr, hmem⟩
  cases phase with
  | removing | finding | creating => trivial
  | walking | comparing | searching | ranking | inserting | confirming | done => exact h
  | deleting b it p =>
    obtain ⟨hb, y, hy, hid⟩ := h
    exact ⟨hb, y, hcell hb hy, hid⟩
  | filling b p field => exact ⟨h.1, hcell h.1 h.2⟩
  | owning b | storing b =>
    obtain ⟨hlt, hfresh, l, hl, hr⟩ := h
    exact ⟨hlt.trans_le hc, hfresh, l, (Function.update_of_ne (hmade b rfl) _ _).trans hl, hr⟩

private theorem Registering.makes (h : Registering name hook before s es order)
    (hp : s.phase i = .creating ∨ ∃ a, s.phase i = .owning a) : s.Proceeds name hook before i := by
  rcases hp with hp | ⟨a, hp⟩
  · have hfresh : ∀ e ∈ es, e.block.data.funcs ≠ s.reg.listsCount := fun e he => (h.tracks.handed e he).ne
    have hother : ∀ b, (s.phase !i).made = some b → b ≠ s.reg.listsCount := by
      intro b hb
      have hsound := h.sound !i
      cases hq : s.phase !i with
      | owning c | storing c =>
        rw [hq] at hsound hb
        obtain rfl := Option.some.inj hb
        exact hsound.1.ne
      | _ =>
        rw [hq] at hb
        cases hb
    refine ⟨.owning s.reg.listsCount, _, es, order, by rw [hp, addStep], ?_⟩
    refine Registering.after (h.tracks.setOther hfresh (some LinkedList.new) (Nat.le_succ _)) h.names h.kept ?_
      ((h.sound !i).setOther hfresh hother _ (Nat.le_succ _)) ?_ (fun _ _ hn => (Option.some_ne_none _ hn.symm).elim)
    · exact ⟨Nat.lt_succ_self _, hfresh, _, Function.update_self _ _ _, represents_new⟩
    · intro b c hb hc
      obtain rfl := Option.some.inj hb
      exact (hother c hc).symm
  · have hsound := h.sound i
    rw [hp] at hsound
    obtain ⟨hlt, hfresh, list, hl, hr⟩ := hsound
    have hother : ∀ b, (s.phase !i).made = some b → b ≠ a := by
      intro b hb hba
      exact h.apart i a b (by rw [hp]; rfl) hb hba.symm
    refine ⟨.storing a, s.reg.setList a (list.ondelete true), es, order, ?_, ?_⟩
    · rw [hp, addStep, Tables.list, hl]
      rfl
    · refine Registering.after (h.tracks.setOther hfresh (some (list.ondelete true)) le_rfl) h.names h.kept ?_
        ((h.sound !i).setOther hfresh hother _ le_rfl) ?_ (fun _ _ hn => (Option.some_ne_none _ hn.symm).elim)
      · exact ⟨hlt, hfresh, _, Function.update_self _ _ _, hr.congr rfl rfl rfl rfl⟩
      · intro b c hb hc
        obtain rfl := Option.some.inj hb
        exact (hother c hc).symm

private theorem Registering.stores (h : Registering name hook before s es order) {a : Nat}
    (hp : s.phase i = .storing a) (ho : s.Orderly name hook i) : s.Proceeds name hook before i := by
  have hsound := h.sound i
  rw [hp] at hsound
  obtain ⟨hlt, hfresh, list, hl, hr⟩ := hsound
  unfold TwoAdds.Orderly at ho
  rw [hp] at ho
  have hget : ∀ e ∈ es, e.key = name → s.reg.hookTables.get (hashCompute name) = .ok (some e.block) := by
    intro e he hk
    rw [get_spec h.tracks.tables name, (entryAt_eq_some h.tracks.tables.distinct).mpr ⟨he, hk⟩]
    rfl
  have hold : ∀ e ∈ es, e.key = name → ∃ old, s.reg.lists e.block.data.funcs = some old ∧
      Represents old [] ∧ old.count = 0 := by
    intro e he hk
    obtain ⟨⟨old, hlold, hf, hcount⟩, -⟩ := ho _ (hget e he hk)
    obtain ⟨old2, cells, hl2, hr2, -⟩ := h.tracks.hooks e he
    obtain rfl := Option.some.inj (hlold.symm.trans hl2)
    rw [forwards_spec hr2] at hf
    obtain rfl := Except.ok.inj hf
    exact ⟨old, hlold, hr2, hcount⟩
  obtain ⟨reg', es', hstore, ht, hstored, hlists, hcount, hlater⟩ :=
    storeTable_spec h.tracks name hlt hfresh hl hr hold
  -- an add with the table in its hands would have met the condition's second part
  have hhands : ∀ b, (s.phase !i).table = some b → ¬ ListOf es name b := by
    rintro b hb ⟨e, he, hk, -⟩
    rw [(ho _ (hget e he hk)).2] at hb
    cases hb
  refine ⟨.confirming, reg', es', order, ?_, Registering.after ht h.names h.kept hstored ?_ (by simp [AddPhase.made])
    (fun _ _ hn => (Option.some_ne_none _ hn.symm).elim)⟩
  · rw [hp, addStep, hstore, fault_ok_bind]
  · have hsound := h.sound !i
    cases hq : s.phase !i with
    | removing | finding | creating => trivial
    | walking b it | comparing b it | searching b it | ranking b it | inserting b it =>
      rw [hq] at hsound hhands
      exact absurd hsound (hhands b rfl)
    | deleting b it p | filling b p field =>
      rw [hq] at hsound hhands
      exact absurd hsound.1 (hhands b rfl)
    | owning b | storing b =>
      rw [hq] at hsound
      obtain ⟨hltb, hfreshb, l, hlb, hrb⟩ := hsound
      have hba : b ≠ a := fun hba => h.apart i a b (by rw [hp]; rfl) (by rw [hq]; rfl) hba.symm
      exact ⟨hcount ▸ hltb, hlater b hba hfreshb, l, (hlists b hfreshb).trans hlb, hrb⟩
    | confirming => exact hstored
    | done =>
      rw [hq] at hsound
      exact hsound

/-- A step that meets the condition returns, and keeps the invariant. -/
theorem Registering.step (h : Registering name hook before s es order) (hids : (hook !i).id ≠ (hook i).id)
    (ho : s.Orderly name hook i) :
    ∃ s' es' order', s.step name hook i = .ok s' ∧ Registering name hook before s' es' order' := by
  have hgoes : s.Proceeds name hook before i := by
    cases hp : s.phase i with
    | removing => exact h.looks (.inl hp)
    | finding => exact h.looks (.inr (.inl hp))
    | confirming => exact h.looks (.inr (.inr hp))
    | walking a it => exact h.moves (.inl hp) ho
    | searching a it => exact h.moves (.inr hp) ho
    | comparing a it p => exact h.compares hp ho
    | ranking a it p => exact h.ranks hp ho
    | deleting a it p => exact h.deletes hids hp
    | creating => exact h.makes (.inl hp)
    | owning a => exact h.makes (.inr ⟨a, hp⟩)
    | storing a => exact h.stores hp ho
    | inserting a position => exact h.inserts hp ho
    | filling a p field => exact h.fills hids hp
    | done =>
      have hsound := h.sound i
      rw [hp] at hsound
      exact ⟨.done, s.reg, es, order, by rw [hp, addStep], h.stay hsound rfl rfl⟩
  obtain ⟨phase', reg', es', order', hstep, hkept⟩ := hgoes
  exact ⟨_, es', order', by rw [TwoAdds.step, hstep, fault_ok_bind], hkept⟩

/-- Two adds with different ids that meet the condition at each step: every step of theirs
returns, and each registers its hook, stored whole, beside all that were there. -/
theorem concurrent_adds_register {reg : Registry P F X} {hooks : Bytes → List (Hook P F X)} (h : Tracks reg es hooks)
    (hids : (hook true).id ≠ (hook false).id) {s : TwoAdds P F X}
    (hrun : Relation.ReflTransGen (OrderlyAdd name hook) (.start reg) s) :
    (∀ i, s.Orderly name hook i → ∃ s', s.step name hook i = .ok s') ∧
    (∀ n, n ≠ name → s.reg.hooksOf n = .ok ((hooks n).map Hook.slot)) ∧
    ∃ slots, s.reg.hooksOf name = .ok slots ∧
      others hook slots = others hook ((hooks name).map Hook.slot) ∧ ∀ i, s.phase i = .done → (hook i).slot ∈ slots := by
  have hne : ∀ i, (hook !i).id ≠ (hook i).id := by
    intro i
    cases i with
    | false => exact hids
    | true => exact hids.symm
  have hkept : ∃ es' order', Registering name hook (fun n => (hooks n).map Hook.slot) s es' order' := by
    induction hrun with
    | refl => exact ⟨es, _, Registering.start h.slots⟩
    | tail _ hstep ih =>
      obtain ⟨i, ho, he⟩ := hstep
      obtain ⟨es', order', hs⟩ := ih
      obtain ⟨s', es'', order'', he', hs'⟩ := hs.step (hne i) ho
      obtain rfl := Except.ok.inj (he.symm.trans he')
      exact ⟨es'', order'', hs'⟩
  obtain ⟨es', order', hs⟩ := hkept
  refine ⟨fun i ho => ?_, fun n hn => ?_, order' name, hs.tracks.hooksOf name, hs.kept, fun i hi => ?_⟩
  · obtain ⟨s', -, -, he, -⟩ := hs.step (hne i) ho
    exact ⟨s', he⟩
  · rw [hs.tracks.hooksOf n, hs.names n hn]
  · have hsound := hs.sound i
    rw [hi] at hsound
    exact hsound

end Adds

section Examples

/-- Two hooks for one name, the second of lower priority. -/
def twoHooks : Bool → Hook Nat Unit Nat
  | true => ⟨[97], 1, 0, ()⟩
  | false => ⟨[98], 0, 1, ()⟩

def loadedRegistry : Registry Nat Unit Nat :=
  { Registry.unloaded with hookTables := Hashtable.new.ondelete true, hookLoaded := true }

theorem adds_stepped {steps : List Bool} {s s' : TwoAdds Nat Unit Nat}
    (h : steps.foldlM (TwoAdds.step [110] twoHooks) s = .ok s') :
    Relation.ReflTransGen (AddStepped [110] twoHooks) s s' := by
  induction steps generalizing s with
  | nil =>
    obtain rfl := Except.ok.inj h
    exact .refl
  | cons i steps ih =>
    rw [List.foldlM_cons] at h
    obtain ⟨t, ht, hrest⟩ := bind_eq_ok.mp h
    exact .head ⟨i, ht⟩ (ih hrest)

/-- Both look the name up before either makes its table, so the second table replaces the first. -/
theorem later_table_loses_hook :
    ∃ s slots, Relation.ReflTransGen (AddStepped [110] twoHooks) (.start loadedRegistry) s ∧ (∀ i, s.phase i = .done) ∧
      s.reg.hooksOf [110] = .ok slots ∧ (twoHooks true).slot ∉ slots := by
  obtain ⟨s, hs, hdone, hhooks⟩ : ∃ s, ([true, true, false, false] ++ List.replicate 10 true ++
      List.replicate 10 false).foldlM (TwoAdds.step [110] twoHooks) (.start loadedRegistry) = .ok s ∧
      (∀ i, s.phase i = .done) ∧ s.reg.hooksOf [110] = .ok [(twoHooks false).slot] :=
    ⟨_, rfl, fun i => by cases i <;> rfl, rfl⟩
  exact ⟨s, _, adds_stepped hs, hdone, hhooks, by simp [twoHooks, Hook.slot]⟩

def listedRegistry : Registry Nat Unit Nat :=
  (hookAdd loadedRegistry [110] ⟨[99], 5, 2, ()⟩).toOption.getD loadedRegistry

/-- Two adds at a time, where one passes the hook that the other is storing: all three hooks are registered. -/
theorem concurrent_adds_register_two : ∃ s : TwoAdds Nat Unit Nat,
    Relation.ReflTransGen (OrderlyAdd [110] twoHooks) (.start listedRegistry) s ∧ (∀ i, s.phase i = .done) ∧
    ∃ slots, s.reg.hooksOf [110] = .ok slots ∧ others twoHooks slots = [(⟨[99], 5, 2, ()⟩ : Hook Nat Unit Nat).slot] ∧
      ∀ i, (twoHooks i).slot ∈ slots := by
  obtain ⟨loaded, hload, htracks⟩ := tracks_loaded (P := Nat) (F := Unit) (X := Nat)
  obtain rfl : loaded = loadedRegistry := Except.ok.inj (hload.symm.trans rfl)
  obtain ⟨reg, es, hadd, htracks⟩ := hookAdd_spec htracks [110] ⟨[99], 5, 2, ()⟩
  obtain rfl : reg = listedRegistry := Except.ok.inj (hadd.symm.trans rfl)
  have hrun : ∃ s, Relation.ReflTransGen (OrderlyAdd [110] twoHooks) (.start listedRegistry) s ∧
      ∀ i, s.phase i = .done := by
    refine ⟨_, .head ⟨true, trivial, rfl⟩ <| .head ⟨false, trivial, rfl⟩ <|
      .head ⟨true, fun h => absurd h Bool.false_ne_true, rfl⟩ <|
      .head ⟨false, fun h => absurd h Bool.false_ne_true, rfl⟩ <|
      .head ⟨true, ⟨_, ⟨_, _, rfl, rfl, .head _⟩, Option.some_ne_none _⟩, rfl⟩ <|
      .head ⟨false, ⟨_, ⟨_, _, rfl, rfl, .head _⟩, Option.some_ne_none _⟩, rfl⟩ <|
      .head ⟨true, fun _ _ h => (Option.some_ne_none _ h.symm).elim, rfl⟩ <|
      .head ⟨false, fun _ _ h => (Option.some_ne_none _ h.symm).elim, rfl⟩ <| .head ⟨true, trivial, rfl⟩ <|
      .head ⟨false, trivial, rfl⟩ <| .head ⟨true, fun h => absurd h Bool.false_ne_true, rfl⟩ <|
      .head ⟨true, ⟨_, _, _, rfl, rfl, .head _⟩, rfl⟩ <| .head ⟨true, ⟨_, _, _, rfl, rfl, .head _⟩, rfl⟩ <|
      .head ⟨false, fun h => absurd h Bool.false_ne_true, rfl⟩ <|
      .head ⟨false, ⟨_, _, _, rfl, rfl, .head _⟩, rfl⟩ <| .head ⟨true, trivial, rfl⟩ <| .head ⟨false, ?_, rfl⟩ <|
      .head ⟨false, ⟨_, _, _, rfl, rfl, .tail _ (.head _)⟩, rfl⟩ <| .head ⟨true, trivial, rfl⟩ <|
      .head ⟨false, ⟨_, _, _, rfl, rfl, .tail _ (.head _)⟩, rfl⟩ <| .head ⟨true, trivial, rfl⟩ <|
      .head ⟨true, trivial, rfl⟩ <| .head ⟨false, trivial, rfl⟩ <| .head ⟨false, trivial, rfl⟩ <|
      .head ⟨false, trivial, rfl⟩ <| .head ⟨false, trivial, rfl⟩ .refl, ?_⟩
    · rintro - p ⟨⟩
      exact ⟨_, _, _, rfl, rfl, .tail _ (.head _)⟩
    · intro i
      cases i <;> rfl
  obtain ⟨s, hs, hdone⟩ := hrun
  obtain ⟨-, -, slots, hread, hothers, hin⟩ := concurrent_adds_register htracks (by decide) hs
  refine ⟨s, hs, hdone, slots, hread, hothers.trans ?_, fun i => hin i (hdone i)⟩
  rw [Function.update_self]
  rfl

end Examples

end CFlare.Hooks
