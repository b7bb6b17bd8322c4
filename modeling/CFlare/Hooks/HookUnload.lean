import CFlare.Hooks.HookOrder
import CFlare.Storage.HashtableOwnership

/-! Unloading the hook library. The deletion of a list relies on its count, and an add that makes its hook the whole list
counts the hooks that are no longer in it. -/
namespace CFlare.Hooks
open CFlare.Library CFlare.Storage

/-- What has been freed, in this order. -/
structure Freed (P F X : Type) where
  hooks : List (Hook P F X)
  tables : List HookTable

section Unload
variable {P F X : Type}

def Registry.dropList (reg : Registry P F X) (a : Nat) : Registry P F X :=
  { reg with lists := Function.update reg.lists a none }

/-- `free_hooktable`: the name is freed and the list is deleted, which frees the ids in it. -/
def freeHookTable (state : Registry P F X × Freed P F X) (cont : Container HookTable) :
    Except Fault (Registry P F X × Freed P F X) := do
  let list ← state.1.list cont.block.data.funcs
  let hooks ← list.delete
  .ok (state.1.dropList cont.block.data.funcs, ⟨state.2.hooks ++ hooks, state.2.tables ++ [cont.block.data]⟩)

def hookUnload (reg : Registry P F X) : Except Fault (Registry P F X × Freed P F X) :=
  if reg.hookLoaded = false then .error .abort
  else do
    let (reg, freed) ← reg.hookTables.deleteWith freeHookTable ({ reg with hookLoaded := false }, ⟨[], []⟩)
    .ok ({ reg with hookTables := Hashtable.new }, freed)

def hookLife [LinearOrder P] (reg : Registry P F X) (ops : List (HookOp P F X)) :
    Except Fault (Freed P F X × Registry P F X) := do
  let reg ← hookLoad reg
  let (_, reg) ← runCalls hookOp reg ops
  let (reg, freed) ← hookUnload reg
  .ok (freed, reg)

end Unload

section Counts
variable {P F X : Type} {list : LinkedList (Hook P F X)} {cells : Cells (Hook P F X)} {lost : Nat}

/-- The list frees what it removes, and counts so many nodes that are not linked to it any more. -/
structure Counts (list : LinkedList (Hook P F X)) (cells : Cells (Hook P F X)) (lost : Nat) : Prop where
  represents : Represents list cells
  count : list.count = cells.length + lost
  deleter : list.deleter = true

theorem counts_new : Counts (LinkedList.new.ondelete true : LinkedList (Hook P F X)) [] 0 :=
  ⟨represents_new.congr rfl rfl rfl rfl, rfl, rfl⟩

theorem Counts.removed (h : Counts list cells lost) (id : Bytes) {list' : LinkedList (Hook P F X)}
    (hr : Represents list' (cells.filter (fun c => c.2.id ≠ id)))
    (hc : list'.count = list.count - (cells.filter (fun c => c.2.id = id)).length)
    (hd : list'.deleter = list.deleter) : Counts list' (cells.filter (fun c => c.2.id ≠ id)) lost := by
  refine ⟨hr, ?_, hd.trans h.deleter⟩
  have hsplit : cells.length = (cells.filter (fun c => c.2.id = id)).length +
      (cells.filter (fun c => c.2.id ≠ id)).length := by
    simpa using List.length_eq_length_filter_add (l := cells) (fun c => decide (c.2.id = id))
  rw [hc, h.count, hsplit, Nat.add_assoc, Nat.add_sub_cancel_left]

/-- The count says how many hooks there would be if none had been lost. -/
theorem Counts.insertHook [LinearOrder P] (h : Counts list cells lost) (hook : Hook P F X) :
    ∃ it p list' cells', list.find (fun val => hook.priority < val.priority) = .ok it ∧
      list.insertBefore it.value hook = .ok (p, list') ∧ cells'.data = placeIn cells.data hook ∧
      Counts list' cells' (lost + (cells.length + 1 - cells'.length)) := by
  obtain ⟨it, list', cells', he, hins, hr, hplaced, hc, hd⟩ := insertHook_spec h.represents hook
  refine ⟨it, list.allocated, list', cells', he, hins, hplaced.data, hr, ?_, hd.trans h.deleter⟩
  have hlength := hplaced.length_le
  rw [hc, h.count]
  omega

/-- A list that counts what is in it frees that, -/
theorem Counts.delete_whole (h : Counts list cells 0) : list.delete = .ok cells.data := by
  rw [delete_spec h.represents h.count, if_pos h.deleter]

/-- and one that counts more asks for the removal of a node that is not there. -/
theorem Counts.delete_short (h : Counts list cells lost) (hlost : 0 < lost) : list.delete = .error .assertion := by
  have hcount := h.count
  show LinkedList.deleteNodes list.count list = _
  rw [hcount]
  induction cells generalizing list with
  | nil =>
    obtain ⟨fuel, hfuel⟩ := Nat.exists_eq_succ_of_ne_zero (Nat.ne_of_gt hlost)
    rw [List.length_nil, Nat.zero_add] at hcount ⊢
    have hfirst : list.first = none := h.represents.first
    rw [hfuel, LinkedList.deleteNodes, if_neg (by omega), hfirst]
    rfl
  | cons c cells ih =>
    obtain ⟨p, hook⟩ := c
    have hr : Represents list ([] ++ (p, hook) :: cells) := h.represents
    obtain ⟨list1, hrem, hr1, hc1, hd1, -⟩ := remove_spec hr
    have hfirst : list.first = some p := h.represents.first
    rw [List.length_cons] at hcount
    have hcount1 : list1.count = cells.length + lost := by omega
    have hrest := ih ⟨hr1, hcount1, hd1.trans h.deleter⟩ hcount1
    rw [List.length_cons, show cells.length + 1 + lost = cells.length + lost + 1 by omega, LinkedList.deleteNodes,
      if_neg (by omega), hfirst, hrem, fault_ok_bind]
    dsimp only
    rw [hrest]
    rfl

end Counts

section Registries
variable {P F X : Type} {reg : Registry P F X} {es : List (Container HookTable)} {order : Bytes → List (Hook P F X)}
  {lost : Bytes → Nat}

/-- Every list belongs to the table of a name, whose copy is the name, and so many hooks of it are lost. -/
structure Accounts (reg : Registry P F X) (es : List (Container HookTable)) (order : Bytes → List (Hook P F X))
    (lost : Bytes → Nat) : Prop where
  tracks : Tracks reg es order
  named : ∀ e ∈ es, e.block.data.name = e.key
  counted : ∀ e ∈ es, ∃ list cells, reg.lists e.block.data.funcs = some list ∧ Counts list cells (lost e.key)
  listed : ∀ a list, reg.lists a = some list → ∃ e ∈ es, e.block.data.funcs = a
  present : ∀ name, lost name ≠ 0 → ∃ e ∈ es, e.key = name

theorem accounts_loaded (hreg : reg.hookLoaded = false) (hlists : ∀ a, reg.lists a = none) :
    ∃ start, hookLoad reg = .ok start ∧ Accounts start [] (fun _ => []) (fun _ => 0) := by
  refine ⟨_, if_neg (by simp [hreg]), ⟨rfl, holds_new true, by simp, by simp, by simp, fun _ _ => rfl⟩, by simp, by simp,
    fun a list hl => ?_, fun name h => absurd rfl h⟩
  rw [show (_ : Option (LinkedList (Hook P F X))) = none from hlists a] at hl
  cases hl

theorem Accounts.lookup (h : Accounts reg es order lost) {e : Container HookTable} (he : e ∈ es) :
    ∃ list cells, reg.list e.block.data.funcs = .ok list ∧ Counts list cells (lost e.key) ∧ cells.data = order e.key := by
  obtain ⟨list, cells, hl, hc⟩ := h.counted e he
  obtain ⟨list', cells', hl', hr', hd⟩ := h.tracks.hooks e he
  obtain rfl := Option.some.inj (hl.symm.trans hl')
  obtain rfl := hc.represents.unique hr'
  exact ⟨list, cells, by rw [Tables.list, hl], hc, hd⟩

theorem Accounts.setList (h : Accounts reg es order lost) {e : Container HookTable} (he : e ∈ es)
    {list : LinkedList (Hook P F X)} {cells : Cells (Hook P F X)} {k : Nat} (hc : Counts list cells k) :
    Accounts (reg.setList e.block.data.funcs list) es (Function.update order e.key cells.data)
      (Function.update lost e.key k) := by
  refine ⟨h.tracks.setList he hc.represents, h.named, fun e' he' => ?_, fun a list' hl => ?_, fun name hn => ?_⟩
  · by_cases hk : e' = e
    · subst hk
      exact ⟨list, cells, by simp [Tables.setList], by simpa using hc⟩
    · have hfuncs : e'.block.data.funcs ≠ e.block.data.funcs := fun hf =>
        hk (List.inj_on_of_nodup_map h.tracks.apart he' he hf)
      have hkey : e'.key ≠ e.key := fun hf => hk (List.inj_on_of_nodup_map h.tracks.tables.distinct he' he hf)
      obtain ⟨list', cells', hl, hc'⟩ := h.counted e' he'
      refine ⟨list', cells', (Function.update_of_ne hfuncs _ _).trans hl, ?_⟩
      rwa [Function.update_of_ne hkey]
  · by_cases ha : a = e.block.data.funcs
    · exact ⟨e, he, ha.symm⟩
    · exact h.listed a list' ((Function.update_of_ne ha _ _).symm.trans hl)
  · by_cases hk : name = e.key
    · exact ⟨e, he, hk.symm⟩
    · exact h.present name (by rwa [Function.update_of_ne hk] at hn)

/-- A new name gets a table with a copy of it and an empty list. -/
theorem Accounts.hookTable (h : Accounts reg es order lost) {name : Bytes}
    (hn : entryAt Container.key es name = none) :
    ∃ reg' e, hookTable reg name = .ok (e.block, reg') ∧ Accounts reg' (es ++ [e]) order lost ∧ e.key = name := by
  obtain ⟨reg', e, he, ht, rfl, hfuncs, hlists⟩ := hookTable_unlisted h.tracks hn
  have hlast : e ∈ es ++ [e] := List.mem_append_right _ List.mem_cons_self
  -- what the lookup behind the insertion finds is what was inserted
  obtain ⟨hname, hnew⟩ : e.block.data.name = e.key ∧
      reg'.lists = (reg.setList reg.listsCount (LinkedList.new.ondelete true)).lists := by
    obtain ⟨tables, es', hset, heffect, hh', -⟩ :=
      set_spec h.tracks.tables e.key (some ⟨e.key, reg.listsCount⟩) hookTableSize (by simp)
    have hdata := heffect.data h.tracks.tables.distinct e.key
    have hget := get_spec hh' e.key
    rw [if_pos rfl] at hdata
    obtain ⟨e', hat, hdata⟩ := Option.map_eq_some_iff.mp hdata
    unfold Hooks.hookTable at he
    rw [get_spec h.tracks.tables e.key, hn, Option.map_none, fault_ok_bind] at he
    dsimp only [Tables.setList] at he
    rw [hset, fault_ok_bind, hget, hat] at he
    obtain ⟨hblock, rfl⟩ := Prod.mk.inj (Except.ok.inj he)
    exact ⟨by rw [← hblock, hdata], rfl⟩
  refine ⟨reg', e, he, ⟨ht, fun e' he' => ?_, fun e' he' => ?_, fun a list hl => ?_, fun name hname => ?_⟩, rfl⟩
  · rcases List.mem_append.mp he' with he' | he'
    · exact h.named e' he'
    · obtain rfl := List.mem_singleton.mp he'
      exact hname
  · rcases List.mem_append.mp he' with he' | he'
    · obtain ⟨list, cells, hl, hc⟩ := h.counted e' he'
      exact ⟨list, cells, (hlists _ (h.tracks.handed e' he')).trans hl, hc⟩
    · obtain rfl := List.mem_singleton.mp he'
      have hzero : lost e'.key = 0 := by
        by_contra hne
        obtain ⟨e, he, hk⟩ := h.present e'.key hne
        exact entryAt_eq_none.mp hn e he hk
      refine ⟨LinkedList.new.ondelete true, [], ?_, hzero ▸ counts_new⟩
      rw [hnew, hfuncs]
      exact Function.update_self _ _ _
  · by_cases ha : a = reg.listsCount
    · exact ⟨e, hlast, hfuncs.trans ha.symm⟩
    · rw [hnew] at hl
      obtain ⟨e', he', hf⟩ := h.listed a list ((Function.update_of_ne ha _ _).symm.trans hl)
      exact ⟨e', List.mem_append_left _ he', hf⟩
  · obtain ⟨e', he', hk⟩ := h.present name hname
    exact ⟨e', List.mem_append_left _ he', hk⟩

theorem Accounts.hookRemove (h : Accounts reg es order lost) {e : Container HookTable} (he : e ∈ es) (id : Bytes) :
    ∃ list cells, hookRemove reg e.key id = .ok (reg.setList e.block.data.funcs list) ∧
      Counts list cells (lost e.key) ∧ cells.data = removeFrom (order e.key) id := by
  obtain ⟨list, cells, hl, hc, hd⟩ := h.lookup he
  obtain ⟨list', hrun, hr, -, hcount, hdeleter⟩ := hookRemove_listed h.tracks he hl hc.represents id
  refine ⟨list', _, hrun, hc.removed id hr hcount hdeleter, ?_⟩
  rw [← hd, removeFrom, Cells.data, Cells.data, List.filter_map]
  rfl

variable [LinearOrder P]

/-- How many hooks of each name are lost behind an operation: those that an add leaves out. -/
def lostStep (order : Bytes → List (Hook P F X)) (lost : Bytes → Nat) : HookOp P F X → Bytes → Nat
  | .add name hook =>
    let others := removeFrom (order name) hook.id
    Function.update lost name (lost name + (others.length + 1 - (placeIn others hook).length))
  | .remove _ _ => lost

theorem Accounts.insertHook (h : Accounts reg es order lost) {e : Container HookTable} (he : e ∈ es)
    {list : LinkedList (Hook P F X)} {cells : Cells (Hook P F X)} (hc : Counts list cells (lost e.key))
    (hook : Hook P F X) :
    ∃ it p list', list.find (fun val => hook.priority < val.priority) = .ok it ∧
      list.insertBefore it.value hook = .ok (p, list') ∧
      Accounts (reg.setList e.block.data.funcs list') es (Function.update order e.key (placeIn cells.data hook))
        (Function.update lost e.key (lost e.key + (cells.data.length + 1 - (placeIn cells.data hook).length))) := by
  obtain ⟨it, p, list', cells', hfind, hins, hd, hc'⟩ := hc.insertHook hook
  refine ⟨it, p, list', hfind, hins, ?_⟩
  have hlen : cells.data.length + 1 - (placeIn cells.data hook).length = cells.length + 1 - cells'.length := by
    rw [← hd, List.length_map, List.length_map]
  rw [hlen, ← hd]
  exact h.setList he hc'

/-- The names that are listed are those that hooks have been added to. -/
theorem Accounts.hookOp (h : Accounts reg es order lost) (op : HookOp P F X) :
    ∃ reg' es', hookOp reg op = .ok ((), reg') ∧ Accounts reg' es' (orderStep order op) (lostStep order lost op) ∧
      ∀ name, name ∈ es'.map Container.key ↔ name ∈ es.map Container.key ∨ ∃ hook, op = .add name hook := by
  cases op with
  | add name hook =>
    cases hat : entryAt Container.key es name with
    | none =>
      obtain ⟨reg1, e, htbl, h1, rfl⟩ := h.hookTable hat
      have he : e ∈ es ++ [e] := List.mem_append_right _ List.mem_cons_self
      obtain ⟨list, cells, hl, hc, hd⟩ := h1.lookup he
      obtain ⟨it, p, list', hfind, hins, h2⟩ := h1.insertHook he hc hook
      have hothers : removeFrom (order e.key) hook.id = cells.data := by
        rw [hd, h.tracks.absent e.key hat]
        rfl
      have hadd : hookAdd reg e.key hook = .ok (reg1.setList e.block.data.funcs list') := by
        simp [hookAdd, hookRemove_unlisted h.tracks hat, htbl, hl, hfind, hins]
      refine ⟨reg1.setList e.block.data.funcs list', es ++ [e], by rw [Hooks.hookOp, hadd]; rfl, ?_, fun name => ?_⟩
      · simp only [orderStep, lostStep, hothers]
        exact h2
      · simp [eq_comm]
    | some e =>
      obtain ⟨he, rfl⟩ := (entryAt_eq_some h.tracks.tables.distinct).mp hat
      obtain ⟨list, cells, hrem, hc, hd⟩ := h.hookRemove he hook.id
      have h1 := h.setList he hc
      have hc1 : Counts list cells (Function.update lost e.key (lost e.key) e.key) := by simpa using hc
      obtain ⟨it, p, list', hfind, hins, h2⟩ := h1.insertHook he hc1 hook
      have hadd : hookAdd reg e.key hook = .ok (reg.setList e.block.data.funcs list') := by
        simp [hookAdd, hrem, hookTable_listed h1.tracks he, hfind, hins, setList_setList]
      refine ⟨reg.setList e.block.data.funcs list', es, by rw [Hooks.hookOp, hadd]; rfl, ?_, fun name => ?_⟩
      · rw [setList_setList, hd] at h2
        simpa [orderStep, lostStep] using h2
      · refine ⟨.inl, ?_⟩
        rintro (hm | ⟨hook', heq⟩)
        · exact hm
        · obtain ⟨rfl, -⟩ := HookOp.add.inj heq
          exact List.mem_map_of_mem he
  | remove name id =>
    cases hat : entryAt Container.key es name with
    | none =>
      refine ⟨reg, es, by rw [Hooks.hookOp, hookRemove_unlisted h.tracks hat]; rfl, ?_, by simp⟩
      have hempty := h.tracks.absent name hat
      rwa [orderStep, removeFrom, hempty, List.filter_nil, ← hempty, Function.update_eq_self]
    | some e =>
      obtain ⟨he, rfl⟩ := (entryAt_eq_some h.tracks.tables.distinct).mp hat
      obtain ⟨list, cells, hrem, hc, hd⟩ := h.hookRemove he id
      refine ⟨_, es, by rw [Hooks.hookOp, hrem]; rfl, ?_, by simp⟩
      have h1 := h.setList he hc
      rwa [hd, Function.update_eq_self] at h1

end Registries

section Freeing
variable {P F X : Type} {reg : Registry P F X} {conts : List (Container HookTable)}

theorem list_dropList {a b : Nat} (h : b ≠ a) : (reg.dropList a).list b = reg.list b := by
  simp only [Tables.list, Registry.dropList, Function.update_of_ne h]

/-- The lists that are left when the tables before have been freed. -/
theorem lists_left {e : Container HookTable} (outcome : Bytes → Except Fault (List (Hook P F X)))
    (hapart : e.block.data.funcs ∉ conts.map (fun e => e.block.data.funcs))
    (hlists : ∀ e' ∈ e :: conts, ∃ list, reg.list e'.block.data.funcs = .ok list ∧ list.delete = outcome e'.key) :
    ∀ e' ∈ conts, ∃ list, (reg.dropList e.block.data.funcs).list e'.block.data.funcs = .ok list ∧
      list.delete = outcome e'.key := by
  intro e' he'
  have hne : e'.block.data.funcs ≠ e.block.data.funcs := fun hf =>
    hapart (List.mem_map.mpr ⟨e', he', hf⟩)
  obtain ⟨list, hl, hdel⟩ := hlists e' (List.mem_cons_of_mem _ he')
  exact ⟨list, (list_dropList hne).trans hl, hdel⟩

theorem freeTables_whole (hooks : Bytes → List (Hook P F X)) (hapart : (conts.map (fun e => e.block.data.funcs)).Nodup)
    (hlists : ∀ e ∈ conts, ∃ list, reg.list e.block.data.funcs = .ok list ∧ list.delete = .ok (hooks e.key))
    (freed : Freed P F X) :
    conts.foldlM freeHookTable (reg, freed) =
      .ok ({ reg with lists := fun a => if a ∈ conts.map (fun e => e.block.data.funcs) then none else reg.lists a },
        ⟨freed.hooks ++ conts.flatMap (fun e => hooks e.key), freed.tables ++ conts.map (fun e => e.block.data)⟩) := by
  induction conts generalizing reg freed with
  | nil => simp; rfl
  | cons e conts ih =>
    obtain ⟨list, hl, hdel⟩ := hlists e List.mem_cons_self
    rw [List.map_cons, List.nodup_cons] at hapart
    rw [List.foldlM_cons, freeHookTable]
    have hrest := lists_left (fun name => .ok (hooks name)) hapart.1 hlists
    simp only [hl, hdel, fault_ok_bind]
    rw [ih hapart.2 hrest]
    simp only [List.append_assoc, List.flatMap_cons, List.map_cons, List.singleton_append, Registry.dropList]
    congr 3
    funext a
    by_cases ha : a = e.block.data.funcs
    · simp [ha]
    · simp [ha]

/-- The first list that counts too much ends it. -/
theorem freeTables_short (outcome : Bytes → Except Fault (List (Hook P F X)))
    (hapart : (conts.map (fun e => e.block.data.funcs)).Nodup)
    (hlists : ∀ e ∈ conts, ∃ list, reg.list e.block.data.funcs = .ok list ∧ list.delete = outcome e.key)
    (hfaults : ∀ name fault, outcome name = .error fault → fault = .assertion)
    (hshort : ∃ e ∈ conts, outcome e.key = .error .assertion) (freed : Freed P F X) :
    conts.foldlM freeHookTable (reg, freed) = .error .assertion := by
  induction conts generalizing reg freed with
  | nil =>
    obtain ⟨e, he, -⟩ := hshort
    cases he
  | cons e conts ih =>
    obtain ⟨list, hl, hdel⟩ := hlists e List.mem_cons_self
    rw [List.map_cons, List.nodup_cons] at hapart
    rw [List.foldlM_cons, freeHookTable]
    cases hout : outcome e.key with
    | error fault =>
      obtain rfl := hfaults e.key fault hout
      simp only [hl, hdel, hout, fault_ok_bind]
      rfl
    | ok hooks =>
      simp only [hl, hdel, hout, fault_ok_bind]
      obtain ⟨e', he', hshort⟩ := hshort
      rcases List.mem_cons.mp he' with rfl | he'
      · rw [hout] at hshort
        cases hshort
      · exact ih hapart.2 (lists_left outcome hapart.1 hlists) ⟨e', he', hshort⟩ _

end Freeing

section Runs
variable {P F X : Type} [LinearOrder P] {reg : Registry P F X} {es : List (Container HookTable)}
  {order : Bytes → List (Hook P F X)} {lost : Bytes → Nat}

def lostAfter (ops : List (HookOp P F X)) : Bytes → Nat :=
  (ops.foldl (fun s op => (orderStep s.1 op, lostStep s.1 s.2 op)) (fun _ => [], fun _ => 0)).2

theorem lostAfter_append (done : List (HookOp P F X)) (op : HookOp P F X) :
    lostAfter (done ++ [op]) = lostStep (orderAfter done) (lostAfter done) op := by
  have horder : ∀ (ops : List (HookOp P F X)) (s : (Bytes → List (Hook P F X)) × (Bytes → Nat)),
      (ops.foldl (fun s op => (orderStep s.1 op, lostStep s.1 s.2 op)) s).1 = ops.foldl orderStep s.1 := by
    intro ops
    induction ops with
    | nil => exact fun s => rfl
    | cons op ops ih => exact fun s => ih _
  rw [lostAfter, List.foldl_append]
  show lostStep _ _ op = _
  rw [horder]
  rfl

theorem lost_mono (order : Bytes → List (Hook P F X)) (lost : Bytes → Nat) (op : HookOp P F X) (name : Bytes) :
    lost name ≤ lostStep order lost op name := by
  cases op with
  | add n hook =>
    by_cases hn : name = n
    · subst hn
      simp [lostStep]
    · simp [lostStep, Function.update_of_ne hn]
  | remove n id => exact Nat.le_refl _

/-- Every add of a run finds its name with no other hook, or with one of higher priority. -/
def EveryAddPlaceable (ops : List (HookOp P F X)) : Prop :=
  ∀ done name hook, done ++ [.add name hook] <+: ops → Placeable (othersAt done name hook.id) hook

theorem everyAddPlaceable_append (done : List (HookOp P F X)) (op : HookOp P F X) :
    EveryAddPlaceable (done ++ [op]) ↔
      EveryAddPlaceable done ∧ ∀ name hook, op = .add name hook → Placeable (othersAt done name hook.id) hook := by
  constructor
  · intro h
    refine ⟨fun front name hook hpre => h front name hook (hpre.trans (List.prefix_append _ _)), ?_⟩
    rintro name hook rfl
    exact h done name hook (List.prefix_refl _)
  · rintro ⟨hdone, hop⟩ front name hook hpre
    rcases List.prefix_concat_iff.mp hpre with heq | hpre
    · obtain ⟨rfl, hlast⟩ := List.append_inj' heq rfl
      exact hop name hook (List.singleton_inj.mp hlast).symm
    · exact hdone front name hook hpre

theorem placeable_sorts (ops : List (HookOp P F X)) (h : EveryAddPlaceable ops) (name : Bytes) :
    StablySorts Hook.priority (orderAfter ops name) (registered ops name) := by
  induction ops using List.reverseRecOn generalizing name with
  | nil => exact .nil
  | append_singleton done op ih =>
    obtain ⟨hdone, hop⟩ := (everyAddPlaceable_append done op).mp h
    exact orderStep_sorts (ih hdone) hop name

/-- An insertion keeps all hooks exactly if it is placeable. -/
theorem placeIn_keeps_iff {order hooks : List (Hook P F X)} (h : StablySorts Hook.priority order hooks)
    (hook : Hook P F X) : order.length + 1 - (placeIn order hook).length = 0 ↔ Placeable hooks hook := by
  have hplaceable : Placeable order hook ↔ Placeable hooks hook := by
    unfold Placeable
    refine or_congr ?_ (exists_congr fun other => and_congr_left fun _ => h.perm.mem_iff)
    exact ⟨fun hn => List.nil_perm.mp (hn ▸ h.perm), fun hn => List.perm_nil.mp (hn ▸ h.perm)⟩
  rw [← hplaceable]
  constructor
  · intro hlen
    by_contra hnot
    have hless := placeIn_loses hnot
    rw [List.length_append, List.length_singleton] at hless
    omega
  · intro hp
    have hlen := (placeIn_sorts h hp).perm.length_eq
    rw [List.length_append, List.length_singleton, ← h.perm.length_eq] at hlen
    omega

theorem nothing_lost_iff (ops : List (HookOp P F X)) : (∀ name, lostAfter ops name = 0) ↔ EveryAddPlaceable ops := by
  induction ops using List.reverseRecOn with
  | nil => exact ⟨fun _ done name hook hpre => absurd (List.prefix_nil.mp hpre) (by simp), fun _ name => rfl⟩
  | append_singleton done op ih =>
    rw [everyAddPlaceable_append, ← ih, lostAfter_append]
    have hbefore : (∀ name, lostStep (orderAfter done) (lostAfter done) op name = 0) →
        ∀ name, lostAfter done name = 0 :=
      fun h name => Nat.eq_zero_of_le_zero ((lost_mono _ _ op name).trans (Nat.le_of_eq (h name)))
    cases op with
    | remove n id =>
      exact ⟨fun h => ⟨h, fun name hook heq => nomatch heq⟩, fun h => h.1⟩
    | add n hook =>
      have hstep : (∀ name, lostAfter done name = 0) →
          ((∀ name, lostStep (orderAfter done) (lostAfter done) (.add n hook) name = 0) ↔
            Placeable (othersAt done n hook.id) hook) := by
        intro hdone
        have hsorts : StablySorts Hook.priority (removeFrom (orderAfter done n) hook.id) (othersAt done n hook.id) :=
          (placeable_sorts done (ih.mp hdone) n).filter (fun val => val.id ≠ hook.id)
        refine Iff.trans ?_ (placeIn_keeps_iff hsorts hook)
        constructor
        · intro h
          simpa [lostStep, hdone n] using h n
        · intro h name
          by_cases hn : name = n
          · subst hn
            simpa [lostStep, hdone name] using h
          · simpa [lostStep, Function.update_of_ne hn] using hdone name
      constructor
      · intro h
        refine ⟨hbefore h, ?_⟩
        rintro name hook' heq
        obtain ⟨rfl, rfl⟩ := HookOp.add.inj heq
        exact (hstep (hbefore h)).mp h
      · rintro ⟨hdone, hop⟩
        exact (hstep hdone).mpr (hop n hook rfl)

theorem hookOps_account (ops : List (HookOp P F X)) {start : Registry P F X}
    (hstart : Accounts start [] (fun _ => []) (fun _ => 0)) :
    ∃ replies reg es, runCalls hookOp start ops = .ok (replies, reg) ∧ Accounts reg es (orderAfter ops) (lostAfter ops) ∧
      ∀ name, name ∈ es.map Container.key ↔ ∃ hook, .add name hook ∈ ops := by
  let inv : Registry P F X → List (HookOp P F X) → Prop := fun reg rest =>
    ∃ done es, done ++ rest = ops ∧ Accounts reg es (orderAfter done) (lostAfter done) ∧
      ∀ name, name ∈ es.map Container.key ↔ ∃ hook, .add name hook ∈ done
  have hstep : ∀ reg op rest, inv reg (op :: rest) →
      ∃ reply reg', hookOp reg op = .ok (reply, reg') ∧ inv reg' rest := by
    rintro reg op rest ⟨done, es, hops, h, hnames⟩
    obtain ⟨reg', es', he, h', hnames'⟩ := h.hookOp op
    refine ⟨(), reg', he, done ++ [op], es', by simpa using hops, ?_, fun name => ?_⟩
    · rw [orderAfter_append, lostAfter_append]
      exact h'
    · rw [hnames', hnames]
      simp only [List.mem_append, List.mem_singleton, exists_or, eq_comm]
  obtain ⟨replies, reg, he, done, es, hops, h, hnames⟩ := runCalls_keeps inv hstep ops
    (show inv start ops from ⟨[], [], rfl, hstart, by simp⟩)
  rw [List.append_nil] at hops
  subst hops
  exact ⟨replies, reg, es, he, h, hnames⟩

/-- What is freed at the end of a run: the copy of each name that hooks have been added to, and each hook that is
registered under one of them, once. -/
structure FreesAll (ops : List (HookOp P F X)) (freed : Freed P F X) : Prop where
  once : (freed.tables.map HookTable.name).Nodup
  names : ∀ name, name ∈ freed.tables.map HookTable.name ↔ ∃ hook, .add name hook ∈ ops
  hooks : freed.hooks.Perm ((freed.tables.map HookTable.name).flatMap (registered ops))

/-- A registry between its lives: no list is left. -/
structure Rests (reg : Registry P F X) : Prop where
  unloaded : reg.hookLoaded = false
  lists : ∀ a, reg.lists a = none

/-- The library loads and every operation returns, and then the unload asserts. -/
def DiesUnloading (reg : Registry P F X) (ops : List (HookOp P F X)) : Prop :=
  ∃ start replies used, hookLoad reg = .ok start ∧ runCalls hookOp start ops = .ok (replies, used) ∧
    hookUnload used = .error .assertion

theorem hookLife_used {ops : List (HookOp P F X)} {start used : Registry P F X} {replies : List Unit}
    (hload : hookLoad reg = .ok start) (hrun : runCalls hookOp start ops = .ok (replies, used)) :
    hookLife reg ops = (hookUnload used).map Prod.swap := by
  simp only [hookLife, hload, hrun, fault_ok_bind]
  cases hookUnload used <;> rfl

theorem DiesUnloading.life {ops : List (HookOp P F X)} (h : DiesUnloading reg ops) :
    hookLife reg ops = .error .assertion := by
  obtain ⟨start, replies, used, hload, hrun, hunload⟩ := h
  rw [hookLife_used hload hrun, hunload]
  rfl

theorem hookLife_spec (hreg : Rests reg) (ops : List (HookOp P F X)) :
    EveryAddPlaceable ops ∧ (∃ freed reg', hookLife reg ops = .ok (freed, reg') ∧ FreesAll ops freed ∧ Rests reg') ∨
      ¬ EveryAddPlaceable ops ∧ DiesUnloading reg ops := by
  obtain ⟨start, hload, hstart⟩ := accounts_loaded hreg.unloaded hreg.lists
  obtain ⟨replies, reg1, es, hrun, h, hnames⟩ := hookOps_account ops hstart
  obtain ⟨conts, hperm, hdelete⟩ := deleteWith_spec h.tracks.tables (freeHookTable (P := P) (F := F) (X := X))
  have hapart : (conts.map (fun e => e.block.data.funcs)).Nodup := (hperm.map _).nodup_iff.mpr h.tracks.apart
  have hunload : hookUnload reg1 = (conts.foldlM freeHookTable ({ reg1 with hookLoaded := false }, ⟨[], []⟩)).map
      fun s => ({ s.1 with hookTables := Hashtable.new }, s.2) := by
    simp only [hookUnload, h.tracks.loaded, Bool.true_eq_false, if_false, hdelete]
    cases conts.foldlM freeHookTable _ <;> rfl
  have hnamed : (conts.map (fun e => e.block.data)).map HookTable.name = conts.map Container.key := by
    rw [List.map_map]
    exact List.map_congr_left fun e he => h.named e (hperm.mem_iff.mp he)
  by_cases hplace : EveryAddPlaceable ops
  · left
    have hwhole : ∀ e ∈ conts, ∃ list, Tables.list { reg1 with hookLoaded := false } e.block.data.funcs = .ok list ∧
        list.delete = .ok (orderAfter ops e.key) := by
      intro e he
      obtain ⟨list, cells, hl, hc, hd⟩ := h.lookup (hperm.mem_iff.mp he)
      rw [(nothing_lost_iff ops).mpr hplace e.key] at hc
      exact ⟨list, hl, by rw [hc.delete_whole, hd]⟩
    have hfreed := freeTables_whole (orderAfter ops) hapart hwhole ⟨[], []⟩
    simp only [List.nil_append] at hfreed
    rw [hookLife_used hload hrun, hunload, hfreed]
    refine ⟨hplace, ⟨conts.flatMap (fun e => orderAfter ops e.key), conts.map (fun e => e.block.data)⟩, _, rfl,
      ⟨?_, fun name => ?_, ?_⟩, rfl, fun a => ?_⟩
    · rw [hnamed]
      exact (hperm.map _).nodup_iff.mpr h.tracks.tables.distinct
    · rw [hnamed, (hperm.map Container.key).mem_iff]
      exact hnames name
    · rw [hnamed, List.flatMap_map]
      exact List.Perm.flatMap_left conts fun e he => (placeable_sorts ops hplace e.key).perm
    · show (if a ∈ conts.map (fun e => e.block.data.funcs) then none else reg1.lists a) = none
      split
      · rfl
      · next ha =>
        by_contra hsome
        obtain ⟨list, hl⟩ := Option.ne_none_iff_exists'.mp hsome
        obtain ⟨e, he, hf⟩ := h.listed a list hl
        exact ha (List.mem_map.mpr ⟨e, hperm.mem_iff.mpr he, hf⟩)
  · right
    obtain ⟨name, hname⟩ := not_forall.mp (mt (nothing_lost_iff ops).mp hplace)
    obtain ⟨e, he, rfl⟩ := h.present name hname
    let outcome : Bytes → Except Fault (List (Hook P F X)) := fun name =>
      if lostAfter ops name = 0 then .ok (orderAfter ops name) else .error .assertion
    have hdeleted : ∀ e ∈ conts, ∃ list, Tables.list { reg1 with hookLoaded := false } e.block.data.funcs = .ok list ∧
        list.delete = outcome e.key := by
      intro e he
      obtain ⟨list, cells, hl, hc, hd⟩ := h.lookup (hperm.mem_iff.mp he)
      refine ⟨list, hl, ?_⟩
      by_cases hlost : lostAfter ops e.key = 0
      · rw [hlost] at hc
        rw [hc.delete_whole, hd]
        exact (if_pos hlost).symm
      · rw [hc.delete_short (Nat.pos_of_ne_zero hlost)]
        exact (if_neg hlost).symm
    have hfaults : ∀ name fault, outcome name = .error fault → fault = .assertion := by
      intro name fault hf
      dsimp only [outcome] at hf
      split at hf
      · cases hf
      · exact (Except.error.inj hf).symm
    have hstuck := freeTables_short outcome hapart hdeleted hfaults ⟨e, hperm.mem_iff.mpr he, if_neg hname⟩ ⟨[], []⟩
    refine ⟨hplace, start, replies, reg1, hload, hrun, ?_⟩
    rw [hunload, hstuck]
    rfl

/-- Lives whose adds are placeable follow each other. -/
theorem hookLives_spec (hreg : Rests reg) (lives : List (List (HookOp P F X)))
    (hall : ∀ ops ∈ lives, EveryAddPlaceable ops) :
    ∃ freed reg', runCalls hookLife reg lives = .ok (freed, reg') ∧ List.Forall₂ FreesAll lives freed ∧ Rests reg' := by
  induction lives generalizing reg with
  | nil => exact ⟨[], reg, rfl, .nil, hreg⟩
  | cons ops lives ih =>
    obtain ⟨hplace, hlives⟩ := List.forall_mem_cons.mp hall
    rcases hookLife_spec hreg ops with ⟨-, freed, reg1, hrun, hfrees, hrests⟩ | ⟨hnot, -⟩
    · obtain ⟨rest, reg2, hruns, hfreed, hrests⟩ := ih hrests hlives
      refine ⟨freed :: rest, reg2, ?_, .cons hfrees hfreed, hrests⟩
      simp only [runCalls, hrun, hruns]
    · exact absurd hplace hnot

end Runs

end CFlare.Hooks
