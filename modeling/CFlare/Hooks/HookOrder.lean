import CFlare.Hooks.Hook
import CFlare.Library.Runs
import CFlare.Library.StableOrder
import CFlare.Storage.HashtableMap
import Mathlib.Data.List.Induction
import Mathlib.Data.List.TakeWhile

/-! The order in which a call meets the hooks of a name, after any run of adds and removes.
An add that finds no hook of higher priority does not put its hook at the end of the list: it
makes it the whole list. -/
namespace CFlare.Hooks
open CFlare.Library CFlare.Storage

section Lists
variable {P F X : Type} {list : LinkedList (Hook P F X)} {xs rest : Cells (Hook P F X)}

/-- The removing loop takes out the cells with the id among those ahead. -/
theorem removeHooks_spec (id : Bytes) {fuel : Nat} {it : Iterator}
    (h : Represents list (xs ++ rest)) (ha : it.Ahead list rest) (hfuel : rest.length < fuel) :
    ∃ list', removeHooks id fuel it list = .ok list' ∧
      Represents list' (xs ++ rest.filter (fun c => c.2.id ≠ id)) ∧ list'.allocated = list.allocated ∧
      list'.count = list.count - (rest.filter (fun c => c.2.id = id)).length ∧ list'.deleter = list.deleter := by
  induction rest generalizing xs fuel it list with
  | nil =>
    obtain ⟨fuel, rfl⟩ := Nat.exists_eq_succ_of_ne_zero (Nat.ne_of_gt hfuel)
    obtain ⟨it', he, -⟩ := iteratorNext_nil ha
    exact ⟨list, by simp [removeHooks, he], h, rfl, rfl, rfl⟩
  | cons c rest ih =>
    obtain ⟨p, hook⟩ := c
    obtain ⟨fuel, rfl⟩ := Nat.exists_eq_succ_of_ne_zero (Nat.ne_zero_of_lt hfuel)
    obtain ⟨it', n, he, -, hnode, hdata, hahead⟩ := iteratorNext_cons h ha
    by_cases hid : hook.id = id
    · obtain ⟨list1, hrem, hr1, hc1, hd1, -⟩ := remove_spec h
      obtain ⟨list', hrun, hr', halloc, hcount, hdeleter⟩ := ih hr1 (hahead list1) (by simpa using hfuel)
      refine ⟨list', ?_, by simpa [hid] using hr', halloc.trans (remove_allocated hrem), ?_, hdeleter.trans hd1⟩
      · simpa [removeHooks, he, hnode, hdata, hid, hrem] using hrun
      · rw [hcount, hc1, Nat.sub_sub, List.filter_cons_of_pos (by simpa using hid), List.length_cons, Nat.add_comm]
    · have hr1 : Represents list ((xs ++ [(p, hook)]) ++ rest) := by simpa using h
      obtain ⟨list', hrun, hr', halloc, hcount, hdeleter⟩ := ih hr1 (hahead list) (by simpa using hfuel)
      refine ⟨list', ?_, by simpa [hid] using hr', halloc, by simpa [hid] using hcount, hdeleter⟩
      simpa [removeHooks, he, hnode, hdata, hid] using hrun

/-- The cells after an insertion, however priorities compare: the new cell stands right before the first one of
higher priority, and is the only one if there is none. -/
inductive Placed [LT P] (p : Nat) (hook : Hook P F X) (cells : Cells (Hook P F X)) : Cells (Hook P F X) → Prop where
  | alone (highest : ∀ c ∈ cells, ¬ hook.priority < c.2.priority) : Placed p hook cells [(p, hook)]
  | before {us vs : Cells (Hook P F X)} {c : Nat × Hook P F X} (split : cells = us ++ c :: vs)
      (higher : hook.priority < c.2.priority) (others : ∀ d ∈ us, ¬ hook.priority < d.2.priority) :
      Placed p hook cells (us ++ (p, hook) :: c :: vs)

theorem Placed.length_le [LT P] {p : Nat} {hook : Hook P F X} {cells cells' : Cells (Hook P F X)}
    (h : Placed p hook cells cells') : cells'.length ≤ cells.length + 1 := by
  cases h with
  | alone => exact Nat.succ_le_succ (Nat.zero_le _)
  | before split =>
    subst split
    simp only [List.length_append, List.length_cons]
    exact Nat.le_refl _

theorem insertHook_spec [LT P] [DecidableLT P] {cells : Cells (Hook P F X)} (h : Represents list cells)
    (hook : Hook P F X) :
    ∃ it list' cells', list.find (fun val => hook.priority < val.priority) = .ok it ∧
      list.insertBefore it.value hook = .ok (list.allocated, list') ∧ Represents list' cells' ∧
      Placed list.allocated hook cells cells' ∧ list'.count = list.count + 1 ∧ list'.deleter = list.deleter := by
  obtain ⟨it, he, hcases⟩ := find_spec
    (fun val : Hook P F X => decide (hook.priority < val.priority)) h
  rcases hcases with ⟨hv, hall⟩ | ⟨us, p, next, vs, rfl, hv, hfound, hall⟩
  · obtain ⟨list', hins, hr', hbooks⟩ := insertBetween_none_spec list hook
    refine ⟨it, list', _, he, by rw [hv]; exact hins, hr', .alone ?_, hbooks⟩
    exact fun c hc => of_decide_eq_false (hall c hc)
  · obtain ⟨list', hins, hr', hbooks⟩ := insertBefore_spec h hook
    refine ⟨it, list', _, he, by rw [hv]; exact hins, hr', .before rfl (of_decide_eq_true hfound) ?_, hbooks⟩
    exact fun c hc => of_decide_eq_false (hall c hc)

def removeFrom (order : List (Hook P F X)) (id : Bytes) : List (Hook P F X) :=
  order.filter (fun hook => hook.id ≠ id)

variable [LinearOrder P]

/-- The order after an insertion at the position that the search for a higher priority ends
on; the position is null when it ends on none. -/
def placeIn (order : List (Hook P F X)) (hook : Hook P F X) : List (Hook P F X) :=
  match order.dropWhile (fun val => ¬ hook.priority < val.priority) with
  | [] => [hook]
  | next :: later =>
    order.takeWhile (fun val => ¬ hook.priority < val.priority) ++ hook :: next :: later

theorem placeIn_none {order : List (Hook P F X)} {hook : Hook P F X}
    (h : ∀ val ∈ order, ¬ hook.priority < val.priority) : placeIn order hook = [hook] := by
  have hd : order.dropWhile (fun val => ¬ hook.priority < val.priority) = [] := by
    rw [List.dropWhile_eq_nil_iff]
    intro val hm
    simpa using h val hm
  rw [placeIn, hd]

theorem placeIn_split {us vs : List (Hook P F X)} {next hook : Hook P F X}
    (hu : ∀ val ∈ us, ¬ hook.priority < val.priority) (hn : hook.priority < next.priority) :
    placeIn (us ++ next :: vs) hook = us ++ hook :: next :: vs := by
  have hall : ∀ val ∈ us, decide (¬ hook.priority < val.priority) = true := fun val hm => by
    simpa using hu val hm
  rw [placeIn, List.dropWhile_append_of_pos hall, List.takeWhile_append_of_pos hall]
  simp [hn]

theorem Placed.data {p : Nat} {hook : Hook P F X} {cells cells' : Cells (Hook P F X)}
    (h : Placed p hook cells cells') : cells'.data = placeIn cells.data hook := by
  cases h with
  | alone highest =>
    rw [placeIn_none]
    · rfl
    · intro val hm
      obtain ⟨c, hc, rfl⟩ := List.mem_map.mp hm
      exact highest c hc
  | @before us vs c split higher others =>
    subst split
    have hu : ∀ val ∈ Cells.data us, ¬ hook.priority < val.priority := by
      intro val hm
      obtain ⟨d, hd, rfl⟩ := List.mem_map.mp hm
      exact others d hd
    have hplace : placeIn (Cells.data (us ++ c :: vs)) hook = Cells.data us ++ hook :: c.2 :: Cells.data vs := by
      rw [Cells.data, List.map_append]
      exact placeIn_split hu higher
    rw [hplace, Cells.data, List.map_append]
    rfl

end Lists

section Tables
variable {α : Type} {reg : Tables α} {es : List (Container HookTable)} {order : Bytes → List α}

/-- The hooks of each name, in the order a call meets them. Every entry of the hashtable has a
list of its own. -/
structure Tracks (reg : Tables α) (es : List (Container HookTable)) (order : Bytes → List α) : Prop where
  loaded : reg.hookLoaded = true
  tables : Holds reg.hookTables es
  handed : ∀ e ∈ es, e.block.data.funcs < reg.listsCount
  apart : (es.map (fun e => e.block.data.funcs)).Nodup
  hooks : ∀ e ∈ es, ∃ list cells, reg.lists e.block.data.funcs = some list ∧
    Represents list cells ∧ cells.data = order e.key
  absent : ∀ name, entryAt Container.key es name = none → order name = []

theorem Tracks.lookup (h : Tracks reg es order) {e : Container HookTable} (he : e ∈ es) :
    ∃ list cells, reg.list e.block.data.funcs = .ok list ∧ Represents list cells ∧
      cells.data = order e.key := by
  obtain ⟨list, cells, hl, hr, hd⟩ := h.hooks e he
  exact ⟨list, cells, by rw [Tables.list, hl], hr, hd⟩

/-- Changing the list of one name leaves the other names alone. -/
theorem Tracks.setList (h : Tracks reg es order) {e : Container HookTable} (he : e ∈ es)
    {list : LinkedList α} {cells : Cells α} (hr : Represents list cells) :
    Tracks (reg.setList e.block.data.funcs list) es (Function.update order e.key cells.data) := by
  refine ⟨h.loaded, h.tables, h.handed, h.apart, fun e' he' => ?_, fun name hn => ?_⟩
  · by_cases hk : e' = e
    · subst hk
      exact ⟨list, cells, by simp [Tables.setList], hr, by simp⟩
    · have hfuncs : e'.block.data.funcs ≠ e.block.data.funcs := fun hf =>
        hk (List.inj_on_of_nodup_map h.apart he' he hf)
      have hkey : e'.key ≠ e.key := fun hf =>
        hk (List.inj_on_of_nodup_map h.tables.distinct he' he hf)
      obtain ⟨list', cells', hl, hr', hd⟩ := h.hooks e' he'
      refine ⟨list', cells', ?_, hr', ?_⟩
      · exact (Function.update_of_ne hfuncs _ _).trans hl
      · rw [Function.update_of_ne hkey, hd]
  · rw [Function.update_of_ne (fun hf => entryAt_eq_none.mp hn e he hf.symm)]
    exact h.absent name hn

/-- A fresh list under a name without hooks, in place of the name's table if there is one. -/
theorem Tracks.replaced (h : Tracks reg es order) {new : Container HookTable} {tables : Hashtable HookTable}
    (htables : Holds tables (es.filter (fun e => e.key ≠ new.key) ++ [new]))
    (hfresh : ∀ e ∈ es, e.block.data.funcs ≠ new.block.data.funcs) (hempty : order new.key = [])
    {lists : Nat → Option (LinkedList α)} {count : Nat} (hcount : reg.listsCount ≤ count)
    (hhanded : new.block.data.funcs < count) {list : LinkedList α}
    (hnew : lists new.block.data.funcs = some list) (hr : Represents list [])
    (hkeep : ∀ e ∈ es, e.key ≠ new.key → lists e.block.data.funcs = reg.lists e.block.data.funcs) :
    Tracks { reg with hookTables := tables, lists := lists, listsCount := count }
      (es.filter (fun e => e.key ≠ new.key) ++ [new]) order := by
  have hmem : ∀ e, e ∈ es.filter (fun e => e.key ≠ new.key) ++ [new] ↔ (e ∈ es ∧ e.key ≠ new.key) ∨ e = new := by
    intro e
    rw [List.mem_append, List.mem_filter, List.mem_singleton, decide_eq_true_iff]
  refine ⟨h.loaded, htables, fun e he => ?_, ?_, fun e he => ?_, fun n hn => ?_⟩
  · rcases (hmem e).mp he with ⟨he, -⟩ | rfl
    · exact Nat.lt_of_lt_of_le (h.handed e he) hcount
    · exact hhanded
  · rw [List.map_append, List.nodup_append]
    refine ⟨h.apart.sublist (List.filter_sublist.map _), by simp, ?_⟩
    rintro b hb c hc rfl
    obtain ⟨e, he, rfl⟩ := List.mem_map.mp hb
    rw [List.map_singleton, List.mem_singleton] at hc
    exact hfresh e (List.mem_filter.mp he).1 hc
  · rcases (hmem e).mp he with ⟨he, hne⟩ | rfl
    · obtain ⟨list', cells, hl, hr', hd⟩ := h.hooks e he
      exact ⟨list', cells, (hkeep e he hne).trans hl, hr', hd⟩
    · exact ⟨list, [], hnew, hr, hempty.symm⟩
  · by_cases hname : n = new.key
    · rw [hname, hempty]
    · apply h.absent n
      rw [entryAt_eq_none] at hn ⊢
      intro e he hk
      exact hn e ((hmem e).mpr (.inl ⟨he, fun hf => hname (hk.symm.trans hf)⟩)) hk

@[simp] theorem list_setList (reg : Tables α) (a : Nat) (list : LinkedList α) :
    (reg.setList a list).list a = .ok list := by
  simp [Tables.list, Tables.setList]

theorem setList_setList (reg : Tables α) (a : Nat) (list list' : LinkedList α) :
    (reg.setList a list).setList a list' = reg.setList a list' := by
  simp only [Tables.setList, Function.update_idem]

end Tables

section Registries
variable {P F X : Type} {reg : Registry P F X} {es : List (Container HookTable)}
  {order : Bytes → List (Hook P F X)}

theorem tracks_loaded : ∃ reg : Registry P F X, hookLoad Registry.unloaded = .ok reg ∧
    Tracks reg [] (fun _ => []) :=
  ⟨_, rfl, rfl, ⟨.inr ⟨rfl, rfl, rfl⟩, by simp, List.nodup_nil, rfl⟩, by simp, List.nodup_nil,
    by simp, fun _ _ => rfl⟩

theorem hookRemove_unlisted (h : Tracks reg es order) {name : Bytes} (hn : entryAt Container.key es name = none)
    (id : Bytes) : hookRemove reg name id = .ok reg := by
  unfold hookRemove
  rw [if_neg (by simp [h.loaded]), get_spec h.tables name, hn]
  rfl

/-- Under a name with a list, the hooks with the id leave that list. -/
theorem hookRemove_listed (h : Tracks reg es order) {e : Container HookTable} (he : e ∈ es)
    {list : LinkedList (Hook P F X)} {cells : Cells (Hook P F X)} (hl : reg.list e.block.data.funcs = .ok list)
    (hr : Represents list cells) (id : Bytes) :
    ∃ list', hookRemove reg e.key id = .ok (reg.setList e.block.data.funcs list') ∧
      Represents list' (cells.filter (fun c => c.2.id ≠ id)) ∧ list'.allocated = list.allocated ∧
      list'.count = list.count - (cells.filter (fun c => c.2.id = id)).length ∧ list'.deleter = list.deleter := by
  have hr0 : Represents list ([] ++ cells) := hr
  obtain ⟨list', hrun, hr', hbooks⟩ := removeHooks_spec id hr0 (ahead_getIterator hr)
    (Nat.lt_succ_of_le hr.length_le)
  refine ⟨list', ?_, hr', hbooks⟩
  unfold hookRemove
  rw [if_neg (by simp [h.loaded]), get_spec h.tables e.key, (entryAt_eq_some h.tables.distinct).mpr ⟨he, rfl⟩]
  simp [hl, hrun]

theorem hookRemove_spec (h : Tracks reg es order) (name id : Bytes) :
    ∃ reg', hookRemove reg name id = .ok reg' ∧
      Tracks reg' es (Function.update order name (removeFrom (order name) id)) := by
  cases hat : entryAt Container.key es name with
  | none =>
    refine ⟨reg, hookRemove_unlisted h hat id, ?_⟩
    have hempty := h.absent name hat
    rwa [removeFrom, hempty, List.filter_nil, ← hempty, Function.update_eq_self]
  | some e =>
    obtain ⟨he, rfl⟩ := (entryAt_eq_some h.tables.distinct).mp hat
    obtain ⟨list, cells, hl, hr, hd⟩ := h.lookup he
    obtain ⟨list', hrun, hr', -⟩ := hookRemove_listed h he hl hr id
    refine ⟨_, hrun, ?_⟩
    have hdata : Cells.data (cells.filter (fun c => c.2.id ≠ id)) = removeFrom (order e.key) id := by
      rw [← hd, removeFrom, Cells.data, Cells.data, List.filter_map]
      rfl
    rw [← hdata]
    exact h.setList he hr'

theorem hookTable_listed (h : Tracks reg es order) {e : Container HookTable} (he : e ∈ es) :
    hookTable reg e.key = .ok (e.block, reg) := by
  unfold hookTable
  rw [get_spec h.tables e.key, (entryAt_eq_some h.tables.distinct).mpr ⟨he, rfl⟩]
  rfl

/-- Creating the table of a name changes no name's hooks and no list that there is. -/
theorem hookTable_unlisted (h : Tracks reg es order) {name : Bytes} (hn : entryAt Container.key es name = none) :
    ∃ reg' e, hookTable reg name = .ok (e.block, reg') ∧ Tracks reg' (es ++ [e]) order ∧ e.key = name ∧
      e.block.data.funcs = reg.listsCount ∧ ∀ a < reg.listsCount, reg'.lists a = reg.lists a := by
  unfold hookTable
  rw [get_spec h.tables name, hn]
  obtain ⟨tables, es', hset, heffect, hh', -⟩ :=
    set_spec h.tables name (some ⟨name, reg.listsCount⟩) hookTableSize (by simp)
  cases heffect with
  | kept before same books => simp [hn] at before
  | updated before differs books => simp [hn] at before
  | inserted before books =>
    let cont : Container HookTable :=
      ⟨fnvHash1a32 name, name, ⟨reg.hookTables.blocks, ⟨name, reg.listsCount⟩, hookTableSize⟩⟩
    have hholds : Holds tables (es.filter (fun e => e.key ≠ cont.key) ++ [cont]) := hh'
    let created : Registry P F X := { reg.setList reg.listsCount (LinkedList.new.ondelete true) with
      listsCount := reg.listsCount + 1 }
    have hlt : ∀ e ∈ es, e.block.data.funcs ≠ reg.listsCount := fun e he => (h.handed e he).ne
    have hempty : order cont.key = [] := h.absent name hn
    have hkeep : es.filter (fun e => e.key ≠ cont.key) = es := filter_ne_of_absent (entryAt_eq_none.mp hn)
    refine ⟨{ created with hookTables := tables }, cont, ?_, ?_, rfl, rfl,
      fun a ha => Function.update_of_ne ha.ne _ _⟩
    · have hget : entryAt Container.key (es.filter (fun e => e.key ≠ cont.key) ++ [cont]) name = some cont :=
        (entryAt_eq_some hholds.distinct).mpr ⟨by simp, rfl⟩
      have hget' := get_spec hholds name
      rw [hget] at hget'
      rw [Option.map_none, fault_ok_bind]
      dsimp only [Tables.setList]
      rw [hset, fault_ok_bind, hget']
      rfl
    · rw [← hkeep]
      apply h.replaced hholds hlt hempty (Nat.le_succ _) (Nat.lt_succ_self _) (Function.update_self _ _ _)
      · exact represents_new.congr rfl rfl rfl rfl
      · exact fun e he _ => Function.update_of_ne (hlt e he) _ _

section Adds
variable [LT P] [DecidableLT P]

/-- Under a name with a list, an add takes out the hooks with its id and places the new one. -/
theorem hookAdd_listed (h : Tracks reg es order) {e : Container HookTable} (he : e ∈ es)
    {list : LinkedList (Hook P F X)} {cells : Cells (Hook P F X)} (hl : reg.list e.block.data.funcs = .ok list)
    (hr : Represents list cells) (hook : Hook P F X) :
    ∃ list' cells', hookAdd reg e.key hook = .ok (reg.setList e.block.data.funcs list') ∧ Represents list' cells' ∧
      Placed list.allocated hook (cells.filter (fun c => c.2.id ≠ hook.id)) cells' := by
  obtain ⟨list1, hrem, hr1, ha1, -⟩ := hookRemove_listed h he hl hr hook.id
  have htbl := hookTable_listed (h.setList he hr1) he
  obtain ⟨it, list', cells', hfind, hins, hr', hplaced, -⟩ := insertHook_spec hr1 hook
  rw [ha1] at hplaced
  refine ⟨list', cells', ?_, hr', hplaced⟩
  simp [hookAdd, hrem, htbl, hfind, hins, setList_setList]

theorem hookAdd_unlisted (h : Tracks reg es order) {name : Bytes} (hn : entryAt Container.key es name = none)
    (hook : Hook P F X) :
    ∃ reg' e, hookAdd reg name hook = .ok reg' ∧ Tracks reg' (es ++ [e]) (Function.update order name [hook]) ∧
      e.key = name ∧ ∀ a < reg.listsCount, reg'.lists a = reg.lists a := by
  obtain ⟨reg1, e, htbl, h1, rfl, hfuncs, hlists⟩ := hookTable_unlisted h hn
  have he : e ∈ es ++ [e] := List.mem_append_right _ List.mem_cons_self
  obtain ⟨list, cells, hl, hr, hd⟩ := h1.lookup he
  obtain rfl : cells = [] := List.map_eq_nil_iff.mp (hd.trans (h.absent e.key hn))
  obtain ⟨it, list', cells', hfind, hins, hr', hplaced, -⟩ := insertHook_spec hr hook
  obtain rfl : cells' = [(list.allocated, hook)] := by
    cases hplaced with
    | alone highest => rfl
    | before split higher others => simp at split
  refine ⟨reg1.setList e.block.data.funcs list', e, ?_, h1.setList he hr', rfl, fun a ha => ?_⟩
  · simp [hookAdd, hookRemove_unlisted h hn, htbl, hl, hfind, hins]
  · exact (Function.update_of_ne (hfuncs ▸ ha.ne) _ _).trans (hlists a ha)

end Adds

variable [LinearOrder P]

theorem hookAdd_spec (h : Tracks reg es order) (name : Bytes) (hook : Hook P F X) :
    ∃ reg' es', hookAdd reg name hook = .ok reg' ∧
      Tracks reg' es'
        (Function.update order name (placeIn (removeFrom (order name) hook.id) hook)) := by
  cases hat : entryAt Container.key es name with
  | none =>
    obtain ⟨reg', e, hrun, h', -⟩ := hookAdd_unlisted h hat hook
    refine ⟨reg', es ++ [e], hrun, ?_⟩
    rw [h.absent name hat]
    exact h'
  | some e =>
    obtain ⟨he, rfl⟩ := (entryAt_eq_some h.tables.distinct).mp hat
    obtain ⟨list, cells, hl, hr, hd⟩ := h.lookup he
    obtain ⟨list', cells', hrun, hr', hplaced⟩ := hookAdd_listed h he hl hr hook
    refine ⟨_, es, hrun, ?_⟩
    have hdata : Cells.data (cells.filter (fun c => c.2.id ≠ hook.id)) = removeFrom (order e.key) hook.id := by
      rw [← hd, removeFrom, Cells.data, Cells.data, List.filter_map]
      rfl
    rw [← hdata, ← hplaced.data]
    exact h.setList he hr'

end Registries

section Calls
variable {P F X W : Type} {reg : Registry P F X} {es : List (Container HookTable)}
  {order : Bytes → List (Hook P F X)}

def quiet (act : F → X → W → W) : Callback P F X W := fun func context state =>
  .ok (false, state.1, act func context state.2)

def actAll (act : F → X → W → W) (hooks : List (Hook P F X)) (world : W) : W :=
  hooks.foldl (fun world hook => act hook.func hook.context world) world

private theorem callHooks_spec (act : F → X → W → W) {a : Nat} {list : LinkedList (Hook P F X)}
    (hl : reg.list a = .ok list) {fuel : Nat} {it : Iterator} {xs rest : Cells (Hook P F X)}
    (h : Represents list (xs ++ rest)) (ha : it.Ahead list rest) (hfuel : rest.length < fuel)
    (world : W) :
    callHooks (quiet act) a fuel it (reg, world) = .ok (false, reg, actAll act rest.data world) := by
  induction rest generalizing xs fuel it world with
  | nil =>
    obtain ⟨fuel, rfl⟩ := Nat.exists_eq_succ_of_ne_zero (Nat.ne_of_gt hfuel)
    obtain ⟨it', he, -⟩ := iteratorNext_nil ha
    simp [callHooks, hl, he, actAll]
  | cons c rest ih =>
    obtain ⟨p, hook⟩ := c
    obtain ⟨fuel, rfl⟩ := Nat.exists_eq_succ_of_ne_zero (Nat.ne_zero_of_lt hfuel)
    obtain ⟨it', n, he, -, hnode, hdata, hahead⟩ := iteratorNext_cons h ha
    have hr : Represents list ((xs ++ [(p, hook)]) ++ rest) := by simpa using h
    have hrest := ih hr (hahead list) (by simpa using hfuel) (act hook.func hook.context world)
    simp only [callHooks, hl, fault_ok_bind, he, hnode, hdata, quiet]
    simpa [actAll] using hrest

/-- A call meets the hooks of the name in their order, each once. -/
theorem hookCall_spec (h : Tracks reg es order) (name : Bytes) (act : F → X → W → W) {fuel : Nat}
    (hfuel : (order name).length < fuel) (world : W) :
    hookCall (quiet act) fuel name (reg, world) = .ok (false, reg, actAll act (order name) world) := by
  unfold hookCall
  rw [if_neg (by simp [h.loaded])]
  dsimp only
  rw [get_spec h.tables name]
  cases hat : entryAt Container.key es name with
  | none =>
    rw [h.absent name hat]
    rfl
  | some e =>
    obtain ⟨he, rfl⟩ := (entryAt_eq_some h.tables.distinct).mp hat
    obtain ⟨list, cells, hl, hr, hd⟩ := h.lookup he
    have hr0 : Represents list ([] ++ cells) := hr
    have hlen : cells.length < fuel := by rwa [← hd, List.length_map] at hfuel
    rw [← hd]
    exact callHooks_spec act hl hr0 (ahead_getIterator hr) hlen world

end Calls

section Runs
variable {P F X : Type}

inductive HookOp (P F X : Type) where
  | add (name : Bytes) (hook : Hook P F X)
  | remove (name id : Bytes)

/-- What registration is for: the hooks added to a name and not removed or added again since,
in the order of the adds. -/
def registered (ops : List (HookOp P F X)) (name : Bytes) : List (Hook P F X) :=
  ops.foldl (fun hooks op =>
    match op with
    | .add n hook => if n = name then replaceAt Hook.id hooks hook.id (some hook) else hooks
    | .remove n id => if n = name then replaceAt Hook.id hooks id none else hooks) []

def othersAt (done : List (HookOp P F X)) (name id : Bytes) : List (Hook P F X) :=
  (registered done name).filter (fun hook => hook.id ≠ id)

theorem registered_add (done : List (HookOp P F X)) (n name : Bytes) (hook : Hook P F X) :
    registered (done ++ [.add n hook]) name =
      if n = name then othersAt done name hook.id ++ [hook] else registered done name := by
  rw [registered, List.foldl_append]
  rfl

theorem registered_remove (done : List (HookOp P F X)) (n name id : Bytes) :
    registered (done ++ [.remove n id]) name =
      if n = name then othersAt done name id else registered done name := by
  rw [registered, List.foldl_append]
  show (if n = name then replaceAt Hook.id (registered done name) id none else _) = _
  rw [replaceAt, Option.toList_none, List.append_nil]
  rfl

/-- The calls that change the registry, however priorities compare: a number may compare with no other, or be
rounded when it is stored. -/
def hookOp [LT P] [DecidableLT P] (reg : Registry P F X) : HookOp P F X → Except Fault (Unit × Registry P F X)
  | .add name hook => (hookAdd reg name hook).map ((), ·)
  | .remove name id => (hookRemove reg name id).map ((), ·)

variable [LinearOrder P]

def orderStep (order : Bytes → List (Hook P F X)) : HookOp P F X → Bytes → List (Hook P F X)
  | .add name hook => Function.update order name (placeIn (removeFrom (order name) hook.id) hook)
  | .remove name id => Function.update order name (removeFrom (order name) id)

theorem hookOp_spec {reg : Registry P F X} {es : List (Container HookTable)}
    {order : Bytes → List (Hook P F X)} (h : Tracks reg es order) (op : HookOp P F X) :
    ∃ reg' es', hookOp reg op = .ok ((), reg') ∧ Tracks reg' es' (orderStep order op) := by
  cases op with
  | add name hook =>
    obtain ⟨reg', es', he, h'⟩ := hookAdd_spec h name hook
    exact ⟨reg', es', by rw [hookOp, he]; rfl, h'⟩
  | remove name id =>
    obtain ⟨reg', he, h'⟩ := hookRemove_spec h name id
    exact ⟨reg', es, by rw [hookOp, he]; rfl, h'⟩

/-- The hooks of a name in the code's order, after a run from a loaded registry. -/
def orderAfter (ops : List (HookOp P F X)) : Bytes → List (Hook P F X) :=
  ops.foldl orderStep (fun _ => [])

theorem hookRun_spec (ops : List (HookOp P F X)) :
    ∃ start replies reg es, hookLoad Registry.unloaded = .ok start ∧
      runCalls hookOp start ops = .ok (replies, reg) ∧ Tracks reg es (orderAfter ops) := by
  obtain ⟨start, hload, hstart⟩ := tracks_loaded (P := P) (F := F) (X := X)
  let inv : Registry P F X → List (HookOp P F X) → Prop := fun reg rest =>
    ∃ es order, Tracks reg es order ∧ rest.foldl orderStep order = orderAfter ops
  have hstep : ∀ reg op rest, inv reg (op :: rest) →
      ∃ reply reg', hookOp reg op = .ok (reply, reg') ∧ inv reg' rest := by
    rintro reg op rest ⟨es, order, h, hrest⟩
    obtain ⟨reg', es', he, h'⟩ := hookOp_spec h op
    exact ⟨(), reg', he, es', orderStep order op, h', hrest⟩
  obtain ⟨replies, reg, he, es, order, h, horder⟩ := runCalls_keeps inv hstep ops
    (show inv start ops from ⟨[], fun _ => [], hstart, rfl⟩)
  exact ⟨start, replies, reg, es, hload, he, horder ▸ h⟩

/-- An add goes right when it meets no other hook, or one of higher priority. -/
def Placeable (others : List (Hook P F X)) (hook : Hook P F X) : Prop :=
  others = [] ∨ ∃ other ∈ others, hook.priority < other.priority

theorem placeIn_sorts {order hooks : List (Hook P F X)} {hook : Hook P F X}
    (h : StablySorts Hook.priority order hooks) (hp : Placeable order hook) :
    StablySorts Hook.priority (placeIn order hook) (hooks ++ [hook]) := by
  rcases hp with rfl | hex
  · obtain rfl : hooks = [] := List.nil_perm.mp h.perm
    exact .singleton hook
  · have hsome : (order.find? (fun val => decide (hook.priority < val.priority))).isSome := by
      obtain ⟨other, hm, hlt⟩ := hex
      exact List.find?_isSome.mpr ⟨other, hm, decide_eq_true hlt⟩
    obtain ⟨next, hfind⟩ := Option.isSome_iff_exists.mp hsome
    obtain ⟨hlt, us, vs, rfl, hu⟩ := List.find?_eq_some_iff_append.mp hfind
    have hu' : ∀ val ∈ us, ¬ hook.priority < val.priority := fun val hm => by simpa using hu val hm
    rw [placeIn_split hu' (of_decide_eq_true hlt)]
    exact h.insert (fun val hm => not_lt.mp (hu' val hm))
      (lt_of_sorted h.sorted (of_decide_eq_true hlt))

/-- Any other add leaves one hook where there are more. -/
theorem placeIn_loses {order : List (Hook P F X)} {hook : Hook P F X} (hp : ¬ Placeable order hook) :
    (placeIn order hook).length < (order ++ [hook]).length := by
  rw [Placeable, not_or] at hp
  rw [placeIn_none (fun val hm hlt => hp.2 ⟨val, hm, hlt⟩), List.length_append]
  exact Nat.lt_add_of_pos_left (List.length_pos_of_ne_nil hp.1)

/-- After these operations a call with quiet callbacks invokes the registered hooks, each once,
from low to high priority and in the order of the adds. -/
def CalledInOrder (ops : List (HookOp P F X)) (name : Bytes) : Prop :=
  ∃ start replies reg, hookLoad Registry.unloaded = .ok start ∧
    runCalls hookOp start ops = .ok (replies, reg) ∧
    ∃ called, StablySorts Hook.priority called (registered ops name) ∧
      ∃ enough, ∀ (W : Type) (act : F → X → W → W) (world : W), ∀ fuel ≥ enough,
        hookCall (quiet act) fuel name (reg, world) = .ok (false, reg, actAll act called world)

theorem orderAfter_append (done : List (HookOp P F X)) (op : HookOp P F X) :
    orderAfter (done ++ [op]) = orderStep (orderAfter done) op := by
  rw [orderAfter, List.foldl_append]
  rfl

/-- In order and with nothing lost, the code's lists are called as they should be. -/
theorem calledInOrder_of_sorts {ops : List (HookOp P F X)} {name : Bytes}
    (h : StablySorts Hook.priority (orderAfter ops name) (registered ops name)) :
    CalledInOrder ops name := by
  obtain ⟨start, replies, reg, es, hload, hrun, ht⟩ := hookRun_spec ops
  refine ⟨start, replies, reg, hload, hrun, _, h, (orderAfter ops name).length + 1, ?_⟩
  intro W act world fuel hfuel
  exact hookCall_spec ht name act hfuel world

/-- A call that goes right invokes as many callbacks as the code's list has hooks. -/
theorem CalledInOrder.length_eq {ops : List (HookOp P F X)} {name : Bytes}
    (h : CalledInOrder ops name) : (orderAfter ops name).length = (registered ops name).length := by
  obtain ⟨start, replies, reg, hload, hrun, called, hsorts, enough, hcall⟩ := h
  obtain ⟨start', replies', reg', es, hload', hrun', ht⟩ := hookRun_spec ops
  obtain rfl := Except.ok.inj (hload.symm.trans hload')
  obtain ⟨-, rfl⟩ := Prod.mk.inj (Except.ok.inj (hrun.symm.trans hrun'))
  have hcount : ∀ (hooks : List (Hook P F X)) (n : Nat),
      actAll (fun _ _ n => n + 1) hooks n = n + hooks.length := by
    intro hooks
    induction hooks with
    | nil => exact fun n => rfl
    | cons hook hooks ih =>
      intro n
      rw [actAll, List.foldl_cons, List.length_cons, Nat.add_comm hooks.length, ← Nat.add_assoc]
      exact ih (n + 1)
  let fuel := max enough ((orderAfter ops name).length + 1)
  have hours := hookCall_spec ht name (fun _ _ n => n + 1) (Nat.le_max_right _ _ : _ ≤ fuel) 0
  have htheirs := hcall Nat (fun _ _ n => n + 1) 0 fuel (Nat.le_max_left _ _)
  have hsame := Except.ok.inj (hours.symm.trans htheirs)
  simp only [hcount, Prod.mk.injEq, true_and, Nat.zero_add] at hsame
  rw [hsame, hsorts.perm.length_eq]

/-- One operation keeps every list in order, if an add is placeable. -/
theorem orderStep_sorts {done : List (HookOp P F X)} {op : HookOp P F X}
    (h : ∀ name, StablySorts Hook.priority (orderAfter done name) (registered done name))
    (hp : ∀ name hook, op = .add name hook → Placeable (othersAt done name hook.id) hook) (name : Bytes) :
    StablySorts Hook.priority (orderAfter (done ++ [op]) name) (registered (done ++ [op]) name) := by
  rw [orderAfter_append]
  cases op with
  | add n hook =>
    rw [registered_add]
    by_cases hn : n = name
    · subst hn
      have hothers := (h n).filter (fun val => val.id ≠ hook.id)
      rw [orderStep, Function.update_self, if_pos rfl]
      refine placeIn_sorts hothers ?_
      rcases hp n hook rfl with hnil | ⟨other, hm, hlt⟩
      · exact .inl (List.perm_nil.mp (hnil ▸ hothers.perm))
      · exact .inr ⟨other, hothers.perm.mem_iff.mpr hm, hlt⟩
    · rw [orderStep, Function.update_of_ne (Ne.symm hn), if_neg hn]
      exact h name
  | remove n id =>
    rw [registered_remove]
    by_cases hn : n = name
    · subst hn
      rw [orderStep, Function.update_self, if_pos rfl]
      exact (h n).filter _
    · rw [orderStep, Function.update_of_ne (Ne.symm hn), if_neg hn]
      exact h name

theorem orderStep_loses {done : List (HookOp P F X)} {name : Bytes} {hook : Hook P F X}
    (h : StablySorts Hook.priority (orderAfter done name) (registered done name))
    (hp : ¬ Placeable (othersAt done name hook.id) hook) :
    (orderAfter (done ++ [.add name hook]) name).length <
      (registered (done ++ [.add name hook]) name).length := by
  have hothers : (removeFrom (orderAfter done name) hook.id).Perm (othersAt done name hook.id) :=
    (h.filter (fun val => val.id ≠ hook.id)).perm
  have hp' : ¬ Placeable (removeFrom (orderAfter done name) hook.id) hook := by
    rintro (hnil | ⟨other, hm, hlt⟩)
    · exact hp (.inl (List.nil_perm.mp (hnil ▸ hothers)))
    · exact hp (.inr ⟨other, hothers.mem_iff.mp hm, hlt⟩)
  rw [orderAfter_append, registered_add, if_pos rfl, orderStep, Function.update_self,
    List.length_append, ← hothers.length_eq]
  simpa using placeIn_loses hp'

/-- Along a run calls go right for every name exactly as long as each add finds its name with
no other hook, or with one of higher priority. -/
theorem hooks_called_in_order_iff (ops : List (HookOp P F X)) :
    (∀ done, done <+: ops → ∀ name, CalledInOrder done name) ↔
      ∀ done name hook, done ++ [.add name hook] <+: ops → Placeable (othersAt done name hook.id) hook := by
  have hsorts : (∀ done name hook, done ++ [.add name hook] <+: ops →
      (∀ n, StablySorts Hook.priority (orderAfter done n) (registered done n)) →
        Placeable (othersAt done name hook.id) hook) →
      ∀ done, done <+: ops → ∀ name,
        StablySorts Hook.priority (orderAfter done name) (registered done name) := by
    intro hp done
    induction done using List.reverseRecOn with
    | nil => exact fun _ _ => .nil
    | append_singleton done op ih =>
      intro hpre
      have hdone := ih ((List.prefix_append done [op]).trans hpre)
      refine orderStep_sorts hdone (fun name hook he => ?_)
      subst he
      exact hp done name hook hpre hdone
  constructor
  · intro h
    have hp : ∀ done name hook, done ++ [.add name hook] <+: ops →
        (∀ n, StablySorts Hook.priority (orderAfter done n) (registered done n)) →
          Placeable (othersAt done name hook.id) hook := by
      intro done name hook hpre hdone
      by_contra hnot
      exact (orderStep_loses (hdone name) hnot).ne (h _ hpre name).length_eq
    intro done name hook hpre
    exact hp done name hook hpre (hsorts hp done ((List.prefix_append done _).trans hpre))
  · intro hp done hpre name
    exact calledInOrder_of_sorts (hsorts (fun done name hook hpre _ => hp done name hook hpre) done hpre name)

/-- Two hooks added with rising priorities: a call meets the second one only. -/
theorem second_hook_replaces_first :
    ¬ CalledInOrder [.add [110] ⟨[97], (0 : Nat), (), (0 : Nat)⟩, .add [110] ⟨[98], 1, (), 1⟩] [110] := by
  intro h
  have hlen := h.length_eq
  revert hlen
  decide

end Runs

end CFlare.Hooks
