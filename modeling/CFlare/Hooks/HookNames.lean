import CFlare.Hooks.HookOrder

/-! Hooks under different names. All names share one hashtable, and each has a list of its own that
changes under the other names leave where it is. -/
namespace CFlare.Hooks
open CFlare.Library CFlare.Storage

variable {P F X : Type}

/-- The head of the calling loop: the hook the iterator moves on to, if there is one. -/
def nextHook (reg : Registry P F X) (a : Nat) (it : Iterator) :
    Except Fault (Option (Nat × Hook P F X) × Iterator) := do
  let list ← reg.list a
  let (position, it) ← list.iteratorNext it
  match position with
  | none => .ok (none, it)
  | some p =>
    let n ← list.node p
    .ok (some (p, n.data), it)

def meetHooks (reg : Registry P F X) (a : Nat) : Nat → Iterator → Except Fault (Cells (Hook P F X))
  | 0, _ => .error .diverged
  | fuel + 1, it => do
    let (met, it) ← nextHook reg a it
    match met with
    | none => .ok []
    | some cell =>
      let rest ← meetHooks reg a fuel it
      .ok (cell :: rest)

/-- The hooks of a name as a call iterates them, with their nodes. -/
def Registry.hooksMet (reg : Registry P F X) (name : Bytes) : Except Fault (Cells (Hook P F X)) := do
  match ← reg.hookTables.get (hashCompute name) with
  | none => .ok []
  | some tbl =>
    let list ← reg.list tbl.data.funcs
    meetHooks reg tbl.data.funcs (list.allocated + 1) LinkedList.getIterator

section Iterations
variable {reg : Registry P F X} {a : Nat} {list : LinkedList (Hook P F X)} {it : Iterator}

theorem nextHook_end (hl : reg.list a = .ok list) (ha : it.Ahead list []) :
    ∃ it', nextHook reg a it = .ok (none, it') := by
  obtain ⟨it', he, -⟩ := iteratorNext_nil ha
  exact ⟨it', by simp only [nextHook, hl, he, fault_ok_bind]⟩

theorem nextHook_met {xs rest : Cells (Hook P F X)} {p : Nat} {hook : Hook P F X} (hl : reg.list a = .ok list)
    (h : Represents list (xs ++ (p, hook) :: rest)) (ha : it.Ahead list ((p, hook) :: rest)) :
    ∃ it', nextHook reg a it = .ok (some (p, hook), it') ∧ ∀ l' : LinkedList (Hook P F X), it'.Ahead l' rest := by
  obtain ⟨it', n, he, -, hnode, rfl, hahead⟩ := iteratorNext_cons h ha
  exact ⟨it', by simp only [nextHook, hl, he, hnode, fault_ok_bind], hahead⟩

theorem meetHooks_spec {xs rest : Cells (Hook P F X)} {fuel : Nat} (hl : reg.list a = .ok list)
    (h : Represents list (xs ++ rest)) (ha : it.Ahead list rest) (hfuel : rest.length < fuel) :
    meetHooks reg a fuel it = .ok rest := by
  induction rest generalizing xs fuel it with
  | nil =>
    obtain ⟨fuel, rfl⟩ := Nat.exists_eq_succ_of_ne_zero (Nat.ne_of_gt hfuel)
    obtain ⟨it', he⟩ := nextHook_end hl ha
    simp only [meetHooks, he, fault_ok_bind]
  | cons c rest ih =>
    obtain ⟨p, hook⟩ := c
    obtain ⟨fuel, rfl⟩ := Nat.exists_eq_succ_of_ne_zero (Nat.ne_zero_of_lt hfuel)
    obtain ⟨it', he, hahead⟩ := nextHook_met hl h ha
    have hr : Represents list ((xs ++ [(p, hook)]) ++ rest) := by simpa using h
    simp only [meetHooks, he, fault_ok_bind, ih hr (hahead list) (Nat.lt_of_succ_lt_succ hfuel)]

theorem meetHooks_congr {reg' : Registry P F X} (h : reg'.lists a = reg.lists a) (fuel : Nat) (it : Iterator) :
    meetHooks reg' a fuel it = meetHooks reg a fuel it := by
  have hnext : nextHook reg' a = nextHook reg a := by
    funext it
    simp only [nextHook, Tables.list, h]
  induction fuel generalizing it with
  | zero => rfl
  | succ fuel ih => simp only [meetHooks, hnext, ih]

end Iterations

section Names
variable {reg reg' : Registry P F X} {es es' : List (Container HookTable)} {order order' : Bytes → List (Hook P F X)}

theorem hooksMet_listed (h : Tracks reg es order) {e : Container HookTable} (he : e ∈ es)
    {list : LinkedList (Hook P F X)} {cells : Cells (Hook P F X)} (hl : reg.list e.block.data.funcs = .ok list)
    (hr : Represents list cells) : reg.hooksMet e.key = .ok cells := by
  have hr0 : Represents list ([] ++ cells) := hr
  have hmet := meetHooks_spec hl hr0 (ahead_getIterator hr) (Nat.lt_succ_of_le hr.length_le)
  rw [Registry.hooksMet, get_spec h.tables e.key, (entryAt_eq_some h.tables.distinct).mpr ⟨he, rfl⟩]
  simp only [Option.map_some, fault_ok_bind, hl]
  exact hmet

theorem hooksMet_spec (h : Tracks reg es order) (name : Bytes) :
    ∃ cells, reg.hooksMet name = .ok cells ∧ cells.data = order name := by
  cases hat : entryAt Container.key es name with
  | none =>
    refine ⟨[], ?_, (h.absent name hat).symm⟩
    rw [Registry.hooksMet, get_spec h.tables name, hat]
    rfl
  | some e =>
    obtain ⟨he, rfl⟩ := (entryAt_eq_some h.tables.distinct).mp hat
    obtain ⟨list, cells, hl, hr, hd⟩ := h.lookup he
    exact ⟨cells, hooksMet_listed h he hl hr, hd⟩

/-- A change under one name keeps the entries of all names, the lists of the others and which names there
are among the others. -/
structure Leaves (reg reg' : Registry P F X) (es es' : List (Container HookTable)) (name : Bytes) : Prop where
  stays : ∀ e ∈ es, e ∈ es'
  entries : ∀ n, n ≠ name → entryAt Container.key es' n = entryAt Container.key es n
  lists : ∀ e ∈ es, e.key ≠ name → reg'.lists e.block.data.funcs = reg.lists e.block.data.funcs

theorem Leaves.refl (reg : Registry P F X) (es : List (Container HookTable)) (name : Bytes) :
    Leaves reg reg es es name :=
  ⟨fun _ he => he, fun _ _ => rfl, fun _ _ _ => rfl⟩

theorem leaves_setList (h : Tracks reg es order) {e : Container HookTable} (he : e ∈ es)
    (list : LinkedList (Hook P F X)) : Leaves reg (reg.setList e.block.data.funcs list) es es e.key := by
  refine ⟨fun _ he => he, fun _ _ => rfl, fun e' he' hne => ?_⟩
  refine Function.update_of_ne (fun hf => hne ?_) _ _
  exact congrArg Container.key (List.inj_on_of_nodup_map h.apart he' he hf)

theorem leaves_append (h : Tracks reg es order) {e : Container HookTable}
    (hlists : ∀ a < reg.listsCount, reg'.lists a = reg.lists a) : Leaves reg reg' es (es ++ [e]) e.key := by
  refine ⟨fun _ he => List.mem_append_left _ he, fun n hne => ?_, fun e' he' _ => hlists _ (h.handed e' he')⟩
  have hnew : List.find? (fun e => decide (Container.key e = n)) [e] = none := by
    simp [Ne.symm hne]
  rw [entryAt, List.find?_append, hnew, Option.or_none]
  rfl

/-- A call of another name meets the same hooks at the same nodes. -/
theorem Leaves.hooksMet (h : Tracks reg es order) (h' : Tracks reg' es' order') {name n : Bytes}
    (hl : Leaves reg reg' es es' name) (hn : n ≠ name) : reg'.hooksMet n = reg.hooksMet n := by
  rw [Registry.hooksMet, Registry.hooksMet, get_spec h'.tables n, get_spec h.tables n, hl.entries n hn]
  cases hat : entryAt Container.key es n with
  | none => rfl
  | some e =>
    obtain ⟨he, rfl⟩ := (entryAt_eq_some h.tables.distinct).mp hat
    have hsame := hl.lists e he hn
    simp only [Option.map_some, fault_ok_bind, Tables.list, hsame, meetHooks_congr hsame]

end Names

def HookOp.name : HookOp P F X → Bytes
  | .add name _ => name
  | .remove name _ => name

section Changes
variable [LT P] [DecidableLT P]

theorem hookOp_leaves {reg : Registry P F X} {es : List (Container HookTable)}
    {order : Bytes → List (Hook P F X)} (h : Tracks reg es order) (op : HookOp P F X) :
    ∃ reg' es' order', hookOp reg op = .ok ((), reg') ∧ Tracks reg' es' order' ∧
      Leaves reg reg' es es' op.name := by
  cases op with
  | add name hook =>
    cases hat : entryAt Container.key es name with
    | none =>
      obtain ⟨reg', e, hrun, h', rfl, hlists⟩ := hookAdd_unlisted h hat hook
      exact ⟨reg', _, _, by rw [hookOp, hrun]; rfl, h', leaves_append h hlists⟩
    | some e =>
      obtain ⟨he, rfl⟩ := (entryAt_eq_some h.tables.distinct).mp hat
      obtain ⟨list, cells, hl, hr, -⟩ := h.lookup he
      obtain ⟨list', cells', hrun, hr', -⟩ := hookAdd_listed h he hl hr hook
      exact ⟨_, es, _, by rw [hookOp, hrun]; rfl, h.setList he hr', leaves_setList h he list'⟩
  | remove name id =>
    cases hat : entryAt Container.key es name with
    | none => exact ⟨reg, es, order, by rw [hookOp, hookRemove_unlisted h hat id]; rfl, h, .refl reg es name⟩
    | some e =>
      obtain ⟨he, rfl⟩ := (entryAt_eq_some h.tables.distinct).mp hat
      obtain ⟨list, cells, hl, hr, -⟩ := h.lookup he
      obtain ⟨list', hrun, hr', -⟩ := hookRemove_listed h he hl hr id
      exact ⟨_, es, _, by rw [hookOp, hrun]; rfl, h.setList he hr', leaves_setList h he list'⟩

/-- Changes under other names, from any registry. -/
theorem hookOps_leave {reg : Registry P F X} {es : List (Container HookTable)}
    {order : Bytes → List (Hook P F X)} (h : Tracks reg es order) (ops : List (HookOp P F X)) {m : Bytes}
    (hops : ∀ op ∈ ops, op.name ≠ m) :
    ∃ replies reg' es' order', runCalls hookOp reg ops = .ok (replies, reg') ∧ Tracks reg' es' order' ∧
      reg'.hooksMet m = reg.hooksMet m := by
  let inv : Registry P F X → List (HookOp P F X) → Prop := fun reg' rest =>
    ∃ es' order', Tracks reg' es' order' ∧ reg'.hooksMet m = reg.hooksMet m ∧ ∀ op ∈ rest, op.name ≠ m
  have hstep : ∀ reg op rest, inv reg (op :: rest) →
      ∃ reply reg', hookOp reg op = .ok (reply, reg') ∧ inv reg' rest := by
    rintro reg1 op rest ⟨es1, order1, h1, hmet, hrest⟩
    obtain ⟨reg2, es2, order2, hrun, h2, hleaves⟩ := hookOp_leaves h1 op
    refine ⟨(), reg2, hrun, es2, order2, h2, ?_, fun o ho => hrest o (List.mem_cons_of_mem _ ho)⟩
    rw [hleaves.hooksMet h1 h2 (Ne.symm (hrest op List.mem_cons_self)), hmet]
  obtain ⟨replies, reg', hrun, es', order', h', hmet, -⟩ := runCalls_keeps inv hstep ops
    (show inv reg ops from ⟨es, order, h, rfl, hops⟩)
  exact ⟨replies, reg', es', order', hrun, h', hmet⟩

/-- Every run of changes returns. -/
theorem hookOps_spec (ops : List (HookOp P F X)) :
    ∃ start replies reg es order, hookLoad Registry.unloaded = .ok start ∧
      runCalls hookOp start ops = .ok (replies, reg) ∧ Tracks reg es order := by
  obtain ⟨start, hload, hstart⟩ := tracks_loaded (P := P) (F := F) (X := X)
  let inv : Registry P F X → List (HookOp P F X) → Prop := fun reg _ => ∃ es order, Tracks reg es order
  have hstep : ∀ reg op rest, inv reg (op :: rest) →
      ∃ reply reg', hookOp reg op = .ok (reply, reg') ∧ inv reg' rest := by
    rintro reg op rest ⟨es, order, h⟩
    obtain ⟨reg', es', order', hrun, h', -⟩ := hookOp_leaves h op
    exact ⟨(), reg', hrun, es', order', h'⟩
  obtain ⟨replies, reg, hrun, es, order, h⟩ := runCalls_keeps inv hstep ops
    (show inv start ops from ⟨[], fun _ => [], hstart⟩)
  exact ⟨start, replies, reg, es, order, hload, hrun, h⟩

/-- In every registry that changes lead to, further changes under other names leave the hooks that a call of a
name iterates, each with its id, priority, function and context, in the same order and at the same nodes. -/
theorem hooks_of_other_names (before ops : List (HookOp P F X)) (m : Bytes) (h : ∀ op ∈ ops, op.name ≠ m) :
    ∃ start replies reg replies' reg' cells, hookLoad Registry.unloaded = .ok start ∧
      runCalls hookOp start before = .ok (replies, reg) ∧
      runCalls hookOp reg ops = .ok (replies', reg') ∧
      reg.hooksMet m = .ok cells ∧ reg'.hooksMet m = .ok cells ∧
      ∀ (W : Type) (act : F → X → W → W) (world : W), ∀ fuel > cells.length,
        hookCall (quiet act) fuel m (reg, world) = .ok (false, reg, actAll act cells.data world) ∧
        hookCall (quiet act) fuel m (reg', world) = .ok (false, reg', actAll act cells.data world) := by
  obtain ⟨start, replies, reg, es, order, hload, hrun, ht⟩ := hookOps_spec before
  obtain ⟨replies', reg', es', order', hrun', ht', hsame⟩ := hookOps_leave ht ops h
  obtain ⟨cells, hmet, hd⟩ := hooksMet_spec ht m
  obtain ⟨cells', hmet', hd'⟩ := hooksMet_spec ht' m
  obtain rfl : cells = cells' := Except.ok.inj (hmet.symm.trans (hsame.symm.trans hmet'))
  have hlength : cells.data.length = cells.length := List.length_map _
  refine ⟨start, replies, reg, replies', reg', cells, hload, hrun, hrun', hmet, hmet', ?_⟩
  intro W act world fuel hfuel
  constructor
  · rw [hd]
    exact hookCall_spec ht m act (by rwa [← hd, hlength]) world
  · rw [hd']
    exact hookCall_spec ht' m act (by rwa [← hd', hlength]) world

end Changes

/-- One name's hook stays while another name gets two and loses one. -/
theorem hooks_of_other_names_two :
    ∃ start replies reg replies' reg' cells, hookLoad Registry.unloaded = .ok start ∧
      runCalls hookOp start [.add [109] ⟨[97], (1 : Nat), (), (7 : Nat)⟩] = .ok (replies, reg) ∧
      runCalls hookOp reg [.add [110] ⟨[97], 1, (), 8⟩, .add [110] ⟨[98], 0, (), 9⟩, .remove [110] [97]] =
        .ok (replies', reg') ∧
      reg.hooksMet [109] = .ok cells ∧ reg'.hooksMet [109] = .ok cells := by
  obtain ⟨start, replies, reg, replies', reg', cells, hload, hrun, hrun', hmet, hmet', -⟩ :=
    hooks_of_other_names [.add [109] ⟨[97], (1 : Nat), (), (7 : Nat)⟩]
      [.add [110] ⟨[97], 1, (), 8⟩, .add [110] ⟨[98], 0, (), 9⟩, .remove [110] [97]] [109] (by decide)
  exact ⟨start, replies, reg, replies', reg', cells, hload, hrun, hrun', hmet, hmet'⟩

end CFlare.Hooks
