import CFlare.Hooks.HookNames

/-! Callbacks that change the hooks while they are called. The calling loop keeps the address of the node
it moves to next, so that this node has to stay in the list. -/
namespace CFlare.Hooks
open CFlare.Library CFlare.Storage

variable {P F X W : Type}

/-- What a callback does: the changes it makes, in order, what it returns and what else there is afterwards. -/
structure Choice (P F X W : Type) where
  ops : List (HookOp P F X)
  ends : Bool
  world : W

section Calls
variable {invoke : Callback P F X W} {a : Nat} {it it' : Iterator} {state : Registry P F X × W}

theorem callHooks_end (h : nextHook state.1 a it = .ok (none, it')) (fuel : Nat) :
    callHooks invoke a (fuel + 1) it state = .ok (false, state) := by
  obtain ⟨list, hl, h⟩ := bind_eq_ok.mp h
  obtain ⟨⟨position, it1⟩, hmove, h⟩ := bind_eq_ok.mp h
  cases position with
  | none => simp only [callHooks, hl, hmove, fault_ok_bind]
  | some p =>
    obtain ⟨n, -, h⟩ := bind_eq_ok.mp h
    cases h

theorem callHooks_met {cell : Nat × Hook P F X} (h : nextHook state.1 a it = .ok (some cell, it')) {ends : Bool}
    {state' : Registry P F X × W} (hi : invoke cell.2.func cell.2.context state = .ok (ends, state')) (fuel : Nat) :
    callHooks invoke a (fuel + 1) it state =
      if ends then .ok (true, state') else callHooks invoke a fuel it' state' := by
  obtain ⟨list, hl, h⟩ := bind_eq_ok.mp h
  obtain ⟨⟨position, it1⟩, hmove, h⟩ := bind_eq_ok.mp h
  cases position with
  | none => cases h
  | some p =>
    obtain ⟨n, hn, h⟩ := bind_eq_ok.mp h
    obtain ⟨hcell, rfl⟩ := Prod.mk.inj (Except.ok.inj h)
    obtain rfl := Option.some.inj hcell
    simp only [callHooks, hl, hmove, hn, fault_ok_bind, hi]

end Calls

/-- The heads of the loop that a call comes to. -/
inductive Turns (invoke : Callback P F X W) (name : Bytes) (start : Registry P F X × W) :
    Nat → Iterator → Registry P F X × W → Prop where
  | first {tbl : Block HookTable} (found : start.1.hookTables.get (hashCompute name) = .ok (some tbl)) :
      Turns invoke name start tbl.data.funcs LinkedList.getIterator start
  | next {a : Nat} {it it' : Iterator} {state state' : Registry P F X × W} {cell : Nat × Hook P F X}
      (turn : Turns invoke name start a it state) (met : nextHook state.1 a it = .ok (some cell, it'))
      (invoked : invoke cell.2.func cell.2.context state = .ok (false, state')) :
      Turns invoke name start a it' state'

/-- The loop can move on, to a hook that is registered under the name. -/
def MovesOn (name : Bytes) (reg : Registry P F X) (a : Nat) (it : Iterator) : Prop :=
  ∃ met it', nextHook reg a it = .ok (met, it') ∧
    ∀ cell, met = some cell → ∃ cells, reg.hooksMet name = .ok cells ∧ cell ∈ cells

/-- Every callback that the call invokes is registered at that moment, and no node is read that has been freed. -/
structure Tolerates (invoke : Callback P F X W) (name : Bytes) (start : Registry P F X × W) : Prop where
  moves : ∀ a it state, Turns invoke name start a it state → MovesOn name state.1 a it
  returns : ∀ fuel, hookCall invoke fuel name start ≠ .error .undefined

def ListedAt (reg : Registry P F X) (name : Bytes) (a : Nat) (list : LinkedList (Hook P F X))
    (cells : Cells (Hook P F X)) : Prop :=
  ∃ es order e, Tracks reg es order ∧ e ∈ es ∧ e.key = name ∧ e.block.data.funcs = a ∧ reg.list a = .ok list ∧
    Represents list cells

def OnWay (list : LinkedList (Hook P F X)) (cells : Cells (Hook P F X)) (it : Iterator) : Prop :=
  ∃ xs rest, cells = xs ++ rest ∧ it.Ahead list rest

section Lists
variable {reg : Registry P F X} {name : Bytes} {a : Nat} {list : LinkedList (Hook P F X)}
  {cells : Cells (Hook P F X)} {it it' : Iterator}

theorem ListedAt.met (h : ListedAt reg name a list cells) : reg.hooksMet name = .ok cells := by
  obtain ⟨es, order, e, ht, he, rfl, rfl, hl, hr⟩ := h
  exact hooksMet_listed ht he hl hr

theorem OnWay.turn (hw : OnWay list cells it) (h : ListedAt reg name a list cells) :
    (∃ it', nextHook reg a it = .ok (none, it')) ∨
      ∃ xs cell rest it', cells = xs ++ cell :: rest ∧ nextHook reg a it = .ok (some cell, it') ∧
        ∀ l' : LinkedList (Hook P F X), it'.Ahead l' rest := by
  obtain ⟨es, order, e, ht, he, rfl, rfl, hl, hr⟩ := h
  obtain ⟨xs, rest, rfl, hahead⟩ := hw
  cases rest with
  | nil => exact .inl (nextHook_end hl hahead)
  | cons cell rest =>
    obtain ⟨it', hnext, hrest⟩ := nextHook_met hl hr hahead
    exact .inr ⟨xs, cell, rest, it', rfl, hnext, hrest⟩

theorem OnWay.movesOn (hw : OnWay list cells it) (h : ListedAt reg name a list cells) : MovesOn name reg a it := by
  rcases hw.turn h with ⟨it', hnext⟩ | ⟨xs, cell, rest, it', hc, hnext, -⟩
  · exact ⟨none, it', hnext, fun cell hcell => absurd hcell (Option.some_ne_none cell).symm⟩
  · refine ⟨some cell, it', hnext, fun c hcell => ⟨cells, h.met, ?_⟩⟩
    obtain rfl := Option.some.inj hcell
    rw [hc]
    exact List.mem_append_right _ List.mem_cons_self

/-- A loop that goes on with these cells and can move on is on its way in the list that there is now. -/
theorem MovesOn.onWay {next : Nat × Hook P F X} {rest : Cells (Hook P F X)} (hm : MovesOn name reg a it)
    (h : ListedAt reg name a list cells) (hahead : ∀ l' : LinkedList (Hook P F X), it.Ahead l' (next :: rest)) :
    ∃ hook, (next.1, hook) ∈ cells := by
  have hmet := h.met
  obtain ⟨es, order, e, ht, he, rfl, rfl, hl, hr⟩ := h
  obtain ⟨met, it', hnext, hreg⟩ := hm
  obtain ⟨list1, hl1, hnext⟩ := bind_eq_ok.mp hnext
  obtain rfl := Except.ok.inj (hl.symm.trans hl1)
  have hstep : (if it.started then it else ⟨true, none, none, list.first⟩ : Iterator).next = some next.1 := by
    have := hahead list
    rw [Iterator.Ahead] at this
    rw [← show Cells.headOr (next :: rest) none = some next.1 from rfl, ← this]
    split <;> rfl
  rw [LinkedList.iteratorNext, hstep] at hnext
  obtain ⟨⟨position, it1⟩, hmove, hnext⟩ := bind_eq_ok.mp hnext
  obtain ⟨n, hn, hmove⟩ := bind_eq_ok.mp hmove
  obtain ⟨rfl, rfl⟩ := Prod.mk.inj (Except.ok.inj hmove)
  obtain ⟨n', -, hnext⟩ := bind_eq_ok.mp hnext
  obtain ⟨rfl, -⟩ := Prod.mk.inj (Except.ok.inj hnext)
  obtain ⟨cells', hmet', hin⟩ := hreg _ rfl
  obtain rfl := Except.ok.inj (hmet.symm.trans hmet')
  exact ⟨_, hin⟩

end Lists

/-- What an insertion keeps: the other cells, if one of them has a higher priority. -/
theorem Placed.mem_iff [LT P] {new : Nat} {hook : Hook P F X} {kept cells' : Cells (Hook P F X)}
    (h : Placed new hook kept cells') {c : Nat × Hook P F X} (hc : c.1 ≠ new) :
    c ∈ cells' ↔ c ∈ kept ∧ ∃ d ∈ kept, hook.priority < d.2.priority := by
  have hne : c ≠ (new, hook) := fun he => hc (congrArg Prod.fst he)
  cases h with
  | alone highest =>
    constructor
    · intro hm
      exact absurd (List.mem_singleton.mp hm) hne
    · rintro ⟨-, d, hd, hlt⟩
      exact absurd hlt (highest d hd)
  | @before us vs d split higher others =>
    subst split
    constructor
    · intro hm
      refine ⟨?_, d, List.mem_append_right _ List.mem_cons_self, higher⟩
      rcases List.mem_append.mp hm with hm | hm
      · exact List.mem_append_left _ hm
      · exact List.mem_append_right _ ((List.mem_cons.mp hm).resolve_left hne)
    · rintro ⟨hm, -⟩
      rcases List.mem_append.mp hm with hm | hm
      · exact List.mem_append_left _ hm
      · exact List.mem_append_right _ (List.mem_cons_of_mem _ hm)

section Changes
variable [LT P] [DecidableLT P] {reg : Registry P F X} {name : Bytes} {a : Nat}
  {list : LinkedList (Hook P F X)} {cells : Cells (Hook P F X)} {it : Iterator}

def changing (choose : F → X → Registry P F X × W → Choice P F X W) : Callback P F X W := fun func context state =>
  (runCalls hookOp state.1 (choose func context state).ops).map fun r =>
    ((choose func context state).ends, r.2, (choose func context state).world)

/-- A change that leaves this hook in the name's list: it is not made with the hook's id, and an add finds
another hook of the name with a higher priority. -/
def Spares (reg : Registry P F X) (name : Bytes) (next : Hook P F X) : HookOp P F X → Prop
  | .add n hook => n = name → hook.id ≠ next.id ∧ ∃ cells, reg.hooksMet name = .ok cells ∧
      ∃ c ∈ cells, c.2.id ≠ hook.id ∧ hook.priority < c.2.priority
  | .remove n id => n = name → id ≠ next.id

/-- Changes all of which leave it there, each in the registry it is made in. -/
def SparesAll (name : Bytes) (next : Hook P F X) : Registry P F X → List (HookOp P F X) → Prop
  | _, [] => True
  | reg, op :: ops => Spares reg name next op ∧
      ∀ reg', hookOp reg op = .ok ((), reg') → SparesAll name next reg' ops

/-- Whatever a callback changes before it lets the call go on, it leaves the hook behind its own in the list. -/
def Considerate (choose : F → X → Registry P F X × W → Choice P F X W) (name : Bytes)
    (start : Registry P F X × W) : Prop :=
  ∀ a it state cell it' us next vs, Turns (changing choose) name start a it state →
    nextHook state.1 a it = .ok (some cell, it') → state.1.hooksMet name = .ok (us ++ cell :: next :: vs) →
    (choose cell.2.func cell.2.context state).ends = false →
      SparesAll name next.2 state.1 (choose cell.2.func cell.2.context state).ops

/-- What there is of a list after changes: the cells kept are old ones, and a cell that has left stays away. -/
structure Remains (list list' : LinkedList (Hook P F X)) (cells cells' : Cells (Hook P F X)) : Prop where
  allocated : list.allocated ≤ list'.allocated
  gone : ∀ c : Nat × Hook P F X, c.1 < list.allocated → c ∉ cells → c ∉ cells'

private theorem ListedAt.add (h : ListedAt reg name a list cells) (hook : Hook P F X) :
    ∃ reg' list' cells', hookOp reg (.add name hook) = .ok ((), reg') ∧ ListedAt reg' name a list' cells' ∧
      Remains list list' cells cells' ∧ ∀ c ∈ cells, (c ∈ cells' ↔ Spares reg name c.2 (.add name hook)) := by
  have hmet := h.met
  obtain ⟨es, order, e, ht, he, rfl, rfl, hl, hr⟩ := h
  obtain ⟨list', cells', hrun, hr', hplaced⟩ := hookAdd_listed ht he hl hr hook
  have hnew : ∀ c : Nat × Hook P F X, c.1 < list.allocated →
      (c ∈ cells' ↔ c ∈ cells.filter (fun c => c.2.id ≠ hook.id) ∧
        ∃ d ∈ cells.filter (fun c => c.2.id ≠ hook.id), hook.priority < d.2.priority) :=
    fun c hc => hplaced.mem_iff hc.ne
  refine ⟨_, list', cells', by rw [hookOp, hrun]; rfl, ⟨es, _, e, ht.setList he hr', he, rfl, rfl,
    list_setList reg _ list', hr'⟩, ⟨?_, fun c hc hnot hin => ?_⟩, fun c hc => ?_⟩
  · refine Nat.le_of_lt (hr'.allocated _ (List.mem_map_of_mem (?_ : (list.allocated, hook) ∈ cells')))
    cases hplaced with
    | alone highest => exact List.mem_cons_self
    | before split higher others => exact List.mem_append_right _ List.mem_cons_self
  · exact hnot (List.mem_filter.mp ((hnew c hc).mp hin).1).1
  · rw [hnew c (hr.allocated _ (List.mem_map_of_mem hc))]
    constructor
    · rintro ⟨hkept, d, hd, hlt⟩ -
      have hid := of_decide_eq_true (List.mem_filter.mp hkept).2
      exact ⟨Ne.symm hid, cells, hmet, d, (List.mem_filter.mp hd).1, of_decide_eq_true (List.mem_filter.mp hd).2, hlt⟩
    · intro hspares
      obtain ⟨hid, cells1, hmet1, d, hd, hne, hlt⟩ := hspares rfl
      obtain rfl := Except.ok.inj (hmet.symm.trans hmet1)
      exact ⟨List.mem_filter.mpr ⟨hc, decide_eq_true (Ne.symm hid)⟩, d,
        List.mem_filter.mpr ⟨hd, decide_eq_true hne⟩, hlt⟩

private theorem ListedAt.remove (h : ListedAt reg name a list cells) (id : Bytes) :
    ∃ reg' list' cells', hookOp reg (.remove name id) = .ok ((), reg') ∧ ListedAt reg' name a list' cells' ∧
      Remains list list' cells cells' ∧ ∀ c ∈ cells, (c ∈ cells' ↔ Spares reg name c.2 (.remove name id)) := by
  obtain ⟨es, order, e, ht, he, rfl, rfl, hl, hr⟩ := h
  obtain ⟨list', hrun, hr', halloc, -⟩ := hookRemove_listed ht he hl hr id
  refine ⟨_, list', _, by rw [hookOp, hrun]; rfl, ⟨es, _, e, ht.setList he hr', he, rfl, rfl,
    list_setList reg _ list', hr'⟩, ⟨halloc.ge, fun c _ hnot hin => hnot (List.mem_filter.mp hin).1⟩, fun c hc => ?_⟩
  rw [List.mem_filter, decide_eq_true_iff]
  constructor
  · rintro ⟨-, hid⟩ -
    exact Ne.symm hid
  · intro hspares
    exact ⟨hc, Ne.symm (hspares rfl)⟩

private theorem ListedAt.other (h : ListedAt reg name a list cells) {op : HookOp P F X} (hop : op.name ≠ name) :
    ∃ reg' list' cells', hookOp reg op = .ok ((), reg') ∧ ListedAt reg' name a list' cells' ∧
      Remains list list' cells cells' ∧ ∀ c ∈ cells, (c ∈ cells' ↔ Spares reg name c.2 op) := by
  obtain ⟨es, order, e, ht, he, rfl, rfl, hl, hr⟩ := h
  obtain ⟨reg', es', order', hrun, ht', hleaves⟩ := hookOp_leaves ht op
  have hl' : reg'.list e.block.data.funcs = .ok list := by
    rw [← hl, Tables.list, Tables.list, hleaves.lists e he (Ne.symm hop)]
  refine ⟨reg', list, cells, hrun, ⟨es', order', e, ht', hleaves.stays e he, rfl, rfl, hl', hr⟩,
    ⟨Nat.le_refl _, fun _ _ hnot => hnot⟩, fun c hc => ⟨fun _ => ?_, fun _ => hc⟩⟩
  cases op with
  | add n hook => exact fun hn => absurd hn hop
  | remove n id => exact fun hn => absurd hn hop

/-- A change to the hooks: which cells of the name are left, and that none comes back. -/
theorem ListedAt.change (h : ListedAt reg name a list cells) (op : HookOp P F X) :
    ∃ reg' list' cells', hookOp reg op = .ok ((), reg') ∧ ListedAt reg' name a list' cells' ∧
      Remains list list' cells cells' ∧ ∀ c ∈ cells, (c ∈ cells' ↔ Spares reg name c.2 op) := by
  by_cases hop : op.name = name
  · cases op with
    | add n hook =>
      obtain rfl : n = name := hop
      exact h.add hook
    | remove n id =>
      obtain rfl : n = name := hop
      exact h.remove id
  · exact h.other hop

theorem ListedAt.changes (h : ListedAt reg name a list cells) (ops : List (HookOp P F X)) :
    ∃ replies reg' list' cells', runCalls hookOp reg ops = .ok (replies, reg') ∧
      ListedAt reg' name a list' cells' ∧ Remains list list' cells cells' ∧
      ∀ c ∈ cells, (c ∈ cells' ↔ SparesAll name c.2 reg ops) := by
  induction ops generalizing reg list cells with
  | nil =>
    exact ⟨[], reg, list, cells, rfl, h, ⟨Nat.le_refl _, fun _ _ hnot => hnot⟩,
      fun c hc => ⟨fun _ => trivial, fun _ => hc⟩⟩
  | cons op ops ih =>
    obtain ⟨reg1, list1, cells1, hrun1, h1, hr1, hiff1⟩ := h.change op
    obtain ⟨replies, reg', list', cells', hrun, h', hr', hiff⟩ := ih h1
    have hlt : ∀ c ∈ cells, c.1 < list.allocated := by
      obtain ⟨es, order, e, -, -, -, -, -, hr⟩ := h
      exact fun c hc => hr.allocated _ (List.mem_map_of_mem hc)
    refine ⟨() :: replies, reg', list', cells', by simp only [runCalls, hrun1, hrun], h',
      ⟨hr1.allocated.trans hr'.allocated, fun c hc hnot => ?_⟩, fun c hc => ?_⟩
    · exact hr'.gone c (Nat.lt_of_lt_of_le hc hr1.allocated) (hr1.gone c hc hnot)
    · by_cases hc1 : c ∈ cells1
      · rw [hiff c hc1]
        constructor
        · intro hspares
          refine ⟨(hiff1 c hc).mp hc1, fun reg2 hrun2 => ?_⟩
          obtain ⟨-, rfl⟩ := Prod.mk.inj (Except.ok.inj (hrun1.symm.trans hrun2))
          exact hspares
        · exact fun hspares => hspares.2 reg1 hrun1
      · constructor
        · intro hin
          exact absurd hin (hr'.gone c (Nat.lt_of_lt_of_le (hlt c hc) hr1.allocated) hc1)
        · exact fun hspares => absurd ((hiff1 c hc).mpr hspares.1) hc1

/-- After the changes of a callback the loop is on its way if they leave the next hook, and can move on only then. -/
theorem ListedAt.afterwards (h : ListedAt reg name a list cells) {us rest : Cells (Hook P F X)}
    {cell : Nat × Hook P F X} (hc : cells = us ++ cell :: rest)
    (hahead : ∀ l' : LinkedList (Hook P F X), it.Ahead l' rest) (ops : List (HookOp P F X)) :
    ∃ replies reg', runCalls hookOp reg ops = .ok (replies, reg') ∧
      ((∀ next vs, rest = next :: vs → SparesAll name next.2 reg ops) →
        ∃ list' cells', ListedAt reg' name a list' cells' ∧ OnWay list' cells' it) ∧
      (MovesOn name reg' a it → ∀ next vs, rest = next :: vs → SparesAll name next.2 reg ops) := by
  obtain ⟨replies, reg', list', cells', hrun, h', hremains, hiff⟩ := h.changes ops
  have hin : ∀ next vs, rest = next :: vs → next ∈ cells := by
    rintro next vs rfl
    rw [hc]
    exact List.mem_append_right _ (List.mem_cons_of_mem _ List.mem_cons_self)
  refine ⟨replies, reg', hrun, fun hspares => ⟨list', cells', h', ?_⟩, fun hm next vs hrest => ?_⟩
  · cases rest with
    | nil => exact ⟨cells', [], (List.append_nil _).symm, hahead list'⟩
    | cons next vs =>
      have hkept := (hiff next (hin next vs rfl)).mpr (hspares next vs rfl)
      obtain ⟨xs, ys, hsplit⟩ := List.append_of_mem hkept
      exact ⟨xs, next :: ys, hsplit, hahead list'⟩
  · subst hrest
    obtain ⟨hook, hkept⟩ := hm.onWay h' hahead
    have hmem := hin next vs rfl
    obtain ⟨es, order, e, -, -, -, -, -, hr⟩ := h
    have hold : (next.1, hook) ∈ cells := by
      by_contra hnot
      have hlt : next.1 < list.allocated := hr.allocated next.1 (List.mem_map_of_mem hmem)
      exact hremains.gone (next.1, hook) hlt hnot hkept
    have hsame : (next.1, hook) = next := List.inj_on_of_nodup_map hr.distinct hold hmem rfl
    rw [hsame] at hkept
    exact (hiff next hmem).mp hkept

end Changes

section Runs
variable [LT P] [DecidableLT P] {choose : F → X → Registry P F X × W → Choice P F X W} {name : Bytes}
  {start : Registry P F X × W} {es : List (Container HookTable)} {order : Bytes → List (Hook P F X)}

/-- At each head of the loop it is on its way, if every callback before has left the next hook. -/
theorem turns_onWay (ht : Tracks start.1 es order)
    (hspares : ∀ a it state cell it' us next vs, Turns (changing choose) name start a it state →
      (∃ list cells, ListedAt state.1 name a list cells ∧ OnWay list cells it) →
      nextHook state.1 a it = .ok (some cell, it') → state.1.hooksMet name = .ok (us ++ cell :: next :: vs) →
      (choose cell.2.func cell.2.context state).ends = false →
        SparesAll name next.2 state.1 (choose cell.2.func cell.2.context state).ops)
    {a : Nat} {it : Iterator} {state : Registry P F X × W} (h : Turns (changing choose) name start a it state) :
    ∃ list cells, ListedAt state.1 name a list cells ∧ OnWay list cells it := by
  induction h with
  | first found =>
    rw [get_spec ht.tables name] at found
    obtain ⟨e, hat, rfl⟩ := Option.map_eq_some_iff.mp (Except.ok.inj found)
    obtain ⟨he, hk⟩ := (entryAt_eq_some ht.tables.distinct).mp hat
    obtain ⟨list, cells, hl, hr, -⟩ := ht.lookup he
    exact ⟨list, cells, ⟨es, order, e, ht, he, hk, rfl, hl, hr⟩, [], cells, rfl, ahead_getIterator hr⟩
  | @next a it it' state state' cell turn met invoked ih =>
    obtain ⟨list, cells, hlisted, hway⟩ := ih
    obtain ⟨r, hrun, hstate⟩ := map_eq_ok.mp invoked
    obtain ⟨hends, rfl⟩ := Prod.mk.inj hstate
    rcases hway.turn hlisted with ⟨it1, hnone⟩ | ⟨us, cell1, rest, it1, hc, hnext, hahead⟩
    · cases met.symm.trans hnone
    · obtain ⟨hcell, rfl⟩ := Prod.mk.inj (Except.ok.inj (met.symm.trans hnext))
      obtain rfl := Option.some.inj hcell
      obtain ⟨replies, reg', hrun', hgood, -⟩ :=
        hlisted.afterwards hc hahead (choose cell.2.func cell.2.context state).ops
      obtain rfl := Except.ok.inj (hrun.symm.trans hrun')
      refine hgood (fun next vs hrest => ?_)
      subst hrest
      exact hspares a it state cell it' us next vs turn ⟨list, cells, hlisted, hway⟩ met (hc ▸ hlisted.met) hends

theorem callHooks_returns
    (hway : ∀ a it state, Turns (changing choose) name start a it state →
      ∃ list cells, ListedAt state.1 name a list cells ∧ OnWay list cells it) (fuel : Nat) {a : Nat}
    {it : Iterator} {state : Registry P F X × W} (h : Turns (changing choose) name start a it state) :
    callHooks (changing choose) a fuel it state ≠ .error .undefined := by
  induction fuel generalizing it state with
  | zero =>
    intro hf
    cases hf
  | succ fuel ih =>
    obtain ⟨list, cells, hlisted, hw⟩ := hway a it state h
    rcases hw.turn hlisted with ⟨it1, hnone⟩ | ⟨us, cell, rest, it1, hc, hnext, hahead⟩
    · rw [callHooks_end hnone]
      intro hf
      cases hf
    · obtain ⟨replies, reg', list', cells', hrun, -⟩ := hlisted.changes (choose cell.2.func cell.2.context state).ops
      have hinvoke : changing choose cell.2.func cell.2.context state =
          .ok ((choose cell.2.func cell.2.context state).ends, reg',
            (choose cell.2.func cell.2.context state).world) := by
        rw [changing, hrun]
        rfl
      rw [callHooks_met hnext hinvoke]
      cases hends : (choose cell.2.func cell.2.context state).ends with
      | true =>
        intro hf
        cases hf
      | false =>
        rw [hends] at hinvoke
        exact ih (h.next hnext hinvoke)

theorem Tolerates.spares (h : Tolerates (changing choose) name start) {a : Nat} {it it' : Iterator}
    {state : Registry P F X × W} {cell next : Nat × Hook P F X} {us vs : Cells (Hook P F X)}
    (hturn : Turns (changing choose) name start a it state) {list : LinkedList (Hook P F X)}
    {cells : Cells (Hook P F X)} (hlisted : ListedAt state.1 name a list cells) (hway : OnWay list cells it)
    (hmet : nextHook state.1 a it = .ok (some cell, it'))
    (hcells : state.1.hooksMet name = .ok (us ++ cell :: next :: vs))
    (hends : (choose cell.2.func cell.2.context state).ends = false) :
    SparesAll name next.2 state.1 (choose cell.2.func cell.2.context state).ops := by
  rcases hway.turn hlisted with ⟨it1, hnone⟩ | ⟨us1, cell1, rest, it1, hc, hnext, hahead⟩
  · cases hmet.symm.trans hnone
  · obtain ⟨hcell, rfl⟩ := Prod.mk.inj (Except.ok.inj (hmet.symm.trans hnext))
    obtain rfl := Option.some.inj hcell
    have hsplit : us1 ++ cell :: rest = us ++ cell :: next :: vs :=
      hc.symm.trans (Except.ok.inj (hlisted.met.symm.trans hcells))
    have hrest : rest = next :: vs := by
      have hdistinct : (us1 ++ cell :: rest).Nodup := by
        obtain ⟨es, order, e, -, -, -, -, -, hr⟩ := hlisted
        rw [← hc]
        exact .of_map _ hr.distinct
      have hnot := (List.nodup_cons.mp (List.nodup_middle.mp hdistinct)).1
      exact ((List.append_cons_inj_of_notMem (fun hm => hnot (List.mem_append_left _ hm))
        (fun hm => hnot (List.mem_append_right _ hm))).mp hsplit).2.2
    obtain ⟨replies, reg', hrun, -, hgood⟩ :=
      hlisted.afterwards hc hahead (choose cell.2.func cell.2.context state).ops
    have hinvoke : changing choose cell.2.func cell.2.context state =
        .ok (false, reg', (choose cell.2.func cell.2.context state).world) := by
      rw [changing, hrun, hends]
      rfl
    exact hgood (h.moves a it' _ (hturn.next hmet hinvoke)) next vs hrest

theorem tolerates_iff (ht : Tracks start.1 es order) :
    Tolerates (changing choose) name start ↔ Considerate choose name start := by
  constructor
  · intro h
    have hway : ∀ a it state, Turns (changing choose) name start a it state →
        ∃ list cells, ListedAt state.1 name a list cells ∧ OnWay list cells it := by
      intro a it state hturn
      refine turns_onWay ht ?_ hturn
      rintro a it state cell it' us next vs hturn ⟨list, cells, hlisted, hway⟩ hmet hcells hends
      exact h.spares hturn hlisted hway hmet hcells hends
    intro a it state cell it' us next vs hturn hmet hcells hends
    obtain ⟨list, cells, hlisted, hw⟩ := hway a it state hturn
    exact h.spares hturn hlisted hw hmet hcells hends
  · intro h
    have hway : ∀ a it state, Turns (changing choose) name start a it state →
        ∃ list cells, ListedAt state.1 name a list cells ∧ OnWay list cells it := by
      intro a it state hturn
      refine turns_onWay ht ?_ hturn
      intro a it state cell it' us next vs hturn _
      exact h a it state cell it' us next vs hturn
    refine ⟨fun a it state hturn => ?_, fun fuel => ?_⟩
    · obtain ⟨list, cells, hlisted, hw⟩ := hway a it state hturn
      exact hw.movesOn hlisted
    · have hget := get_spec ht.tables name
      rw [hookCall, ht.loaded, if_neg (by decide), hget]
      cases hat : entryAt Container.key es name with
      | none =>
        intro hf
        cases hf
      | some e =>
        rw [hat] at hget
        exact callHooks_returns hway fuel (.first hget)

/-- In every registry that changes lead to, and however callbacks choose their changes: a call invokes
registered hooks only and reads no freed node exactly if each of its callbacks, before it lets the call go on,
leaves the hook behind its own in the list. -/
theorem hook_call_tolerates_iff (ops : List (HookOp P F X)) (name : Bytes)
    (choose : F → X → Registry P F X × W → Choice P F X W) (world : W) :
    ∃ start replies reg, hookLoad Registry.unloaded = .ok start ∧
      runCalls hookOp start ops = .ok (replies, reg) ∧
      (Tolerates (changing choose) name (reg, world) ↔ Considerate choose name (reg, world)) := by
  obtain ⟨start, replies, reg, es, order, hload, hrun, ht⟩ := hookOps_spec ops
  exact ⟨start, replies, reg, hload, hrun, tolerates_iff ht⟩

end Runs

/-- Of two hooks the first removes the second and lets the call go on: the call reads the freed node. -/
theorem hook_call_tolerates_fails :
    ¬ ∀ (ops : List (HookOp Nat Nat Unit)) (name : Bytes)
      (choose : Nat → Unit → Registry Nat Nat Unit × Unit → Choice Nat Nat Unit Unit),
      ∃ start replies reg, hookLoad Registry.unloaded = .ok start ∧
        runCalls hookOp start ops = .ok (replies, reg) ∧ Tolerates (changing choose) name (reg, ()) := by
  intro hall
  obtain ⟨start, replies, reg, hload, hrun, htolerates⟩ := hall
    [.add [110] ⟨[98], 1, (), 1⟩, .add [110] ⟨[97], 0, (), 0⟩] [110] (fun _ _ _ => ⟨[.remove [110] [98]], false, ()⟩)
  obtain rfl := Except.ok.inj hload
  obtain ⟨-, rfl⟩ := Prod.mk.inj (Except.ok.inj hrun)
  exact htolerates.returns 2 rfl

end CFlare.Hooks
