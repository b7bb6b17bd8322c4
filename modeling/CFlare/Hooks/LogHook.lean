import CFlare.Hooks.HookOrder
import CFlare.Hooks.HookStack

/-! Logging through the hooks of the name Log. A getter that warns logs again, so the nested
calls end when no callback that is called reads a string. -/
namespace CFlare.Hooks
open CFlare.Library CFlare.Storage

/-- A callback that only reads strings at the indices zero and one: what it does next may depend
on what it read, and in the end it returns. -/
inductive Reader where
  | returns (rets : Bool)
  | read (index : Fin 2) (next : Option Bytes → Reader)

inductive LogLevel where
  | debug
  | info
  | log
  | warn
  deriving DecidableEq, Repr

/-- The standard streams. -/
inductive Stream where
  | stdout
  | stderr
  deriving DecidableEq, Repr

abbrev Printed := List (Stream × Bytes)

section Log
variable {P F X : Type} (reader : F → X → Reader)

/-- Run a callback on its arguments. -/
def runReader {σ : Type} (warn : Bytes → σ → Except Fault σ) (args : HookStack) :
    Reader → σ → Except Fault (Bool × σ)
  | .returns rets, s => .ok (rets, s)
  | .read index next, s => do
    let (text, s) ← HookStack.getString warn args index.val s
    runReader warn args (next text) s

/-- What a hook does with the arguments of a log call. -/
def logCallback (warn : Bytes → Registry P F X × Printed → Except Fault (Registry P F X × Printed))
    (args : HookStack) : Callback P F X Printed :=
  fun func context s => runReader warn args (reader func context) s

/-- Both strings are pushed, then the hooks are called; `turns` bounds the loop over them. -/
def callLogHook (warn : Bytes → Registry P F X × Printed → Except Fault (Registry P F X × Printed))
    (turns : Nat) (level str : Bytes) (s : Registry P F X × Printed) :
    Except Fault (Registry P F X × Printed) := do
  let args ← HookStack.new.pushString str
  let args ← args.pushString level
  let (_, s) ← hookCall (logCallback reader warn args) turns (ascii "Log") s
  let _ ← args.delete
  .ok s

def print (stream : Stream) (line : Bytes) (s : Registry P F X × Printed) : Registry P F X × Printed :=
  (s.1, s.2 ++ [(stream, line)])

/-- A warning calls the Log hooks, whose getters may warn; the fuel bounds the nested calls. -/
def warnC : Nat → Bytes → Registry P F X × Printed → Except Fault (Registry P F X × Printed)
  | 0, _, _ => .error .diverged
  | fuel + 1, str, s => do
    let s ← callLogHook reader (warnC fuel) fuel (ascii "warn") str s
    .ok (print .stderr (ascii "warning: " ++ str ++ [10]) s)

def debugC (fuel : Nat) (str : Bytes) (s : Registry P F X × Printed) :
    Except Fault (Registry P F X × Printed) := do
  let s ← callLogHook reader (warnC reader fuel) fuel (ascii "debug") str s
  .ok (print .stderr (ascii "debug: " ++ str ++ [10]) s)

def infoC (fuel : Nat) (str : Bytes) (s : Registry P F X × Printed) :
    Except Fault (Registry P F X × Printed) := do
  let s ← callLogHook reader (warnC reader fuel) fuel (ascii "info") str s
  .ok (print .stdout (ascii "info: " ++ str ++ [10]) s)

def logC (fuel : Nat) (str : Bytes) (s : Registry P F X × Printed) :
    Except Fault (Registry P F X × Printed) := do
  let s ← callLogHook reader (warnC reader fuel) fuel (ascii "log") str s
  .ok (print .stdout (str ++ [10]) s)

def logCall (fuel : Nat) : LogLevel → Bytes → Registry P F X × Printed →
    Except Fault (Registry P F X × Printed)
  | .debug => debugC reader fuel
  | .info => infoC reader fuel
  | .log => logC reader fuel
  | .warn => warnC reader fuel

end Log

/-- Of the callbacks in their order, up to one that returns true, none reads a string. -/
def Silent : List Reader → Prop
  | [] => True
  | .returns true :: _ => True
  | .returns false :: readers => Silent readers
  | .read _ _ :: _ => False

section Arguments

/-- The two strings pushed for the hooks. -/
def logArgs (level str : Bytes) : List HookStackElm :=
  [⟨.string, .string str⟩, ⟨.string, .string level⟩]

theorem pushed_holds (level str : Bytes) : ∃ args₁ args, HookStack.new.pushString str = .ok args₁ ∧
    args₁.pushString level = .ok args ∧ args.Holds (logArgs level str) := by
  obtain ⟨args₁, h₁, hh₁⟩ := HookStack.push_holds HookStack.new_holds ⟨.string, .string str⟩
  obtain ⟨args, h, hh⟩ := HookStack.push_holds hh₁ ⟨.string, .string level⟩
  exact ⟨args₁, args, h₁, h, hh⟩

/-- A getter of strings asks for a number, so on either of them it warns. -/
theorem getString_warns {σ : Type} (warn : Bytes → σ → Except Fault σ) {args : HookStack}
    {level str : Bytes} (h : args.Holds (logArgs level str)) (index : Fin 2) (s : σ) :
    HookStack.getString warn args index.val s =
      (warn (HookStack.mismatch index.val .string .number) s).map fun s => (none, s) := by
  have hi : index.val < (logArgs level str).length := index.isLt
  have htype : (logArgs level str)[index.val].type = .string := by
    match index with
    | 0 => rfl
    | 1 => rfl
  rw [HookStack.getString, HookStack.getElm_holds warn h hi (by omega), htype, if_pos (by decide)]
  cases warn (HookStack.mismatch index.val .string .number) s <;> rfl

end Arguments

section Calls
variable {P F X : Type} {reader : F → X → Reader} {reg : Registry P F X} {es : List (Container HookTable)}
  {order : Bytes → List (Hook P F X)} {level str : Bytes}

/-- The callbacks of hooks, in their order. -/
def readers (reader : F → X → Reader) (hooks : List (Hook P F X)) : List Reader :=
  hooks.map (fun hook => reader hook.func hook.context)

variable {warn : Bytes → Registry P F X × Printed → Except Fault (Registry P F X × Printed)}
  {args : HookStack} {a : Nat} {list : LinkedList (Hook P F X)}

private theorem callHooks_silent {xs rest : Cells (Hook P F X)} {it : Iterator} {fuel : Nat}
    (hl : reg.list a = .ok list) (h : Represents list (xs ++ rest)) (ha : it.Ahead list rest)
    (hfuel : rest.length < fuel) (hs : Silent (readers reader rest.data)) (printed : Printed) :
    ∃ rets, callHooks (logCallback reader warn args) a fuel it (reg, printed) =
      .ok (rets, reg, printed) := by
  induction rest generalizing xs fuel it with
  | nil =>
    obtain ⟨fuel, rfl⟩ := Nat.exists_eq_succ_of_ne_zero (Nat.ne_of_gt hfuel)
    obtain ⟨it', he, -⟩ := iteratorNext_nil ha
    exact ⟨false, by simp only [callHooks, hl, fault_ok_bind, he]⟩
  | cons c rest ih =>
    obtain ⟨p, hook⟩ := c
    obtain ⟨fuel, rfl⟩ := Nat.exists_eq_succ_of_ne_zero (Nat.ne_zero_of_lt hfuel)
    obtain ⟨it', n, he, -, hnode, hdata, hahead⟩ := iteratorNext_cons h ha
    simp only [callHooks, hl, fault_ok_bind, he, hnode, hdata, logCallback]
    change Silent (reader hook.func hook.context :: readers reader (Cells.data rest)) at hs
    cases hr : reader hook.func hook.context with
    | read index next =>
      rw [hr] at hs
      exact hs.elim
    | returns rets =>
      rw [hr] at hs
      simp only [runReader, fault_ok_bind]
      cases rets with
      | true => exact ⟨true, rfl⟩
      | false =>
        have h' : Represents list ((xs ++ [(p, hook)]) ++ rest) := by simpa using h
        exact ih h' (hahead list) (Nat.lt_of_succ_lt_succ hfuel) hs

private theorem callHooks_diverges {xs rest : Cells (Hook P F X)} {it : Iterator} (fuel : Nat)
    (hargs : args.Holds (logArgs level str))
    (hwarn : ∀ text printed, warn text (reg, printed) = .error .diverged)
    (hl : reg.list a = .ok list) (h : Represents list (xs ++ rest)) (ha : it.Ahead list rest)
    (hs : ¬ Silent (readers reader rest.data)) (printed : Printed) :
    callHooks (logCallback reader warn args) a fuel it (reg, printed) = .error .diverged := by
  induction rest generalizing xs fuel it with
  | nil => exact absurd trivial hs
  | cons c rest ih =>
    obtain ⟨p, hook⟩ := c
    cases fuel with
    | zero => rfl
    | succ fuel =>
      obtain ⟨it', n, he, -, hnode, hdata, hahead⟩ := iteratorNext_cons h ha
      simp only [callHooks, hl, fault_ok_bind, he, hnode, hdata, logCallback]
      change ¬ Silent (reader hook.func hook.context :: readers reader (Cells.data rest)) at hs
      cases hr : reader hook.func hook.context with
      | read index next =>
        rw [runReader, getString_warns warn hargs, hwarn]
        rfl
      | returns rets =>
        rw [hr] at hs
        simp only [runReader, fault_ok_bind]
        cases rets with
        | true => exact absurd trivial hs
        | false =>
          have h' : Represents list ((xs ++ [(p, hook)]) ++ rest) := by simpa using h
          exact ih fuel h' (hahead list) hs

private theorem callLogHook_silent (h : Tracks reg es order) {turns : Nat}
    (hturns : (order (ascii "Log")).length < turns) (hs : Silent (readers reader (order (ascii "Log"))))
    (level str : Bytes) (printed : Printed) :
    callLogHook reader warn turns level str (reg, printed) = .ok (reg, printed) := by
  obtain ⟨args₁, args, h₁, h₂, hargs⟩ := pushed_holds level str
  have hcall : ∃ rets, hookCall (logCallback reader warn args) turns (ascii "Log") (reg, printed) =
      .ok (rets, reg, printed) := by
    rw [hookCall, if_neg (by simp [h.loaded]), get_spec h.tables]
    cases hat : entryAt Container.key es (ascii "Log") with
    | none => exact ⟨false, rfl⟩
    | some e =>
      obtain ⟨he, hk⟩ := (entryAt_eq_some h.tables.distinct).mp hat
      obtain ⟨list, cells, hl, hr, hd⟩ := h.lookup he
      have hr0 : Represents list ([] ++ cells) := hr
      rw [← hk, ← hd] at hs hturns
      exact callHooks_silent hl hr0 (ahead_getIterator hr) (by simpa using hturns) hs printed
  obtain ⟨rets, hcall⟩ := hcall
  simp only [callLogHook, h₁, h₂, fault_ok_bind, hcall, HookStack.delete_holds hargs]

private theorem callLogHook_diverges (h : Tracks reg es order) (turns : Nat)
    (hs : ¬ Silent (readers reader (order (ascii "Log"))))
    (hwarn : ∀ text printed, warn text (reg, printed) = .error .diverged)
    (level str : Bytes) (printed : Printed) :
    callLogHook reader warn turns level str (reg, printed) = .error .diverged := by
  obtain ⟨args₁, args, h₁, h₂, hargs⟩ := pushed_holds level str
  have hcall : hookCall (logCallback reader warn args) turns (ascii "Log") (reg, printed) =
      .error .diverged := by
    rw [hookCall, if_neg (by simp [h.loaded]), get_spec h.tables]
    cases hat : entryAt Container.key es (ascii "Log") with
    | none =>
      rw [h.absent _ hat] at hs
      exact absurd trivial hs
    | some e =>
      obtain ⟨he, hk⟩ := (entryAt_eq_some h.tables.distinct).mp hat
      obtain ⟨list, cells, hl, hr, hd⟩ := h.lookup he
      have hr0 : Represents list ([] ++ cells) := hr
      rw [← hk, ← hd] at hs
      exact callHooks_diverges turns hargs hwarn hl hr0 (ahead_getIterator hr) hs printed
  simp only [callLogHook, h₁, h₂, fault_ok_bind, hcall, fault_error_bind]

private theorem warnC_diverges (h : Tracks reg es order)
    (hs : ¬ Silent (readers reader (order (ascii "Log")))) (fuel : Nat) (str : Bytes) (printed : Printed) :
    warnC reader fuel str (reg, printed) = .error .diverged := by
  induction fuel generalizing str printed with
  | zero => rfl
  | succ fuel ih =>
    rw [warnC, callLogHook_diverges h fuel hs ih]
    rfl

theorem logCall_silent (h : Tracks reg es order) (hs : Silent (readers reader (order (ascii "Log"))))
    (level : LogLevel) (str : Bytes) (printed : Printed) :
    ∃ fuel s, logCall reader fuel level str (reg, printed) = .ok s := by
  refine ⟨(order (ascii "Log")).length + 2, ?_⟩
  cases level with
  | debug =>
    rw [logCall, debugC, callLogHook_silent h (Nat.lt_add_of_pos_right Nat.two_pos) hs]
    exact ⟨_, rfl⟩
  | info =>
    rw [logCall, infoC, callLogHook_silent h (Nat.lt_add_of_pos_right Nat.two_pos) hs]
    exact ⟨_, rfl⟩
  | log =>
    rw [logCall, logC, callLogHook_silent h (Nat.lt_add_of_pos_right Nat.two_pos) hs]
    exact ⟨_, rfl⟩
  | warn =>
    rw [logCall, warnC, callLogHook_silent h (Nat.lt_succ_self _) hs]
    exact ⟨_, rfl⟩

theorem logCall_diverges (h : Tracks reg es order) (hs : ¬ Silent (readers reader (order (ascii "Log"))))
    (level : LogLevel) (str : Bytes) (printed : Printed) (fuel : Nat) :
    logCall reader fuel level str (reg, printed) = .error .diverged := by
  have hwarn := warnC_diverges h hs fuel
  cases level with
  | debug =>
    rw [logCall, debugC, callLogHook_diverges h fuel hs hwarn]
    rfl
  | info =>
    rw [logCall, infoC, callLogHook_diverges h fuel hs hwarn]
    rfl
  | log =>
    rw [logCall, logC, callLogHook_diverges h fuel hs hwarn]
    rfl
  | warn => exact hwarn str printed

end Calls

/-- After any adds and removes of hooks, a log call returns exactly when the callbacks under the
name Log are silent: one that reads a string is called again by the warning of its getter. -/
theorem log_terminates_iff {P F X : Type} [LinearOrder P] (reader : F → X → Reader)
    (ops : List (HookOp P F X)) (level : LogLevel) (str : Bytes) (printed : Printed) :
    ∃ start replies reg, hookLoad Registry.unloaded = .ok start ∧
      runCalls hookOp start ops = .ok (replies, reg) ∧
      ((∃ fuel s, logCall reader fuel level str (reg, printed) = .ok s) ↔
        Silent (readers reader (orderAfter ops (ascii "Log")))) := by
  obtain ⟨start, replies, reg, es, hload, hrun, h⟩ := hookRun_spec ops
  refine ⟨start, replies, reg, hload, hrun, ?_, fun hs => logCall_silent h hs level str printed⟩
  rintro ⟨fuel, s, hok⟩
  by_contra hs
  rw [logCall_diverges h hs level str printed fuel] at hok
  cases hok

/-- A hook that reads the logged string, and a message for it. -/
theorem log_reader_loops : ∃ start replies reg,
    hookLoad (Registry.unloaded : Registry Nat Unit Unit) = .ok start ∧
      runCalls hookOp start [.add (ascii "Log") ⟨ascii "file", 0, (), ()⟩] = .ok (replies, reg) ∧
      ∀ fuel s, logCall (fun _ _ => .read 0 fun _ => .returns false) fuel .info (ascii "ready") (reg, []) ≠
        .ok s := by
  obtain ⟨start, replies, reg, es, hload, hrun, h⟩ :=
    hookRun_spec [HookOp.add (ascii "Log") (⟨ascii "file", 0, (), ()⟩ : Hook Nat Unit Unit)]
  refine ⟨start, replies, reg, hload, hrun, fun fuel s hok => ?_⟩
  have hs : ¬ Silent (readers (fun _ _ => .read 0 fun _ => .returns false)
      (orderAfter [HookOp.add (ascii "Log") (⟨ascii "file", 0, (), ()⟩ : Hook Nat Unit Unit)]
        (ascii "Log"))) := fun hs => hs
  rw [logCall_diverges h hs .info (ascii "ready") [] fuel] at hok
  cases hok

end CFlare.Hooks
