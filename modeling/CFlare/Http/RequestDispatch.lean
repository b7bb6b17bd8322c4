import CFlare.Hooks.HookOrder
import CFlare.Hooks.HookStackReads
import CFlare.Http.Connection
import CFlare.Library.Simulation

/-! The dispatch of a request to the hooks of the name Request: they get it on one stack and leave what they
return on another. The script that stands for a handler elsewhere is what the hooks that are called come to. -/
namespace CFlare.Http
open CFlare.Hooks CFlare.Library CFlare.Network

/-- What a hook does with what it is called with. What it does next may depend on what it got. -/
inductive RequestHook where
  | returns (rets : Bool)
  | pointer (index : Int) (type : Bytes) (next : Option Nat → RequestHook)
  | act (ptr : Nat) (action : HandlerAction) (next : Option Bool × Bytes → RequestHook)
  | push (value : HookStack.Push) (next : RequestHook)

/-- Where the request is, and in it the response. -/
structure Pointers where
  request : Nat
  response : Nat

/-- The pointer that an action has to be done with. -/
def Pointers.of (p : Pointers) : HandlerAction → Nat
  | .chunk _ => p.request
  | _ => p.response

/-- What the hooks work on; `log` is what a warning changes. -/
structure HookWorld (σ : Type) where
  req : Request
  sock : Socket
  rets : HookStack
  log : σ

section Dispatch
variable {P F X σ : Type} (env : Environment) (p : Pointers)

def actOn (ptr : Nat) (action : HandlerAction) (s : Request × Socket) :
    Except Fault ((Option Bool × Bytes) × Request × Socket) :=
  if ptr = p.of action then handlerAction env s action else .error .undefined

variable (warn : Bytes → σ → Except Fault σ)

def runRequestHook (args : HookStack) : RequestHook → HookWorld σ → Except Fault (Bool × HookWorld σ)
  | .returns rets, w => .ok (rets, w)
  | .pointer index type next, w => do
    let (ptr, log) ← HookStack.getPointer warn args index type w.log
    runRequestHook args (next ptr) { w with log := log }
  | .act ptr action next, w => do
    let (reply, req, sock) ← actOn env p ptr action (w.req, w.sock)
    runRequestHook args (next reply) { w with req := req, sock := sock }
  | .push value next, w => do
    let rets ← HookStack.pushCall w.rets value
    runRequestHook args next { w with rets := rets }

variable (hooks : F → X → RequestHook)

def requestCallback (args : HookStack) : Callback P F X (HookWorld σ) := fun func context state => do
  let (rets, w) ← runRequestHook env p warn args (hooks func context) state.2
  .ok (rets, state.1, w)

/-- The hooks are called, and the integer is taken off the returns. `turns` bounds the loop over the hooks. -/
def callRequestHooks (turns : Nat) (reg : Registry P F X) (req : Request) (sock : Socket) (log : σ) :
    Except Fault (Option Int × Request × Socket × σ) := do
  let args ← HookStack.new.pushPointer (ascii "cflare_request") p.request
  let args ← args.pushPointer (ascii "cflare_response") p.response
  let (_, _, w) ← hookCall (requestCallback env p warn hooks args) turns (ascii "Request")
    (reg, ⟨req, sock, HookStack.new, log⟩)
  let (result, log) ← HookStack.getInteger warn w.rets 0 w.log
  let _ ← w.rets.delete
  let _ ← args.delete
  .ok (result, w.req, w.sock, log)

/-- One call of `cflare_request_process_socket` with the hooks of a registry. -/
def requestDispatch (turns : Nat) (reg : Registry P F X) (date : CString) (req : Request) (sock : Socket) (log : σ) :
    Except Fault (Bool × Request × Socket × σ) := do
  match ← requestArrive env req sock with
  | .rejected _ req sock => .ok (false, req, sock, log)
  | .ready req sock =>
    let (result, req, sock, log) ← callRequestHooks env p warn hooks turns reg req sock log
    let (ret, req, sock) ← requestFinish env result date req sock
    .ok (ret, req, sock, log)

/-- The inner loop of a worker; the dates of the calls are a script. -/
def serveHooked (turns : Nat) (reg : Registry P F X) : List CString → Request → Socket → σ →
    Except Fault (List CString × Request × Socket × σ)
  | [], _, _, _ => .error .diverged
  | date :: dates, req, sock, log => do
    let (ret, req, sock, log) ← requestDispatch env p warn hooks turns reg date req sock log
    if ret then serveHooked turns reg dates req sock log else .ok (dates, req, sock, log)

/-- The socket is closed behind the loop. -/
def serveHookedSocket (turns : Nat) (reg : Registry P F X) (dates : List CString) (req : Request) (sock : Socket)
    (log : σ) : Except Fault (List CString × Request × Socket × σ) := do
  let (rest, req, sock, log) ← serveHooked env p warn hooks turns reg dates req sock log
  .ok (rest, req, socketClose sock, log)

end Dispatch

/-- What hooks come to: what was done with the request and the response, and what was left on the returns. -/
structure Performed where
  actions : List HandlerAction
  returns : List HookStack.Push

def Performed.nothing : Performed := ⟨[], []⟩
def Performed.append (first later : Performed) : Performed :=
  ⟨first.actions ++ later.actions, first.returns ++ later.returns⟩

/-- The integer at the bottom of the returns. -/
def Performed.result (served : Performed) : Option Int :=
  match served.returns with
  | .integer value :: _ => some value
  | _ => none

/-- The pointer that a hook gets off its arguments. -/
def Pointers.handed (p : Pointers) (index : Int) (type : Bytes) : Option Nat :=
  if index = 0 ∨ index = -1 then if type = ascii "cflare_request" then some p.request else none
  else if index = 1 then if type = ascii "cflare_response" then some p.response else none
  else none

section Meaning
variable (env : Environment) (p : Pointers)

def performHook : RequestHook → Request × Socket → Except Fault (Bool × Performed × Request × Socket)
  | .returns rets, s => .ok (rets, .nothing, s)
  | .pointer index type next, s =>
    if index ≤ -2^31 ∨ 2^31 - 1 ≤ index then .error .undefined else performHook (next (p.handed index type)) s
  | .act ptr action next, s => do
    let (reply, s) ← actOn env p ptr action s
    let (rets, served, s) ← performHook (next reply) s
    .ok (rets, Performed.append ⟨[action], []⟩ served, s)
  | .push value next, s => do
    let (rets, served, s) ← performHook next s
    .ok (rets, Performed.append ⟨[], [value]⟩ served, s)

def performHooks : List RequestHook → Request × Socket → Except Fault (Performed × Request × Socket)
  | [], s => .ok (.nothing, s)
  | hook :: hooks, s => do
    let (rets, served, s) ← performHook env p hook s
    if rets then .ok (served, s)
    else do
      let (later, s) ← performHooks hooks s
      .ok (served.append later, s)

end Meaning

section Stacks
variable {σ : Type} {p : Pointers} {args rets : HookStack}

def Pointers.pushes (p : Pointers) : List HookStack.Push :=
  [.pointer (ascii "cflare_request") p.request, .pointer (ascii "cflare_response") p.response]

private theorem locate_outside (elements : Storage.LinkedList HookStackElm) {index : Int}
    (h : index ≤ -2^31 ∨ 2^31 - 1 ≤ index) : HookStack.locate elements index = .error .undefined := by
  unfold HookStack.locate
  by_cases hneg : 0 ≤ index
  · rw [if_pos hneg, int32Sum, if_neg (by omega)]
    rfl
  · rw [if_neg hneg, int32Sum, if_neg (by omega)]
    rfl

private theorem getPointer_at {elements : Storage.LinkedList HookStackElm} {cells : Storage.Cells HookStackElm}
    (hr : Storage.Represents elements cells) {c : Nat × HookStackElm} (hc : c ∈ cells) {type' : Bytes} {ptr : Nat}
    (helm : c.2 = ⟨.pointer, .pointer ptr type'⟩) (warn : Bytes → σ → Except Fault σ) {index : Int}
    (hat : HookStack.locate elements index = .ok (some c.1)) (type : Bytes) (s : σ) :
    HookStack.getPointer warn (some elements) index type s = .ok (if type = type' then some ptr else none, s) := by
  obtain ⟨n, hn, hdata⟩ := hr.linked.lookup hc
  have hread : HookStack.getElm warn (some elements) index .pointer s = .ok (some ⟨.pointer, .pointer ptr type'⟩, s) := by
    rw [HookStack.getElm, hat, fault_ok_bind, HookStack.readElm, Storage.LinkedList.node, hn]
    simp only [fault_ok_bind, hdata, helm, ne_eq, not_true_eq_false, if_false]
  rw [HookStack.getPointer, hread, fault_ok_bind]
  by_cases htype : type = type'
  · simp only [htype, ne_eq, not_true_eq_false, if_false, if_true]
  · simp only [htype, ne_eq, not_false_eq_true, if_true, if_false]

private theorem getPointer_none {elements : Storage.LinkedList HookStackElm} (warn : Bytes → σ → Except Fault σ)
    {index : Int} (hat : HookStack.locate elements index = .ok none) (type : Bytes) (s : σ) :
    HookStack.getPointer warn (some elements) index type s = .ok (none, s) := by
  rw [HookStack.getPointer, HookStack.getElm, hat]
  rfl

/-- What hooks get off their arguments, at any index; nothing is warned of. -/
theorem getPointer_handed (h : args.Holds (p.pushes.map HookStack.Push.elm)) (warn : Bytes → σ → Except Fault σ)
    (index : Int) (type : Bytes) (s : σ) :
    HookStack.getPointer warn args index type s =
      if index ≤ -2^31 ∨ 2^31 - 1 ≤ index then .error .undefined else .ok (p.handed index type, s) := by
  obtain ⟨elements, cells, rfl, hr, -, hd⟩ := h
  split
  · next hout =>
    rw [HookStack.getPointer, HookStack.getElm, locate_outside elements hout]
    rfl
  next hin =>
  obtain ⟨a, b, rfl⟩ : ∃ a b, cells = [a, b] :=
    List.length_eq_two.mp (by rw [← List.length_map (f := Prod.snd)]; exact congrArg List.length hd)
  obtain ⟨ha, hb⟩ : a.2 = _ ∧ b.2 = _ := by
    obtain ⟨ha, hd⟩ := List.cons.inj hd
    exact ⟨ha, (List.cons.inj hd).1⟩
  have hfirst : ∀ index : Int, index = 0 ∨ index = -1 →
      p.handed index type = if type = ascii "cflare_request" then some p.request else none := fun _ h => if_pos h
  have hsecond : p.handed (1 : Nat) type = if type = ascii "cflare_response" then some p.response else none :=
    (if_neg (by decide)).trans (if_pos rfl)
  by_cases hneg : 0 ≤ index
  · obtain ⟨i, rfl⟩ := Int.eq_ofNat_of_zero_le hneg
    have hat := HookStack.locate_nonneg hr (i := i) (by omega)
    obtain rfl | rfl | hpast : i = 0 ∨ i = 1 ∨ 2 ≤ i := by omega
    · rw [getPointer_at hr List.mem_cons_self ha warn hat type s, hfirst (0 : Nat) (.inl rfl)]
    · rw [getPointer_at hr (List.mem_cons_of_mem a List.mem_cons_self) hb warn hat type s, hsecond]
    · rw [List.getElem?_eq_none hpast] at hat
      rw [getPointer_none warn hat, Pointers.handed, if_neg (by omega), if_neg (by omega)]
  · obtain ⟨k, hk⟩ := Int.eq_ofNat_of_zero_le (show 0 ≤ -index by omega)
    obtain rfl : index = -k := by omega
    have hat := HookStack.locate_neg hr (k := k) (by omega) (by omega)
    obtain rfl | hpast : k = 1 ∨ 2 ≤ k := by omega
    · rw [getPointer_at hr List.mem_cons_self ha warn hat type s, hfirst (-(1 : Nat)) (.inr rfl)]
    · rw [List.getElem?_eq_none (by simpa using hpast)] at hat
      rw [getPointer_none warn hat, Pointers.handed, if_neg (by omega), if_neg (by omega)]

theorem pushCall_holds {values : List HookStack.Push} (h : rets.Holds (values.map HookStack.Push.elm))
    (value : HookStack.Push) : ∃ rets', HookStack.pushCall rets value = .ok rets' ∧
      rets'.Holds ((values ++ [value]).map HookStack.Push.elm) := by
  obtain ⟨rets', he, hh⟩ := HookStack.push_holds h value.elm
  refine ⟨rets', by rw [HookStack.pushCall_elm, he], ?_⟩
  rw [List.map_append]
  exact hh

/-- The integer that is taken off the returns, and what there is to warn of: a value of another type. -/
def leftInteger (warn : Bytes → σ → Except Fault σ) (values : List HookStack.Push) (log : σ) :
    Except Fault (Option Int × σ) :=
  match values with
  | [] => .ok (none, log)
  | .integer value :: _ => .ok (some value, log)
  | value :: _ => (warn (HookStack.mismatch 0 value.elm.type .integer) log).map fun log => (none, log)

private theorem getInteger_none {warn : Bytes → σ → Except Fault σ} {index : Int} {log : σ} {warned : Except Fault σ}
    (h : HookStack.getElm warn rets index .integer log = warned.map fun log => (none, log)) :
    HookStack.getInteger warn rets index log = warned.map fun log => (none, log) := by
  rw [HookStack.getInteger, h]
  cases warned <;> rfl

theorem getInteger_left {values : List HookStack.Push} (h : rets.Holds (values.map HookStack.Push.elm))
    (warn : Bytes → σ → Except Fault σ) (log : σ) :
    HookStack.getInteger warn rets 0 log = leftInteger warn values log := by
  cases values with
  | nil =>
    obtain ⟨elements, cells, rfl, hr, -, hd⟩ := h
    obtain rfl : cells = [] := List.map_eq_nil_iff.mp hd
    have hat := HookStack.locate_nonneg hr (i := 0) (by decide)
    rw [Nat.cast_zero] at hat
    rw [HookStack.getInteger, HookStack.getElm, hat]
    rfl
  | cons value values =>
    have hget := HookStack.getElm_holds warn h (i := 0) (Nat.succ_pos _) (by decide) .integer log
    rw [Nat.cast_zero] at hget
    cases value with
    | integer value =>
      rw [HookStack.getInteger, hget]
      rfl
    | number | string | pointer => exact getInteger_none (hget.trans (if_pos (by simp [HookStack.Push.elm])))

end Stacks

section Calls
variable {P F X σ : Type} {env : Environment} {p : Pointers} {warn : Bytes → σ → Except Fault σ} {args : HookStack}

/-- The world after hooks that came to this. -/
structure Came (values : List HookStack.Push) (log : σ) (w : HookWorld σ) (r : Performed × Request × Socket) : Prop where
  req : w.req = r.2.1
  sock : w.sock = r.2.2
  log : w.log = log
  rets : w.rets.Holds ((values ++ r.1.returns).map HookStack.Push.elm)

theorem runRequestHook_performs (ha : args.Holds (p.pushes.map HookStack.Push.elm)) (hook : RequestHook)
    (w : HookWorld σ) {values : List HookStack.Push} (hr : w.rets.Holds (values.map HookStack.Push.elm)) :
    Agrees (fun _ => False) Eq (fun a b => a.1 = b.1 ∧ Came values w.log a.2 b.2) (runRequestHook env p warn args hook w)
      (performHook env p hook (w.req, w.sock)) := by
  induction hook generalizing w values with
  | returns rets => exact .ok ⟨rfl, rfl, rfl, rfl, by rwa [Performed.nothing, List.append_nil]⟩
  | pointer index type next ih =>
    rw [runRequestHook, getPointer_handed ha, performHook]
    split
    · exact .error rfl
    · exact ih _ w hr
  | act ptr action next ih =>
    rw [runRequestHook, performHook]
    cases actOn env p ptr action (w.req, w.sock) with
    | error fault => exact .error rfl
    | ok r =>
      obtain ⟨reply, req, sock⟩ := r
      refine (ih reply { w with req := req, sock := sock } hr).onward ?_
      rintro a ⟨rets, served, s⟩ ⟨hrets, hcame⟩
      exact ⟨_, rfl, hrets, hcame.req, hcame.sock, hcame.log, hcame.rets⟩
  | push value next ih =>
    obtain ⟨rets, he, hh⟩ := pushCall_holds hr value
    rw [runRequestHook, performHook, he, fault_ok_bind]
    refine (ih { w with rets := rets } hh).onward ?_
    rintro a ⟨rets, served, s⟩ ⟨hrets, hcame⟩
    refine ⟨_, rfl, hrets, hcame.req, hcame.sock, hcame.log, ?_⟩
    rw [Performed.append, ← List.append_assoc]
    exact hcame.rets

variable {hooks : F → X → RequestHook} {reg : Registry P F X}

def programs (hooks : F → X → RequestHook) (order : List (Hook P F X)) : List RequestHook :=
  order.map (fun hook => hooks hook.func hook.context)

private theorem callHooks_performs (ha : args.Holds (p.pushes.map HookStack.Push.elm)) {a : Nat}
    {list : Storage.LinkedList (Hook P F X)} (hl : reg.list a = .ok list) {xs rest : Storage.Cells (Hook P F X)}
    {it : Storage.Iterator} {fuel : Nat} (h : Storage.Represents list (xs ++ rest)) (hi : it.Ahead list rest)
    (hfuel : rest.length < fuel) (w : HookWorld σ) {values : List HookStack.Push}
    (hr : w.rets.Holds (values.map HookStack.Push.elm)) :
    Agrees (fun _ => False) Eq (fun a b => Came values w.log a.2.2 b)
      (callHooks (requestCallback env p warn hooks args) a fuel it (reg, w))
      (performHooks env p (programs hooks rest.data) (w.req, w.sock)) := by
  induction rest generalizing xs fuel it w values with
  | nil =>
    obtain ⟨fuel, rfl⟩ := Nat.exists_eq_succ_of_ne_zero (Nat.ne_of_gt hfuel)
    obtain ⟨it', he, -⟩ := Storage.iteratorNext_nil hi
    simp only [callHooks, hl, fault_ok_bind, he]
    exact .ok ⟨rfl, rfl, rfl, by rwa [Performed.nothing, List.append_nil]⟩
  | cons c rest ih =>
    obtain ⟨q, hook⟩ := c
    obtain ⟨fuel, rfl⟩ := Nat.exists_eq_succ_of_ne_zero (Nat.ne_zero_of_lt hfuel)
    obtain ⟨it', n, he, -, hnode, hdata, hahead⟩ := Storage.iteratorNext_cons h hi
    have h' : Storage.Represents list ((xs ++ [(q, hook)]) ++ rest) := by simpa using h
    change Agrees _ _ _ _ (performHooks env p (hooks hook.func hook.context :: programs hooks (Storage.Cells.data rest)) _)
    rw [performHooks]
    simp only [callHooks, hl, fault_ok_bind, he, hnode, hdata, requestCallback]
    rcases (runRequestHook_performs ha (hooks hook.func hook.context) w hr).outcomes with
      ⟨⟨ends, w'⟩, ⟨_, served, req, sock⟩, hrun, hperform, rfl, hcame⟩ | ⟨fault, hrun, hperform⟩
    · rw [hrun, hperform]
      cases ends with
      | true => exact .ok hcame
      | false =>
        obtain ⟨rfl, rfl, hlog, hrets⟩ := hcame
        refine (ih h' (hahead list) (Nat.lt_of_succ_lt_succ hfuel) w' hrets).onward ?_
        rintro r ⟨later, s⟩ hlater
        refine ⟨_, rfl, hlater.req, hlater.sock, hlater.log.trans hlog, ?_⟩
        rw [Performed.append, ← List.append_assoc]
        exact hlater.rets
    · rw [hrun, hperform]
      exact .error rfl

variable {es : List (Storage.Container HookTable)} {order : Bytes → List (Hook P F X)}

/-- A call of the hook: the hooks registered under the name, in the order of the registry. -/
theorem hookCall_performs (h : Tracks reg es order) (ha : args.Holds (p.pushes.map HookStack.Push.elm)) {turns : Nat}
    (hturns : (order (ascii "Request")).length < turns) (w : HookWorld σ) (hr : w.rets.Holds []) :
    Agrees (fun _ => False) Eq (fun a b => Came [] w.log a.2.2 b)
      (hookCall (requestCallback env p warn hooks args) turns (ascii "Request") (reg, w))
      (performHooks env p (programs hooks (order (ascii "Request"))) (w.req, w.sock)) := by
  unfold hookCall
  rw [if_neg (by simp [h.loaded])]
  dsimp only
  rw [Storage.get_spec h.tables]
  cases hat : entryAt Storage.Container.key es (ascii "Request") with
  | none =>
    rw [h.absent _ hat]
    exact .ok ⟨rfl, rfl, rfl, hr⟩
  | some e =>
    obtain ⟨he, hk⟩ := (entryAt_eq_some h.tables.distinct).mp hat
    obtain ⟨list, cells, hl, hrep, hd⟩ := h.lookup he
    have hrep0 : Storage.Represents list ([] ++ cells) := hrep
    rw [← hk, ← hd, List.length_map] at hturns
    rw [← hk, ← hd]
    exact callHooks_performs ha hl hrep0 (Storage.ahead_getIterator hrep) hturns w hr

theorem callRequestHooks_eq (h : Tracks reg es order) {turns : Nat} (hturns : (order (ascii "Request")).length < turns)
    (req : Request) (sock : Socket) (log : σ) :
    callRequestHooks env p warn hooks turns reg req sock log = (do
      let (served, req, sock) ← performHooks env p (programs hooks (order (ascii "Request"))) (req, sock)
      let (result, log) ← leftInteger warn served.returns log
      .ok (result, req, sock, log)) := by
  obtain ⟨args₁, h₁, hargs₁⟩ :=
    HookStack.push_holds HookStack.new_holds ⟨.pointer, .pointer p.request (ascii "cflare_request")⟩
  obtain ⟨args, h₂, hargs⟩ := HookStack.push_holds hargs₁ ⟨.pointer, .pointer p.response (ascii "cflare_response")⟩
  unfold callRequestHooks
  rw [HookStack.pushPointer, h₁, fault_ok_bind, HookStack.pushPointer, h₂, fault_ok_bind]
  have hperforms : Agrees (fun _ => False) Eq (fun a b => Came [] log a.2.2 b)
      (hookCall (requestCallback env p warn hooks args) turns (ascii "Request")
        (reg, ⟨req, sock, HookStack.new, log⟩))
      (performHooks env p (programs hooks (order (ascii "Request"))) (req, sock)) :=
    hookCall_performs h hargs hturns ⟨req, sock, HookStack.new, log⟩ HookStack.new_holds
  rcases hperforms.outcomes with
    ⟨⟨ends, reg', w⟩, ⟨served, req', sock'⟩, hcall, hperform, rfl, rfl, rfl, hrets⟩ | ⟨fault, hcall, hperform⟩
  · have hleft : w.rets.Holds (served.returns.map HookStack.Push.elm) := hrets
    rw [hcall, hperform, fault_ok_bind, fault_ok_bind]
    dsimp only
    rw [getInteger_left hleft warn w.log]
    cases leftInteger warn served.returns w.log with
    | error fault => rfl
    | ok r =>
      rw [fault_ok_bind, HookStack.delete_holds hleft, HookStack.delete_holds hargs]
      rfl
  · rw [hcall, hperform]
    rfl

end Calls

section Scripts
variable {env : Environment} {p : Pointers} {σ : Type}

theorem performHook_actions {hook : RequestHook} {s s' : Request × Socket} {rets : Bool} {served : Performed}
    (h : performHook env p hook s = .ok (rets, served, s')) :
    ∃ replies, runCalls (handlerAction env) s served.actions = .ok (replies, s') := by
  induction hook generalizing s served with
  | returns value =>
    obtain ⟨-, h⟩ := Prod.mk.inj (Except.ok.inj h)
    obtain ⟨rfl, rfl⟩ := Prod.mk.inj h
    exact ⟨[], rfl⟩
  | pointer index type next ih =>
    rw [performHook] at h
    split at h
    · cases h
    · exact ih _ h
  | act ptr action next ih =>
    obtain ⟨⟨reply, s1⟩, hact, h⟩ := bind_eq_ok.mp h
    obtain ⟨⟨rets1, served1, s2⟩, hrest, h⟩ := bind_eq_ok.mp h
    obtain ⟨rfl, hserved⟩ := Prod.mk.inj (Except.ok.inj h)
    obtain ⟨rfl, rfl⟩ := Prod.mk.inj hserved
    obtain ⟨replies, hrun⟩ := ih reply hrest
    unfold actOn at hact
    split at hact
    · refine ⟨reply :: replies, ?_⟩
      change runCalls (handlerAction env) s (action :: served1.actions) = _
      rw [runCalls, hact]
      dsimp only
      rw [hrun]
    · cases hact
  | push value next ih =>
    obtain ⟨⟨rets1, served1, s2⟩, hrest, h⟩ := bind_eq_ok.mp h
    obtain ⟨rfl, hserved⟩ := Prod.mk.inj (Except.ok.inj h)
    obtain ⟨rfl, rfl⟩ := Prod.mk.inj hserved
    obtain ⟨replies, hrun⟩ := ih hrest
    exact ⟨replies, hrun⟩

theorem performHooks_actions {hooks : List RequestHook} {s s' : Request × Socket} {served : Performed}
    (h : performHooks env p hooks s = .ok (served, s')) :
    ∃ replies, runCalls (handlerAction env) s served.actions = .ok (replies, s') := by
  induction hooks generalizing s served with
  | nil =>
    obtain ⟨rfl, rfl⟩ := Prod.mk.inj (Except.ok.inj h)
    exact ⟨[], rfl⟩
  | cons hook hooks ih =>
    obtain ⟨⟨ends, first, s1⟩, hfirst, h⟩ := bind_eq_ok.mp h
    obtain ⟨replies, hrun⟩ := performHook_actions hfirst
    cases ends with
    | true =>
      obtain ⟨rfl, rfl⟩ := Prod.mk.inj (Except.ok.inj h)
      exact ⟨replies, hrun⟩
    | false =>
      obtain ⟨⟨later, s2⟩, hlater, h⟩ := bind_eq_ok.mp h
      obtain ⟨rfl, rfl⟩ := Prod.mk.inj (Except.ok.inj h)
      obtain ⟨replies', hrun'⟩ := ih hlater
      exact ⟨replies ++ replies', runCalls_append_eq_ok.mpr ⟨replies, s1, replies', hrun, hrun', rfl⟩⟩

theorem leftInteger_result {warn : Bytes → σ → Except Fault σ} {served : Performed} {log log' : σ} {result : Option Int}
    (h : leftInteger warn served.returns log = .ok (result, log')) : result = served.result := by
  obtain ⟨actions, returns⟩ := served
  cases returns with
  | nil => exact (Prod.mk.inj (Except.ok.inj h)).1.symm
  | cons value returns =>
    cases value with
    | integer value => exact (Prod.mk.inj (Except.ok.inj h)).1.symm
    | number | string | pointer =>
      obtain ⟨log1, -, h⟩ := map_eq_ok.mp h
      exact (Prod.mk.inj h).1.symm

end Scripts

section Serving
variable {P F X σ : Type} {env : Environment} {p : Pointers} {warn : Bytes → σ → Except Fault σ}
  {hooks : F → X → RequestHook} {reg : Registry P F X} {es : List (Storage.Container HookTable)}
  {order : Bytes → List (Hook P F X)}

/-- A call that gets to the hooks returns exactly if what they come to does, as a script. -/
theorem requestDispatch_iff (h : Tracks reg es order) {turns : Nat} (hturns : (order (ascii "Request")).length < turns)
    {date : CString} {req req' : Request} {sock sock' : Socket} {log log' : σ} {ret : Bool} :
    requestDispatch env p warn hooks turns reg date req sock log = .ok (ret, req', sock', log') ↔
      (∃ status, requestArrive env req sock = .ok (.rejected status req' sock') ∧ ret = false ∧ log' = log) ∨
      ∃ req1 sock1 served s, requestArrive env req sock = .ok (.ready req1 sock1) ∧
        performHooks env p (programs hooks (order (ascii "Request"))) (req1, sock1) = .ok (served, s) ∧
        leftInteger warn served.returns log = .ok (served.result, log') ∧
        requestProcessSocket env ⟨served.actions, served.result⟩ date req sock = .ok (ret, req', sock') := by
  unfold requestDispatch
  cases ha : requestArrive env req sock with
  | error fault =>
    constructor
    · intro h
      cases h
    · rintro (⟨status, h, -⟩ | ⟨req1, sock1, served, s, h, -⟩)
      · cases h
      · cases h
  | ok arrival =>
    cases arrival with
    | rejected status req1 sock1 =>
      rw [fault_ok_bind]
      constructor
      · intro hrun
        obtain ⟨rfl, hstate⟩ := Prod.mk.inj (Except.ok.inj hrun)
        obtain ⟨rfl, hends⟩ := Prod.mk.inj hstate
        obtain ⟨rfl, rfl⟩ := Prod.mk.inj hends
        exact .inl ⟨status, rfl, rfl, rfl⟩
      · rintro (⟨status', h, rfl, rfl⟩ | ⟨req2, sock2, served, s, h, -⟩)
        · cases h
          rfl
        · cases h
    | ready req1 sock1 =>
      rw [fault_ok_bind]
      dsimp only
      rw [callRequestHooks_eq h hturns]
      constructor
      · intro hrun
        obtain ⟨⟨result, req2, sock2, log2⟩, hcall, hrun⟩ := bind_eq_ok.mp hrun
        obtain ⟨⟨served, req3, sock3⟩, hperform, hcall⟩ := bind_eq_ok.mp hcall
        obtain ⟨⟨result', log3⟩, hleft, hcall⟩ := bind_eq_ok.mp hcall
        obtain ⟨rfl, hcalled⟩ := Prod.mk.inj (Except.ok.inj hcall)
        obtain ⟨rfl, hleaves⟩ := Prod.mk.inj hcalled
        obtain ⟨rfl, rfl⟩ := Prod.mk.inj hleaves
        obtain ⟨⟨ret', req4, sock4⟩, hfinish, hrun⟩ := bind_eq_ok.mp hrun
        obtain ⟨rfl, hstate⟩ := Prod.mk.inj (Except.ok.inj hrun)
        obtain ⟨rfl, hends⟩ := Prod.mk.inj hstate
        obtain ⟨rfl, rfl⟩ := Prod.mk.inj hends
        obtain rfl := leftInteger_result hleft
        obtain ⟨replies, hrun⟩ := performHooks_actions hperform
        refine .inr ⟨req1, sock1, served, _, rfl, hperform, hleft, ?_⟩
        rw [requestProcessSocket, ha, fault_ok_bind]
        dsimp only
        rw [hrun]
        exact hfinish
      · rintro (⟨status', h, -⟩ | ⟨req2, sock2, served, ⟨req3, sock3⟩, h, hperform, hleft, hprocess⟩)
        · cases h
        · obtain ⟨rfl, rfl⟩ := Arrival.ready.inj (Except.ok.inj h)
          obtain ⟨replies, hrun⟩ := performHooks_actions hperform
          rw [requestProcessSocket, ha, fault_ok_bind] at hprocess
          dsimp only at hprocess
          rw [hrun, fault_ok_bind] at hprocess
          rw [hperform, fault_ok_bind]
          dsimp only
          rw [hleft, fault_ok_bind]
          dsimp only
          rw [fault_ok_bind]
          dsimp only
          rw [hprocess]
          rfl

/-- The script of a call: what the hooks come to, or nothing where they are not called. -/
inductive Scripted (env : Environment) (p : Pointers) (hooks : List RequestHook) : Handler → Prop where
  | refused : Scripted env p hooks ⟨[], none⟩
  | served {s s' : Request × Socket} {served : Performed} (performs : performHooks env p hooks s = .ok (served, s')) :
    Scripted env p hooks ⟨served.actions, served.result⟩

/-- The handlers of a run of calls are what the hooks come to in these calls, each from the request as it gets to
them there. -/
def Perform (env : Environment) (p : Pointers) (hooks : List RequestHook) :
    List (Handler × CString) → Request → Socket → Prop
  | [], _, _ => True
  | (handler, date) :: calls, req, sock =>
    (∀ req0 sock0, requestArrive env req sock = .ok (.ready req0 sock0) → ∃ served s,
      performHooks env p hooks (req0, sock0) = .ok (served, s) ∧ handler = ⟨served.actions, served.result⟩) ∧
    ∀ ret req1 sock1, requestProcessSocket env handler date req sock = .ok (ret, req1, sock1) →
      Perform env p hooks calls req1 sock1

/-- The loop with hooks is the loop with scripts. -/
theorem serveHooked_script (h : Tracks reg es order) {turns : Nat} (hturns : (order (ascii "Request")).length < turns)
    {dates rest : List CString} {req req' : Request} {sock sock' : Socket} {log log' : σ}
    (hrun : serveHooked env p warn hooks turns reg dates req sock log = .ok (rest, req', sock', log')) :
    ∃ calls, dates = calls.map Prod.snd ++ rest ∧ serveRequests env calls req sock = .ok ([], req', sock') ∧
      Perform env p (programs hooks (order (ascii "Request"))) calls req sock ∧
      ∀ call ∈ calls, Scripted env p (programs hooks (order (ascii "Request"))) call.1 := by
  induction dates generalizing req sock log with
  | nil => cases hrun
  | cons date dates ih =>
    obtain ⟨⟨ret, req1, sock1, log1⟩, hcall, hrun⟩ := bind_eq_ok.mp hrun
    have hscript : ∃ handler, Scripted env p (programs hooks (order (ascii "Request"))) handler ∧
        requestProcessSocket env handler date req sock = .ok (ret, req1, sock1) ∧
        ∀ req0 sock0, requestArrive env req sock = .ok (.ready req0 sock0) → ∃ served s,
          performHooks env p (programs hooks (order (ascii "Request"))) (req0, sock0) = .ok (served, s) ∧
            handler = ⟨served.actions, served.result⟩ := by
      rcases (requestDispatch_iff h hturns).mp hcall with
        ⟨status, ha, rfl, -⟩ | ⟨req2, sock2, served, s, ha, hperform, -, hprocess⟩
      · refine ⟨_, .refused, ?_, fun req0 sock0 hready => ?_⟩
        · rw [requestProcessSocket, ha]
          rfl
        · rw [ha] at hready
          cases hready
      · refine ⟨_, .served hperform, hprocess, fun req0 sock0 hready => ⟨served, s, ?_, rfl⟩⟩
        rw [ha] at hready
        obtain ⟨rfl, rfl⟩ := Arrival.ready.inj (Except.ok.inj hready)
        exact hperform
    obtain ⟨handler, hscripted, hprocess, hown⟩ := hscript
    cases ret with
    | false =>
      obtain ⟨rfl, hstate⟩ := Prod.mk.inj (Except.ok.inj hrun)
      obtain ⟨rfl, hends⟩ := Prod.mk.inj hstate
      obtain ⟨rfl, rfl⟩ := Prod.mk.inj hends
      refine ⟨[(handler, date)], rfl, ?_, ⟨hown, fun _ _ _ _ => trivial⟩, fun call hm => ?_⟩
      · rw [serveRequests, hprocess]
        rfl
      · rw [List.mem_singleton.mp hm]
        exact hscripted
    | true =>
      obtain ⟨calls, rfl, hserve, hperform, hcalls⟩ := ih hrun
      refine ⟨(handler, date) :: calls, rfl, ?_, ⟨hown, fun ret2 req2 sock2 hagain => ?_⟩, fun call hm => ?_⟩
      · rw [serveRequests, hprocess]
        exact hserve
      · rw [hprocess] at hagain
        obtain ⟨-, hstate⟩ := Prod.mk.inj (Except.ok.inj hagain)
        obtain ⟨rfl, rfl⟩ := Prod.mk.inj hstate
        exact hperform
      · rcases List.mem_cons.mp hm with rfl | hm
        · exact hscripted
        · exact hcalls call hm

end Serving

section Registries
variable {P F X σ : Type} [LinearOrder P] {ops : List (HookOp P F X)} {start reg : Registry P F X} {replies : List Unit}
  {env : Environment} {p : Pointers} {warn : Bytes → σ → Except Fault σ} {hooks : F → X → RequestHook}

theorem tracks_after (hload : hookLoad Registry.unloaded = .ok start)
    (hrun : runCalls hookOp start ops = .ok (replies, reg)) :
    ∃ es, Tracks reg es (orderAfter ops) := by
  obtain ⟨start', replies', reg', es, hload', hrun', h⟩ := hookRun_spec ops
  obtain rfl := Except.ok.inj (hload.symm.trans hload')
  obtain ⟨-, rfl⟩ := Prod.mk.inj (Except.ok.inj (hrun.symm.trans hrun'))
  exact ⟨es, h⟩

/-- After any changes to the hooks: a call for a request returns exactly if it is refused before the hooks are
called, or if the hooks of the name Request return, called in their order up to the first one that returns true,
and what they came to returns as the script of a handler. The result of that script is the integer at the bottom
of their returns; a warning about a value of another type there is all that is seen of the stacks. -/
theorem request_hooks_script (hload : hookLoad Registry.unloaded = .ok start)
    (hrun : runCalls hookOp start ops = .ok (replies, reg)) {turns : Nat}
    (hturns : (orderAfter ops (ascii "Request")).length < turns) (date : CString) (req req' : Request)
    (sock sock' : Socket) (log log' : σ) (ret : Bool) :
    requestDispatch env p warn hooks turns reg date req sock log = .ok (ret, req', sock', log') ↔
      (∃ status, requestArrive env req sock = .ok (.rejected status req' sock') ∧ ret = false ∧ log' = log) ∨
      ∃ req1 sock1 served s, requestArrive env req sock = .ok (.ready req1 sock1) ∧
        performHooks env p (programs hooks (orderAfter ops (ascii "Request"))) (req1, sock1) = .ok (served, s) ∧
        leftInteger warn served.returns log = .ok (served.result, log') ∧
        requestProcessSocket env ⟨served.actions, served.result⟩ date req sock = .ok (ret, req', sock') := by
  obtain ⟨es, h⟩ := tracks_after hload hrun
  exact requestDispatch_iff h hturns

/-- A hook that answers with two bytes. -/
def helloHook : RequestHook :=
  .pointer 1 (ascii "cflare_response") (fun ptr => .act (ptr.getD 0) (.respond (.data closeText (ascii "hi")))
    (fun _ => .push (.integer 0) (.returns true)))

def helloHooks : List (HookOp Nat Unit Unit) := [.add (ascii "Request") ⟨ascii "hello", 0, (), ()⟩]

private theorem helloHooks_order : orderAfter helloHooks (ascii "Request") = [⟨ascii "hello", 0, (), ()⟩] := rfl

private theorem helloHook_handed : Pointers.handed ⟨8, 16⟩ 1 (ascii "cflare_response") = some 16 := by decide

private theorem helloHook_served {s s' : Request × Socket} {served : Performed}
    (h : performHooks plainEnvironment ⟨8, 16⟩ [helloHook] s = .ok (served, s')) :
    served = ⟨helloHandler.actions, [.integer 0]⟩ := by
  obtain ⟨⟨ends, first, s1⟩, hfirst, h⟩ := bind_eq_ok.mp h
  rw [helloHook, performHook, if_neg (by decide), helloHook_handed] at hfirst
  obtain ⟨⟨reply, s2⟩, -, hfirst⟩ := bind_eq_ok.mp hfirst
  obtain ⟨rfl, hserved⟩ := Prod.mk.inj (Except.ok.inj hfirst)
  obtain ⟨rfl, -⟩ := Prod.mk.inj hserved
  obtain ⟨rfl, -⟩ := Prod.mk.inj (Except.ok.inj h)
  rfl

private theorem helloHook_performs {s s' : Request × Socket} {reply : Option Bool × Bytes}
    (h : handlerAction plainEnvironment s (.respond (.data closeText (ascii "hi"))) = .ok (reply, s')) :
    performHooks plainEnvironment ⟨8, 16⟩ [helloHook] s = .ok (⟨helloHandler.actions, [.integer 0]⟩, s') := by
  have hact : actOn plainEnvironment ⟨8, 16⟩ ((some 16).getD 0) (.respond (.data closeText (ascii "hi"))) s =
      .ok (reply, s') := (if_pos rfl).trans h
  rw [performHooks, helloHook, performHook, if_neg (by decide), helloHook_handed, performHook, hact]
  rfl

/-- The hook answers the request of an old client. -/
theorem request_hooks_script_hello :
    ∃ start replies reg, hookLoad Registry.unloaded = .ok start ∧ runCalls hookOp start helloHooks = .ok (replies, reg) ∧
      ∃ req' sock', requestDispatch plainEnvironment ⟨8, 16⟩ (fun _ log => .ok log) (fun _ _ => helloHook) 2 reg closeText
        requestNew oldSocket () = .ok (false, req', sock', ()) := by
  obtain ⟨start, replies, reg, es, hload, hrun, -⟩ := hookRun_spec helloHooks
  obtain ⟨req0, sock0, req1, sock1, ha, -, haction, hprocess, -⟩ := hello_processed [] (by simp)
  refine ⟨start, replies, reg, hload, hrun, req1, sock1, ?_⟩
  refine (request_hooks_script hload hrun (by rw [helloHooks_order]; decide) closeText requestNew req1 oldSocket sock1 ()
    () false).mpr (.inr ⟨req0, sock0, ⟨helloHandler.actions, [.integer 0]⟩, (req1, sock1), ha, ?_, rfl, hprocess⟩)
  rw [helloHooks_order]
  exact helloHook_performs haction

/-- What a worker with hooks sends on one connection reads back as whole messages, one for each call and in their
order: the answer that the hooks gave in that call, or the server where they gave none, and at the end perhaps one
refusal. There are fewer only where the connection was lost before a call answered. The socket is closed. -/
theorem hooked_responses_read_back (hload : hookLoad Registry.unloaded = .ok start)
    (hrun : runCalls hookOp start ops = .ok (replies, reg)) {turns : Nat}
    (hturns : (orderAfter ops (ascii "Request")).length < turns) (hs : Spelled env.table.entries)
    (hreasons : env.ReasonsWhole) {dates rest : List CString}
    (hh : ∀ date ∈ dates, ∀ handler, Scripted env p (programs hooks (orderAfter ops (ascii "Request"))) handler →
      handler.Readable env date)
    {req req' : Request} {sock sock' : Socket} {log log' : σ} (hw : sock.WellFormed) (hsends : sock.peer.sends = [])
    (hserve : serveHookedSocket env p warn hooks turns reg dates req sock log = .ok (rest, req', sock', log')) :
    ∃ sock1, serveHooked env p warn hooks turns reg dates req sock log = .ok (rest, req', sock1, log') ∧
      sock' = socketClose sock1 ∧ sock'.fd < 0 ∧
      ∃ calls lost messages written, dates = calls.map Prod.snd ++ rest ∧
        Perform env p (programs hooks (orderAfter ops (ascii "Request"))) calls req sock ∧
        Exchanged env lost calls req sock messages ∧ (lost = false → messages.length = calls.length) ∧
        (lost = true → sock1.connected = false) ∧ sock'.peer.outgoing = sock.peer.outgoing ++ written ∧
        readAll readMessage calls.length written = some messages := by
  obtain ⟨es, h⟩ := tracks_after hload hrun
  obtain ⟨⟨rest1, req1, sock1, log1⟩, hloop, hserve⟩ := bind_eq_ok.mp hserve
  obtain ⟨rfl, hstate⟩ := Prod.mk.inj (Except.ok.inj hserve)
  obtain ⟨rfl, hends⟩ := Prod.mk.inj hstate
  obtain ⟨rfl, rfl⟩ := Prod.mk.inj hends
  obtain ⟨calls, rfl, hcalls, hperform, hscripted⟩ := serveHooked_script h hturns hloop
  have hreadable : ∀ call ∈ calls, call.1.Readable env call.2 := fun call hm =>
    hh call.2 (List.mem_append_left _ (List.mem_map_of_mem hm)) call.1 (hscripted call hm)
  obtain ⟨used, lost, messages, written, hused, hconversation⟩ :=
    serveRequests_exchanged (.of_table hs) hreasons hreadable hw hsends hcalls
  rw [List.append_nil] at hused
  subst hused
  refine ⟨sock1, hloop, rfl, (socketClose_closed sock1).1, calls, lost, messages, written, rfl, hperform,
    hconversation.exchanged, ?_, hconversation.gone, ?_, hconversation.readBack _ hconversation.exchanged.length_le⟩
  · rintro rfl
    exact hconversation.exchanged.length_eq
  · rw [socketClose_outgoing]
    exact hconversation.outgoing

end Registries

private theorem helloHook_readable {handler : Handler} (h : Scripted plainEnvironment ⟨8, 16⟩ [helloHook] handler) :
    handler.Readable plainEnvironment closeText := by
  cases h with
  | refused =>
    refine Handler.readable_plain (.of_table commonTable_spelled) (.inr rfl) rfl ?_
    intro day body hm
    obtain ⟨rfl, rfl⟩ : day = closeText ∧ body = ascii "no request handler\n" := by
      have hdata := List.mem_singleton.mp ((List.mem_cons.mp hm).resolve_left nofun)
      injection hdata with hdata
      injection hdata with hday hbody
      exact ⟨hday, hbody⟩
    decide
  | served performs =>
    rw [helloHook_served performs]
    exact helloHandler_readable

theorem hooked_responses_read_back_hello :
    ∃ start replies reg, hookLoad Registry.unloaded = .ok start ∧ runCalls hookOp start helloHooks = .ok (replies, reg) ∧
      ∃ req' sock', serveHookedSocket plainEnvironment ⟨8, 16⟩ (fun _ log => .ok log) (fun _ _ => helloHook) 2 reg
          [closeText] requestNew oldSocket () = .ok ([], req', sock', ()) ∧ sock'.fd < 0 ∧
        ∃ call messages written, call.2 = closeText ∧
          Perform plainEnvironment ⟨8, 16⟩ [helloHook] [call] requestNew oldSocket ∧
          Exchanged plainEnvironment false [call] requestNew oldSocket messages ∧ messages.length = 1 ∧
          sock'.peer.outgoing = written ∧ readAll readMessage 1 written = some messages := by
  obtain ⟨start, replies, reg, es, hload, hrun, h⟩ := hookRun_spec helloHooks
  have hprocessed := hello_processed [] (by simp)
  obtain ⟨req0, sock0, req1, sock1, ha, -, haction, hprocess, hopen, -⟩ := hprocessed
  have hturns : (orderAfter helloHooks (ascii "Request")).length < 2 := by
    rw [helloHooks_order]
    decide
  have hdispatch : requestDispatch plainEnvironment ⟨8, 16⟩ (fun _ log => .ok log) (fun _ _ => helloHook) 2 reg closeText
      requestNew oldSocket () = .ok (false, req1, sock1, ()) := by
    refine (requestDispatch_iff h hturns).mpr
      (.inr ⟨req0, sock0, ⟨helloHandler.actions, [.integer 0]⟩, (req1, sock1), ha, ?_, rfl, hprocess⟩)
    rw [helloHooks_order]
    exact helloHook_performs haction
  have hloop : serveHooked plainEnvironment ⟨8, 16⟩ (fun _ log => .ok log) (fun _ _ => helloHook) 2 reg [closeText]
      requestNew oldSocket () = .ok ([], req1, sock1, ()) := by
    rw [serveHooked, hdispatch]
    rfl
  have hserve : serveHookedSocket plainEnvironment ⟨8, 16⟩ (fun _ log => .ok log) (fun _ _ => helloHook) 2 reg
      [closeText] requestNew oldSocket () = .ok ([], req1, socketClose sock1, ()) := by
    rw [serveHookedSocket, hloop]
    rfl
  refine ⟨start, replies, reg, hload, hrun, req1, socketClose sock1, hserve, ?_⟩
  have hreadable : ∀ date ∈ [closeText], ∀ handler, Scripted plainEnvironment ⟨8, 16⟩
      (programs (fun _ _ => helloHook) (orderAfter helloHooks (ascii "Request"))) handler →
      handler.Readable plainEnvironment date := by
    intro date hm handler hscripted
    rw [List.mem_singleton.mp hm]
    rw [helloHooks_order] at hscripted
    exact helloHook_readable hscripted
  obtain ⟨sock2, hloop2, -, hclosed, calls, lost, messages, written, hdates, hperform, hexchanged, hall, hgone, hout,
    hread⟩ :=
    hooked_responses_read_back hload hrun hturns commonTable_spelled plain_reasons hreadable
      (socketNew_wellFormed _ _ _ _) rfl hserve
  obtain ⟨-, hstate⟩ := Prod.mk.inj (Except.ok.inj (hloop.symm.trans hloop2))
  obtain ⟨-, hends⟩ := Prod.mk.inj hstate
  obtain ⟨rfl, -⟩ := Prod.mk.inj hends
  rw [List.append_nil] at hdates
  obtain ⟨call, rfl⟩ : ∃ call, calls = [call] := by
    have hone := congrArg List.length hdates
    rw [List.length_map] at hone
    exact List.length_eq_one_iff.mp hone.symm
  rw [helloHooks_order] at hperform
  cases lost with
  | true =>
    rw [hgone rfl] at hopen
    cases hopen
  | false =>
    exact ⟨hclosed, call, messages, written, (List.cons.inj hdates).1.symm, hperform, hexchanged, hall rfl, hout, hread⟩

end CFlare.Http
