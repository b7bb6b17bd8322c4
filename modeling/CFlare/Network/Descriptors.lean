import CFlare.Library.Heap
import CFlare.Library.Runs
import CFlare.Network.SocketLifetime
import Mathlib.Data.List.Perm.Basic

/-! The descriptors of a process that listens, accepts and connects. What the system answers is a script.
Each descriptor is held by one socket or listener and closed once, except those of peers without a name. -/
namespace CFlare.Network
open CFlare.Library

structure Listener where
  fd : Int
  listening : Bool
  addr : Bytes
  port : UInt16
  deriving DecidableEq, Repr

/-- For one address: a socket with that descriptor or none, and whether it could be bound. -/
structure AddressResult where
  socket : Option Nat
  bound : Bool
  deriving DecidableEq, Repr

/-- What the calls made by one `cflare_socket_listen` return. -/
structure ListenResults where
  addresses : Option (List AddressResult)
  name : Option (Bytes × UInt16)
  listened : Bool
  deriving DecidableEq, Repr

structure AcceptResults where
  accepted : Option Nat
  name : Option (Bytes × UInt16)
  peer : Peer
  deriving DecidableEq, Repr

structure ConnectResults where
  resolved : Bool
  name : Option Bytes
  socket : Option Nat
  connected : Bool
  peer : Peer
  deriving DecidableEq, Repr

/-- Why a call returned null: each has a warning of its own. -/
inductive SocketFailure where
  | resolve
  | noAddress
  | name
  | listen
  | socket
  | connect
  | accept
  | peerName
  deriving DecidableEq, Repr

inductive ProcessReply where
  | done
  | pointer (address : Nat)
  | failed (failure : SocketFailure)
  deriving DecidableEq, Repr

/-- The open descriptors, and the sockets and listeners that were allocated. -/
structure Process where
  table : List Int
  sockets : Heap Socket
  listeners : Heap Listener

/-- Other parts of the program hold descriptors of their own. -/
def Process.start (others : List Int) : Process := ⟨others, .empty, .empty⟩

/-- A new descriptor is none that is open: the one that the script names, or else one above all. -/
def granted (table : List Int) (fd : Nat) : Int := if (fd : Int) ∈ table then table.foldr max 0 + 1 else fd

def lthreadClose (table : List Int) (fd : Int) : Except Fault (List Int) :=
  if fd ∈ table then .ok (table.erase fd) else .error .undefined

def closeAll (table : List Int) (fds : List Int) : Except Fault (List Int) := fds.foldlM lthreadClose table

/-- Try the addresses in turn until a socket can be bound. -/
def bindFirst (table : List Int) : List AddressResult → Except Fault (Option Int × List Int)
  | [] => .ok (none, table)
  | result :: results =>
    match result.socket with
    | none => bindFirst table results
    | some fd =>
      let fd := granted table fd
      if result.bound then .ok (some fd, fd :: table)
      else do
        let table ← lthreadClose (fd :: table) fd
        bindFirst table results

def socketListen (w : Process) (results : ListenResults) : Except Fault (ProcessReply × Process) :=
  match results.addresses with
  | none => .ok (.failed .resolve, w)
  | some addresses => do
    let (fd, table) ← bindFirst w.table addresses
    match fd, results.name with
    | none, _ => .ok (.failed .noAddress, { w with table := table })
    | some fd, none => do
      let table ← lthreadClose table fd
      .ok (.failed .name, { w with table := table })
    | some fd, some (ip, port) =>
      if results.listened then
        .ok (.pointer w.listeners.next, { w with
          table := table, listeners := w.listeners.alloc ⟨fd, true, ip, port⟩ })
      else do
        let table ← lthreadClose table fd
        .ok (.failed .listen, { w with table := table })

/-- The assertion of `cflare_socket_new`. -/
def Process.newSocket (w : Process) (fd : Int) (ip : Bytes) (port : UInt16) (peer : Peer) :
    Except Fault (ProcessReply × Process) :=
  if fd < 0 then .error .assertion
  else .ok (.pointer w.sockets.next, { w with sockets := w.sockets.alloc (socketNew fd ip port peer) })

/-- A closed listener has no descriptor to accept on. -/
def listenerAccept (w : Process) (listener : Listener) (results : AcceptResults) :
    Except Fault (ProcessReply × Process) :=
  match (if listener.fd < 0 then none else results.accepted) with
  | none => .ok (.failed .accept, w)
  | some fd =>
    let fd := granted w.table fd
    let w := { w with table := fd :: w.table }
    match results.name with
    -- the descriptor stays open here
    | none => .ok (.failed .peerName, w)
    | some (ip, port) => w.newSocket fd ip port results.peer

def socketConnect (w : Process) (port : UInt16) (results : ConnectResults) : Except Fault (ProcessReply × Process) :=
  if results.resolved = false then .ok (.failed .resolve, w)
  else
    match results.name, results.socket with
    | none, _ => .ok (.failed .name, w)
    | some _, none => .ok (.failed .socket, w)
    | some ip, some fd =>
      let fd := granted w.table fd
      let w := { w with table := fd :: w.table }
      if results.connected then w.newSocket fd ip port results.peer
      else do
        let table ← lthreadClose w.table fd
        .ok (.failed .connect, { w with table := table })

def listenerClose (listener : Listener) : Listener :=
  if listener.listening = false then listener else { listener with fd := -1, listening := false }

def Listener.owned (listener : Listener) : List Int := if listener.listening then [listener.fd] else []

def Socket.owned (s : Socket) : List Int := if 0 ≤ s.fd then [s.fd] else []

inductive ProcessCall where
  | listen (results : ListenResults)
  | accept (listener : Nat) (results : AcceptResults)
  | connect (port : UInt16) (results : ConnectResults)
  | use (socket : Nat) (u : SocketUse)
  | deleteSocket (socket : Nat)
  | closeListener (listener : Nat)
  | deleteListener (listener : Nat)

/-- A pointer that was deleted must not be used. -/
def orUndefined {α : Type} : Option α → Except Fault α
  | none => .error .undefined
  | some a => .ok a

def processCall (w : Process) : ProcessCall → Except Fault (ProcessReply × Process)
  | .listen results => socketListen w results
  | .accept address results => do
    let listener ← orUndefined (w.listeners.read address)
    listenerAccept w listener results
  | .connect port results => socketConnect w port results
  | .use address u => do
    let s ← orUndefined (w.sockets.read address)
    let s' ← socketUse s u
    let table ← closeAll w.table (closings s s')
    .ok (.done, { w with table := table, sockets := w.sockets.write address s' })
  | .deleteSocket address => do
    let s ← orUndefined (w.sockets.read address)
    let table ← closeAll w.table (closings s (socketClose s))
    let sockets ← w.sockets.free address
    .ok (.done, { w with table := table, sockets := sockets })
  | .closeListener address => do
    let listener ← orUndefined (w.listeners.read address)
    let table ← closeAll w.table listener.owned
    .ok (.done, { w with table := table, listeners := w.listeners.write address (listenerClose listener) })
  | .deleteListener address => do
    let listener ← orUndefined (w.listeners.read address)
    let table ← closeAll w.table listener.owned
    let listeners ← w.listeners.free address
    .ok (.done, { w with table := table, listeners := listeners })

def Process.owned (w : Process) : List Int :=
  w.sockets.contents.flatMap Socket.owned ++ w.listeners.contents.flatMap Listener.owned

/-- A call with live pointers, whose socket code returns. -/
def Process.Allows (w : Process) : ProcessCall → Prop
  | .listen _ | .connect _ _ => True
  | .accept address _ | .closeListener address | .deleteListener address => (w.listeners.read address).isSome
  | .use address u => ∃ s s', w.sockets.read address = some s ∧ socketUse s u = .ok s'
  | .deleteSocket address => (w.sockets.read address).isSome

/-- Every open descriptor belongs to another part, is leaked, or is held by one socket or listener. -/
structure Accounted (others leaked : List Int) (w : Process) : Prop where
  held : w.table.Perm (others ++ leaked ++ w.owned)
  distinct : w.table.Nodup
  descriptors : ∀ fd ∈ w.table, 0 ≤ fd
  attached : ∀ s ∈ w.sockets.contents, s.Attached

section Table
variable {table rest closing : List Int} {fd : Int}

private theorem le_highest (h : fd ∈ table) : fd ≤ table.foldr max 0 := by
  induction table with
  | nil => cases h
  | cons other table ih =>
    rw [List.foldr_cons]
    rcases List.mem_cons.mp h with rfl | h
    · exact Int.le_max_left _ _
    · exact Int.le_trans (ih h) (Int.le_max_right _ _)

private theorem highest_nonneg (table : List Int) : 0 ≤ table.foldr max 0 := by
  induction table with
  | nil => exact Int.le_refl 0
  | cons other table ih => exact Int.le_trans ih (Int.le_max_right _ _)

theorem granted_fresh (table : List Int) (n : Nat) : granted table n ∉ table ∧ 0 ≤ granted table n := by
  unfold granted
  split
  · refine ⟨fun hm => ?_, Int.le_add_one (highest_nonneg table)⟩
    have hle := le_highest hm
    omega
  · next hfresh => exact ⟨hfresh, Int.natCast_nonneg n⟩

@[simp] theorem lthreadClose_new (table : List Int) (fd : Int) : lthreadClose (fd :: table) fd = .ok table := by
  rw [lthreadClose, if_pos List.mem_cons_self, List.erase_cons_head]

/-- Descriptors that are open can be closed, and the others stay. -/
theorem closeAll_held (h : table.Perm (closing ++ rest)) :
    ∃ table', closeAll table closing = .ok table' ∧ table'.Perm rest ∧ table'.Sublist table := by
  induction closing generalizing table with
  | nil => exact ⟨table, rfl, h, List.Sublist.refl table⟩
  | cons fd closing ih =>
    have hm : fd ∈ table := h.mem_iff.mpr List.mem_cons_self
    have herase : (table.erase fd).Perm (closing ++ rest) := by
      have hboth := h.erase fd
      rwa [List.cons_append, List.erase_cons_head] at hboth
    obtain ⟨table', hclose, hperm, hsub⟩ := ih herase
    refine ⟨table', ?_, hperm, hsub.trans List.erase_sublist⟩
    rw [closeAll, List.foldlM_cons, lthreadClose, if_pos hm]
    exact hclose

/-- The search leaves no descriptor open but the one that it returns. -/
theorem bindFirst_spec (table : List Int) (results : List AddressResult) :
    bindFirst table results = .ok (none, table) ∨
      ∃ fd, bindFirst table results = .ok (some fd, fd :: table) ∧ fd ∉ table ∧ 0 ≤ fd := by
  induction results with
  | nil => exact .inl rfl
  | cons result results ih =>
    rw [bindFirst]
    cases result.socket with
    | none => exact ih
    | some n =>
      obtain ⟨hfresh, hpos⟩ := granted_fresh table n
      dsimp only
      split
      · exact .inr ⟨_, rfl, hfresh, hpos⟩
      · rw [lthreadClose_new]
        exact ih

private theorem closing_first (outer front kept back inner : List Int) :
    (outer ++ (front ++ (closing ++ kept ++ back) ++ inner)).Perm
      (closing ++ (outer ++ (front ++ (kept ++ back) ++ inner))) := by
  apply List.perm_iff_count.mpr
  intro fd
  simp only [List.count_append]
  omega

end Table

section Steps
variable {others leaked : List Int} {w : Process} {s s' : Socket}

theorem Accounted.start (hd : others.Nodup) (hn : ∀ fd ∈ others, 0 ≤ fd) : Accounted others [] (.start others) := by
  refine ⟨?_, hd, hn, fun s hs => nomatch hs⟩
  exact List.Perm.of_eq (by simp [Process.start, Process.owned, Heap.contents, Heap.empty])

/-- A socket keeps what it does not close. -/
theorem Lasts.owned (h : Lasts s s') : s.owned = closings s s' ++ s'.owned := by
  unfold Socket.owned closings
  rcases h.descriptor with hsame | ⟨hopen, hgone, -⟩
  · have hnot : ¬ (0 ≤ s.fd ∧ s.fd < 0) := fun hboth => absurd hboth.1 (Int.not_le.mpr hboth.2)
    rw [hsame, if_neg hnot, List.nil_append]
  · rw [if_pos hopen, if_pos ⟨hopen, by rw [hgone]; decide⟩, if_neg (by rw [hgone]; decide), List.append_nil]

/-- Some descriptors are closed, and the holders hold what is left. -/
theorem Accounted.closes (h : Accounted others leaked w) {closing : List Int} {sockets : Heap Socket}
    {listeners : Heap Listener} (hsplit : (others ++ leaked ++ w.owned).Perm (closing ++ (others ++ leaked ++
      (sockets.contents.flatMap Socket.owned ++ listeners.contents.flatMap Listener.owned))))
    (hattached : ∀ s ∈ sockets.contents, s.Attached) :
    ∃ table', closeAll w.table closing = .ok table' ∧ Accounted others leaked ⟨table', sockets, listeners⟩ := by
  obtain ⟨table', hclose, hperm, hsub⟩ := closeAll_held (h.held.trans hsplit)
  exact ⟨table', hclose, hperm, h.distinct.sublist hsub, fun fd hm => h.descriptors fd (hsub.subset hm), hattached⟩

/-- A new descriptor goes to one holder, or is leaked. -/
theorem Accounted.opens (h : Accounted others leaked w) {fd : Int} (hfresh : fd ∉ w.table) (hpos : 0 ≤ fd)
    {leaked' : List Int} {w' : Process} (htable : w'.table = fd :: w.table)
    (howned : (others ++ leaked' ++ w'.owned).Perm (fd :: (others ++ leaked ++ w.owned)))
    (hattached : ∀ s ∈ w'.sockets.contents, s.Attached) : Accounted others leaked' w' := by
  refine ⟨?_, ?_, fun other hm => ?_, hattached⟩
  · rw [htable]
    exact (h.held.cons fd).trans howned.symm
  · rw [htable]
    exact List.nodup_cons.mpr ⟨hfresh, h.distinct⟩
  · rw [htable] at hm
    rcases List.mem_cons.mp hm with rfl | hm
    · exact hpos
    · exact h.descriptors other hm

/-- What a call does to the accounts: it returns, and leaks the descriptor of a peer without a name. -/
def Settles (others leaked : List Int) (result : Except Fault (ProcessReply × Process)) : Prop :=
  ∃ reply w' leaked', result = .ok (reply, w') ∧ Accounted others leaked' w' ∧
    leaked'.length = leaked.length + if reply = .failed .peerName then 1 else 0

private theorem Accounted.settles (h : Accounted others leaked w) {reply : ProcessReply} (hr : reply ≠ .failed .peerName) :
    Settles others leaked (.ok (reply, w)) :=
  ⟨reply, w, leaked, rfl, h, by rw [if_neg hr, Nat.add_zero]⟩

theorem socketListen_settles (h : Accounted others leaked w) (results : ListenResults) :
    Settles others leaked (socketListen w results) := by
  unfold socketListen
  cases results.addresses with
  | none => exact h.settles nofun
  | some addresses =>
    rcases bindFirst_spec w.table addresses with hnone | ⟨fd, hbound, hfresh, hpos⟩
    · simp only [hnone, fault_ok_bind]
      exact h.settles nofun
    · simp only [hbound, fault_ok_bind]
      cases results.name with
      | none =>
        simp only [lthreadClose_new, fault_ok_bind]
        exact h.settles nofun
      | some name =>
        dsimp only
        split
        · have hnew : Listener.owned ⟨fd, true, name.1, name.2⟩ = [fd] := rfl
          have hopens : Accounted others leaked { w with
              table := fd :: w.table, listeners := w.listeners.alloc ⟨fd, true, name.1, name.2⟩ } := by
            refine h.opens hfresh hpos rfl ?_ h.attached
            simp only [Process.owned, Heap.contents_alloc, List.flatMap_append, List.flatMap_singleton, hnew,
              ← List.append_assoc]
            exact List.perm_append_singleton _ _
          exact hopens.settles nofun
        · simp only [lthreadClose_new, fault_ok_bind]
          exact h.settles nofun

private theorem newSocket_settles (h : Accounted others leaked w) {fd : Int} (hfresh : fd ∉ w.table) (hpos : 0 ≤ fd)
    (ip : Bytes) (port : UInt16) (peer : Peer) :
    Settles others leaked (({ w with table := fd :: w.table } : Process).newSocket fd ip port peer) := by
  have hnew : (socketNew fd ip port peer).owned = [fd] := if_pos hpos
  rw [Process.newSocket, if_neg (Int.not_lt.mpr hpos)]
  have hopens : Accounted others leaked { w with
      table := fd :: w.table, sockets := w.sockets.alloc (socketNew fd ip port peer) } := by
    refine h.opens hfresh hpos rfl ?_ (fun s hm => ?_)
    · simp only [Process.owned, Heap.contents_alloc, List.flatMap_append, List.flatMap_singleton, hnew]
      apply List.perm_iff_count.mpr
      intro other
      simp only [List.count_append, List.count_cons, List.count_nil]
      omega
    rcases List.mem_append.mp (Heap.contents_alloc w.sockets _ ▸ hm) with hm | hm
    · exact h.attached s hm
    · obtain rfl := List.mem_singleton.mp hm
      exact fun _ => hpos
  exact hopens.settles nofun

theorem listenerAccept_settles (h : Accounted others leaked w) (listener : Listener) (results : AcceptResults) :
    Settles others leaked (listenerAccept w listener results) := by
  unfold listenerAccept
  split
  · exact h.settles nofun
  · next n _ =>
    obtain ⟨hfresh, hpos⟩ := granted_fresh w.table n
    dsimp only
    cases results.name with
    | none =>
      refine ⟨_, _, leaked ++ [granted w.table n], rfl, h.opens hfresh hpos rfl ?_ h.attached, ?_⟩
      · apply List.perm_iff_count.mpr
        intro other
        simp only [Process.owned, List.count_append, List.count_cons, List.count_nil]
        omega
      · rw [List.length_append, if_pos rfl]
        rfl
    | some name => exact newSocket_settles h hfresh hpos name.1 name.2 results.peer

theorem socketConnect_settles (h : Accounted others leaked w) (port : UInt16) (results : ConnectResults) :
    Settles others leaked (socketConnect w port results) := by
  unfold socketConnect
  split
  · exact h.settles nofun
  cases results.name with
  | none => exact h.settles nofun
  | some ip =>
    cases results.socket with
    | none => exact h.settles nofun
    | some n =>
      obtain ⟨hfresh, hpos⟩ := granted_fresh w.table n
      dsimp only
      split
      · exact newSocket_settles h hfresh hpos ip port results.peer
      · rw [lthreadClose_new]
        exact h.settles nofun

section Holders
variable {address : Nat}

/-- A socket that was used is attached as it was. -/
theorem Accounted.leaves (h : Accounted others leaked w) (hread : w.sockets.read address = some s) (hs : Lasts s s') :
    ∃ table', closeAll w.table (closings s s') = .ok table' ∧
      Accounted others leaked ⟨table', w.sockets.write address s', w.listeners⟩ := by
  obtain ⟨front, back, hcontents, hwrite, -⟩ := Heap.contents_split hread
  apply h.closes
  · rw [Process.owned, hcontents, hwrite]
    simp only [List.flatMap_append, List.flatMap_cons, hs.owned]
    exact closing_first _ _ _ _ _
  · intro other hm
    rw [hwrite] at hm
    have hold := h.attached
    rw [hcontents] at hold
    rcases List.mem_append.mp hm with hm | hm
    · exact hold other (List.mem_append_left _ hm)
    rcases List.mem_cons.mp hm with rfl | hm
    · exact hs.attached (hold s (List.mem_append_right _ List.mem_cons_self))
    · exact hold other (List.mem_append_right _ (List.mem_cons_of_mem _ hm))

theorem Accounted.drops (h : Accounted others leaked w) (hread : w.sockets.read address = some s) :
    ∃ table', closeAll w.table (closings s (socketClose s)) = .ok table' ∧
      Accounted others leaked ⟨table', ⟨w.sockets.blocks.set address none⟩, w.listeners⟩ := by
  obtain ⟨front, back, hcontents, -, hfree⟩ := Heap.contents_split hread
  have hgone : (socketClose s).owned = [] := by
    unfold socketClose Socket.owned
    split
    · next hfd => exact if_neg (Int.not_le.mpr hfd)
    · rfl
  have howned := (socketClose_lasts s).owned
  rw [hgone] at howned
  apply h.closes
  · rw [Process.owned, hcontents, hfree _ (Heap.free_ok hread)]
    simp only [List.flatMap_append, List.flatMap_cons, howned]
    exact closing_first _ _ [] _ _
  · intro other hm
    rw [hfree _ (Heap.free_ok hread)] at hm
    have hold := h.attached
    rw [hcontents] at hold
    rcases List.mem_append.mp hm with hm | hm
    · exact hold other (List.mem_append_left _ hm)
    · exact hold other (List.mem_append_right _ (List.mem_cons_of_mem _ hm))

theorem Accounted.closesListener (h : Accounted others leaked w) {listener : Listener} {front back : List Listener}
    (hcontents : w.listeners.contents = front ++ listener :: back) :
    ∃ table', closeAll w.table listener.owned = .ok table' ∧ ∀ listeners : Heap Listener,
      listeners.contents.flatMap Listener.owned = (front ++ back).flatMap Listener.owned →
        Accounted others leaked ⟨table', w.sockets, listeners⟩ := by
  have hsplit : (others ++ leaked ++ w.owned).Perm (listener.owned ++ (others ++ leaked ++
      (w.sockets.contents.flatMap Socket.owned ++ (front ++ back).flatMap Listener.owned))) := by
    rw [Process.owned, hcontents, List.flatMap_append, List.flatMap_cons, List.flatMap_append]
    apply List.perm_iff_count.mpr
    intro fd
    simp only [List.count_append]
    omega
  obtain ⟨table', hclose, hperm, hsub⟩ := closeAll_held (h.held.trans hsplit)
  refine ⟨table', hclose, fun listeners hl => ⟨?_, h.distinct.sublist hsub,
    fun fd hm => h.descriptors fd (hsub.subset hm), h.attached⟩⟩
  rw [Process.owned, hl]
  exact hperm

end Holders

theorem processCall_settles (h : Accounted others leaked w) {call : ProcessCall} (ha : w.Allows call) :
    Settles others leaked (processCall w call) := by
  cases call with
  | listen results => exact socketListen_settles h results
  | connect port results => exact socketConnect_settles h port results
  | accept address results =>
    obtain ⟨listener, hread⟩ := Option.isSome_iff_exists.mp ha
    rw [processCall, hread]
    exact listenerAccept_settles h listener results
  | use address u =>
    obtain ⟨s, s', hread, huse⟩ := ha
    obtain ⟨table', hclose, hkeeps⟩ := h.leaves hread (socketUse_lasts huse)
    rw [processCall, hread]
    simp only [orUndefined, huse, hclose, fault_ok_bind]
    exact hkeeps.settles nofun
  | deleteSocket address =>
    obtain ⟨s, hread⟩ := Option.isSome_iff_exists.mp ha
    obtain ⟨table', hclose, hkeeps⟩ := h.drops hread
    rw [processCall, hread]
    simp only [orUndefined, hclose, Heap.free_ok hread, fault_ok_bind]
    exact hkeeps.settles nofun
  | closeListener address =>
    obtain ⟨listener, hread⟩ := Option.isSome_iff_exists.mp ha
    obtain ⟨front, back, hcontents, hwrite, -⟩ := Heap.contents_split hread
    obtain ⟨table', hclose, hkeeps⟩ := h.closesListener hcontents
    have hclosed : (listenerClose listener).owned = [] := by
      unfold listenerClose Listener.owned
      cases hl : listener.listening with
      | false => simp [hl]
      | true => rfl
    rw [processCall, hread]
    simp only [orUndefined, hclose, fault_ok_bind]
    refine Accounted.settles (hkeeps _ ?_) nofun
    rw [hwrite, List.flatMap_append, List.flatMap_cons, hclosed, List.nil_append, List.flatMap_append]
  | deleteListener address =>
    obtain ⟨listener, hread⟩ := Option.isSome_iff_exists.mp ha
    obtain ⟨front, back, hcontents, -, hfree⟩ := Heap.contents_split hread
    obtain ⟨table', hclose, hkeeps⟩ := h.closesListener hcontents
    rw [processCall, hread]
    simp only [orUndefined, hclose, Heap.free_ok hread, fault_ok_bind]
    exact Accounted.settles (hkeeps _ (by rw [hfree _ (Heap.free_ok hread)])) nofun

theorem processCall_allowed {call : ProcessCall} {reply : ProcessReply} {w' : Process}
    (h : processCall w call = .ok (reply, w')) : w.Allows call := by
  have hlive : ∀ {α β : Type} {x : Option α} {f : α → Except Fault β} {b : β},
      (orUndefined x >>= f) = .ok b → ∃ a, x = some a ∧ f a = .ok b := by
    intro α β x f b hb
    obtain ⟨a, ha, hf⟩ := bind_eq_ok.mp hb
    cases x with
    | none => cases ha
    | some a' =>
      cases ha
      exact ⟨a, rfl, hf⟩
  cases call with
  | listen results => trivial
  | connect port results => trivial
  | use address u =>
    obtain ⟨s, hs, h⟩ := hlive h
    obtain ⟨s', hs', -⟩ := bind_eq_ok.mp h
    exact ⟨s, s', hs, hs'⟩
  | accept address results =>
    obtain ⟨listener, hl, -⟩ := hlive h
    exact Option.isSome_iff_exists.mpr ⟨listener, hl⟩
  | deleteSocket address =>
    obtain ⟨s, hs, -⟩ := hlive h
    exact Option.isSome_iff_exists.mpr ⟨s, hs⟩
  | closeListener address =>
    obtain ⟨listener, hl, -⟩ := hlive h
    exact Option.isSome_iff_exists.mpr ⟨listener, hl⟩
  | deleteListener address =>
    obtain ⟨listener, hl, -⟩ := hlive h
    exact Option.isSome_iff_exists.mpr ⟨listener, hl⟩

theorem processCalls_accounted {calls : List ProcessCall} {replies : List ProcessReply} {w' : Process}
    (h : Accounted others leaked w) (hrun : runCalls processCall w calls = .ok (replies, w')) :
    ∃ leaked', leaked'.length = leaked.length + replies.count (.failed .peerName) ∧ Accounted others leaked' w' := by
  induction calls generalizing w leaked replies with
  | nil =>
    obtain ⟨rfl, rfl⟩ := Prod.mk.inj (Except.ok.inj hrun)
    exact ⟨leaked, rfl, h⟩
  | cons call calls ih =>
    obtain ⟨reply, w1, rest, hcall, htail, rfl⟩ := runCalls_cons_replies hrun
    obtain ⟨reply1, w2, leaked1, hsettled, hfirst, hlength⟩ := processCall_settles h (processCall_allowed hcall)
    rw [hcall] at hsettled
    cases hsettled
    obtain ⟨leaked2, hcount, hlast⟩ := ih hfirst htail
    refine ⟨leaked2, ?_, hlast⟩
    rw [hcount, hlength, List.count_cons]
    simp only [beq_iff_eq]
    omega

end Steps

/-- In every run of a process no descriptor is closed that is not open: each call with live pointers returns.
The open descriptors are, without duplicates, those of other parts, those that sockets and listeners hold,
and one for each accepted peer whose name could not be found. A connected socket holds one. -/
theorem descriptors_accounted {others : List Int} (hd : others.Nodup) (hn : ∀ fd ∈ others, 0 ≤ fd)
    {calls : List ProcessCall} {replies : List ProcessReply} {w : Process}
    (hrun : runCalls processCall (.start others) calls = .ok (replies, w)) :
    (∃ leaked, leaked.length = replies.count (.failed .peerName) ∧
        w.table.Perm (others ++ leaked ++ w.owned)) ∧
      w.table.Nodup ∧ (∀ s ∈ w.sockets.contents, s.connected = true → s.fd ∈ w.table) ∧
      ∀ call, w.Allows call → ∃ reply w', processCall w call = .ok (reply, w') := by
  obtain ⟨leaked, hlength, h⟩ := processCalls_accounted (.start hd hn) hrun
  refine ⟨⟨leaked, hlength.trans (Nat.zero_add _), h.held⟩, h.distinct, fun s hs hc => ?_, fun call ha => ?_⟩
  · apply h.held.mem_iff.mpr
    apply List.mem_append_right
    apply List.mem_append_left
    have howns : s.owned = [s.fd] := if_pos (h.attached s hs hc)
    exact List.mem_flatMap.mpr ⟨s, hs, by rw [howns]; exact List.mem_singleton.mpr rfl⟩
  · obtain ⟨reply, w', leaked', hcall, -⟩ := processCall_settles h ha
    exact ⟨reply, w', hcall⟩

/-- A listener whose second address can be bound, a peer that goes away in a write, and one without a name. -/
def leakingCalls : List ProcessCall :=
  [.listen ⟨some [⟨some 3, false⟩, ⟨some 3, true⟩], some (ascii "::", 1025), true⟩,
    .accept 0 ⟨some 4, some (ascii "::1", 40000), ⟨[], [], [], [.accept 1, .broken]⟩⟩,
    .accept 0 ⟨some 5, none, ⟨[], [], [], []⟩⟩,
    .use 0 (.write (ascii "abc")), .deleteSocket 0, .deleteListener 0]

theorem descriptors_accounted_leaking : ∃ replies w,
    runCalls processCall (.start [0, 1, 2]) leakingCalls = .ok (replies, w) ∧
    w.table = [5, 0, 1, 2] ∧ (∃ leaked, leaked.length = 1 ∧ w.table.Perm ([0, 1, 2] ++ leaked ++ w.owned)) ∧
      w.table.Nodup := by
  have hrun : ∃ replies w, runCalls processCall (.start [0, 1, 2]) leakingCalls = .ok (replies, w) ∧
      replies.count (.failed .peerName) = 1 ∧ w.table = [5, 0, 1, 2] := ⟨_, _, rfl, by decide, by decide⟩
  obtain ⟨replies, w, hrun, hcount, htable⟩ := hrun
  obtain ⟨hheld, hdistinct, -⟩ := descriptors_accounted (by decide) (by decide) hrun
  rw [hcount] at hheld
  exact ⟨replies, w, hrun, htable, hheld, hdistinct⟩

end CFlare.Network
