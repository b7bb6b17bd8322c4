import CFlare.Handles.HandleLifecycle
import CFlare.Library.Termination

/-! Handles used by several threads. The mutex makes one step of what a call does while it holds it; a slot that the call
returns something of is read behind that, when other threads have gone on. -/
namespace CFlare.Handles
open CFlare.Library

/-- What a call has when it gives up the mutex: its answer, or the slot that it reads it from. -/
inductive Outcome where
  | answers (reply : HandleReply)
  | readsId (slot : Fin maxRefs)
  | readsData (slot : Fin maxRefs)
  deriving DecidableEq, Repr

def Outcome.read (s : HandleTable) : Outcome → HandleReply
  | answers reply => reply
  | readsId slot => .handle (s.refs slot).id
  | readsData slot => .pointer (s.refs slot).data

def Outcome.slot : Outcome → Option (Fin maxRefs)
  | answers _ => none
  | readsId slot => some slot
  | readsData slot => some slot

/-- The part of a call that holds the mutex. -/
def handleSection (s : HandleTable) : HandleCall → Except Fault Outcome × HandleTable
  | .new item =>
    if s.loaded = false then (.error .assertion, s)
    else if s.locked then (.error .diverged, s)
    else
      match s.newHandle with
      | .error fault => (.error fault, s)
      | .ok none => (.ok (.answers (.handle 0)), s)
      | .ok (some (i, s')) =>
        if 32 < item.type.length + 1 then (.error .overrun, s')
        else (.ok (.readsId i), s'.setRef i (item.reference (s'.refs i).id 1))
  | .reference hd => Prod.map (Except.map fun _ => .answers .done) id (handleReference s hd)
  | .unreference hd => Prod.map (Except.map fun _ => .answers .done) id (handleUnreference recordDeletion s hd)
  | .data hd =>
    if hd = 0 ∨ s.loaded = false then (.error .assertion, s)
    else if s.locked then (.error .diverged, s)
    else
      match s.findHandle hd with
      | none => (.error .abort, s)
      | some i => (.ok (.readsData i), s)

def HandleCall.given : HandleCall → Option Handle
  | new _ => none
  | reference hd => some hd
  | unreference hd => some hd
  | data hd => some hd

/-- The references that a thread has after a section. -/
def ownedAfter (own : Handle → Nat) (s : HandleTable) : HandleCall → Outcome → Handle → Nat
  | .new _, .readsId slot => Function.update own (s.refs slot).id (own (s.refs slot).id + 1)
  | .reference hd, _ => Function.update own hd (own hd + 1)
  | .unreference hd, _ => Function.update own hd (own hd - 1)
  | _, _ => own

/-- A reference is handed from one thread to another. -/
def handOver (own : Nat → Handle → Nat) (i j : Nat) (hd : Handle) : Nat → Handle → Nat :=
  let own := Function.update own i (Function.update (own i) hd (own i hd - 1))
  Function.update own j (Function.update (own j) hd (own j hd + 1))

/-- The table and its threads: the call that each of them is in, with its place among all calls, and the references that
it has. The calls are in the order of their sections, and answers that were returned have the place of their call. -/
structure SharedHandles where
  table : HandleTable
  phase : Nat → Option (Nat × Outcome)
  own : Nat → Handle → Nat
  calls : List HandleCall
  returned : List (Nat × HandleReply)

/-- A thread may make a call with a handle of which it has a reference. -/
def SharedHandles.Permits (s : SharedHandles) (i : Nat) (call : HandleCall) : Prop :=
  ∀ hd ∈ call.given, 0 < s.own i hd

/-- One step of one of `n` threads. -/
inductive HandleMove (n : Nat) (s : SharedHandles) : SharedHandles → Prop where
  | enter {i : Nat} {call : HandleCall} {outcome : Outcome} {table : HandleTable} (thread : i < n)
      (idle : s.phase i = none) (permits : s.Permits i call)
      (runs : handleSection s.table call = (.ok outcome, table)) :
      HandleMove n s { s with
        table := table
        phase := Function.update s.phase i (some (s.calls.length, outcome))
        own := Function.update s.own i (ownedAfter (s.own i) table call outcome)
        calls := s.calls ++ [call] }
  | leave {i position : Nat} {outcome : Outcome} (thread : i < n) (pending : s.phase i = some (position, outcome)) :
      HandleMove n s { s with
        phase := Function.update s.phase i none
        returned := s.returned ++ [(position, outcome.read s.table)] }
  | give {i j : Nat} {hd : Handle} (thread : i < n) (other : j < n) (idle : s.phase i = none) (has : 0 < s.own i hd) :
      HandleMove n s { s with own := handOver s.own i j hd }

/-- What is reached from a table that was loaded, in any order of steps. -/
inductive SharedRun (n : Nat) (start : HandleTable) : SharedHandles → Prop where
  | load : SharedRun n start ⟨(handleLoad start).2, fun _ => none, fun _ _ => 0, [], []⟩
  | move {s s' : SharedHandles} (h : SharedRun n start s) (hmove : HandleMove n s s') : SharedRun n start s'

section Sections
variable {s s' : HandleTable} {call : HandleCall} {outcome : Outcome} {reply : HandleReply}

/-- Alone, a call is its section and the read behind it. -/
theorem handleCall_section (s : HandleTable) (call : HandleCall) : handleCall s call =
    ((handleSection s call).1.map (Outcome.read (handleSection s call).2), (handleSection s call).2) := by
  cases call with
  | reference hd =>
    rw [handleCall, handleSection]
    generalize handleReference s hd = r
    obtain ⟨result, s'⟩ := r
    cases result <;> rfl
  | unreference hd =>
    rw [handleCall, handleSection]
    generalize handleUnreference recordDeletion s hd = r
    obtain ⟨result, s'⟩ := r
    cases result <;> rfl
  | data hd =>
    rw [handleCall, handleData, handleSection]
    split
    · rfl
    · split
      · rfl
      · cases s.findHandle hd <;> rfl
  | new item =>
    rw [handleCall, handleNew, handleSection]
    split
    · rfl
    · split
      · rfl
      · cases s.newHandle with
        | error fault => rfl
        | ok found =>
          cases found with
          | none => rfl
          | some r =>
            obtain ⟨i, s'⟩ := r
            dsimp only
            split
            · rfl
            · simp [Except.map, Outcome.read, Item.reference, setRef_self]

theorem handleCall_of_section (h : handleSection s call = (.ok outcome, s')) :
    handleCall s call = (.ok (outcome.read s'), s') := by
  rw [handleCall_section, h]
  rfl

theorem section_of_handleCall (h : handleCall s call = (.ok reply, s')) :
    ∃ outcome, handleSection s call = (.ok outcome, s') := by
  rw [handleCall_section] at h
  obtain ⟨hresult, rfl⟩ := Prod.mk.inj h
  obtain ⟨outcome, hok, -⟩ := map_eq_ok.mp hresult
  exact ⟨outcome, Prod.ext hok rfl⟩

/-- What a section that returns has come to. -/
inductive Sectioned (s s' : HandleTable) : HandleCall → Outcome → Prop where
  | full (item : Item) : Sectioned s s' (.new item) (.answers (.handle 0))
  | created (item : Item) {k : Fin maxRefs} (taken : (s'.refs k).id ≠ 0) : Sectioned s s' (.new item) (.readsId k)
  | reference (hd : Handle) : Sectioned s s' (.reference hd) (.answers .done)
  | unreference (hd : Handle) : Sectioned s s' (.unreference hd) (.answers .done)
  | data {k : Fin maxRefs} (taken : (s.refs k).id ≠ 0) (same : s' = s) :
    Sectioned s s' (.data (s.refs k).id) (.readsData k)

theorem section_cases (h : handleSection s call = (.ok outcome, s')) : Sectioned s s' call outcome := by
  cases call with
  | reference hd =>
    obtain ⟨hresult, -⟩ := Prod.mk.inj h
    obtain ⟨-, -, rfl⟩ := map_eq_ok.mp hresult
    exact .reference hd
  | unreference hd =>
    obtain ⟨hresult, -⟩ := Prod.mk.inj h
    obtain ⟨-, -, rfl⟩ := map_eq_ok.mp hresult
    exact .unreference hd
  | data hd =>
    rw [handleSection] at h
    split at h
    · cases h
    · next hz =>
      split at h
      · cases h
      · cases hf : s.findHandle hd with
        | none =>
          rw [hf] at h
          cases h
        | some k =>
          rw [hf] at h
          obtain ⟨hok, rfl⟩ := Prod.mk.inj h
          obtain rfl := Except.ok.inj hok
          obtain rfl := findHandle_some hf
          exact .data (fun he => hz (.inl he)) rfl
  | new item =>
    rw [handleSection] at h
    split at h
    · cases h
    · split at h
      · cases h
      · rw [HandleTable.newHandle] at h
        cases hf : (List.finRange maxRefs).find? (fun i => (s.refs i).id = 0) with
        | none =>
          rw [hf] at h
          obtain ⟨hok, -⟩ := Prod.mk.inj h
          obtain rfl := Except.ok.inj hok
          exact .full item
        | some k =>
          rw [hf] at h
          dsimp only at h
          by_cases hz : sizeAdd s.curid 1 = 0
          · rw [if_pos hz] at h
            cases h
          · rw [if_neg hz] at h
            dsimp only at h
            split at h
            · cases h
            · obtain ⟨hok, rfl⟩ := Prod.mk.inj h
              obtain rfl := Except.ok.inj hok
              exact .created item (by simpa [Item.reference, setRef_self] using hz)

end Sections

section Slots
variable {first : Handle} {calls : List HandleCall} {replies : List HandleReply} {s s' : HandleTable}
  {call : HandleCall} {reply : HandleReply}

/-- A call leaves a slot that is taken to its handle, unless it is the last unreference. -/
theorem Lifecycle.slot_stays (h : Lifecycle first calls replies s) (hfit : OwnersFit calls)
    (hlive : ∀ hd ∈ call.given, s.Live hd) (hok : handleCall s call = (.ok reply, s')) {k : Fin maxRefs}
    (hk : (s.refs k).id ≠ 0) (hmore : call = .unreference (s.refs k).id → owners calls (s.refs k).id ≠ 1) :
    (s'.refs k).id = (s.refs k).id ∧ (s'.refs k).data = (s.refs k).data := by
  have hcount : ∀ (i : Fin maxRefs) (count : Nat),
      ((s.setRef i { s.refs i with count := count }).refs k).id = (s.refs k).id ∧
      ((s.setRef i { s.refs i with count := count }).refs k).data = (s.refs k).data := by
    intro i count
    by_cases hki : k = i
    · subst hki
      simp [setRef_self]
    · simp [setRef_of_ne _ hki]
  have hgiven : ∀ hd, call.given = some hd → ∃ item, (hd, item) ∈ created calls replies ∧ s.Live hd :=
    fun hd hg => (h.issued (hlive hd hg)).imp fun item he => ⟨he, hlive hd hg⟩
  cases call with
  | new item =>
    rcases handleNew_cases h item with ⟨hfull, -⟩ | ⟨i, hi, hnew, honly⟩
    · rw [hok] at hfull
      obtain ⟨-, rfl⟩ := Prod.mk.inj hfull
      exact ⟨rfl, rfl⟩
    · obtain ⟨hz, hlen⟩ := honly reply s' hok
      have he := hnew hz hlen
      rw [hok] at he
      obtain ⟨-, rfl⟩ := Prod.mk.inj he
      have hki : k ≠ i := fun hki => hk (hki ▸ hi)
      simp [setRef_of_ne _ hki]
  | data hd =>
    obtain ⟨item, he, hl⟩ := hgiven hd rfl
    obtain ⟨i, -, hdata, -⟩ := live_calls h hfit he hl
    rw [hok] at hdata
    obtain ⟨-, rfl⟩ := Prod.mk.inj hdata
    exact ⟨rfl, rfl⟩
  | reference hd =>
    obtain ⟨item, he, hl⟩ := hgiven hd rfl
    obtain ⟨i, -, -, href, -⟩ := live_calls h hfit he hl
    rw [hok] at href
    obtain ⟨-, rfl⟩ := Prod.mk.inj href
    exact hcount i _
  | unreference hd =>
    obtain ⟨item, he, hl⟩ := hgiven hd rfl
    obtain ⟨i, hi, -, -, hmany, hlast⟩ := live_calls h hfit he hl
    by_cases hone : owners calls hd = 1
    · obtain ⟨ref, -, hun⟩ := hlast hone
      rw [hok] at hun
      obtain ⟨-, rfl⟩ := Prod.mk.inj hun
      have hki : k ≠ i := by
        rintro rfl
        exact hmore (by rw [hi]) (by rw [hi]; exact hone)
      simp [setRef_of_ne _ hki]
    · have hun := hmany hone
      rw [hok] at hun
      obtain ⟨-, rfl⟩ := Prod.mk.inj hun
      exact hcount i _

theorem Outcome.read_congr {outcome : Outcome} (h : ∀ k ∈ outcome.slot,
    (s'.refs k).id = (s.refs k).id ∧ (s'.refs k).data = (s.refs k).data) : outcome.read s' = outcome.read s := by
  cases outcome with
  | answers reply => rfl
  | readsId k => exact congrArg HandleReply.handle (h k rfl).1
  | readsData k => exact congrArg HandleReply.pointer (h k rfl).2

end Slots

def issued (calls : List HandleCall) (replies : List HandleReply) : List Handle := (created calls replies).map Prod.fst

/-- All references of a handle that the threads have. -/
def held (n : Nat) (own : Nat → Handle → Nat) (hd : Handle) : Nat := totalRank (fun own => own hd) n own

/-- What holds in every state: the table is that after the calls in the order of their sections, the references of the
threads are all there are, and every answer is the one that its call has in this order. -/
structure SharedHandles.Ordered (n : Nat) (start : HandleTable) (s : SharedHandles) (replies : List HandleReply) :
    Prop where
  run : runCalls handleStep (handleLoad start).2 s.calls = .ok (replies, s.table)
  lifecycle : Lifecycle start.curid s.calls replies s.table
  bound : s.table.curid < sizeLimit
  owned : ∀ hd, held n s.own hd = if hd ∈ issued s.calls replies then owners s.calls hd else 0
  pending : ∀ i < n, ∀ position outcome, s.phase i = some (position, outcome) →
    replies[position]? = some (outcome.read s.table) ∧
      ∀ k ∈ outcome.slot, (s.table.refs k).id ≠ 0 ∧ 0 < s.own i (s.table.refs k).id
  returned : ∀ r ∈ s.returned, replies[r.1]? = some r.2

section Holding
variable {n i j : Nat} {own : Nat → Handle → Nat} {hd : Handle}

theorem held_update (hi : i < n) (own : Nat → Handle → Nat) (own' : Handle → Nat) (hd : Handle) :
    held n (Function.update own i own') hd + own i hd = held n own hd + own' hd :=
  totalRank_update _ hi own own'

theorem held_pos (hi : i < n) (h : 0 < own i hd) : 0 < held n own hd := by
  refine Nat.pos_of_ne_zero fun hz => ?_
  have hzero := totalRank_eq_zero.mp hz i hi
  exact Nat.ne_of_gt h hzero

theorem held_two (hi : i < n) (hj : j < n) (hij : i ≠ j) (h : 0 < own i hd) (h' : 0 < own j hd) :
    1 < held n own hd := by
  have hwithout := held_update hi own (fun _ => 0) hd
  have hrest : 0 < held n (Function.update own i (fun _ => 0)) hd :=
    held_pos hj (by rwa [Function.update_of_ne hij.symm])
  omega

theorem held_handOver (hi : i < n) (hj : j < n) (h : 0 < own i hd) (other : Handle) :
    held n (handOver own i j hd) other = held n own other := by
  have htaken := held_update hi own (Function.update (own i) hd (own i hd - 1)) other
  have hgiven := held_update hj (Function.update own i (Function.update (own i) hd (own i hd - 1)))
    (Function.update (Function.update own i (Function.update (own i) hd (own i hd - 1)) j) hd
      (Function.update own i (Function.update (own i) hd (own i hd - 1)) j hd + 1)) other
  rw [handOver]
  by_cases ho : other = hd
  · subst ho
    rw [Function.update_self] at htaken hgiven
    omega
  · rw [Function.update_of_ne ho] at htaken hgiven
    omega

/-- A thread that gives nothing away has no fewer references. -/
theorem handOver_other {k : Nat} (hk : k ≠ i) (other : Handle) : own k other ≤ handOver own i j hd k other := by
  rw [handOver]
  by_cases hkj : k = j
  · subst hkj
    rw [Function.update_self, Function.update_of_ne hk]
    by_cases ho : other = hd
    · subst ho
      rw [Function.update_self]
      exact Nat.le_succ _
    · rw [Function.update_of_ne ho]
  · rw [Function.update_of_ne hkj, Function.update_of_ne hk]

end Holding

section Moves
variable {n : Nat} {start : HandleTable} {s s' : SharedHandles} {replies : List HandleReply}

theorem issued_append {calls : List HandleCall} {replies : List HandleReply} (hl : calls.length = replies.length)
    (call : HandleCall) (reply : HandleReply) : issued (calls ++ [call]) (replies ++ [reply]) =
      issued calls replies ++ ((creation (call, reply)).map Prod.fst).toList := by
  rw [issued, created_append hl, List.map_append, issued]
  cases creation (call, reply) <;> rfl

/-- A handle of which a thread has a reference is live. -/
theorem SharedHandles.Ordered.owns (h : s.Ordered n start replies) {i : Nat} (hi : i < n) {hd : Handle}
    (hpos : 0 < s.own i hd) : hd ∈ issued s.calls replies ∧ 0 < owners s.calls hd ∧ s.table.Live hd := by
  have hheld := held_pos hi hpos
  rw [h.owned] at hheld
  split at hheld
  · next hm =>
    obtain ⟨entry, he, rfl⟩ := List.mem_map.mp hm
    exact ⟨hm, hheld, (h.lifecycle.live entry he).mp hheld⟩
  · exact absurd hheld (Nat.lt_irrefl 0)

theorem owners_other {calls : List HandleCall} {call : HandleCall} {hd : Handle} (href : call ≠ .reference hd)
    (hun : call ≠ .unreference hd) : owners (calls ++ [call]) hd = owners calls hd := by
  rw [owners_append, if_neg href, if_neg hun]
  rfl

/-- A section changes the references of its thread as it changes the owners. -/
theorem SharedHandles.Ordered.owned_after (h : s.Ordered n start replies) {i : Nat} (hi : i < n) {call : HandleCall}
    {outcome : Outcome} {table : HandleTable} (hpermits : s.Permits i call)
    (hcase : Sectioned s.table table call outcome)
    (hlife : Lifecycle start.curid (s.calls ++ [call]) (replies ++ [outcome.read table]) table) (hd : Handle) :
    held n (Function.update s.own i (ownedAfter (s.own i) table call outcome)) hd =
      if hd ∈ issued (s.calls ++ [call]) (replies ++ [outcome.read table]) then owners (s.calls ++ [call]) hd else 0 := by
  have hheld := held_update hi s.own (ownedAfter (s.own i) table call outcome) hd
  have hold := h.owned hd
  have hnames := issued_append h.lifecycle.answered call (outcome.read table)
  cases hcase with
  | full item =>
    have hsame : ownedAfter (s.own i) table (.new item) (.answers (.handle 0)) = s.own i := rfl
    have howners : owners (s.calls ++ [.new item]) hd = owners s.calls hd := owners_other (by simp) (by simp)
    rw [hsame] at hheld ⊢
    rw [hnames, howners]
    simpa [creation, Outcome.read] using (Nat.add_right_cancel hheld).trans hold
  | @data k taken same =>
    have hsame : ownedAfter (s.own i) table (.data (s.table.refs k).id) (.readsData k) = s.own i := rfl
    have howners : owners (s.calls ++ [.data (s.table.refs k).id]) hd = owners s.calls hd :=
      owners_other (by simp) (by simp)
    rw [hsame] at hheld ⊢
    rw [hnames, howners]
    simpa [creation] using (Nat.add_right_cancel hheld).trans hold
  | reference given =>
    obtain ⟨hissued, hpos, -⟩ := h.owns hi (hpermits given rfl)
    have hlist : issued (s.calls ++ [.reference given]) (replies ++ [.done]) = issued s.calls replies := by
      rw [issued_append h.lifecycle.answered]
      exact List.append_nil _
    rw [show Outcome.read table (.answers .done) = .done from rfl, hlist]
    rw [ownedAfter] at hheld ⊢
    by_cases hg : hd = given
    · subst hg
      rw [Function.update_self] at hheld
      rw [if_pos hissued] at hold ⊢
      rw [owners_reference hpos]
      omega
    · rw [Function.update_of_ne hg] at hheld
      have howners : owners (s.calls ++ [.reference given]) hd = owners s.calls hd :=
        owners_other (by simpa using Ne.symm hg) (by simp)
      rw [howners]
      exact (Nat.add_right_cancel hheld).trans hold
  | unreference given =>
    obtain ⟨hissued, hpos, -⟩ := h.owns hi (hpermits given rfl)
    have hown := hpermits given rfl
    have hlist : issued (s.calls ++ [.unreference given]) (replies ++ [.done]) = issued s.calls replies := by
      rw [issued_append h.lifecycle.answered]
      exact List.append_nil _
    rw [show Outcome.read table (.answers .done) = .done from rfl, hlist]
    rw [ownedAfter] at hheld ⊢
    by_cases hg : hd = given
    · subst hg
      rw [Function.update_self] at hheld
      rw [if_pos hissued] at hold ⊢
      rw [owners_unreference]
      omega
    · rw [Function.update_of_ne hg] at hheld
      have howners : owners (s.calls ++ [.unreference given]) hd = owners s.calls hd :=
        owners_other (by simp) (by simpa using Ne.symm hg)
      rw [howners]
      exact (Nat.add_right_cancel hheld).trans hold
  | @created item k taken =>
    have hone : creation (.new item, .handle (table.refs k).id) = some ((table.refs k).id, item) := if_neg taken
    have hlist : issued (s.calls ++ [.new item]) (replies ++ [.handle (table.refs k).id]) =
        issued s.calls replies ++ [(table.refs k).id] := by
      rw [issued_append h.lifecycle.answered, hone]
      rfl
    -- the new handle was not issued before
    have hfresh : (table.refs k).id ∉ issued s.calls replies := by
      have hnodup : (issued (s.calls ++ [.new item]) (replies ++ [.handle (table.refs k).id])).Nodup := hlife.nodup
      rw [hlist, List.nodup_append] at hnodup
      exact fun hm => hnodup.2.2 _ hm _ List.mem_cons_self rfl
    have howners : owners (s.calls ++ [.new item]) hd = owners s.calls hd := owners_other (by simp) (by simp)
    rw [show Outcome.read table (.readsId k) = .handle (table.refs k).id from rfl, hlist, howners]
    rw [ownedAfter] at hheld ⊢
    by_cases hg : hd = (table.refs k).id
    · subst hg
      have huntouched := h.lifecycle.untouched _ hfresh
      have hone : owners s.calls (table.refs k).id = 1 := by rw [owners, huntouched.1, huntouched.2]
      rw [Function.update_self] at hheld
      rw [if_neg hfresh] at hold
      rw [if_pos (List.mem_append_right _ List.mem_cons_self), hone]
      omega
    · rw [Function.update_of_ne hg] at hheld
      rw [(Nat.add_right_cancel hheld).trans hold]
      simp [hg]

/-- A section puts its call behind the others, with the answer that will be read. -/
theorem SharedHandles.Ordered.enters (h : s.Ordered n start replies) {i : Nat} (hi : i < n) {call : HandleCall}
    {outcome : Outcome} {table : HandleTable} (hpermits : s.Permits i call)
    (hruns : handleSection s.table call = (.ok outcome, table)) (hfit : OwnersFit (s.calls ++ [call])) :
    SharedHandles.Ordered n start { s with
      table := table
      phase := Function.update s.phase i (some (s.calls.length, outcome))
      own := Function.update s.own i (ownedAfter (s.own i) table call outcome)
      calls := s.calls ++ [call] } (replies ++ [outcome.read table]) := by
  have hcall := handleCall_of_section hruns
  have hcase := section_cases hruns
  have hstep : handleStep s.table call = .ok (outcome.read table, table) := by rw [handleStep, hcall]
  obtain ⟨hlife, hbound⟩ := handleCall_lifecycle h.lifecycle h.bound hfit hcall
  have hlive : ∀ hd ∈ call.given, s.table.Live hd := fun hd hm => (h.owns hi (hpermits hd hm)).2.2
  refine ⟨runCalls_append_singleton h.run hstep, hlife, hbound, h.owned_after hi hpermits hcase hlife, ?_, ?_⟩
  · intro j hj position pending hphase
    dsimp only at hphase ⊢
    by_cases hji : j = i
    · subst hji
      rw [Function.update_self] at hphase
      obtain ⟨rfl, rfl⟩ := Prod.mk.inj (Option.some.inj hphase)
      rw [h.lifecycle.answered, List.getElem?_concat_length, Function.update_self]
      refine ⟨rfl, fun k hk => ?_⟩
      cases hcase with
      | @created item k' taken =>
        obtain rfl := Option.some.inj hk
        refine ⟨taken, ?_⟩
        rw [ownedAfter, Function.update_self]
        exact Nat.succ_pos _
      | @data k' taken same =>
        obtain rfl := Option.some.inj hk
        rw [same]
        exact ⟨taken, hpermits _ rfl⟩
      | full item => cases hk
      | reference given => cases hk
      | unreference given => cases hk
    · rw [Function.update_of_ne hji] at hphase ⊢
      obtain ⟨hreply, hslot⟩ := h.pending j hj position pending hphase
      -- the slot is that of a handle with a reference of its own, so it is not freed
      have hstays : ∀ k ∈ pending.slot,
          (table.refs k).id = (s.table.refs k).id ∧ (table.refs k).data = (s.table.refs k).data := by
        intro k hk
        obtain ⟨htaken, hown⟩ := hslot k hk
        refine h.lifecycle.slot_stays hfit.take hlive hcall htaken ?_
        rintro rfl
        have htwo := held_two hi hj (Ne.symm hji) (hpermits _ rfl) hown
        rw [h.owned, if_pos (h.owns hj hown).1] at htwo
        exact Nat.ne_of_gt htwo
      refine ⟨?_, fun k hk => ?_⟩
      · rw [Outcome.read_congr hstays, List.getElem?_append_left (List.getElem?_eq_some_iff.mp hreply).1]
        exact hreply
      · rw [(hstays k hk).1]
        exact hslot k hk
  · intro r hr
    have hreply := h.returned r hr
    rwa [List.getElem?_append_left (List.getElem?_eq_some_iff.mp hreply).1]

theorem SharedHandles.Ordered.move (h : s.Ordered n start replies) (hmove : HandleMove n s s')
    (hfit : OwnersFit s'.calls) : ∃ replies', s'.Ordered n start replies' := by
  cases hmove with
  | enter thread idle permits runs => exact ⟨_, h.enters thread permits runs hfit⟩
  | @leave i position outcome thread pending =>
    refine ⟨replies, h.run, h.lifecycle, h.bound, h.owned, ?_, ?_⟩
    · intro j hj place other hphase
      dsimp only at hphase
      by_cases hji : j = i
      · subst hji
        rw [Function.update_self] at hphase
        cases hphase
      · rw [Function.update_of_ne hji] at hphase
        exact h.pending j hj place other hphase
    · intro r hr
      rcases List.mem_append.mp hr with hr | hr
      · exact h.returned r hr
      · rw [List.mem_singleton.mp hr]
        exact (h.pending i thread position outcome pending).1
  | @give i j hd thread other idle has =>
    refine ⟨replies, h.run, h.lifecycle, h.bound, fun given => ?_, ?_, h.returned⟩
    · rw [held_handOver thread other has]
      exact h.owned given
    · intro k hk place outcome hphase
      obtain ⟨hreply, hslot⟩ := h.pending k hk place outcome hphase
      have hki : k ≠ i := by
        rintro rfl
        rw [idle] at hphase
        cases hphase
      exact ⟨hreply, fun slot hs => ⟨(hslot slot hs).1, (hslot slot hs).2.trans_le (handOver_other hki _)⟩⟩

theorem HandleMove.calls (h : HandleMove n s s') : s.calls <+: s'.calls := by
  cases h with
  | enter => exact List.prefix_append _ _
  | leave => exact List.prefix_refl _
  | give => exact List.prefix_refl _

theorem SharedRun.ordered (hload : start.loaded = false) (hcur : start.curid < sizeLimit) (h : SharedRun n start s)
    (hfit : OwnersFit s.calls) : ∃ replies, s.Ordered n start replies := by
  induction h with
  | load =>
    have hlife := Lifecycle.start hload
    have hcounter : (handleLoad start).2.curid = start.curid := hlife.counter
    refine ⟨[], rfl, hlife, hcounter ▸ hcur, fun hd => ?_, fun i hi position outcome hphase => ?_, fun r hr => ?_⟩
    · exact totalRank_eq_zero.mpr fun i hi => rfl
    · cases hphase
    · cases hr
  | move _ hmove ih =>
    have hprefix := hmove.calls
    obtain ⟨replies, hordered⟩ := ih fun done hdone => hfit done (hdone.trans hprefix)
    exact hordered.move hmove hfit

/-- A call that the thread may make returns from its section. A new handle is created if the counter and the name allow
it. -/
theorem SharedHandles.Ordered.runs (h : s.Ordered n start replies) (hfit : OwnersFit s.calls) {i : Nat} (hi : i < n)
    {call : HandleCall} (hpermits : s.Permits i call)
    (hnew : ∀ item, call = .new item → item.type.length < 32 ∧ s.table.curid + 1 < sizeLimit) :
    ∃ outcome table, handleSection s.table call = (.ok outcome, table) := by
  have hgiven : ∀ hd, call.given = some hd → ∃ item, (hd, item) ∈ created s.calls replies ∧ s.table.Live hd :=
    fun hd hg => (h.lifecycle.issued (h.owns hi (hpermits hd hg)).2.2).imp fun item he =>
      ⟨he, (h.owns hi (hpermits hd hg)).2.2⟩
  suffices hok : ∃ reply table, handleCall s.table call = (.ok reply, table) by
    obtain ⟨reply, table, hcall⟩ := hok
    obtain ⟨outcome, hsection⟩ := section_of_handleCall hcall
    exact ⟨outcome, table, hsection⟩
  cases call with
  | new item =>
    obtain ⟨hlen, hroom⟩ := hnew item rfl
    rcases handleNew_cases h.lifecycle item with ⟨hfull, -⟩ | ⟨k, -, hok, -⟩
    · exact ⟨_, _, hfull⟩
    · refine ⟨_, _, hok ?_ hlen⟩
      rw [sizeAdd_of_lt hroom]
      exact Nat.succ_ne_zero _
  | data hd =>
    obtain ⟨item, he, hl⟩ := hgiven hd rfl
    obtain ⟨k, -, hdata, -⟩ := live_calls h.lifecycle hfit he hl
    exact ⟨_, _, hdata⟩
  | reference hd =>
    obtain ⟨item, he, hl⟩ := hgiven hd rfl
    obtain ⟨k, -, -, href, -⟩ := live_calls h.lifecycle hfit he hl
    exact ⟨_, _, href⟩
  | unreference hd =>
    obtain ⟨item, he, hl⟩ := hgiven hd rfl
    obtain ⟨k, -, -, -, hmany, hlast⟩ := live_calls h.lifecycle hfit he hl
    by_cases hone : owners s.calls hd = 1
    · obtain ⟨ref, -, hun⟩ := hlast hone
      exact ⟨_, _, hun⟩
    · exact ⟨_, _, hmany hone⟩

end Moves

/-- Threads that use only handles of which they have a reference see one table: every answer is that of the call when the
calls are made one after the other in the order of their sections, although slots are read outside of them. No such call
aborts, and the references of the threads are the owners that are counted. -/
theorem concurrent_handles {n : Nat} {start : HandleTable} (hload : start.loaded = false)
    (hcur : start.curid < sizeLimit) {s : SharedHandles} (h : SharedRun n start s) (hfit : OwnersFit s.calls) :
    ∃ replies, runCalls handleStep (handleLoad start).2 s.calls = .ok (replies, s.table) ∧
      (∀ r ∈ s.returned, replies[r.1]? = some r.2) ∧
      (∀ i < n, ∀ position outcome, s.phase i = some (position, outcome) →
        replies[position]? = some (outcome.read s.table)) ∧
      (∀ hd, s.table.Live hd → held n s.own hd = owners s.calls hd) ∧
      ∀ i < n, ∀ call, s.Permits i call →
        (∀ item, call = .new item → item.type.length < 32 ∧ s.table.curid + 1 < sizeLimit) →
          ∃ outcome table, handleSection s.table call = (.ok outcome, table) := by
  obtain ⟨replies, hordered⟩ := h.ordered hload hcur hfit
  refine ⟨replies, hordered.run, hordered.returned,
    fun i hi position outcome hphase => (hordered.pending i hi position outcome hphase).1, fun hd hlive => ?_,
    fun i hi call hpermits hnew => hordered.runs hfit hi hpermits hnew⟩
  obtain ⟨item, he⟩ := hordered.lifecycle.issued hlive
  have hissued : hd ∈ issued s.calls replies := List.mem_map.mpr ⟨_, he, rfl⟩
  rw [hordered.owned, if_pos hissued]

theorem SharedRun.entered {n : Nat} {start : HandleTable} {s : SharedHandles} (h : SharedRun n start s) (i : Nat)
    (call : HandleCall) (outcome : Outcome) {table : HandleTable} (thread : i < n) (idle : s.phase i = none)
    (permits : s.Permits i call) (runs : handleSection s.table call = (.ok outcome, table)) :
    SharedRun n start { s with
      table := table
      phase := Function.update s.phase i (some (s.calls.length, outcome))
      own := Function.update s.own i (ownedAfter (s.own i) table call outcome)
      calls := s.calls ++ [call] } :=
  h.move (.enter thread idle permits runs)

/-- One thread creates a handle and hands it to another, which asks for its data while the first creates one more. -/
theorem concurrent_handles_two : ∃ s, SharedRun 2 .initial s ∧
    s.returned = [(0, .handle 1), (2, .handle 2), (1, .pointer 64)] ∧
    ∃ replies, runCalls handleStep (handleLoad .initial).2 [.new ⟨[], 64, 0, 0⟩, .data 1, .new ⟨[], 65, 0, 0⟩] =
      .ok (replies, s.table) ∧ ∀ r ∈ s.returned, replies[r.1]? = some r.2 := by
  have hnew : ∀ (s : SharedHandles) i item, s.Permits i (.new item) := fun s i item hd hm => by cases hm
  have hload : SharedRun 2 .initial _ := .load
  have hcreate := hload.entered 0 (.new ⟨[], 64, 0, 0⟩) (.readsId 0) (by decide) rfl (hnew _ 0 _) rfl
  have hleave := hcreate.move (.leave (show 0 < 2 by decide) rfl)
  have hgive := hleave.move (.give (show 0 < 2 by decide) (show 1 < 2 by decide) rfl
    (show 0 < SharedHandles.own _ 0 1 by decide))
  have hdata := hgive.entered 1 (.data 1) (.readsData 0) (by decide) rfl
    (fun hd hm => by obtain rfl := Option.some.inj hm; decide) rfl
  have hcreate' := hdata.entered 0 (.new ⟨[], 65, 0, 0⟩) (.readsId 1) (by decide) rfl (hnew _ 0 _) rfl
  have hleave' := hcreate'.move (.leave (show 0 < 2 by decide) rfl)
  have hend := hleave'.move (.leave (show 1 < 2 by decide) rfl)
  have hfit : OwnersFit [.new ⟨[], 64, 0, 0⟩, .data 1, .new ⟨[], 65, 0, 0⟩] := by
    intro done hdone hd
    have hlen : done.count (.reference hd) ≤ 3 := List.count_le_length.trans hdone.length_le
    have hlimit : 4 < sizeLimit := by decide
    omega
  obtain ⟨replies, hrun, hreturned, -⟩ := concurrent_handles rfl (by decide) hend hfit
  exact ⟨_, hend, rfl, replies, hrun, hreturned⟩

end CFlare.Handles
