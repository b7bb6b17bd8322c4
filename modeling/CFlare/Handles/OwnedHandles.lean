import CFlare.Handles.HandleLifecycle

/-! Handles whose data owns handles. A deleter runs while the mutex is held, so that one which gives up a
handle waits for itself. -/
namespace CFlare.Handles
open CFlare.Library

/-- Give up handles, one after another. -/
def unreferenceAll (run : Deletion → HandleTable → Except Fault Unit × HandleTable) :
    List Handle → HandleTable → Except Fault Unit × HandleTable
  | [], s => (.ok (), s)
  | hd :: hds, s =>
    match handleUnreference run s hd with
    | (.error fault, s') => (.error fault, s')
    | (.ok (), s') => unreferenceAll run hds s'

theorem unreferenceAll_fault {run : Deletion → HandleTable → Except Fault Unit × HandleTable} {hd : Handle}
    {hds : List Handle} {s s' : HandleTable} {fault : Fault} (h : handleUnreference run s hd = (.error fault, s')) :
    unreferenceAll run (hd :: hds) s = (.error fault, s') := by
  rw [unreferenceAll, h]

/-- A deleter that gives up the handles that its data owns, with deleters of this kind for them. -/
def ownerDeleter (owns : Pointer → List Handle) : Nat → Deletion → HandleTable → Except Fault Unit × HandleTable
  | 0, _, s => (.error .diverged, s)
  | fuel + 1, deletion, s =>
    unreferenceAll (ownerDeleter owns fuel) (owns deletion.data) (recordDeletion deletion s).2

/-- A handle with the trees of the handles that its data owns. -/
inductive Tree where
  | node (hd : Handle) (owned : List Tree)

namespace Tree

def handle : Tree → Handle
  | .node hd _ => hd

def owned : Tree → List Tree
  | .node _ owned => owned

mutual

def handles : Tree → List Handle
  | .node hd owned => hd :: handlesAll owned

def handlesAll : List Tree → List Handle
  | [] => []
  | t :: ts => t.handles ++ handlesAll ts

end

end Tree

/-- A live handle has this many references. -/
def HandleTable.HasCount (s : HandleTable) (hd : Handle) (count : Nat) : Prop :=
  hd ≠ 0 ∧ ∃ i, (s.refs i).id = hd ∧ (s.refs i).count = count

/-- A live handle's data owns these handles, which its deleter gives up. -/
def HandleTable.Owns (s : HandleTable) (owns : Pointer → List Handle) (hd : Handle) (owned : List Handle) : Prop :=
  hd ≠ 0 ∧ ∃ i, (s.refs i).id = hd ∧ owns (s.refs i).data = owned ∧ (owned ≠ [] → (s.refs i).deleter ≠ 0)

mutual

/-- The tree is in the table; the handles that are owned have no other reference. -/
def Tree.Kept (s : HandleTable) (owns : Pointer → List Handle) : Tree → Prop
  | .node hd owned => s.Owns owns hd (owned.map Tree.handle) ∧ KeptAll s owns owned

def KeptAll (s : HandleTable) (owns : Pointer → List Handle) : List Tree → Prop
  | [] => True
  | t :: ts => s.HasCount t.handle 1 ∧ t.Kept s owns ∧ KeptAll s owns ts

end

/-- The table between calls holds a forest of handles, among others. -/
structure Forest (s : HandleTable) (owns : Pointer → List Handle) (trees : List Tree) : Prop where
  loaded : s.loaded = true
  unlocked : s.locked = false
  distinct : ∀ i j, (s.refs i).id ≠ 0 → (s.refs i).id = (s.refs j).id → i = j
  kept : ∀ t ∈ trees, t.Kept s owns
  apart : (Tree.handlesAll trees).Nodup

/-- The deleter's call for a handle that is given up. -/
def HandleTable.deletionOf (s : HandleTable) (hd : Handle) : Option Deletion :=
  (s.findHandle hd).bind fun i =>
    if (s.refs i).deleter = 0 then none
    else some ⟨(s.refs i).deleter, (s.refs i).data, (s.refs i).deleterContext⟩

/-- The handles of a tree are gone, each one's deleter has run once, and nothing else has changed. -/
structure Destroyed (s s' : HandleTable) (t : Tree) : Prop where
  gone : ∀ hd ∈ t.handles, ¬ s'.Live hd
  deleted : ∃ order, order.Perm (t.handles.filterMap s.deletionOf) ∧ s'.deletions = s.deletions ++ order
  others : ∀ i, (s.refs i).id ∉ t.handles → s'.refs i = s.refs i
  counter : s'.curid = s.curid
  unlocked : s'.locked = false

/-- Every run that returns leaves a table that forests can be in. -/
theorem Lifecycle.forest {first : Handle} {calls : List HandleCall} {replies : List HandleReply} {s : HandleTable}
    (h : Lifecycle first calls replies s) {owns : Pointer → List Handle} {trees : List Tree}
    (hkept : ∀ t ∈ trees, t.Kept s owns) (hapart : (Tree.handlesAll trees).Nodup) : Forest s owns trees :=
  ⟨h.loaded, h.unlocked, h.distinct, hkept, hapart⟩

def HandleTable.freed (s : HandleTable) (i : Fin maxRefs) : HandleTable :=
  s.setRef i { s.refs i with count := 0, id := 0 }

section Unreference
variable {s : HandleTable} {owns : Pointer → List Handle} {trees : List Tree} {hd : Handle} {i : Fin maxRefs}

theorem Forest.find (h : Forest s owns trees) (hz : hd ≠ 0) (hi : (s.refs i).id = hd) : s.findHandle hd = some i := by
  obtain ⟨j, hf, hj⟩ := findHandle_live ⟨hz, i, hi⟩
  rw [hf, h.distinct i j (by rwa [hi]) (hi.trans hj.symm)]

theorem unreference_plain (h : Forest s owns trees) (hz : hd ≠ 0) (hi : (s.refs i).id = hd)
    (hone : (s.refs i).count = 1) (hd0 : (s.refs i).deleter = 0)
    (run : Deletion → HandleTable → Except Fault Unit × HandleTable) :
    handleUnreference run s hd = (.ok (), s.freed i) := by
  have hcount : sizeSub 1 1 = 0 := by decide
  rw [handleUnreference, if_neg (by simp [hz, h.loaded]), h.unlocked, if_neg (by decide), h.find hz hi]
  dsimp only
  rw [hone, hcount, if_neg (by decide), if_pos hd0]
  rfl

/-- With one, the deleter runs on the freed slot while the mutex is held, which is free again when it returns. -/
theorem unreference_deletes (h : Forest s owns trees) (hz : hd ≠ 0) (hi : (s.refs i).id = hd)
    (hone : (s.refs i).count = 1) (hne : (s.refs i).deleter ≠ 0)
    {run : Deletion → HandleTable → Except Fault Unit × HandleTable} {s' : HandleTable}
    (hrun : run ⟨(s.refs i).deleter, (s.refs i).data, (s.refs i).deleterContext⟩
      { s.freed i with locked := true } = (.ok (), s')) :
    handleUnreference run s hd = (.ok (), { s' with locked := false }) := by
  have hcount : sizeSub 1 1 = 0 := by decide
  have hrun' : run ⟨(s.refs i).deleter, (s.refs i).data, (s.refs i).deleterContext⟩
      { s.setRef i { s.refs i with count := 0, id := 0 } with locked := true } = (.ok (), s') := hrun
  rw [handleUnreference, if_neg (by simp [hz, h.loaded]), h.unlocked, if_neg (by decide), h.find hz hi]
  dsimp only
  rw [hone, hcount, if_neg (by decide), if_neg hne, hrun']

theorem unreference_hangs (h : Forest s owns trees) (hz : hd ≠ 0) (hi : (s.refs i).id = hd)
    (hone : (s.refs i).count = 1) (hne : (s.refs i).deleter ≠ 0)
    {run : Deletion → HandleTable → Except Fault Unit × HandleTable} {fault : Fault} {s' : HandleTable}
    (hrun : run ⟨(s.refs i).deleter, (s.refs i).data, (s.refs i).deleterContext⟩
      { s.freed i with locked := true } = (.error fault, s')) :
    handleUnreference run s hd = (.error fault, s') := by
  have hcount : sizeSub 1 1 = 0 := by decide
  have hrun' : run ⟨(s.refs i).deleter, (s.refs i).data, (s.refs i).deleterContext⟩
      { s.setRef i { s.refs i with count := 0, id := 0 } with locked := true } = (.error fault, s') := hrun
  rw [handleUnreference, if_neg (by simp [hz, h.loaded]), h.unlocked, if_neg (by decide), h.find hz hi]
  dsimp only
  rw [hone, hcount, if_neg (by decide), if_neg hne, hrun']

theorem unreference_locked (hz : hd ≠ 0) (hl : s.loaded = true) (hheld : s.locked = true)
    (run : Deletion → HandleTable → Except Fault Unit × HandleTable) :
    handleUnreference run s hd = (.error .diverged, s) := by
  rw [handleUnreference, if_neg (by simp [hz, hl]), if_pos hheld]

/-- An owner's deleter waits for itself at the first handle it gives up. -/
theorem unreference_owner (h : Forest s owns trees) (hz : hd ≠ 0) (hi : (s.refs i).id = hd)
    (hone : (s.refs i).count = 1) (hne : (s.refs i).deleter ≠ 0) {first : Handle} {rest : List Handle}
    (howns : owns (s.refs i).data = first :: rest) (hfirst : first ≠ 0) (fuel : Nat) :
    ∃ s', handleUnreference (ownerDeleter owns (fuel + 1)) s hd = (.error .diverged, s') ∧ s'.locked = true := by
  let held : HandleTable := { s.freed i with
    locked := true
    deletions := s.deletions ++ [⟨(s.refs i).deleter, (s.refs i).data, (s.refs i).deleterContext⟩] }
  refine ⟨held, unreference_hangs h hz hi hone hne ?_, rfl⟩
  have hloaded : held.loaded = true := h.loaded
  have hwaits : handleUnreference (ownerDeleter owns fuel) held first = (.error .diverged, held) :=
    unreference_locked hfirst hloaded rfl _
  rw [ownerDeleter, howns]
  exact unreferenceAll_fault hwaits

theorem Forest.freed_gone (h : Forest s owns trees) (hz : hd ≠ 0) (hi : (s.refs i).id = hd) {s' : HandleTable}
    (hs : s'.refs = (s.freed i).refs) : ¬ s'.Live hd := by
  rintro ⟨-, j, hj⟩
  rw [hs] at hj
  by_cases hji : j = i
  · rw [hji, HandleTable.freed, setRef_self] at hj
    exact hz hj.symm
  · rw [HandleTable.freed, setRef_of_ne s hji] at hj
    exact hji (h.distinct j i (by rwa [hj]) (hj.trans hi.symm))

theorem unreference_leaf (h : Forest s owns trees) (hz : hd ≠ 0) (hi : (s.refs i).id = hd)
    (hone : (s.refs i).count = 1) (howns : owns (s.refs i).data = []) (fuel : Nat) :
    ∃ s', handleUnreference (ownerDeleter owns (fuel + 1)) s hd = (.ok (), s') ∧ Destroyed s s' (.node hd []) := by
  have hothers : ∀ j, (s.refs j).id ∉ (Tree.node hd []).handles → (s.freed i).refs j = s.refs j := by
    intro j hj
    refine setRef_of_ne s (fun hji => hj ?_) _
    rw [hji, hi]
    exact List.mem_cons_self
  have hgone : ∀ s' : HandleTable, s'.refs = (s.freed i).refs → ∀ k ∈ (Tree.node hd []).handles, ¬ s'.Live k := by
    intro s' hs k hk
    obtain rfl : k = hd := by simpa [Tree.handles, Tree.handlesAll] using hk
    exact h.freed_gone hz hi hs
  have hdeletion : s.deletionOf hd = if (s.refs i).deleter = 0 then none
      else some ⟨(s.refs i).deleter, (s.refs i).data, (s.refs i).deleterContext⟩ := by
    rw [HandleTable.deletionOf, h.find hz hi]
    rfl
  by_cases hd0 : (s.refs i).deleter = 0
  · rw [if_pos hd0] at hdeletion
    refine ⟨s.freed i, unreference_plain h hz hi hone hd0 _, hgone _ rfl, ⟨[], ?_, ?_⟩, hothers, rfl, h.unlocked⟩
    · simp [Tree.handles, Tree.handlesAll, hdeletion]
    · exact (List.append_nil _).symm
  · rw [if_neg hd0] at hdeletion
    have hrun : ownerDeleter owns (fuel + 1) ⟨(s.refs i).deleter, (s.refs i).data, (s.refs i).deleterContext⟩
        { s.freed i with locked := true } = (.ok (), { s.freed i with
          locked := true
          deletions := s.deletions ++ [⟨(s.refs i).deleter, (s.refs i).data, (s.refs i).deleterContext⟩] }) := by
      rw [ownerDeleter, howns]
      rfl
    refine ⟨_, unreference_deletes h hz hi hone hd0 hrun, hgone _ rfl, ⟨_, ?_, rfl⟩, hothers, rfl, rfl⟩
    simp [Tree.handles, Tree.handlesAll, hdeletion]

/-- Giving up the last reference of a tree's root destroys the tree, with every deleter run once and nothing else
changed, exactly if the root owns no handle. -/
theorem unreference_tree_iff (h : Forest s owns trees) {t : Tree} (ht : t ∈ trees) (hone : s.HasCount t.handle 1) :
    (∃ enough, ∀ fuel ≥ enough, ∃ s',
      handleUnreference (ownerDeleter owns fuel) s t.handle = (.ok (), s') ∧ Destroyed s s' t) ↔ t.owned = [] := by
  obtain ⟨root, owned⟩ := t
  obtain ⟨⟨hz, i, hi, howns, hdeleter⟩, hall⟩ := h.kept _ ht
  obtain ⟨-, j, hj, hcount⟩ := hone
  obtain rfl : j = i := h.distinct j i (by rwa [hj]) (hj.trans hi.symm)
  cases owned with
  | nil =>
    refine ⟨fun _ => rfl, fun _ => ⟨1, fun fuel hfuel => ?_⟩⟩
    obtain ⟨fuel, rfl⟩ := Nat.exists_eq_add_of_le' hfuel
    exact unreference_leaf h hz hi hcount howns fuel
  | cons child owned =>
    constructor
    · rintro ⟨enough, hdone⟩
      obtain ⟨s', hok, -⟩ := hdone (enough + 1) (Nat.le_succ enough)
      obtain ⟨s'', hwaits, -⟩ := unreference_owner h hz hi hcount (hdeleter (List.cons_ne_nil _ _)) howns
        hall.1.1 enough
      cases hok.symm.trans hwaits
    · intro hnone
      cases hnone

end Unreference

private theorem two_handles : ∃ s, Forest s (fun data => if data = 8 then [1] else []) [.node 2 [.node 1 []]] ∧
    Forest s (fun _ => []) [.node 1 [], .node 2 []] ∧ (s.refs 0).id = 1 ∧ (s.refs 0).count = 1 ∧ (s.refs 1).id = 2 ∧
    (s.refs 1).count = 1 ∧ (s.refs 1).deleter = 9 ∧ (s.refs 1).data = 8 := by
  obtain ⟨replies, s, hrun, hchild, hdata, hone, hparent, hcount, hdeleter, howner⟩ :
      ∃ replies s, runCalls handleStep (handleLoad .initial).2 [.new ⟨[], 5, 6, 7⟩, .new ⟨[], 8, 9, 0⟩] =
        .ok (replies, s) ∧ (s.refs 0).id = 1 ∧ (s.refs 0).data = 5 ∧ (s.refs 0).count = 1 ∧ (s.refs 1).id = 2 ∧
        (s.refs 1).count = 1 ∧ (s.refs 1).deleter = 9 ∧ (s.refs 1).data = 8 :=
    ⟨_, _, rfl, rfl, rfl, rfl, rfl, rfl, rfl, rfl⟩
  have hfit : OwnersFit ([] ++ [.new ⟨[], 5, 6, 7⟩, .new ⟨[], 8, 9, 0⟩]) := by
    intro done hdone hd
    have hlen : done.count (.reference hd) ≤ 2 := List.count_le_length.trans hdone.length_le
    have hlimit : 3 < sizeLimit := by decide
    omega
  have hlife := handleRun_lifecycle _ (.start rfl) (by decide) hfit hrun
  refine ⟨s, hlife.forest ?_ (by decide), hlife.forest ?_ (by decide), hchild, hone, hparent, hcount, hdeleter, howner⟩
  · intro t ht
    obtain rfl := List.mem_singleton.mp ht
    have hleaf : s.Owns (fun data => if data = 8 then [1] else []) 1 [] := by
      refine ⟨by decide, 0, hchild, ?_, fun hne => absurd rfl hne⟩
      rw [hdata]
      rfl
    refine ⟨⟨by decide, 1, hparent, ?_, fun _ => ?_⟩, ⟨by decide, 0, hchild, hone⟩, ⟨hleaf, trivial⟩, trivial⟩
    · rw [howner]
      rfl
    · rw [hdeleter]
      decide
  · intro t ht
    rcases List.mem_pair.mp ht with rfl | rfl
    · exact ⟨⟨by decide, 0, hchild, rfl, fun hne => absurd rfl hne⟩, trivial⟩
    · exact ⟨⟨by decide, 1, hparent, rfl, fun hne => absurd rfl hne⟩, trivial⟩

/-- A handle without others is given up, and another one stays. -/
theorem unreference_tree_leaf :
    ∃ s fuel s', Forest s (fun _ => []) [.node 1 [], .node 2 []] ∧
      handleUnreference (ownerDeleter (fun _ => []) fuel) s 1 = (.ok (), s') ∧ Destroyed s s' (.node 1 []) ∧
      s'.refs 1 = s.refs 1 ∧ s'.Live 2 := by
  obtain ⟨s, -, hleaves, hchild, hone, hother, -⟩ := two_handles
  obtain ⟨enough, hdone⟩ := (unreference_tree_iff hleaves List.mem_cons_self ⟨by decide, 0, hchild, hone⟩).mpr rfl
  obtain ⟨s', hrun, hdestroyed⟩ := hdone enough (Nat.le_refl _)
  have hstays : s'.refs 1 = s.refs 1 := hdestroyed.others 1 (by rw [hother]; decide)
  exact ⟨s, enough, s', hleaves, hrun, hdestroyed, hstays, by decide, 1, hstays ▸ hother⟩

/-- A parent's deleter gives up its child: the call waits for itself. -/
theorem unreference_tree_fails :
    ¬ ∀ (s : HandleTable) (owns : Pointer → List Handle) (trees : List Tree), Forest s owns trees →
      ∀ t ∈ trees, s.HasCount t.handle 1 → ∃ enough, ∀ fuel ≥ enough, ∃ s',
        handleUnreference (ownerDeleter owns fuel) s t.handle = (.ok (), s') ∧ Destroyed s s' t := by
  intro hall
  obtain ⟨s, hforest, -, -, -, hparent, hcount, hdeleter, howner⟩ := two_handles
  obtain ⟨enough, hdone⟩ := hall s _ _ hforest _ List.mem_cons_self ⟨by decide, 1, hparent, hcount⟩
  obtain ⟨s', hok, -⟩ := hdone (enough + 1) (Nat.le_succ enough)
  have howns : (fun data => if data = 8 then [1] else []) (s.refs 1).data = 1 :: ([] : List Handle) := by
    rw [howner]
    rfl
  obtain ⟨s'', hwaits, -⟩ := unreference_owner hforest (by decide) hparent hcount (by rw [hdeleter]; decide) howns
    (by decide) enough
  cases hok.symm.trans hwaits

end CFlare.Handles
