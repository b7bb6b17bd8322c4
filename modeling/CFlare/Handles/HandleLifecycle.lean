import CFlare.Handles.Handle
import Mathlib.Data.List.Count
import Mathlib.Data.List.Perm.Basic

/-! The life of a handle, from the call that creates it to the unreference that deletes it. What
the table holds is read off the calls made so far and their replies. -/
namespace CFlare.Handles
open CFlare.Library

def creation : HandleCall × HandleReply → Option (Handle × Item)
  | (.new item, .handle hd) => if hd = 0 then none else some (hd, item)
  | _ => none

/-- The handles issued, in order, with what each was created with. -/
def created (calls : List HandleCall) (replies : List HandleReply) : List (Handle × Item) :=
  (calls.zip replies).filterMap creation

/-- How many owners a handle has: its creator and each reference, less each unreference. -/
def owners (calls : List HandleCall) (hd : Handle) : Nat :=
  1 + calls.count (.reference hd) - calls.count (.unreference hd)

def deletion (calls : List HandleCall) (entry : Handle × Item) : Option Deletion :=
  if owners calls entry.1 = 0 ∧ entry.2.deleter ≠ 0 then
    some ⟨entry.2.deleter, entry.2.data, entry.2.context⟩
  else none

/-- What holds of the table after calls that returned. The first handle issued is the one behind
`first`, and each later one is the next. A slot that is taken is that of a handle with owners, which
is in no other slot, and the deleters that ran are those of the handles without owners. -/
structure Lifecycle (first : Handle) (calls : List HandleCall) (replies : List HandleReply)
    (s : HandleTable) : Prop where
  answered : calls.length = replies.length
  loaded : s.loaded = true
  unlocked : s.locked = false
  numbered : (created calls replies).map Prod.fst = List.range' (first + 1) (created calls replies).length
  counter : s.curid = first + (created calls replies).length
  distinct : ∀ i j, (s.refs i).id ≠ 0 → (s.refs i).id = (s.refs j).id → i = j
  slot : ∀ i, (s.refs i).id ≠ 0 → ∃ item, ((s.refs i).id, item) ∈ created calls replies ∧
    s.refs i = item.reference (s.refs i).id (owners calls (s.refs i).id)
  live : ∀ entry ∈ created calls replies, 0 < owners calls entry.1 ↔ s.Live entry.1
  paired : ∀ hd, calls.count (.unreference hd) ≤ 1 + calls.count (.reference hd)
  untouched : ∀ hd, hd ∉ (created calls replies).map Prod.fst →
    calls.count (.reference hd) = 0 ∧ calls.count (.unreference hd) = 0
  deletions : s.deletions.Perm ((created calls replies).filterMap (deletion calls))

def OwnersFit (calls : List HandleCall) : Prop :=
  ∀ done, done <+: calls → ∀ hd, 1 + done.count (.reference hd) < sizeLimit + done.count (.unreference hd)

section Histories
variable {calls : List HandleCall} {replies : List HandleReply}

theorem created_append (hl : calls.length = replies.length) (call : HandleCall) (reply : HandleReply) :
    created (calls ++ [call]) (replies ++ [reply]) =
      created calls replies ++ (creation (call, reply)).toList := by
  rw [created, List.zip_append hl, List.filterMap_append]
  cases h : creation (call, reply) <;> simp [created, h]

theorem owners_append (call : HandleCall) (hd : Handle) :
    owners (calls ++ [call]) hd =
      1 + calls.count (.reference hd) + (if call = .reference hd then 1 else 0) -
        (calls.count (.unreference hd) + if call = .unreference hd then 1 else 0) := by
  rw [owners, List.count_append, List.count_append, List.count_singleton, List.count_singleton,
    ← Nat.add_assoc]
  simp only [beq_iff_eq]

theorem owners_reference {hd : Handle} (hpos : 0 < owners calls hd) :
    owners (calls ++ [.reference hd]) hd = owners calls hd + 1 := by
  rw [owners_append, if_pos rfl, if_neg nofun]
  unfold owners at hpos ⊢
  omega

theorem owners_unreference (calls : List HandleCall) (hd : Handle) :
    owners (calls ++ [.unreference hd]) hd = owners calls hd - 1 := by
  rw [owners_append, if_neg nofun, if_pos rfl]
  unfold owners
  omega

/-- A call that is no reference and no unreference leaves all owners as they are. -/
theorem uncounted (calls : List HandleCall) {call : HandleCall} (hr : ∀ hd, call ≠ .reference hd)
    (hu : ∀ hd, call ≠ .unreference hd) :
    (∀ hd, (calls ++ [call]).count (.reference hd) = calls.count (.reference hd) ∧
      (calls ++ [call]).count (.unreference hd) = calls.count (.unreference hd)) ∧
      owners (calls ++ [call]) = owners calls ∧ deletion (calls ++ [call]) = deletion calls := by
  have hcount : ∀ hd, (calls ++ [call]).count (.reference hd) = calls.count (.reference hd) ∧
      (calls ++ [call]).count (.unreference hd) = calls.count (.unreference hd) := by
    intro hd
    rw [List.count_append, List.count_append, List.count_singleton, List.count_singleton]
    simp [hr hd, hu hd]
  have howners : owners (calls ++ [call]) = owners calls := by
    funext hd
    rw [owners, owners, (hcount hd).1, (hcount hd).2]
  refine ⟨hcount, howners, ?_⟩
  funext entry
  rw [deletion, deletion, howners]

theorem OwnersFit.take {rest : List HandleCall} (h : OwnersFit (calls ++ rest)) : OwnersFit calls :=
  fun done hd => h done (hd.trans (List.prefix_append calls rest))

end Histories

theorem Lifecycle.start {s₀ : HandleTable} (h : s₀.loaded = false) :
    Lifecycle s₀.curid [] [] (handleLoad s₀).2 := by
  have hl : (handleLoad s₀).2 =
      ⟨fun _ => ⟨[], 0, 0, 0, 0, 0⟩, s₀.curid, true, false, []⟩ := by
    rw [handleLoad, h]
    rfl
  rw [hl]
  refine ⟨rfl, rfl, rfl, rfl, rfl, fun i j hi => absurd rfl hi, fun i hi => absurd rfl hi, ?_, ?_, ?_, .nil⟩
  · intro entry he
    exact absurd he List.not_mem_nil
  · intro hd
    exact Nat.zero_le _
  · intro hd _
    exact ⟨rfl, rfl⟩

section Steps
variable {first : Handle} {calls : List HandleCall} {replies : List HandleReply} {s : HandleTable}

theorem Lifecycle.issued (h : Lifecycle first calls replies s) {hd : Handle} (hlive : s.Live hd) :
    ∃ item, (hd, item) ∈ created calls replies := by
  obtain ⟨hne, i, rfl⟩ := hlive
  obtain ⟨item, hmem, -⟩ := h.slot i hne
  exact ⟨item, hmem⟩

/-- The slot of a live handle is found, and holds what it was created with. -/
theorem Lifecycle.found (h : Lifecycle first calls replies s) {hd : Handle} {item : Item}
    (he : (hd, item) ∈ created calls replies) (hlive : s.Live hd) :
    ∃ i, s.findHandle hd = some i ∧ s.refs i = item.reference hd (owners calls hd) := by
  obtain ⟨i, hf, hi⟩ := findHandle_live hlive
  have hne : (s.refs i).id ≠ 0 := by
    rw [hi]
    exact hlive.1
  obtain ⟨item', he', hs⟩ := h.slot i hne
  rw [hi] at he' hs
  have hnodup : ((created calls replies).map Prod.fst).Nodup := by
    rw [h.numbered]
    exact List.nodup_range' _
  obtain rfl : item = item' := by
    have heq := List.inj_on_of_nodup_map hnodup he he' rfl
    exact (Prod.mk.inj heq).2
  exact ⟨i, hf, hs⟩

private theorem Lifecycle.neutral (h : Lifecycle first calls replies s) {call : HandleCall}
    {reply : HandleReply} (hc : creation (call, reply) = none)
    (hr : ∀ hd, call ≠ .reference hd) (hu : ∀ hd, call ≠ .unreference hd) :
    Lifecycle first (calls ++ [call]) (replies ++ [reply]) s := by
  have hcreated : created (calls ++ [call]) (replies ++ [reply]) = created calls replies := by
    rw [created_append h.answered, hc, Option.toList_none, List.append_nil]
  obtain ⟨hcount, howners, hdeletion⟩ := uncounted calls hr hu
  refine ⟨?_, h.loaded, h.unlocked, ?_, ?_, h.distinct, ?_, ?_, ?_, ?_, ?_⟩
  · rw [List.length_append, List.length_append, h.answered]
    rfl
  · rw [hcreated]
    exact h.numbered
  · rw [hcreated]
    exact h.counter
  · rw [hcreated, howners]
    exact h.slot
  · rw [hcreated, howners]
    exact h.live
  · intro hd
    rw [(hcount hd).1, (hcount hd).2]
    exact h.paired hd
  · intro hd
    rw [hcreated, (hcount hd).1, (hcount hd).2]
    exact h.untouched hd
  · rw [hcreated, hdeletion]
    exact h.deletions

/-- The calls that change the owners of a handle. -/
inductive Recounts (hd : Handle) : HandleCall → Prop where
  | reference : Recounts hd (.reference hd)
  | unreference : Recounts hd (.unreference hd)

private theorem Recounts.creation {hd : Handle} {call : HandleCall} (h : Recounts hd call)
    (reply : HandleReply) : creation (call, reply) = none := by
  cases h <;> rfl

private theorem Recounts.others {hd : Handle} {call : HandleCall} (h : Recounts hd call) {k : Handle}
    (hk : k ≠ hd) :
    (calls ++ [call]).count (.reference k) = calls.count (.reference k) ∧
      (calls ++ [call]).count (.unreference k) = calls.count (.unreference k) := by
  rw [List.count_append, List.count_append, List.count_singleton, List.count_singleton]
  cases h <;> simp [hk.symm]

private theorem Recounts.created_eq {hd : Handle} {call : HandleCall} (h : Recounts hd call)
    (hl : calls.length = replies.length) (reply : HandleReply) :
    created (calls ++ [call]) (replies ++ [reply]) = created calls replies := by
  rw [created_append hl, h.creation, Option.toList_none, List.append_nil]

private theorem Recounts.owners_eq {hd : Handle} {call : HandleCall} (h : Recounts hd call) {k : Handle}
    (hk : k ≠ hd) : owners (calls ++ [call]) k = owners calls k := by
  rw [owners, owners, (h.others hk).1, (h.others hk).2]

private theorem Recounts.untouched {hd : Handle} {call : HandleCall} (hc : Recounts hd call)
    (h : Lifecycle first calls replies s) (hlive : s.Live hd) {k : Handle} (hk : k ∉ (created calls replies).map Prod.fst) :
    (calls ++ [call]).count (.reference k) = 0 ∧ (calls ++ [call]).count (.unreference k) = 0 := by
  obtain ⟨item, hitem⟩ := h.issued hlive
  have hne : k ≠ hd := by
    rintro rfl
    exact hk (List.mem_map_of_mem hitem)
  rw [(hc.others hne).1, (hc.others hne).2]
  exact h.untouched k hk

private theorem live_congr {s s' : HandleTable} {i : Fin maxRefs} (hother : ∀ j, j ≠ i → s'.refs j = s.refs j)
    {k : Handle} (hold : k ≠ 0 → (s.refs i).id ≠ k) (hnew : k ≠ 0 → (s'.refs i).id ≠ k) : s'.Live k ↔ s.Live k := by
  refine and_congr_right fun hz => ⟨?_, ?_⟩
  · rintro ⟨j, hj⟩
    have hji : j ≠ i := by
      rintro rfl
      exact hnew hz hj
    exact ⟨j, (congrArg Reference.id (hother j hji)).symm.trans hj⟩
  · rintro ⟨j, hj⟩
    have hji : j ≠ i := by
      rintro rfl
      exact hold hz hj
    exact ⟨j, (congrArg Reference.id (hother j hji)).trans hj⟩

private theorem Lifecycle.recount (h : Lifecycle first calls replies s) {hd : Handle} {call : HandleCall}
    (hc : Recounts hd call) (reply : HandleReply) (hlive : s.Live hd) {i : Fin maxRefs}
    (hi : (s.refs i).id = hd) (hpos : 0 < owners (calls ++ [call]) hd) :
    Lifecycle first (calls ++ [call]) (replies ++ [reply])
      (s.setRef i { s.refs i with count := owners (calls ++ [call]) hd }) := by
  have hcreated := hc.created_eq h.answered reply
  have howners : ∀ k, k ≠ hd → owners (calls ++ [call]) k = owners calls k := fun _ => hc.owners_eq
  obtain ⟨item, hitem⟩ := h.issued hlive
  have hold : 0 < owners calls hd := (h.live _ hitem).mpr hlive
  have hids : ∀ j, ((s.setRef i { s.refs i with count := owners (calls ++ [call]) hd }).refs j).id =
      (s.refs j).id := by
    intro j
    by_cases hj : j = i
    · rw [hj, setRef_self]
    · rw [setRef_of_ne s hj]
  have hsame : ∀ k, (0 < owners (calls ++ [call]) k ↔ 0 < owners calls k) := by
    intro k
    by_cases hk : k = hd
    · rw [hk]
      exact iff_of_true hpos hold
    · rw [howners k hk]
  refine ⟨?_, h.loaded, h.unlocked, ?_, ?_, ?_, ?_, ?_, ?_, ?_, ?_⟩
  · rw [List.length_append, List.length_append, h.answered]
    rfl
  · rw [hcreated]
    exact h.numbered
  · rw [hcreated]
    exact h.counter
  · intro j k
    rw [hids j, hids k]
    exact h.distinct j k
  · intro j hj
    rw [hids j] at hj ⊢
    rw [hcreated]
    obtain ⟨item', he, hs⟩ := h.slot j hj
    refine ⟨item', he, ?_⟩
    by_cases hji : j = i
    · rw [hji, hi] at hs ⊢
      rw [setRef_self, hs]
      rfl
    · have hne : (s.refs j).id ≠ hd := by
        intro heq
        exact hji (h.distinct j i hj (heq.trans hi.symm))
      rw [setRef_of_ne s hji, howners _ hne]
      exact hs
  · intro entry he
    rw [hcreated] at he
    rw [hsame, h.live entry he]
    simp only [HandleTable.Live, hids]
  · intro k
    by_cases hk : k = hd
    · rw [hk]
      unfold owners at hpos
      omega
    · rw [(hc.others hk).1, (hc.others hk).2]
      exact h.paired k
  · intro k hk
    rw [hcreated] at hk
    exact hc.untouched h hlive hk
  · have hdeletion : deletion (calls ++ [call]) = deletion calls := by
      funext entry
      have hzero : owners (calls ++ [call]) entry.1 = 0 ↔ owners calls entry.1 = 0 := by
        have := hsame entry.1
        omega
      simp only [deletion, hzero]
    rw [hcreated, hdeletion]
    exact h.deletions

private theorem filterMap_perm_append {α β : Type} {f f' : α → Option β} {es : List α} {e : α} (he : e ∈ es)
    (hnodup : es.Nodup) (hothers : ∀ x ∈ es, x ≠ e → f' x = f x) (hold : f e = none) :
    (es.filterMap f').Perm (es.filterMap f ++ (f' e).toList) := by
  obtain ⟨a, b, rfl⟩ := List.append_of_mem he
  have hsplit := List.nodup_append.mp hnodup
  have ha : a.filterMap f' = a.filterMap f := by
    apply List.filterMap_congr
    intro x hx
    exact hothers x (by simp [hx]) (hsplit.2.2 x hx e (by simp))
  have hb : b.filterMap f' = b.filterMap f := by
    apply List.filterMap_congr
    intro x hx
    refine hothers x (by simp [hx]) ?_
    rintro rfl
    exact (List.nodup_cons.mp hsplit.2.1).1 hx
  have hcons : (e :: b).filterMap f' = (f' e).toList ++ b.filterMap f := by
    cases h : f' e <;> simp [h, hb]
  rw [List.filterMap_append, List.filterMap_append, ha, hcons, List.filterMap_cons_none hold, List.append_assoc]
  exact List.Perm.append_left _ List.perm_append_comm

theorem Lifecycle.nodup (h : Lifecycle first calls replies s) :
    ((created calls replies).map Prod.fst).Nodup := by
  rw [h.numbered]
  exact List.nodup_range' _

private theorem Lifecycle.freed (h : Lifecycle first calls replies s) {hd : Handle} (reply : HandleReply)
    {item : Item} (hitem : (hd, item) ∈ created calls replies) {i : Fin maxRefs} (hi : (s.refs i).id = hd)
    (hlive : s.Live hd) (hlast : owners (calls ++ [.unreference hd]) hd = 0) (ref : Reference)
    (href : ref.id = 0) :
    Lifecycle first (calls ++ [.unreference hd]) (replies ++ [reply])
      { s.setRef i ref with
        deletions := s.deletions ++ (deletion (calls ++ [.unreference hd]) (hd, item)).toList } := by
  have hc : Recounts hd (.unreference hd) := .unreference
  have hcreated := hc.created_eq h.answered reply
  have howners : ∀ k, k ≠ hd → owners (calls ++ [.unreference hd]) k = owners calls k := fun _ => hc.owners_eq
  have hold : 0 < owners calls hd := (h.live _ hitem).mpr hlive
  have hne : ∀ j, j ≠ i → (s.refs j).id ≠ 0 → (s.refs j).id ≠ hd := by
    intro j hj hz heq
    exact hj (h.distinct j i hz (heq.trans hi.symm))
  have hself : ((s.setRef i ref).refs i).id = 0 := by rw [setRef_self, href]
  have hother : ∀ j, j ≠ i → (s.setRef i ref).refs j = s.refs j := fun j hj => setRef_of_ne s hj ref
  have htaken : ∀ j, ((s.setRef i ref).refs j).id ≠ 0 → j ≠ i := by
    rintro j hz rfl
    exact hz hself
  refine ⟨?_, h.loaded, h.unlocked, ?_, ?_, ?_, ?_, ?_, ?_, ?_, ?_⟩
  · rw [List.length_append, List.length_append, h.answered]
    rfl
  · rw [hcreated]
    exact h.numbered
  · rw [hcreated]
    exact h.counter
  · intro j k hj hjk
    change ((s.setRef i ref).refs j).id ≠ 0 at hj
    change ((s.setRef i ref).refs j).id = ((s.setRef i ref).refs k).id at hjk
    have hk : k ≠ i := by
      rintro rfl
      exact hj (hjk.trans hself)
    have hji := htaken j hj
    rw [hother j hji] at hj hjk
    rw [hother k hk] at hjk
    exact h.distinct j k hj hjk
  · intro j hj
    change ((s.setRef i ref).refs j).id ≠ 0 at hj
    have hji := htaken j hj
    change ∃ item, (((s.setRef i ref).refs j).id, item) ∈ _ ∧ (s.setRef i ref).refs j = _
    rw [hother j hji] at hj ⊢
    obtain ⟨item', he, hs⟩ := h.slot j hj
    refine ⟨item', hcreated ▸ he, ?_⟩
    rw [howners _ (hne j hji hj)]
    exact hs
  · intro entry he
    rw [hcreated] at he
    by_cases hk : entry.1 = hd
    · rw [hk, hlast]
      refine iff_of_false (Nat.lt_irrefl 0) ?_
      rintro ⟨hz, j, hj⟩
      change ((s.setRef i ref).refs j).id = hd at hj
      have hji := htaken j (by rwa [hj])
      rw [hother j hji] at hj
      exact hji (h.distinct j i (by rwa [hj]) (hj.trans hi.symm))
    · rw [howners _ hk, h.live entry he]
      refine (live_congr hother (fun _ heq => hk (heq.symm.trans hi)) (fun hz heq => ?_)).symm
      rw [hself] at heq
      exact hz heq.symm
  · intro k
    by_cases hk : k = hd
    · rw [hk, List.count_append, List.count_append, List.count_singleton, List.count_singleton]
      unfold owners at hold
      simp only [beq_iff_eq, reduceCtorEq, if_false, if_true]
      omega
    · rw [(hc.others hk).1, (hc.others hk).2]
      exact h.paired k
  · intro k hk
    rw [hcreated] at hk
    exact hc.untouched h hlive hk
  · rw [hcreated]
    refine (h.deletions.append_right _).trans (List.Perm.symm ?_)
    apply filterMap_perm_append hitem (List.Nodup.of_map _ h.nodup)
    · intro entry he hentry
      have hk : entry.1 ≠ hd := by
        intro hk
        exact hentry (List.inj_on_of_nodup_map h.nodup he hitem hk)
      rw [deletion, deletion, howners _ hk]
    · rw [deletion, if_neg]
      rintro ⟨hz, -⟩
      exact Nat.ne_of_gt hold hz

private theorem Lifecycle.opened (h : Lifecycle first calls replies s) (item : Item) {i : Fin maxRefs}
    (hi : (s.refs i).id = 0) :
    Lifecycle first (calls ++ [.new item]) (replies ++ [.handle (s.curid + 1)])
      ({ s with curid := s.curid + 1 }.setRef i (item.reference (s.curid + 1) 1)) := by
  have hcreated : created (calls ++ [.new item]) (replies ++ [.handle (s.curid + 1)]) =
      created calls replies ++ [(s.curid + 1, item)] := by
    rw [created_append h.answered]
    rfl
  have hplain : (∀ k, HandleCall.new item ≠ .reference k) ∧ ∀ k, HandleCall.new item ≠ .unreference k :=
    ⟨fun _ => nofun, fun _ => nofun⟩
  obtain ⟨hcount, howners, hdeletion⟩ := uncounted calls hplain.1 hplain.2
  have hnew : s.curid + 1 ∉ (created calls replies).map Prod.fst := by
    rw [h.numbered, List.mem_range'_1, h.counter]
    omega
  have hone : owners calls (s.curid + 1) = 1 := by
    rw [owners, (h.untouched _ hnew).1, (h.untouched _ hnew).2]
  have hfresh : ∀ j, (s.refs j).id ≠ 0 → (s.refs j).id ≠ s.curid + 1 := by
    intro j hj heq
    obtain ⟨item', he, -⟩ := h.slot j hj
    exact hnew (heq ▸ List.mem_map_of_mem he)
  generalize hs' : { s with curid := s.curid + 1 }.setRef i (item.reference (s.curid + 1) 1) = s'
  have hself : s'.refs i = item.reference (s.curid + 1) 1 := by
    rw [← hs', setRef_self]
  have hother : ∀ j, j ≠ i → s'.refs j = s.refs j := by
    intro j hj
    rw [← hs', setRef_of_ne _ hj]
  refine ⟨?_, hs' ▸ h.loaded, hs' ▸ h.unlocked, ?_, ?_, ?_, ?_, ?_, ?_, ?_, ?_⟩
  · rw [List.length_append, List.length_append, h.answered]
    rfl
  · rw [hcreated, List.map_append, h.numbered, List.length_append, List.length_singleton, List.range'_concat,
      h.counter]
    simp [Nat.add_right_comm]
  · rw [hcreated, List.length_append, ← hs']
    change s.curid + 1 = _
    rw [h.counter, Nat.add_assoc]
    rfl
  · intro j k hj hjk
    by_cases hji : j = i
    · by_cases hki : k = i
      · rw [hji, hki]
      · rw [hji, hself, hother k hki] at hjk
        refine absurd hjk.symm (hfresh k ?_)
        rw [← hjk]
        exact Nat.succ_ne_zero _
    · rw [hother j hji] at hj hjk
      by_cases hki : k = i
      · rw [hki, hself] at hjk
        exact absurd hjk (hfresh j hj)
      · rw [hother k hki] at hjk
        exact h.distinct j k hj hjk
  · intro j hj
    rw [hcreated, howners]
    by_cases hji : j = i
    · refine ⟨item, ?_, ?_⟩
      · rw [hji, hself]
        exact List.mem_append_right _ (List.mem_singleton.mpr rfl)
      · rw [hji, hself]
        change item.reference (s.curid + 1) 1 = item.reference (s.curid + 1) (owners calls (s.curid + 1))
        rw [hone]
    · rw [hother j hji] at hj ⊢
      obtain ⟨item', he, hs⟩ := h.slot j hj
      exact ⟨item', List.mem_append_left _ he, hs⟩
  · intro entry he
    rw [hcreated, List.mem_append, List.mem_singleton] at he
    rw [howners]
    rcases he with he | rfl
    · have hne : entry.1 ≠ s.curid + 1 := fun heq => hnew (heq ▸ List.mem_map_of_mem he)
      rw [h.live entry he]
      refine (live_congr hother (fun hz heq => hz (heq.symm.trans hi)) (fun _ heq => ?_)).symm
      rw [hself] at heq
      exact hne heq.symm
    · rw [hone]
      exact iff_of_true (Nat.succ_pos _) ⟨Nat.succ_ne_zero _, i, congrArg Reference.id hself⟩
  · intro k
    rw [(hcount k).1, (hcount k).2]
    exact h.paired k
  · intro k hk
    rw [(hcount k).1, (hcount k).2]
    apply h.untouched k
    intro hmem
    rw [hcreated, List.map_append] at hk
    exact hk (List.mem_append_left _ hmem)
  · rw [hcreated, hdeletion, List.filterMap_append, ← hs']
    have hnone : [(s.curid + 1, item)].filterMap (deletion calls) = [] := by
      rw [List.filterMap_cons_none, List.filterMap_nil]
      rw [deletion, if_neg]
      rintro ⟨hz, -⟩
      rw [hone] at hz
      cases hz
    rw [hnone, List.append_nil]
    exact h.deletions

/-- A new handle takes a free slot, or there is none. -/
theorem handleNew_cases (h : Lifecycle first calls replies s) (item : Item) :
    (handleCall s (.new item) = (.ok (.handle 0), s) ∧ ∀ i, (s.refs i).id ≠ 0) ∨
    ∃ i, (s.refs i).id = 0 ∧ (sizeAdd s.curid 1 ≠ 0 → item.type.length < 32 →
      handleCall s (.new item) = (.ok (.handle (sizeAdd s.curid 1)),
        { s with curid := sizeAdd s.curid 1 }.setRef i (item.reference (sizeAdd s.curid 1) 1))) ∧
      ∀ reply s', handleCall s (.new item) = (.ok reply, s') →
        sizeAdd s.curid 1 ≠ 0 ∧ item.type.length < 32 := by
  rw [handleCall, handleNew, if_neg (by simp [h.loaded]), if_neg (by simp [h.unlocked]), HandleTable.newHandle]
  cases hf : (List.finRange maxRefs).find? (fun i => (s.refs i).id = 0) with
  | none =>
    refine .inl ⟨rfl, fun i hi => ?_⟩
    rw [List.find?_eq_none] at hf
    exact hf i (List.mem_finRange i) (by simpa using hi)
  | some i =>
    refine .inr ⟨i, by simpa using List.find?_some hf, fun hz hlen => ?_, fun reply s' hr => ?_⟩
    · dsimp only
      rw [if_neg hz]
      dsimp only
      rw [if_neg (by omega), setRef_self]
      have htwice : ∀ (t : HandleTable) ref ref', (t.setRef i ref).setRef i ref' = t.setRef i ref' := by
        intro t ref ref'
        rw [HandleTable.setRef, HandleTable.setRef, HandleTable.setRef, Function.update_idem]
      rw [htwice]
      rfl
    · dsimp only at hr
      by_cases hz : sizeAdd s.curid 1 = 0
      · rw [if_pos hz] at hr
        cases hr
      · rw [if_neg hz] at hr
        dsimp only at hr
        by_cases hlen : 32 < item.type.length + 1
        · rw [if_pos hlen] at hr
          cases hr
        · exact ⟨hz, by omega⟩

private theorem sizeAdd_one {n : Nat} (hb : n < sizeLimit) (hz : sizeAdd n 1 ≠ 0) :
    sizeAdd n 1 = n + 1 ∧ n + 1 < sizeLimit := by
  rcases Nat.lt_or_ge (n + 1) sizeLimit with hlt | hge
  · exact ⟨sizeAdd_of_lt hlt, hlt⟩
  · refine absurd ?_ hz
    rw [sizeAdd, show n + 1 = sizeLimit by omega, Nat.mod_self]

theorem live_calls (h : Lifecycle first calls replies s) (hfit : OwnersFit calls) {hd : Handle}
    {item : Item} (he : (hd, item) ∈ created calls replies) (hlive : s.Live hd) :
    ∃ i, (s.refs i).id = hd ∧
      handleCall s (.data hd) = (.ok (.pointer item.data), s) ∧
      handleCall s (.reference hd) =
        (.ok .done, s.setRef i { s.refs i with count := sizeAdd (owners calls hd) 1 }) ∧
      (owners calls hd ≠ 1 → handleCall s (.unreference hd) =
        (.ok .done, s.setRef i { s.refs i with count := owners calls hd - 1 })) ∧
      (owners calls hd = 1 → ∃ ref, ref.id = 0 ∧ handleCall s (.unreference hd) =
        (.ok .done, { s.setRef i ref with deletions := s.deletions ++
          if item.deleter = 0 then [] else [⟨item.deleter, item.data, item.context⟩] })) := by
  obtain ⟨i, hf, hs⟩ := h.found he hlive
  have hpos : 0 < owners calls hd := (h.live _ he).mpr hlive
  have hlt : owners calls hd < sizeLimit := by
    have hall := hfit calls (List.prefix_refl calls) hd
    have hlimit : 0 < sizeLimit := by decide
    unfold owners
    omega
  have hid : (s.refs i).id = hd := by rw [hs]; rfl
  have hcount : (s.refs i).count = owners calls hd := by rw [hs]; rfl
  have hdata : (s.refs i).data = item.data := by rw [hs]; rfl
  have hdeleter : (s.refs i).deleter = item.deleter := by rw [hs]; rfl
  have hcontext : (s.refs i).deleterContext = item.context := by rw [hs]; rfl
  have hsub : sizeSub (s.refs i).count 1 = owners calls hd - 1 := by
    rw [hcount, sizeSub_of_le hpos hlt]
  refine ⟨i, hid, ?_, ?_, fun hone => ?_, fun hone => ⟨{ s.refs i with count := 0, id := 0 }, rfl, ?_⟩⟩
  · rw [handleCall, handleData]
    simp only [hlive.1, h.loaded, h.unlocked, hf, hdata]
    rfl
  · rw [handleCall, handleReference]
    simp only [hlive.1, h.loaded, h.unlocked, hf, hcount]
    rfl
  · rw [handleCall, handleUnreference]
    simp only [hlive.1, h.loaded, h.unlocked, hf, hsub]
    rw [if_pos (by omega : owners calls hd - 1 ≠ 0)]
    rfl
  · rw [handleCall, handleUnreference]
    simp only [hlive.1, h.loaded, h.unlocked, hf, hsub, hone, hdeleter, hdata, hcontext]
    by_cases hz : item.deleter = 0
    · simp [hz, HandleTable.setRef, h.unlocked, Except.map]
    · simp [hz, recordDeletion, HandleTable.setRef, h.unlocked, Except.map]

/-- How a call on a handle that is not live ends: the null handle fails the assertion, any other is fatal. -/
def staleFault (hd : Handle) : Fault := if hd = 0 then .assertion else .abort

private theorem dead_calls (h : Lifecycle first calls replies s) {hd : Handle} (hdead : ¬ s.Live hd)
    {call : HandleCall} (hc : Recounts hd call ∨ call = .data hd) :
    handleCall s call = (.error (staleFault hd), s) := by
  unfold staleFault
  by_cases hz : hd = 0
  · rw [if_pos hz]
    rcases hc with hc | rfl
    · cases hc <;> simp [handleCall, handleReference, handleUnreference, hz, Except.map]
    · simp [handleCall, handleData, hz, Except.map]
  · have hf : s.findHandle hd = none := findHandle_none.mpr fun i hi => hdead ⟨hz, i, hi⟩
    rw [if_neg hz]
    rcases hc with hc | rfl
    · cases hc <;> simp [handleCall, handleReference, handleUnreference, hz, h.loaded, h.unlocked, hf, Except.map]
    · simp [handleCall, handleData, hz, h.loaded, h.unlocked, hf, Except.map]

/-- A call that returns keeps the account of the table. -/
theorem handleCall_lifecycle (h : Lifecycle first calls replies s) (hb : s.curid < sizeLimit)
    {call : HandleCall} (hfit : OwnersFit (calls ++ [call])) {reply : HandleReply} {s' : HandleTable}
    (hok : handleCall s call = (.ok reply, s')) :
    Lifecycle first (calls ++ [call]) (replies ++ [reply]) s' ∧ s'.curid < sizeLimit := by
  have hlive : ∀ hd, Recounts hd call ∨ call = .data hd → s.Live hd := by
    intro hd hc
    by_contra hdead
    have hf := dead_calls h hdead hc
    rw [hok] at hf
    cases hf
  cases call with
  | new item =>
    rcases handleNew_cases h item with ⟨hfull, -⟩ | ⟨i, hi, hnew, honly⟩
    · rw [hok] at hfull
      obtain ⟨hr, rfl⟩ := Prod.mk.inj hfull
      obtain rfl := Except.ok.inj hr
      exact ⟨h.neutral rfl nofun nofun, hb⟩
    · obtain ⟨hz, hlen⟩ := honly reply s' hok
      have he := hnew hz hlen
      obtain ⟨hone, hlt⟩ := sizeAdd_one hb hz
      rw [hok, hone] at he
      obtain ⟨hr, rfl⟩ := Prod.mk.inj he
      obtain rfl := Except.ok.inj hr
      exact ⟨h.opened item hi, hlt⟩
  | data hd =>
    have hl := hlive hd (.inr rfl)
    obtain ⟨item, he⟩ := h.issued hl
    obtain ⟨i, -, hdata, -⟩ := live_calls h hfit.take he hl
    rw [hok] at hdata
    obtain ⟨hr, rfl⟩ := Prod.mk.inj hdata
    exact ⟨h.neutral rfl nofun nofun, hb⟩
  | reference hd =>
    have hl := hlive hd (.inl .reference)
    obtain ⟨item, he⟩ := h.issued hl
    obtain ⟨i, hi, -, href, -⟩ := live_calls h hfit.take he hl
    have hnew : owners (calls ++ [.reference hd]) hd = owners calls hd + 1 := owners_reference ((h.live _ he).mpr hl)
    have hup : sizeAdd (owners calls hd) 1 = owners (calls ++ [.reference hd]) hd := by
      have hall := hfit _ (List.prefix_refl _) hd
      have hlimit : 0 < sizeLimit := by decide
      rw [hnew]
      apply sizeAdd_of_lt
      rw [← hnew]
      unfold owners
      omega
    rw [hok, hup] at href
    obtain ⟨-, rfl⟩ := Prod.mk.inj href
    refine ⟨h.recount .reference reply hl hi ?_, hb⟩
    rw [hnew]
    exact Nat.succ_pos _
  | unreference hd =>
    have hl := hlive hd (.inl .unreference)
    obtain ⟨item, he⟩ := h.issued hl
    obtain ⟨i, hi, -, -, hmany, hlast⟩ := live_calls h hfit.take he hl
    have hdown := owners_unreference calls hd
    have hpos : 0 < owners calls hd := (h.live _ he).mpr hl
    by_cases hone : owners calls hd = 1
    · obtain ⟨ref, hz, hun⟩ := hlast hone
      have hzero : owners (calls ++ [.unreference hd]) hd = 0 := by rw [hdown, hone]
      have hruns : (deletion (calls ++ [.unreference hd]) (hd, item)).toList =
          if item.deleter = 0 then [] else [⟨item.deleter, item.data, item.context⟩] := by
        by_cases hnull : item.deleter = 0 <;> simp [deletion, hzero, hnull]
      rw [hok, ← hruns] at hun
      obtain ⟨-, rfl⟩ := Prod.mk.inj hun
      exact ⟨h.freed reply he hi hl hzero ref hz, hb⟩
    · have hun := hmany hone
      rw [hok, ← hdown] at hun
      obtain ⟨-, rfl⟩ := Prod.mk.inj hun
      refine ⟨h.recount .unreference reply hl hi ?_, hb⟩
      omega

theorem handleRun_lifecycle (calls' : List HandleCall) (h : Lifecycle first calls replies s)
    (hb : s.curid < sizeLimit) (hfit : OwnersFit (calls ++ calls')) {replies' : List HandleReply}
    {s' : HandleTable} (hrun : runCalls handleStep s calls' = .ok (replies', s')) :
    Lifecycle first (calls ++ calls') (replies ++ replies') s' := by
  induction calls' generalizing calls replies s replies' with
  | nil =>
    obtain ⟨rfl, rfl⟩ := Prod.mk.inj (Except.ok.inj hrun)
    rwa [List.append_nil, List.append_nil]
  | cons call calls' ih =>
    rw [runCalls, handleStep] at hrun
    rcases hcall : handleCall s call with ⟨result, s₁⟩
    rw [hcall] at hrun
    cases result with
    | error fault => cases hrun
    | ok reply =>
      dsimp only at hrun
      cases hrest : runCalls handleStep s₁ calls' with
      | error fault =>
        rw [hrest] at hrun
        cases hrun
      | ok rest =>
        obtain ⟨replies₁, s₂⟩ := rest
        rw [hrest] at hrun
        obtain ⟨rfl, rfl⟩ := Prod.mk.inj (Except.ok.inj hrun)
        rw [List.append_cons] at hfit ⊢
        rw [List.append_cons replies reply]
        obtain ⟨h₁, hb₁⟩ := handleCall_lifecycle h hb hfit.take hcall
        exact ih h₁ hb₁ hfit hrest

/-- The table is full when as many handles are live as it has slots. -/
theorem Lifecycle.full_iff (h : Lifecycle first calls replies s) :
    s.liveHandles.card = maxRefs ↔ ∀ i, (s.refs i).id ≠ 0 := by
  have hle : (Finset.univ.image (fun i => (s.refs i).id)).card ≤ maxRefs := by
    refine Finset.card_image_le.trans (Nat.le_of_eq ?_)
    rw [Finset.card_univ, Fintype.card_fin]
  constructor
  · intro hfull i hi
    have hmem : 0 ∈ Finset.univ.image (fun i => (s.refs i).id) :=
      Finset.mem_image.mpr ⟨i, Finset.mem_univ i, hi⟩
    rw [HandleTable.liveHandles, Finset.card_erase_of_mem hmem] at hfull
    have hpos : 0 < maxRefs := by decide
    omega
  · intro hfull
    have hnot : 0 ∉ Finset.univ.image (fun i => (s.refs i).id) := by
      intro hmem
      obtain ⟨i, -, hi⟩ := Finset.mem_image.mp hmem
      exact hfull i hi
    rw [HandleTable.liveHandles, Finset.erase_eq_of_notMem hnot, Finset.card_image_of_injective,
      Finset.card_univ, Fintype.card_fin]
    intro i j hij
    exact h.distinct i j (hfull i) hij

end Steps

/-- Calls in any order on a loaded table, as long as no handle has 2^64 owners at once: what the
table holds follows from the calls, and so does what the next call does. A call on a handle that is
not live aborts. -/
theorem handle_lifecycle {s₀ : HandleTable} (hload : s₀.loaded = false) (hcur : s₀.curid < sizeLimit)
    {calls : List HandleCall} {replies : List HandleReply} {s : HandleTable}
    (hrun : runCalls handleStep (handleLoad s₀).2 calls = .ok (replies, s)) (hfit : OwnersFit calls) :
    Lifecycle s₀.curid calls replies s ∧
    (∀ item : Item, item.type.length ≤ 31 → s.curid + 1 < sizeLimit →
      (s.liveHandles.card = maxRefs → handleCall s (.new item) = (.ok (.handle 0), s)) ∧
      (s.liveHandles.card ≠ maxRefs →
        ∃ s', handleCall s (.new item) = (.ok (.handle (s.curid + 1)), s'))) ∧
    (∀ hd item, (hd, item) ∈ created calls replies → s.Live hd →
      handleCall s (.data hd) = (.ok (.pointer item.data), s) ∧
      (∃ s', handleCall s (.reference hd) = (.ok .done, s') ∧ s'.deletions = s.deletions) ∧
      ∃ s', handleCall s (.unreference hd) = (.ok .done, s') ∧
        s'.deletions = s.deletions ++ (deletion (calls ++ [.unreference hd]) (hd, item)).toList) ∧
    ∀ hd call, ¬ s.Live hd → (Recounts hd call ∨ call = .data hd) →
      handleCall s call = (.error (staleFault hd), s) := by
  have hstart : (handleLoad s₀).2.curid < sizeLimit := by
    rw [handleLoad, hload]
    exact hcur
  have h : Lifecycle s₀.curid calls replies s :=
    handleRun_lifecycle calls (Lifecycle.start hload) hstart hfit hrun
  refine ⟨h, ?_, ?_, fun hd call hdead hc => dead_calls h hdead hc⟩
  · intro item hlen hnext
    have hone : sizeAdd s.curid 1 = s.curid + 1 := sizeAdd_of_lt hnext
    rcases handleNew_cases h item with ⟨hfull, htaken⟩ | ⟨i, hi, hnew, -⟩
    · exact ⟨fun _ => hfull, fun hn => absurd (h.full_iff.mpr htaken) hn⟩
    · refine ⟨fun hfull => absurd hi (h.full_iff.mp hfull i), fun _ => ?_⟩
      rw [hone] at hnew
      exact ⟨_, hnew (Nat.succ_ne_zero _) (Nat.lt_succ_of_le hlen)⟩
  · intro hd item he hlive
    obtain ⟨i, hi, hdata, href, hmany, hlast⟩ := live_calls h hfit he hlive
    have hpos : 0 < owners calls hd := (h.live _ he).mpr hlive
    have hdown := owners_unreference calls hd
    refine ⟨hdata, ⟨_, href, rfl⟩, ?_⟩
    by_cases hone : owners calls hd = 1
    · obtain ⟨ref, -, hun⟩ := hlast hone
      refine ⟨_, hun, ?_⟩
      by_cases hnull : item.deleter = 0 <;> simp [deletion, hdown, hone, hnull]
    · refine ⟨_, hmany hone, ?_⟩
      rw [deletion, if_neg, Option.toList_none, List.append_nil]
      · rfl
      · rintro ⟨hz, -⟩
        change owners (calls ++ [.unreference hd]) hd = 0 at hz
        omega

/-- A handle is created, shared and given up twice; then it is stale. -/
theorem handle_lifecycle_twice :
    ∃ s, runCalls handleStep (handleLoad .initial).2
        [.new ⟨[], 5, 6, 7⟩, .reference 1, .unreference 1, .unreference 1] = .ok ([.handle 1, .done, .done, .done], s) ∧
      s.deletions = [⟨6, 5, 7⟩] ∧
      Lifecycle 0 [.new ⟨[], 5, 6, 7⟩, .reference 1, .unreference 1, .unreference 1]
        [.handle 1, .done, .done, .done] s ∧
      handleCall s (.data 1) = (.error .abort, s) := by
  obtain ⟨s, hrun, hdel⟩ : ∃ s, runCalls handleStep (handleLoad .initial).2
      [.new ⟨[], 5, 6, 7⟩, .reference 1, .unreference 1, .unreference 1] = .ok ([.handle 1, .done, .done, .done], s) ∧
      s.deletions = [⟨6, 5, 7⟩] := ⟨_, rfl, rfl⟩
  have hfit : OwnersFit [.new ⟨[], 5, 6, 7⟩, .reference 1, .unreference 1, .unreference 1] := by
    intro done hdone hd
    have hlen : done.count (.reference hd) ≤ 4 := List.count_le_length.trans hdone.length_le
    have hlimit : 5 < sizeLimit := by decide
    omega
  obtain ⟨h, -, -, hstale⟩ := handle_lifecycle (by rfl) (by decide) hrun hfit
  have hdead : ¬ s.Live 1 := (h.live (1, ⟨[], 5, 6, 7⟩) (by decide)).not.mp (by decide)
  exact ⟨s, hrun, hdel, h, hstale 1 (.data 1) hdead (.inr rfl)⟩

private theorem references_run (n : Nat) {s : HandleTable} (hi : (s.refs 0).id = 1) (hl : s.loaded = true)
    (hu : s.locked = false) (hc : (s.refs 0).count < sizeLimit) :
    runCalls handleStep s (List.replicate n (.reference 1)) =
      .ok (List.replicate n .done,
        s.setRef 0 { s.refs 0 with count := ((s.refs 0).count + n) % sizeLimit }) := by
  induction n generalizing s with
  | zero =>
    have hsame : s.setRef 0 { s.refs 0 with count := ((s.refs 0).count + 0) % sizeLimit } = s := by
      rw [Nat.add_zero, Nat.mod_eq_of_lt hc, HandleTable.setRef]
      exact congrArg (fun refs => { s with refs := refs }) (Function.update_eq_self 0 s.refs)
    rw [hsame]
    rfl
  | succ n ih =>
    have hf : s.findHandle 1 = some 0 := by
      have hrange : List.finRange maxRefs = 0 :: (List.finRange 254).map Fin.succ := List.finRange_succ
      rw [HandleTable.findHandle, hrange, List.find?_cons_of_pos (by simpa using hi)]
    have hstep : handleStep s (.reference 1) =
        .ok (.done, s.setRef 0 { s.refs 0 with count := sizeAdd (s.refs 0).count 1 }) := by
      simp [handleStep, handleCall, handleReference, hl, hu, hf, Except.map]
    generalize hs₁ : s.setRef 0 { s.refs 0 with count := sizeAdd (s.refs 0).count 1 } = s₁ at hstep
    have href : s₁.refs 0 = { s.refs 0 with count := sizeAdd (s.refs 0).count 1 } := by
      rw [← hs₁, setRef_self]
    have hrest := ih (s := s₁) (by rw [href]; exact hi) (hs₁ ▸ hl) (hs₁ ▸ hu)
      (by rw [href]; exact Nat.mod_lt _ (by decide))
    have hsum : (sizeAdd (s.refs 0).count 1 + n) % sizeLimit = ((s.refs 0).count + (n + 1)) % sizeLimit := by
      rw [sizeAdd, Nat.mod_add_mod, Nat.add_assoc, Nat.add_comm 1 n]
    rw [List.replicate_succ, runCalls, hstep]
    dsimp only
    rw [hrest, href]
    dsimp only
    rw [hsum, ← hs₁, HandleTable.setRef, HandleTable.setRef, HandleTable.setRef, Function.update_idem]
    rfl

/-- After 2^64 - 1 references the count of a live handle is zero. -/
theorem references_wrap :
    ∃ replies s, runCalls handleStep (handleLoad .initial).2
        (.new ⟨[], 5, 6, 7⟩ :: List.replicate (2^64 - 1) (.reference 1)) = .ok (replies, s) ∧
      s.Live 1 ∧ (s.refs 0).id = 1 ∧ (s.refs 0).count = 0 := by
  obtain ⟨s, hnew, hi, hl, hu, hc⟩ : ∃ s, handleStep (handleLoad .initial).2 (.new ⟨[], 5, 6, 7⟩) =
      .ok (.handle 1, s) ∧ (s.refs 0).id = 1 ∧ s.loaded = true ∧ s.locked = false ∧ (s.refs 0).count = 1 :=
    ⟨_, rfl, rfl, rfl, rfl, rfl⟩
  have hrun := references_run (2^64 - 1) hi hl hu (by rw [hc]; decide)
  generalize hs' : s.setRef 0 _ = s' at hrun
  have hid : (s'.refs 0).id = 1 := by
    rw [← hs', setRef_self]
    exact hi
  have hzero : (s'.refs 0).count = 0 := by
    rw [← hs', setRef_self, hc]
    rfl
  refine ⟨.handle 1 :: List.replicate (2^64 - 1) .done, s', ?_, ⟨Nat.one_ne_zero, 0, hid⟩, hid, hzero⟩
  rw [runCalls, hnew]
  dsimp only
  rw [hrun]

end CFlare.Handles
