import CFlare.Handles.HandleLifecycle
import Mathlib.Data.List.Forall2

/-! Unloading the handles. The handles that are left are warned about and not deleted. The next load starts with an empty
table, and goes on numbering where the last one ended. -/
namespace CFlare.Handles
open CFlare.Library

def stillReferenced (ref : Reference) : Bytes :=
  ascii "handle: " ++ ref.type ++ ascii " (hd " ++ ascii (ToString.toString ref.id) ++ ascii ") still has " ++
    ascii (ToString.toString ref.count) ++ ascii " references!"

/-- The warnings are in the order of the slots. -/
def handleUnload (s : HandleTable) : Except Fault (List Bytes) × HandleTable :=
  if s.loaded = false then (.error .assertion, s)
  else
    (.ok ((((List.finRange maxRefs).map s.refs).filter (fun ref => ref.id ≠ 0)).map stillReferenced),
      { s with loaded := false })

/-- What comes of a life of the table: the replies, the deleters called and the warnings. -/
structure LifeResult where
  replies : List HandleReply
  deletions : List Deletion
  warnings : List Bytes
  deriving DecidableEq, Repr

def handleLife (s : HandleTable) (calls : List HandleCall) : Except Fault (LifeResult × HandleTable) :=
  match handleLoad s with
  | (.error fault, _) => .error fault
  | (.ok (), s) => do
    let (replies, s) ← runCalls handleStep s calls
    match handleUnload s with
    | (.error fault, _) => .error fault
    | (.ok warnings, s') => .ok (⟨replies, s.deletions, warnings⟩, s')

/-- The warning about a handle that has owners. -/
def leakWarning (calls : List HandleCall) (entry : Handle × Item) : Option Bytes :=
  if owners calls entry.1 = 0 then none
  else some (stillReferenced (entry.2.reference entry.1 (owners calls entry.1)))

section Lives
variable {first : Handle} {calls : List HandleCall} {replies : List HandleReply} {s : HandleTable}

theorem handleNew_curid (hb : s.curid < sizeLimit) (item : Item) : (handleNew s item).2.curid < sizeLimit := by
  unfold handleNew
  split
  · exact hb
  · split
    · exact hb
    · split
      · exact hb
      · exact hb
      · next i s' hnew =>
        have hcurid : s'.curid = sizeAdd s.curid 1 := by
          unfold HandleTable.newHandle at hnew
          split at hnew
          · cases hnew
          · dsimp only at hnew
            split at hnew
            · cases hnew
            · obtain ⟨-, rfl⟩ := Prod.mk.inj (Option.some.inj (Except.ok.inj hnew))
              rfl
        have hlt : s'.curid < sizeLimit := by
          rw [hcurid]
          exact Nat.mod_lt _ (Nat.two_pow_pos 64)
        split
        · exact hlt
        · exact hlt

theorem handleReference_curid (s : HandleTable) (hd : Handle) : (handleReference s hd).2.curid = s.curid := by
  unfold handleReference
  split
  · rfl
  · split
    · rfl
    · split <;> rfl

theorem handleUnreference_curid (s : HandleTable) (hd : Handle) :
    (handleUnreference recordDeletion s hd).2.curid = s.curid := by
  by_cases hready : (hd = 0 ∨ s.loaded = false) ∨ s.locked = true
  · rcases hready with h | h <;> simp [handleUnreference, h]
    split <;> rfl
  · obtain ⟨hd0, hlock⟩ := not_or.mp hready
    cases hf : s.findHandle hd with
    | none => simp [handleUnreference, hd0, hlock, hf]
    | some i =>
      by_cases hlast : sizeSub (s.refs i).count 1 = 0
      · by_cases hnull : (s.refs i).deleter = 0 <;>
          simp [handleUnreference, hd0, hlock, hf, hlast, hnull, recordDeletion, HandleTable.setRef]
      · simp [handleUnreference, hd0, hlock, hf, hlast, HandleTable.setRef]

theorem handleData_snd (s : HandleTable) (hd : Handle) : (handleData s hd).2 = s := by
  unfold handleData
  split
  · rfl
  · split
    · rfl
    · split <;> rfl

theorem handleStep_curid (hb : s.curid < sizeLimit) {call : HandleCall} {reply : HandleReply} {s' : HandleTable}
    (he : handleStep s call = .ok (reply, s')) : s'.curid < sizeLimit := by
  have hcall : (handleCall s call).2.curid < sizeLimit := by
    cases call with
    | new item => exact handleNew_curid hb item
    | reference hd => exact (handleReference_curid s hd).trans_lt hb
    | unreference hd => exact (handleUnreference_curid s hd).trans_lt hb
    | data hd => exact (congrArg HandleTable.curid (handleData_snd s hd)).trans_lt hb
  unfold handleStep at he
  rcases hpair : handleCall s call with ⟨result, s1⟩
  rw [hpair] at he hcall
  cases result with
  | error fault => cases he
  | ok reply' =>
    obtain ⟨-, rfl⟩ := Prod.mk.inj (Except.ok.inj he)
    exact hcall

/-- The slots that are taken hold the handles that have owners, each once. -/
theorem Lifecycle.taken (h : Lifecycle first calls replies s) :
    (((List.finRange maxRefs).map s.refs).filter (fun ref => ref.id ≠ 0)).Perm
      ((created calls replies).filterMap fun entry =>
        if owners calls entry.1 = 0 then none else some (entry.2.reference entry.1 (owners calls entry.1))) := by
  have hslots : ((((List.finRange maxRefs).filter (fun i => (s.refs i).id ≠ 0)).map s.refs)).Nodup := by
    refine (List.nodup_map_iff_inj_on ((List.nodup_finRange maxRefs).filter _)).mpr fun i hi j hj heq => ?_
    have hne : (s.refs i).id ≠ 0 := of_decide_eq_true (List.mem_filter.mp hi).2
    exact h.distinct i j hne (congrArg Reference.id heq)
  have hentries : ((created calls replies).filterMap fun entry =>
      if owners calls entry.1 = 0 then none else some (entry.2.reference entry.1 (owners calls entry.1))).Nodup := by
    refine h.nodup.of_map.filterMap ?_
    rintro ⟨hd, item⟩ ⟨hd', item'⟩ ref he he'
    obtain ⟨-, heq⟩ := Option.ite_none_left_eq_some.mp he
    obtain ⟨-, heq'⟩ := Option.ite_none_left_eq_some.mp he'
    obtain ⟨htype, rfl, hdata, -, hdeleter, hcontext⟩ := Reference.mk.inj (Option.some.inj (heq.trans heq'.symm))
    exact congrArg (hd, ·) (by cases item; cases item'; simp_all)
  rw [List.filter_map]
  refine (List.perm_ext_iff_of_nodup hslots hentries).mpr fun ref => ?_
  rw [List.mem_map, List.mem_filterMap]
  constructor
  · rintro ⟨i, hi, rfl⟩
    have hne : (s.refs i).id ≠ 0 := of_decide_eq_true (List.mem_filter.mp hi).2
    obtain ⟨item, hmem, hitem⟩ := h.slot i hne
    have hpos : 0 < owners calls (s.refs i).id := (h.live _ hmem).mpr ⟨hne, i, rfl⟩
    exact ⟨((s.refs i).id, item), hmem, by rw [if_neg (Nat.ne_of_gt hpos), ← hitem]⟩
  · rintro ⟨⟨hd, item⟩, hmem, href⟩
    split at href
    · cases href
    · next hpos =>
      have hlive := (h.live _ hmem).mp (Nat.pos_of_ne_zero hpos)
      obtain ⟨i, hf, hi⟩ := h.found hmem hlive
      refine ⟨i, List.mem_filter.mpr ⟨List.mem_finRange i, ?_⟩, hi.trans (Option.some.inj href)⟩
      rw [decide_eq_true_iff, findHandle_some hf]
      exact hlive.1

/-- What a life does, from a table that is not loaded. -/
theorem handleLife_spec (hload : s.loaded = false) (hb : s.curid < sizeLimit) (hfit : OwnersFit calls)
    {result : LifeResult} {s' : HandleTable} (he : handleLife s calls = .ok (result, s')) :
    (created calls result.replies).map Prod.fst = List.range' (s.curid + 1) (created calls result.replies).length ∧
      result.deletions.Perm ((created calls result.replies).filterMap (deletion calls)) ∧
      result.warnings.Perm ((created calls result.replies).filterMap (leakWarning calls)) ∧
      s'.loaded = false ∧ s'.curid < sizeLimit ∧ s'.curid = s.curid + (created calls result.replies).length := by
  obtain ⟨start, hstart, hstarts⟩ : ∃ start, handleLoad s = (.ok (), start) ∧ start = (handleLoad s).2 := by
    refine ⟨(handleLoad s).2, ?_, rfl⟩
    rw [handleLoad, hload]
    rfl
  have hcurid : start.curid = s.curid := by
    rw [hstarts, handleLoad, hload]
    rfl
  rw [handleLife, hstart] at he
  obtain ⟨⟨replies, s1⟩, hrun, he⟩ := bind_eq_ok.mp he
  have h : Lifecycle s.curid calls replies s1 :=
    handleRun_lifecycle calls (Lifecycle.start hload) (by rw [← hstarts, hcurid]; exact hb) hfit (hstarts ▸ hrun)
  have hb1 : s1.curid < sizeLimit :=
    runCalls_preserves (fun s => s.curid < sizeLimit) (fun s call reply s' _ hb he => handleStep_curid hb he)
      (hcurid ▸ hb) hrun
  have hunload : handleUnload s1 = (.ok ((((List.finRange maxRefs).map s1.refs).filter (fun ref => ref.id ≠ 0)).map
      stillReferenced), { s1 with loaded := false }) := if_neg (by simp [h.loaded])
  dsimp only at he
  rw [hunload] at he
  obtain ⟨rfl, rfl⟩ := Prod.mk.inj (Except.ok.inj he)
  refine ⟨h.numbered, h.deletions, ?_, rfl, hb1, h.counter⟩
  have hwarnings := h.taken.map stillReferenced
  rw [List.map_filterMap] at hwarnings
  have hleak : leakWarning calls = fun entry => Option.map stillReferenced
      (if owners calls entry.1 = 0 then none else some (entry.2.reference entry.1 (owners calls entry.1))) := by
    funext entry
    unfold leakWarning
    split <;> rfl
  rw [hleak]
  exact hwarnings

/-- However often the handles are loaded, used and unloaded: the handles are numbered on from one life to the next, so
that none is issued twice. Each unload warns of the handles that have owners, with their type and the number of these,
and the deleters that ran are those of the others. -/
theorem handle_lives {lives : List (List HandleCall)} (hfit : ∀ calls ∈ lives, OwnersFit calls)
    {results : List LifeResult} {s : HandleTable}
    (hrun : runCalls handleLife HandleTable.initial lives = .ok (results, s)) :
    (∃ n, (List.zipWith (fun calls result => (created calls result.replies).map Prod.fst) lives results).flatten =
      List.range' 1 n) ∧
    List.Forall₂ (fun calls result =>
      result.warnings.Perm ((created calls result.replies).filterMap (leakWarning calls)) ∧
        result.deletions.Perm ((created calls result.replies).filterMap (deletion calls))) lives results := by
  suffices h : ∀ start : HandleTable, start.loaded = false → start.curid < sizeLimit →
      runCalls handleLife start lives = .ok (results, s) →
      (∃ n, (List.zipWith (fun calls result => (created calls result.replies).map Prod.fst) lives results).flatten =
        List.range' (start.curid + 1) n) ∧
      List.Forall₂ (fun calls result =>
        result.warnings.Perm ((created calls result.replies).filterMap (leakWarning calls)) ∧
          result.deletions.Perm ((created calls result.replies).filterMap (deletion calls))) lives results from
    h HandleTable.initial rfl (by decide) hrun
  clear hrun
  induction lives generalizing results with
  | nil =>
    intro start hload hb hrun
    obtain ⟨rfl, -⟩ := Prod.mk.inj (Except.ok.inj hrun)
    exact ⟨⟨0, rfl⟩, .nil⟩
  | cons calls lives ih =>
    intro start hload hb hrun
    obtain ⟨result, s1, rest, hlife, hrest, rfl⟩ := runCalls_cons_replies hrun
    obtain ⟨hnumbered, hdeletions, hwarnings, hunloaded, hb1, hcurid⟩ :=
      handleLife_spec hload hb (hfit calls List.mem_cons_self) hlife
    obtain ⟨⟨n, hn⟩, hlater⟩ := ih (fun c hc => hfit c (List.mem_cons_of_mem _ hc)) s1 hunloaded hb1 hrest
    refine ⟨⟨(created calls result.replies).length + n, ?_⟩, .cons ⟨hwarnings, hdeletions⟩ hlater⟩
    rw [List.zipWith_cons_cons, List.flatten_cons, hnumbered, hn, hcurid, ← List.range'_append_1]
    congr 2
    omega

/-- A handle that is shared and left, and one that is given up in the next life. -/
theorem handle_lives_two :
    ∃ results s, runCalls handleLife .initial
        [[.new ⟨[120], 5, 6, 7⟩, .reference 1], [.new ⟨[120], 8, 6, 9⟩, .unreference 2]] = .ok (results, s) ∧
      results.map LifeResult.warnings = [[ascii "handle: x (hd 1) still has 2 references!"], []] ∧
      results.map LifeResult.deletions = [[], [⟨6, 8, 9⟩]] ∧
      ∃ n, (List.zipWith (fun calls result => (created calls result.replies).map Prod.fst)
        [[.new ⟨[120], 5, 6, 7⟩, .reference 1], [.new ⟨[120], 8, 6, 9⟩, .unreference 2]] results).flatten =
          List.range' 1 n := by
  obtain ⟨results, s, hrun, hwarnings, hdeletions⟩ : ∃ results s, runCalls handleLife .initial
      [[.new ⟨[120], 5, 6, 7⟩, .reference 1], [.new ⟨[120], 8, 6, 9⟩, .unreference 2]] = .ok (results, s) ∧
        results.map LifeResult.warnings = [[ascii "handle: x (hd 1) still has 2 references!"], []] ∧
        results.map LifeResult.deletions = [[], [⟨6, 8, 9⟩]] := ⟨_, _, rfl, by decide +kernel, by decide +kernel⟩
  refine ⟨results, s, hrun, hwarnings, hdeletions, (handle_lives (fun calls hc done hdone hd => ?_) hrun).1⟩
  have hlen : calls.length = 2 := by
    rcases List.mem_pair.mp hc with rfl | rfl <;> rfl
  have hcount : done.count (.reference hd) ≤ 2 := List.count_le_length.trans (hlen ▸ hdone.length_le)
  have hlimit : 3 < sizeLimit := by decide
  omega

end Lives

end CFlare.Handles
