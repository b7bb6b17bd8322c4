import Mathlib.Data.List.Nodup
import Mathlib.Data.List.Perm.Basic

/-! Entries with a key each: lookup, and the replacement of what one key holds. With
distinct keys a list of entries is a finite map, and its order does not matter. -/
namespace CFlare.Library
variable {ι κ : Type} [DecidableEq κ] (key : ι → κ)

def entryAt (es : List ι) (k : κ) : Option ι := es.find? (fun e => key e = k)

/-- Drop what `k` holds, then add `new` for it. -/
def replaceAt (es : List ι) (k : κ) (new : Option ι) : List ι :=
  es.filter (fun e => key e ≠ k) ++ new.toList

variable {key}

theorem entryAt_eq_none {es : List ι} {k : κ} : entryAt key es k = none ↔ ∀ e ∈ es, key e ≠ k := by
  simp [entryAt, List.find?_eq_none]

theorem entryAt_eq_some {es : List ι} (hd : (es.map key).Nodup) {k : κ} {e : ι} :
    entryAt key es k = some e ↔ e ∈ es ∧ key e = k := by
  constructor
  · intro h
    exact ⟨List.mem_of_find?_eq_some h, by simpa using List.find?_some h⟩
  · rintro ⟨hm, hk⟩
    cases hf : entryAt key es k with
    | none => exact absurd hk (entryAt_eq_none.mp hf e hm)
    | some e' =>
      have hk' : key e' = k := by simpa using List.find?_some hf
      rw [List.inj_on_of_nodup_map hd (List.mem_of_find?_eq_some hf) hm (hk'.trans hk.symm)]

theorem entryAt_isSome {es : List ι} {k : κ} : (entryAt key es k).isSome ↔ k ∈ es.map key := by
  simp [entryAt]

theorem entryAt_replaceAt (es : List ι) {k : κ} {new : Option ι} (hn : ∀ e, new = some e → key e = k)
    (k' : κ) :
    entryAt key (replaceAt key es k new) k' = if k' = k then new else entryAt key es k' := by
  unfold entryAt replaceAt
  rw [List.find?_append]
  split
  · next he =>
    subst he
    have hz : (es.filter (fun e => key e ≠ k')).find? (fun e => key e = k') = none := by
      rw [List.find?_eq_none]
      intro e he
      simpa using (List.mem_filter.mp he).2
    rw [hz, Option.none_or]
    cases new with
    | none => rfl
    | some e => simp [hn e rfl]
  · next hne =>
    have hr : new.toList.find? (fun e => key e = k') = none := by
      rw [List.find?_eq_none]
      intro e he
      have hk := hn e (by simpa using he)
      simp [hk, Ne.symm hne]
    have hf : (es.filter (fun e => key e ≠ k)).find? (fun e => key e = k') =
        es.find? (fun e => key e = k') := by
      rw [List.find?_filter]
      congr 1
      funext e
      by_cases hk : key e = k'
      · simp [hk, hne]
      · simp [hk]
    rw [hr, Option.or_none, hf]

theorem replaceAt_nodup {es : List ι} (hd : (es.map key).Nodup) {k : κ} {new : Option ι}
    (hn : ∀ e, new = some e → key e = k) : ((replaceAt key es k new).map key).Nodup := by
  unfold replaceAt
  rw [List.map_append, List.nodup_append]
  refine ⟨hd.sublist (List.filter_sublist.map key), by cases new <;> simp, ?_⟩
  intro a ha b hb hab
  obtain ⟨e, he, rfl⟩ := List.mem_map.mp ha
  obtain ⟨e', he', rfl⟩ := List.mem_map.mp hb
  have hk := hn e' (by simpa using he')
  have := (List.mem_filter.mp he).2
  simp [hab, hk] at this

theorem mem_replaceAt {es : List ι} {k : κ} {new : Option ι} {e : ι}
    (h : e ∈ replaceAt key es k new) : e ∈ es ∨ new = some e := by
  rcases List.mem_append.mp h with hf | hn
  · exact .inl (List.mem_filter.mp hf).1
  · exact .inr (by simpa using hn)

/-- Selecting entries commutes with a replacement that the selection keeps. -/
theorem filter_replaceAt (es : List ι) (k : κ) (new : Option ι) (keep : ι → Bool) :
    (replaceAt key es k new).filter keep =
      (es.filter keep).filter (fun e => key e ≠ k) ++ new.toList.filter keep := by
  unfold replaceAt
  rw [List.filter_append, List.filter_filter, List.filter_filter]
  congr 1
  apply List.filter_congr
  intro e _
  exact Bool.and_comm _ _

/-- In a list with distinct keys, dropping a key takes one entry from its place. -/
theorem filter_ne_of_split {xs ys : List ι} {a : ι} (hd : ((xs ++ a :: ys).map key).Nodup) :
    (xs ++ a :: ys).filter (fun e => key e ≠ key a) = xs ++ ys := by
  rw [List.map_append, List.map_cons, List.nodup_middle, List.nodup_cons] at hd
  have hne : ∀ e ∈ xs ++ ys, key e ≠ key a := by
    intro e he h
    apply hd.1
    rw [← List.map_append, ← h]
    exact List.mem_map_of_mem he
  rw [List.filter_append, List.filter_cons_of_neg (by simp), ← List.filter_append]
  exact List.filter_eq_self.mpr (fun e he => by simpa using hne e he)

/-- An entry and those under the other keys are all entries. -/
theorem perm_cons_filter_ne {es : List ι} (hd : (es.map key).Nodup) {a : ι} (ha : a ∈ es) :
    (a :: es.filter (fun e => key e ≠ key a)).Perm es := by
  obtain ⟨xs, ys, rfl⟩ := List.append_of_mem ha
  rw [filter_ne_of_split hd]
  exact List.perm_middle.symm

theorem filter_ne_of_absent {es : List ι} {k : κ} (h : ∀ e ∈ es, key e ≠ k) :
    es.filter (fun e => key e ≠ k) = es :=
  List.filter_eq_self.mpr (fun e he => by simpa using h e he)

/-- Cut a list by the classes below `k` and the class `k` itself. -/
theorem filter_lt_succ_perm (class_ : ι → Nat) (es : List ι) (k : Nat) :
    (es.filter (fun e => class_ e < k) ++ es.filter (fun e => class_ e = k)).Perm
      (es.filter (fun e => class_ e < k + 1)) := by
  have h := List.filter_append_perm (fun e => decide (class_ e < k))
    (es.filter (fun e => class_ e < k + 1))
  rw [List.filter_filter, List.filter_filter] at h
  have h1 : es.filter (fun e => decide (class_ e < k) && decide (class_ e < k + 1)) =
      es.filter (fun e => class_ e < k) := by
    apply List.filter_congr
    intro e _
    rw [← Bool.decide_and]
    exact decide_eq_decide.mpr ⟨fun h => h.1, fun h => ⟨h, by omega⟩⟩
  have h2 : es.filter (fun e => (!decide (class_ e < k)) && decide (class_ e < k + 1)) =
      es.filter (fun e => class_ e = k) := by
    apply List.filter_congr
    intro e _
    by_cases hk : class_ e = k
    · simp [hk]
    · by_cases hlt : class_ e < k
      · simp [hlt, hk]
      · simp [hlt, hk, show ¬ class_ e < k + 1 by omega]
  rwa [h1, h2] at h

end CFlare.Library
