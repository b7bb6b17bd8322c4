import Mathlib.Data.List.Perm.Basic
import Mathlib.Order.Lattice

/-! Lists put in the order of a rank, with equal ranks left in the order they came in. -/
namespace CFlare.Library
variable {ι P : Type} [LinearOrder P]

/-- `xs` holds what `es` holds, from low to high rank and otherwise in the same order. -/
structure StablySorts (rank : ι → P) (xs es : List ι) : Prop where
  perm : xs.Perm es
  sorted : xs.Pairwise (fun a b => rank a ≤ rank b)
  stable : ∀ p, xs.filter (fun a => rank a = p) = es.filter (fun a => rank a = p)

variable {rank : ι → P}

theorem StablySorts.nil : StablySorts rank [] [] := ⟨.nil, .nil, fun _ => rfl⟩

theorem StablySorts.singleton (a : ι) : StablySorts rank [a] [a] :=
  ⟨.refl _, List.pairwise_singleton _ a, fun _ => rfl⟩

theorem StablySorts.filter {xs es : List ι} (h : StablySorts rank xs es) (keep : ι → Bool) :
    StablySorts rank (xs.filter keep) (es.filter keep) := by
  refine ⟨h.perm.filter keep, h.sorted.filter keep, fun p => ?_⟩
  rw [List.filter_comm, h.stable p, List.filter_comm]

/-- The last to come goes behind everything of its own rank and before what ranks higher. -/
theorem StablySorts.insert {us vs es : List ι} {a : ι} (h : StablySorts rank (us ++ vs) es)
    (hu : ∀ u ∈ us, rank u ≤ rank a) (hv : ∀ v ∈ vs, rank a < rank v) :
    StablySorts rank (us ++ a :: vs) (es ++ [a]) := by
  obtain ⟨hsu, hsv, huv⟩ := List.pairwise_append.mp h.sorted
  refine ⟨?_, ?_, fun p => ?_⟩
  · exact List.perm_middle.trans ((h.perm.cons a).trans (List.perm_append_singleton a es).symm)
  · rw [List.pairwise_append, List.pairwise_cons]
    refine ⟨hsu, ⟨fun v hvm => (hv v hvm).le, hsv⟩, ?_⟩
    intro u hum b hb
    rcases List.mem_cons.mp hb with rfl | hvm
    · exact hu u hum
    · exact huv u hum b hvm
  · rw [List.filter_append es, ← h.stable p, List.filter_append, List.filter_append, List.filter_cons,
      List.append_assoc]
    congr 1
    by_cases hp : rank a = p
    · have hnone : vs.filter (fun b => rank b = p) = [] := by
        rw [List.filter_eq_nil_iff]
        intro v hvm hvp
        exact (hv v hvm).ne (hp.trans (of_decide_eq_true hvp).symm)
      simp [hp, hnone]
    · simp [hp]

/-- In a sorted list everything from the first higher rank on ranks higher. -/
theorem lt_of_sorted {us vs : List ι} {a b : ι}
    (h : (us ++ b :: vs).Pairwise (fun x y => rank x ≤ rank y)) (hb : rank a < rank b) :
    ∀ v ∈ b :: vs, rank a < rank v := by
  intro v hv
  rcases List.mem_cons.mp hv with rfl | hm
  · exact hb
  · exact hb.trans_le ((List.pairwise_cons.mp (List.pairwise_append.mp h).2.1).1 v hm)

end CFlare.Library
