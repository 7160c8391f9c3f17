import ResourcePki.Resources.Set
import Mathlib.Order.BooleanAlgebra.Basic

/-! Resource sets ordered by containment. A set is what it holds, so the laws for predicates are laws
for resource sets: the union is the least set that contains both, the intersection the greatest that
lies in both, and the excess the least set that has to be added. -/

namespace ResourcePki

namespace ResourceSet

variable {r s t : ResourceSet} {f : Family} {n : Nat}

theorem not_holds_empty : ¬ Holds ∅ f n := by
  cases f <;> exact Blocks.not_mem_empty n

theorem ext (h : ∀ f n, r.Holds f n ↔ s.Holds f n) : r = s := by
  rw [← equivalent_iff, equivalent, Bool.and_eq_true, contains_iff, contains_iff]
  exact ⟨fun f n => (h f n).mpr, fun f n => (h f n).mp⟩

theorem holds_injective : Function.Injective Holds := fun _ _ h =>
  ext fun f n => iff_of_eq (congrFun₂ h f n)

instance : LE ResourceSet := ⟨fun r s => s.contains r = true⟩

instance : LT ResourceSet := ⟨fun r s => r ≤ s ∧ ¬ s ≤ r⟩

instance : Max ResourceSet := ⟨union⟩

instance : Min ResourceSet := ⟨inter⟩

instance : SDiff ResourceSet := ⟨excess⟩

instance : Bot ResourceSet := ⟨∅⟩

theorem holds_le_iff : r.Holds ≤ s.Holds ↔ r ≤ s := contains_iff.symm

instance : GeneralizedBooleanAlgebra ResourceSet :=
  holds_injective.generalizedBooleanAlgebra Holds holds_le_iff
    (lt_iff_le_not_ge.trans (and_congr holds_le_iff (not_congr holds_le_iff)))
    (fun _ _ => funext₂ fun _ _ => propext holds_union)
    (fun _ _ => funext₂ fun _ _ => propext holds_inter)
    (funext₂ fun _ _ => propext (iff_false_intro not_holds_empty))
    (fun _ _ => funext₂ fun _ _ => propext holds_excess)

theorem contains_empty (r : ResourceSet) : r.contains ∅ = true := bot_le (a := r)

theorem empty_contains_iff : contains ∅ r = true ↔ r = ∅ := le_bot_iff (a := r)

theorem isEmpty_iff : r.isEmpty = true ↔ r = ∅ := by
  constructor
  · intro h
    simp only [isEmpty, Bool.and_eq_true, Blocks.isEmpty, List.isEmpty_iff] at h
    obtain ⟨⟨hasn, hipv4⟩, hipv6⟩ := h
    have hnone : ∀ f, (r.part f).toList = [] := by
      rintro (_ | _ | _)
      exacts [hasn, hipv4, hipv6]
    refine ext fun f n => iff_of_false ?_ not_holds_empty
    rintro ⟨b, hb, -⟩
    exact absurd (hnone f ▸ hb) List.not_mem_nil
  · rintro rfl
    rfl

theorem not_holds_of_isEmpty (h : r.isEmpty = true) : ¬ r.Holds f n :=
  isEmpty_iff.mp h ▸ not_holds_empty

/-! What one set lacks of another -/

/-- The excess of `r` is in every set that, added to `s`, makes up `r`. -/
theorem contains_excess_iff : t.contains (r.excess s) = true ↔ (s.union t).contains r = true :=
  sdiff_le_iff (a := r) (b := s) (c := t)

theorem isEmpty_excess_iff : (r.excess s).isEmpty = true ↔ s.contains r = true :=
  isEmpty_iff.trans (sdiff_eq_bot_iff (a := s) (b := r))

/-! Many sets at once -/

theorem holds_foldl_union {sets : List ResourceSet} :
    (sets.foldl union r).Holds f n ↔ r.Holds f n ∨ ∃ s ∈ sets, s.Holds f n := by
  induction sets generalizing r with
  | nil => simp
  | cons s rest ih =>
    rw [List.foldl_cons, ih, holds_union]
    simp only [List.mem_cons, exists_eq_or_imp, or_assoc]

theorem holds_unions {sets : List ResourceSet} :
    (unions sets).Holds f n ↔ ∃ s ∈ sets, s.Holds f n := by
  rw [unions, holds_foldl_union]
  exact or_iff_right not_holds_empty

theorem contains_unions_iff {sets : List ResourceSet} :
    r.contains (unions sets) = true ↔ ∀ s ∈ sets, r.contains s = true := by
  simp only [contains_iff, holds_unions]
  exact ⟨fun h s hs f n hn => h f n ⟨s, hs, hn⟩, fun h f n ⟨s, hs, hn⟩ => h s hs f n hn⟩

end ResourceSet

end ResourcePki
