import Stencil.Proofs.World.WellFormed
import Stencil.Script.Generator

/-!
# The order of a script is determined

Instances are sorted by rank and then by name. In a well-formed world no two names are
equal, so there is one sorted list only, whatever the order in which the instances were
added: `mergeSort_eq_of_perm`. Worlds whose instances have the same ranks and names are
therefore written in the same order, also when one of them has more instances.
-/

namespace Stencil

namespace World

theorem precedes_iff {w : World} {a b : Instance} :
    w.precedes a b = true ↔
      w.rank a < w.rank b ∨ w.rank a = w.rank b ∧ a.name ≤ b.name := by
  simp [precedes]

theorem precedes_trans (w : World) (a b c : Instance) (hab : w.precedes a b = true)
    (hbc : w.precedes b c = true) : w.precedes a c = true := by
  rw [precedes_iff] at hab hbc ⊢
  rcases hab with hab | ⟨hab, hname⟩
  · rcases hbc with hbc | ⟨hbc, _⟩
    · exact .inl (Nat.lt_trans hab hbc)
    · exact .inl (hbc ▸ hab)
  · rcases hbc with hbc | ⟨hbc, hname'⟩
    · exact .inl (hab ▸ hbc)
    · exact .inr ⟨hab.trans hbc, String.le_trans hname hname'⟩

theorem precedes_total (w : World) (a b : Instance) :
    (w.precedes a b || w.precedes b a) = true := by
  rw [Bool.or_eq_true, precedes_iff, precedes_iff]
  rcases Nat.lt_trichotomy (w.rank a) (w.rank b) with hlt | heq | hgt
  · exact .inl (.inl hlt)
  · rcases String.le_total a.name b.name with hle | hle
    · exact .inl (.inr ⟨heq, hle⟩)
    · exact .inr (.inr ⟨heq.symm, hle⟩)
  · exact .inr (.inl hgt)

theorem name_eq_of_precedes {w : World} {a b : Instance} (hab : w.precedes a b = true)
    (hba : w.precedes b a = true) : a.name = b.name := by
  rw [precedes_iff] at hab hba
  rcases hab with hab | ⟨hab, hname⟩
  · rcases hba with hba | ⟨hba, _⟩
    · exact absurd hba (Nat.lt_asymm hab)
    · exact absurd hba (Nat.ne_of_gt hab)
  · rcases hba with hba | ⟨_, hname'⟩
    · exact absurd hab (Nat.ne_of_gt hba)
    · exact String.le_antisymm hname hname'

theorem pairwise_mergeSort_precedes (w : World) (l : List Instance) :
    (l.mergeSort w.precedes).Pairwise fun a b => w.precedes a b = true :=
  List.pairwise_mergeSort w.precedes_trans w.precedes_total l

theorem ordered_perm (w : World) : w.ordered.Perm w.instances :=
  (List.mergeSort_perm _ _).cons _

theorem mem_ordered_iff {w : World} {o : Instance} : o ∈ w.ordered ↔ o ∈ w.instances :=
  w.ordered_perm.mem_iff

/-- Distinct names leave one sorted list only. -/
theorem mergeSort_eq_of_perm {w : World} (h : w.WellFormed) {l : List Instance}
    (hperm : w.others.Perm l) (hsorted : l.Pairwise fun a b => w.precedes a b = true) :
    w.others.mergeSort w.precedes = l := by
  refine List.Perm.eq_of_pairwise ?_ (w.pairwise_mergeSort_precedes w.others) hsorted
    ((List.mergeSort_perm _ _).trans hperm)
  -- Two instances that precede each other have one name, and so are one.
  intro a b ha hb hab hba
  have ha' := mem_instances_of_mem_others (List.mem_mergeSort.mp ha)
  have hb' := mem_instances_of_mem_others (hperm.mem_iff.mpr hb)
  exact h.eq_of_name ha' hb' (name_eq_of_precedes hab hba)

/-- If the instances of `v` are those of `w` that are kept, changed by `f` but neither in rank
nor in name, then they are written in the order of `w`. -/
theorem ordered_eq_map_filter {w v : World} (hv : v.WellFormed) {keep : Instance → Bool}
    {f : Instance → Instance} (henvironment : v.environment = f w.environment)
    (hkeep : keep w.environment = true)
    (hperm : v.others.Perm ((w.others.filter keep).map f))
    (hrank : ∀ o ∈ w.others, keep o = true → v.rank (f o) = w.rank o)
    (hname : ∀ o ∈ w.others, keep o = true → (f o).name = o.name) :
    v.ordered = (w.ordered.filter keep).map f := by
  have hsort : v.others.mergeSort v.precedes =
      ((w.others.mergeSort w.precedes).filter keep).map f := by
    refine mergeSort_eq_of_perm hv ?_ ?_
    · exact hperm.trans (((List.mergeSort_perm _ _).filter keep).map f).symm
    · rw [List.pairwise_map]
      refine ((w.pairwise_mergeSort_precedes w.others).filter keep).imp_of_mem ?_
      intro a b ha hb hab
      obtain ⟨ha, hakeep⟩ := List.mem_filter.mp ha
      obtain ⟨hb, hbkeep⟩ := List.mem_filter.mp hb
      rw [List.mem_mergeSort] at ha hb
      rw [precedes_iff, hrank a ha hakeep, hrank b hb hbkeep, hname a ha hakeep,
        hname b hb hbkeep, ← precedes_iff]
      exact hab
  simp [ordered, hsort, henvironment, hkeep]

end World

end Stencil
