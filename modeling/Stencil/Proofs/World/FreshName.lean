import Mathlib.Data.List.Nodup
import Mathlib.Data.List.Perm.Subperm
import Mathlib.Data.Nat.Find
import Stencil.Proofs.Text.Cut
import Stencil.Proofs.World.Instances

/-!
# Fresh names

A class name with different numbers behind it makes different names (`numbered_injective`). So
among one more of them than there are instances at least one is free, and the fresh name is the
one with the least number (`leastFree_freshName`): the class name alone is never the answer.
-/

namespace Stencil

namespace World

/-- The number can be read off the digits behind the class name. -/
theorem numbered_injective (className : String) : Function.Injective (numbered className) := by
  intro i j h
  exact Text.toString_injective ((String.append_right_inj className).mp h)

/-- The name is the class name with the least number that makes it the name of none of the
instances. -/
def LeastFree (instances : List Instance) (className name : String) : Prop :=
  ∃ n, name = numbered className n ∧ (∀ o ∈ instances, o.name ≠ name) ∧
    ∀ m < n, ∃ o ∈ instances, o.name = numbered className m

variable {w : World} {className : String}

/-- The names with the first numbers cannot all be taken. -/
theorem exists_isFree_numbered (w : World) (className : String) :
    ∃ n ≤ w.instances.length, w.isFree (numbered className n) = true := by
  by_contra hall
  push Not at hall
  -- Else there would be one more name than there are instances.
  have htaken : (List.range (w.instances.length + 1)).map (numbered className) ⊆
      w.instances.map (·.name) := by
    intro name hname
    obtain ⟨n, hn, rfl⟩ := List.mem_map.mp hname
    have hbusy := hall n (Nat.le_of_lt_succ (List.mem_range.mp hn))
    rw [ne_eq, Bool.not_eq_true, isFree_eq_false_iff] at hbusy
    exact List.mem_map.mpr hbusy
  have hnodup : ((List.range (w.instances.length + 1)).map (numbered className)).Nodup :=
    List.nodup_range.map (numbered_injective className)
  have hlength := (List.subperm_of_subset hnodup htaken).length_le
  rw [List.length_map, List.length_map, List.length_range] at hlength
  exact Nat.not_succ_le_self _ hlength

/-- A list of numbers that is long enough has the first one that makes a free name. -/
theorem find?_numbered {n bound : Nat} (hfree : w.isFree (numbered className n) = true)
    (hbusy : ∀ m < n, w.isFree (numbered className m) = false) (hlt : n < bound) :
    ((List.range bound).map (numbered className)).find? w.isFree =
      some (numbered className n) := by
  have hfound : (List.range bound).find? (w.isFree ∘ numbered className) = some n := by
    refine List.find?_range_eq_some.mpr ⟨hfree, List.mem_range.mpr hlt, ?_⟩
    intro m hm
    simp [hbusy m hm]
  rw [List.find?_map, hfound, Option.map_some]

/-- The fresh name has the least number that makes a free one. -/
theorem exists_freshName_eq (w : World) (className : String) :
    ∃ n ≤ w.instances.length, w.freshName className = numbered className n ∧
      w.isFree (numbered className n) = true ∧
      ∀ m < n, w.isFree (numbered className m) = false := by
  obtain ⟨n, hn, hfree⟩ := w.exists_isFree_numbered className
  have hexists : ∃ n, w.isFree (numbered className n) = true := ⟨n, hfree⟩
  have hfirst : Nat.find hexists ≤ w.instances.length :=
    Nat.le_trans (Nat.find_min' hexists hfree) hn
  have hbusy : ∀ m < Nat.find hexists, w.isFree (numbered className m) = false := by
    intro m hm
    simpa using Nat.find_min hexists hm
  refine ⟨Nat.find hexists, hfirst, ?_, Nat.find_spec hexists, hbusy⟩
  rw [freshName, find?_numbered (Nat.find_spec hexists) hbusy (Nat.lt_succ_of_le hfirst),
    Option.getD_some]

theorem leastFree_freshName (w : World) (className : String) :
    LeastFree w.instances className (w.freshName className) := by
  obtain ⟨n, -, hname, hfree, hbusy⟩ := w.exists_freshName_eq className
  refine ⟨n, hname, ?_, ?_⟩
  · rw [hname]
    exact isFree_iff.mp hfree
  · intro m hm
    exact isFree_eq_false_iff.mp (hbusy m hm)

end World

end Stencil
