import Mathlib.Algebra.Group.Nat.Defs
import Mathlib.Order.Bounds.Basic
import Stencil.Proofs.World.FreshName
import Stencil.Proofs.World.Run
import Stencil.World.Search

/-!
# The search for a fresh name comes to its end

The search has no bound of its own, so that it ends at all has to be shown. As long as it goes on,
all names that it has tried are taken (`search_eq_trying`), and there are not enough instances to
take one more name than there are instances. So it ends where the fresh name is, and its counter
does not run over before (`search_ends_at_least_number`).
-/

namespace Stencil

namespace Text

/-- A word with a sign reads like the number it is made from, as long as that fits. -/
theorem toString_toInt_ofNat {n : Nat} (h : n < 2 ^ 31) :
    toString (Int32.ofNat n).toInt = toString n := by
  rw [Int32.toInt_ofNat_of_lt h]
  rfl

end Text

namespace World

variable {w : World} {className : String} {n tries : Nat}

/-! ### One try -/

theorem step_trying (h : n < 2 ^ 31) :
    Search.step w className (.trying (Int32.ofNat n)) =
      if w.isFree (numbered className n) then .found (numbered className n)
      else .trying (Int32.ofNat (n + 1)) := by
  rw [Search.step, Text.toString_toInt_ofNat h, Int32.ofNat_add]
  rfl

/-! ### All tries -/

/-- While the names are taken, the counter goes up by one with each try. -/
theorem search_eq_trying (hbusy : ∀ m < tries, w.isFree (numbered className m) = false)
    (hfew : tries ≤ 2 ^ 31) : w.search className tries = .trying (Int32.ofNat tries) := by
  induction tries with
  | zero => rfl
  | succ k ih =>
      have hbefore : w.search className k = .trying (Int32.ofNat k) :=
        ih (fun m hm => hbusy m (Nat.lt_succ_of_lt hm)) (Nat.le_of_succ_le hfew)
      have htaken : w.isFree (numbered className k) = false := hbusy k (Nat.lt_succ_self k)
      rw [search, hbefore, step_trying hfew, htaken]
      rfl

/-- A search that is over stays so. -/
theorem search_eq_found_of_le {name : String} (h : w.search className n = .found name)
    (hle : n ≤ tries) : w.search className tries = .found name := by
  induction tries, hle using Nat.le_induction with
  | base => exact h
  | succ k _ ih =>
      rw [search, ih]
      rfl

/-- The search ends with the first number that makes a free name. -/
theorem search_eq_found (hfree : w.isFree (numbered className n) = true)
    (hbusy : ∀ m < n, w.isFree (numbered className m) = false) (hfew : n < 2 ^ 31)
    (hlt : n < tries) : w.search className tries = .found (numbered className n) := by
  apply search_eq_found_of_le _ hlt
  rw [search, search_eq_trying hbusy (Nat.le_of_lt hfew), step_trying hfew, if_pos hfree]

theorem isLeast_of_isFree (hfree : w.isFree (numbered className n) = true)
    (hbusy : ∀ m < n, w.isFree (numbered className m) = false) :
    IsLeast {m | ∀ o ∈ w.instances, o.name ≠ numbered className m} n := by
  refine ⟨isFree_iff.mp hfree, ?_⟩
  intro m hm
  by_contra hlt
  have htaken := hbusy m (Nat.lt_of_not_le hlt)
  rw [isFree_iff.mpr hm] at htaken
  cases htaken

theorem numbered_ne (className : String) (n : Nat) : numbered className n ≠ className := by
  simp [numbered]

/-- With fewer than 2³¹ instances the search for a free name ends, after at most as many tries as
there are instances and one more, and what it finds is the fresh name: the class name with the
least number that makes the name of no instance. The class name alone, for the case that
no number helps, is never the answer. -/
theorem search_ends_at_least_number (hfew : w.instances.length < 2 ^ 31) (className : String) :
    ∃ i ≤ w.instances.length,
      IsLeast {m | ∀ o ∈ w.instances, o.name ≠ className ++ toString m} i ∧
      w.freshName className = className ++ toString i ∧ w.freshName className ≠ className ∧
      (∀ tries ≤ i, w.search className tries = .trying (Int32.ofNat tries)) ∧
      (∀ tries, i < tries → w.search className tries = .found (w.freshName className)) ∧
      ∀ bound, i < bound → ((List.range bound).map (numbered className)).find? w.isFree =
        some (w.freshName className) := by
  obtain ⟨i, hi, hname, hfree, hbusy⟩ := w.exists_freshName_eq className
  have hsmall : i < 2 ^ 31 := Nat.lt_of_le_of_lt hi hfew
  refine ⟨i, hi, isLeast_of_isFree hfree hbusy, hname, ?_, ?_, ?_, ?_⟩
  · rw [hname]
    exact numbered_ne className i
  · intro tries hle
    exact search_eq_trying (fun m hm => hbusy m (Nat.lt_of_lt_of_le hm hle))
      (Nat.le_of_lt (Nat.lt_of_le_of_lt hle hsmall))
  · intro tries hlt
    rw [hname]
    exact search_eq_found hfree hbusy hsmall hlt
  · intro bound hlt
    rw [hname]
    exact find?_numbered hfree hbusy hlt

/-- Nodes with names of their own and with fresh ones. -/
def crowding : List Edit :=
  [.addEntity node "Node10", .instantiate node, .addEntity node "Node1", .instantiate node]

/-- The world with these nodes. -/
def crowd : World := (lone.performAll crowding).2

/-- For a class with the name Node1 the number zero does not help: the name that it makes is that
of a node. -/
theorem search_ends_at_least_number_crowd :
    Reachable crowd ∧ crowd.instances.length < 2 ^ 31 ∧
      crowd.instances.map (·.name) = ["ns", "Node10", "Node0", "Node1", "Node2"] ∧
      IsLeast {m | ∀ o ∈ crowd.instances, o.name ≠ "Node1" ++ toString m} 1 ∧
      crowd.freshName "Node1" = "Node11" ∧
      crowd.search "Node1" 1 = .trying 1 ∧ crowd.search "Node1" 2 = .found "Node11" := by
  have hreachable : Reachable crowd :=
    (Reachable.start ofEnvironment_simulator).performAll crowding
  have hfew : crowd.instances.length < 2 ^ 31 := by decide
  have hfresh : crowd.freshName "Node1" = "Node11" := by decide
  obtain ⟨i, -, hleast, hname, -, hbefore, hbehind, -⟩ := search_ends_at_least_number hfew "Node1"
  obtain rfl : i = 1 := numbered_injective "Node1" (hname.symm.trans hfresh)
  rw [hfresh] at hbehind
  exact ⟨hreachable, hfew, by decide, hleast, hfresh, hbefore 1 le_rfl,
    hbehind 2 Nat.one_lt_two⟩

end World

end Stencil
