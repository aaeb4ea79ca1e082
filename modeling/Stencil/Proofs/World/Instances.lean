import Mathlib.Data.List.Nodup
import Stencil.World.Edit

/-!
# The instances of a world

What the operations on a world do to its list of instances, and what it means that an
instance is found by its number or its name.
-/

namespace Stencil

namespace World

theorem environment_mem_instances (w : World) : w.environment ∈ w.instances :=
  List.mem_cons_self

theorem mem_instances_of_mem_others {w : World} {o : Instance} (h : o ∈ w.others) :
    o ∈ w.instances :=
  List.mem_cons_of_mem _ h

@[simp] theorem instances_mapInstances (w : World) (f : Instance → Instance) :
    (w.mapInstances f).instances = w.instances.map f := rfl

theorem mapInstances_mapInstances (w : World) (f g : Instance → Instance) :
    (w.mapInstances f).mapInstances g = w.mapInstances fun o => g (f o) := by
  simp [mapInstances]

theorem mapInstances_congr {w : World} {f g : Instance → Instance}
    (h : ∀ o ∈ w.instances, f o = g o) : w.mapInstances f = w.mapInstances g := by
  obtain ⟨henvironment, hothers⟩ := List.forall_mem_cons.mp h
  rw [mapInstances, henvironment, List.map_congr_left hothers, ← mapInstances]

@[simp] theorem instances_push (w : World) (snippet : Snippet) (name : String) (role : Role) :
    (w.push snippet name role).2.instances =
      w.instances ++ [.create ⟨w.nextId⟩ snippet name role] := rfl

/-- Removal filters the whole list when it does not ask for the environment. -/
theorem instances_without {w : World} {ids : List InstanceId} (h : w.environment.id ∉ ids) :
    (w.without ids).instances = w.instances.filter fun o => !ids.contains o.id := by
  simp [instances, without, h]

theorem get?_eq_some {w : World} {id : InstanceId} {o : Instance} (h : w.get? id = some o) :
    o ∈ w.instances ∧ o.id = id := by
  have hid := List.find?_some h
  exact ⟨List.mem_of_find?_eq_some h, by simpa using hid⟩

theorem get?_eq_none_iff {w : World} {id : InstanceId} :
    w.get? id = none ↔ ∀ o ∈ w.instances, o.id ≠ id := by
  simp [get?]

theorem get?_isSome_iff {w : World} {id : InstanceId} :
    (w.get? id).isSome ↔ ∃ o ∈ w.instances, o.id = id := by
  simp [get?]

theorem find?_eq_some {w : World} {name : String} {o : Instance} (h : w.find? name = some o) :
    o ∈ w.instances ∧ o.name = name := by
  have hname := List.find?_some h
  exact ⟨List.mem_of_find?_eq_some h, by simpa using hname⟩

theorem isFree_iff {w : World} {name : String} :
    w.isFree name = true ↔ ∀ o ∈ w.instances, o.name ≠ name := by
  simp [isFree, find?]

theorem isFree_eq_false_iff {w : World} {name : String} :
    w.isFree name = false ↔ ∃ o ∈ w.instances, o.name = name := by
  simp [isFree, find?]

/-- Where no number is used twice, every instance is found by its number. -/
theorem get?_of_mem {w : World} (hids : (w.instances.map (·.id)).Nodup) {o : Instance}
    (ho : o ∈ w.instances) : w.get? o.id = some o := by
  cases h : w.get? o.id with
  | none => exact absurd rfl (get?_eq_none_iff.mp h o ho)
  | some p =>
      obtain ⟨hp, hid⟩ := get?_eq_some h
      rw [List.inj_on_of_nodup_map hids hp ho hid]

/-- A map that keeps numbers is seen through the search for a number. -/
theorem get?_mapInstances (w : World) {f : Instance → Instance} (hf : ∀ o, (f o).id = o.id)
    (id : InstanceId) : (w.mapInstances f).get? id = (w.get? id).map f := by
  rw [get?, instances_mapInstances, List.find?_map]
  simp only [Function.comp_def, hf]
  rfl

/-- What is not removed is found as before. -/
theorem get?_without {w : World} {ids : List InstanceId} (h : w.environment.id ∉ ids)
    {id : InstanceId} (hid : id ∉ ids) : (w.without ids).get? id = w.get? id := by
  rw [get?, get?, instances_without h, List.find?_filter]
  congr 1
  funext o
  by_cases ho : o.id = id
  · simp [ho, hid]
  · simp [ho]

end World

end Stencil
