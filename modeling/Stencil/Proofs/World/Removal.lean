import Stencil.Proofs.World.WellFormed

/-!
# What goes with an instance

`attached` lists the numbers that are removed together. In a well-formed world a number
stands for one instance, so an instance goes exactly if it is the one that was asked to go
or has it at an end.
-/

namespace Stencil

namespace Instance

theorem references_of_entity {o : Instance} (h : o.role = .entity) (id : InstanceId) :
    o.references id = false := by
  simp [references, h, Role.references]

theorem references_of_relation {o : Instance} {source target : InstanceId}
    (h : o.role = .relation source target) (id : InstanceId) :
    o.references id = true ↔ source = id ∨ target = id := by
  simp [references, h, Role.references]

theorem ne_of_references_eq_false {o : Instance} {source target id : InstanceId}
    (hrole : o.role = .relation source target) (h : o.references id = false) :
    source ≠ id ∧ target ≠ id := by
  have hnot := (references_of_relation hrole id).not.mp (by simp [h])
  exact not_or.mp hnot

/-- Only relations have ends. -/
theorem isRelation_of_references {o : Instance} {id : InstanceId}
    (h : o.references id = true) : o.isRelation = true := by
  cases hrole : o.role with
  | entity => simp [references_of_entity hrole] at h
  | relation source target => simp [isRelation, hrole, Role.isRelation]

end Instance

namespace World

namespace WellFormed

variable {w : World}

theorem mem_attached_iff (h : w.WellFormed) {id : InstanceId} {o : Instance}
    (ho : o ∈ w.instances) :
    o.id ∈ w.attached id ↔ o.id = id ∨ o.references id = true := by
  rw [attached, List.mem_cons]
  refine or_congr_right ?_
  constructor
  · intro hmem
    obtain ⟨p, hp, hid⟩ := List.mem_map.mp hmem
    obtain ⟨hp, hrefers⟩ := List.mem_filter.mp hp
    rwa [h.eq_of_id ho hp hid.symm]
  · intro hrefers
    exact List.mem_map.mpr ⟨o, List.mem_filter.mpr ⟨ho, hrefers⟩, rfl⟩

theorem environment_not_mem_attached (h : w.WellFormed) {id : InstanceId}
    (hne : id ≠ w.environment.id) : w.environment.id ∉ w.attached id := by
  rw [h.mem_attached_iff w.environment_mem_instances,
    Instance.references_of_entity h.environment_role]
  simpa using hne.symm

end WellFormed

end World

end Stencil
