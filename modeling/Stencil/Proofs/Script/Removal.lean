import Stencil.Proofs.Script.Alike
import Stencil.Proofs.World.Linked

/-!
# What a removal does to the script

The relations at an instance go with it, and nothing that stays reads anything of what
goes: a relation that stays has both its ends, and no instance reads more than its ends.
So the script loses the texts of what goes, and nothing else changes in it.
-/

namespace Stencil

namespace World

variable {w v : World} {o : Instance}

theorem Alike.of_arrays (harrays : v.arrays = w.arrays) (o : Instance) : Alike w v o o where
  snippet := rfl
  name := rfl
  values := rfl
  array := by
    unfold arrayOf? array?
    rw [harrays]
  isSome := rfl

/-- An instance corresponds to itself in a world with the same arrays and the same ends. -/
theorem Linked.corresponds (h : w.Linked) (hw : w.WellFormed) (harrays : v.arrays = w.arrays)
    (ho : o ∈ w.instances)
    (hends : ∀ id, o.references id = true → v.get? id = w.get? id) :
    Corresponds w v o o := by
  cases hrole : o.role with
  | entity => exact .entity (.of_arrays harrays o) hrole hrole
  | relation source target =>
      obtain ⟨a, b, ha, hb, -, -⟩ := h.exists_ends hw ho hrole
      have hsource := hends source ((Instance.references_of_relation hrole _).mpr (.inl rfl))
      have htarget := hends target ((Instance.references_of_relation hrole _).mpr (.inr rfl))
      exact .relation (.of_arrays harrays o) hrole hrole ha hb (hsource.trans ha)
        (htarget.trans hb) (.of_arrays harrays a) (.of_arrays harrays b) Iff.rfl

/-- The ends of what stays are not among what goes. -/
theorem Linked.not_mem_attached_of_references (h : w.Linked) (hw : w.WellFormed)
    (ho : o ∈ w.instances) {id id' : InstanceId} (hstays : o.id ∉ w.attached id)
    (hrefers : o.references id' = true) : id' ∉ w.attached id := by
  rw [hw.mem_attached_iff ho, not_or] at hstays
  cases hrole : o.role with
  | entity => simp [Instance.references_of_entity hrole] at hrefers
  | relation source target =>
      obtain ⟨a, b, ha, hb, harole, hbrole⟩ := h.exists_ends hw ho hrole
      -- An entity goes only if it is the one that was asked to go.
      have hentity : ∀ e, w.get? id' = some e → e.role = .entity → id' ∉ w.attached id := by
        intro e he herole
        obtain ⟨hmem, rfl⟩ := get?_eq_some he
        rw [hw.mem_attached_iff hmem, Instance.references_of_entity herole]
        rintro (rfl | hfalse)
        · exact hstays.2 hrefers
        · exact Bool.false_ne_true hfalse
      rcases (Instance.references_of_relation hrole id').mp hrefers with rfl | rfl
      · exact hentity a ha harole
      · exact hentity b hb hbrole

/-- What goes is listed once. -/
theorem Linked.nodup_attached (h : w.Linked) (hw : w.WellFormed) (id : InstanceId) :
    (w.attached id).Nodup := by
  rw [attached, List.nodup_cons]
  refine ⟨?_, hw.ids_nodup.sublist (List.filter_sublist.map _)⟩
  intro hmem
  obtain ⟨r, hr, rfl⟩ := List.mem_map.mp hmem
  obtain ⟨hr, hrefers⟩ := List.mem_filter.mp hr
  rw [h.not_references_self hw hr] at hrefers
  exact Bool.false_ne_true hrefers

theorem attached_eq (w : World) (id : InstanceId) :
    w.attached id =
      id :: (w.instances.filter fun o => o.isRelation && o.references id).map (·.id) := by
  have hfilter : w.instances.filter (·.references id) =
      w.instances.filter fun o => o.isRelation && o.references id := by
    refine List.filter_congr ?_
    intro o _
    cases hrefers : o.references id with
    | false => simp
    | true => simp [Instance.isRelation_of_references hrefers]
  rw [attached, hfilter]

theorem script_without (h : w.Linked) (hw : w.WellFormed) {id : InstanceId}
    (hne : id ≠ w.environment.id) (style : Style) :
    (w.without (w.attached id)).script style =
      String.intercalate "\n"
        (((w.ordered.filter fun o => !(w.attached id).contains o.id).map
          (w.text style)).filter (!·.isEmpty) ++ [w.runLine]) := by
  have henv := hw.environment_not_mem_attached hne
  refine script_eq_of_corresponds (hw.without _) rfl (by simpa using henv)
    (by rw [List.map_id']; exact .refl _) ?_ style
  intro o ho hstays
  refine h.corresponds hw rfl ho ?_
  intro id' hrefers
  have hnot : o.id ∉ w.attached id := by simpa using hstays
  exact get?_without henv (h.not_mem_attached_of_references hw ho hnot hrefers)

/-- Every instance but the environment can be removed. It goes with the relations that end at
it, each once; the others stay in their order, and so do the arrays. The script that is
left has the texts of the old one, without those of what is gone. -/
theorem remove_takes_relations_and_texts (h : Reachable w) {id : InstanceId}
    (hid : ∃ o ∈ w.instances, o.id = id) (hne : id ≠ w.environment.id) :
    ∃ removed v, w.remove id = .ok (removed, v) ∧
      removed =
        id :: (w.instances.filter fun o => o.isRelation && o.references id).map (·.id) ∧
      removed.Nodup ∧
      v.instances = w.instances.filter (fun o => !removed.contains o.id) ∧
      v.arrays = w.arrays ∧
      ∀ style, v.script style =
        String.intercalate "\n"
          (((w.ordered.filter fun o => !removed.contains o.id).map (w.text style)).filter
            (!·.isEmpty) ++ [w.runLine]) := by
  have hw := h.wellFormed
  refine ⟨w.attached id, w.without (w.attached id), ?_, w.attached_eq id,
    h.linked.nodup_attached hw id, instances_without (hw.environment_not_mem_attached hne), rfl,
    script_without h.linked hw hne⟩
  rw [remove_eq_ok_iff]
  exact ⟨hne, Option.isSome_iff_exists.mp (get?_isSome_iff.mpr hid), rfl⟩

/-- The middle node of the network goes with both links, and what is left of the script are
the other two nodes. -/
theorem remove_middle_node :
    (∃ o ∈ network.instances, o.id = ⟨2⟩) ∧ (⟨2⟩ : InstanceId) ≠ network.environment.id ∧
      ∃ removed v, network.remove ⟨2⟩ = .ok (removed, v) ∧ removed = [⟨2⟩, ⟨4⟩, ⟨5⟩] ∧
        removed.Nodup ∧ v.instances = network.instances.filter (fun o => !removed.contains o.id) ∧
        v.arrays = network.arrays ∧
        ∀ style, v.script style =
          String.intercalate "\n"
            (((network.ordered.filter fun o => !removed.contains o.id).map
              (network.text style)).filter (!·.isEmpty) ++ [network.runLine]) := by
  have hid : ∃ o ∈ network.instances, o.id = ⟨2⟩ := by decide
  have hne : (⟨2⟩ : InstanceId) ≠ network.environment.id := by decide
  obtain ⟨removed, v, hremove, hremoved, hrest⟩ :=
    remove_takes_relations_and_texts reachable_network hid hne
  refine ⟨hid, hne, removed, v, hremove, hremoved.trans ?_, hrest⟩
  decide

end World

end Stencil
