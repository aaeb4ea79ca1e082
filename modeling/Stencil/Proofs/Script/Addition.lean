import Stencil.Proofs.Scene.Build
import Stencil.Proofs.Script.Removal

/-!
# What an addition does to the script

All numbers in a world lie below the next one, those of its instances and those of their ends.
So nothing that is there reads anything of an instance that is added, and since its name is new
too, the others keep their texts and their order: the script gets one more text, or none. When
the instance is removed again, nothing goes with it.
-/

namespace Stencil

namespace World

variable {w v : World} {o p : Instance}

/-- An edit that hands out a number puts an instance of that number at the end. -/
theorem exists_append_of_run {edit : Edit} {id : InstanceId}
    (h : edit.run w = .ok (.created id, v)) :
    ∃ o : Instance, o.id = id ∧ id = ⟨w.nextId⟩ ∧ v = w.append o := by
  have he := effect_of_run h
  cases he with
  | addEntity _ _ => exact ⟨_, rfl, rfl, rfl⟩
  | addRelation _ _ _ _ _ => exact ⟨_, rfl, rfl, rfl⟩

theorem get?_append {id : InstanceId} (h : o.id ≠ id) : (w.append o).get? id = w.get? id := by
  rw [get?, instances_append, List.find?_append, List.find?_cons_of_neg (by simpa using h),
    List.find?_nil, Option.or_none, get?]

theorem WellFormed.filter_others_append (h : w.WellFormed) (ho : o.id = ⟨w.nextId⟩) :
    (w.append o).others.filter (·.id != o.id) = w.others := by
  change (w.others ++ [o]).filter (·.id != o.id) = w.others
  rw [List.filter_append, List.filter_cons_of_neg (by simp), List.filter_nil, List.append_nil,
    List.filter_eq_self]
  intro p hp
  rw [ho, bne_iff_ne]
  exact h.id_ne_nextId (mem_instances_of_mem_others hp)

/-- An instance has no end that is not there yet. -/
theorem Linked.references_nextId (h : w.Linked) (hw : w.WellFormed) (hp : p ∈ w.instances) :
    p.references ⟨w.nextId⟩ = false := by
  cases hrole : p.role with
  | entity => exact Instance.references_of_entity hrole _
  | relation source target =>
      obtain ⟨a, b, ha, hb, -, -⟩ := h.exists_ends hw hp hrole
      obtain ⟨hamem, rfl⟩ := get?_eq_some ha
      obtain ⟨hbmem, rfl⟩ := get?_eq_some hb
      rw [Bool.eq_false_iff, Ne, Instance.references_of_relation hrole]
      exact not_or.mpr ⟨hw.id_ne_nextId hamem, hw.id_ne_nextId hbmem⟩

/-- The new instance is no end of what is there, which is written as before. -/
theorem Linked.corresponds_append (h : w.Linked) (hw : w.WellFormed) (ho : o.id = ⟨w.nextId⟩)
    (hp : p ∈ w.instances) : Corresponds w (w.append o) p p := by
  refine h.corresponds hw rfl hp ?_
  intro id hrefers
  refine get?_append ?_
  rintro rfl
  rw [ho, h.references_nextId hw hp] at hrefers
  exact Bool.false_ne_true hrefers

theorem Linked.text_append (h : w.Linked) (hw : w.WellFormed) (ho : o.id = ⟨w.nextId⟩)
    (hp : p ∈ w.instances) (style : Style) : (w.append o).text style p = w.text style p :=
  (h.corresponds_append hw ho hp).text_eq
    (h.corresponds_append hw ho w.environment_mem_instances) style

theorem Linked.filter_ordered_append (h : w.Linked) (hw : w.WellFormed)
    (ho : o.id = ⟨w.nextId⟩) : (w.append o).ordered.filter (·.id != o.id) = w.ordered := by
  have hothers := hw.filter_others_append ho
  have henvironment : (w.environment.id != o.id) = true := by
    rw [ho, bne_iff_ne]
    exact hw.id_ne_nextId w.environment_mem_instances
  have hrank : ∀ p ∈ (w.append o).others, (p.id != o.id) = true →
      w.rank p = (w.append o).rank p := by
    intro p hp hkeep
    have hold : p ∈ (w.append o).others.filter (·.id != o.id) := List.mem_filter.mpr ⟨hp, hkeep⟩
    rw [hothers] at hold
    exact (h.corresponds_append hw ho (mem_instances_of_mem_others hold)).rank_eq.symm
  -- The old world is what the new one has besides the new instance, so its order is what is
  -- left of the new order.
  have hordered := ordered_eq_map_filter (w := w.append o) hw (f := fun p => p) rfl henvironment
    (by rw [hothers, List.map_id']) hrank (fun _ _ _ => rfl)
  rw [hordered, List.map_id']

/-- The new instance stands somewhere in the order of the others. -/
theorem Linked.exists_ordered_append (h : w.Linked) (hw : w.WellFormed)
    (hv : (w.append o).WellFormed) (ho : o.id = ⟨w.nextId⟩) :
    ∃ before after, w.ordered = before ++ after ∧
      (w.append o).ordered = before ++ o :: after := by
  have hmem : o ∈ (w.append o).ordered := by
    rw [mem_ordered_iff, instances_append]
    exact List.mem_append_right _ List.mem_cons_self
  obtain ⟨before, after, hsplit⟩ := List.append_of_mem hmem
  refine ⟨before, after, ?_, hsplit⟩
  have hnodup : ((before ++ o :: after).map (·.id)).Nodup := by
    rw [← hsplit]
    exact ((w.append o).ordered_perm.map _).nodup_iff.mpr hv.ids_nodup
  rw [List.map_append, List.map_cons, List.nodup_middle, List.nodup_cons, ← List.map_append]
    at hnodup
  have hothers : ∀ p ∈ before ++ after, (p.id != o.id) = true := by
    intro p hp
    rw [bne_iff_ne]
    intro hid
    exact hnodup.1 (List.mem_map.mpr ⟨p, hp, hid⟩)
  rw [← h.filter_ordered_append hw ho, hsplit, List.filter_append,
    List.filter_cons_of_neg (by simp), ← List.filter_append, List.filter_eq_self.mpr hothers]

/-- Nothing is attached to the new instance, so it goes alone. -/
theorem Linked.remove_append (h : w.Linked) (hw : w.WellFormed) (hv : (w.append o).Linked)
    (hv' : (w.append o).WellFormed) (ho : o.id = ⟨w.nextId⟩) :
    (w.append o).remove o.id = .ok ([o.id], { w with nextId := w.nextId + 1 }) := by
  have hmem : o ∈ (w.append o).instances := by
    rw [instances_append]
    exact List.mem_append_right _ List.mem_cons_self
  have hattached : (w.append o).attached o.id = [o.id] := by
    rw [attached, instances_append, List.filter_append,
      List.filter_cons_of_neg (by simp [hv.not_references_self hv' hmem]), List.filter_nil,
      List.append_nil, List.filter_eq_nil_iff.mpr, List.map_nil]
    intro p hp
    rw [ho, h.references_nextId hw hp]
    exact Bool.false_ne_true
  have hleft : (w.append o).without [o.id] = { w with nextId := w.nextId + 1 } := by
    have hothers := hw.filter_others_append ho
    simp only [bne] at hothers
    simp only [World.without, List.contains_cons, List.contains_nil, Bool.or_false, hothers]
    rfl
  rw [remove_eq_ok_iff, hattached, hleft]
  refine ⟨?_, ⟨o, hv'.get?_of_mem hmem⟩, rfl⟩
  rw [ho]
  exact (hw.id_ne_nextId w.environment_mem_instances).symm

/-- The script has the texts that it had, and that of the new instance if there is one. -/
theorem Linked.exists_script_append (h : w.Linked) (hw : w.WellFormed)
    (hv : (w.append o).WellFormed) (ho : o.id = ⟨w.nextId⟩) (style : Style) :
    ∃ before inserted after : List String, inserted.length ≤ 1 ∧
      before ++ after = (w.ordered.map (w.text style)).filter (!·.isEmpty) ∧
      w.script style = "\n".intercalate (before ++ after ++ [w.runLine]) ∧
      (w.append o).script style =
        "\n".intercalate (before ++ inserted ++ after ++ [w.runLine]) := by
  obtain ⟨before, after, hold, hnew⟩ := h.exists_ordered_append hw hv ho
  have htexts : ∀ l : List Instance, (∀ p ∈ l, p ∈ w.ordered) →
      l.map ((w.append o).text style) = l.map (w.text style) := by
    intro l hl
    exact List.map_congr_left fun p hp => h.text_append hw ho (mem_ordered_iff.mp (hl p hp)) style
  have hbefore : ∀ p ∈ before, p ∈ w.ordered := by
    intro p hp
    rw [hold]
    exact List.mem_append_left _ hp
  have hafter : ∀ p ∈ after, p ∈ w.ordered := by
    intro p hp
    rw [hold]
    exact List.mem_append_right _ hp
  refine ⟨(before.map (w.text style)).filter (!·.isEmpty),
    [(w.append o).text style o].filter (!·.isEmpty),
    (after.map (w.text style)).filter (!·.isEmpty), List.length_filter_le _ _, ?_, ?_, ?_⟩
  · rw [hold, List.map_append, List.filter_append]
  · rw [script, hold, List.map_append, List.filter_append]
  · rw [script, hnew, List.map_append, List.map_cons, htexts before hbefore, htexts after hafter,
      List.filter_append, ← List.singleton_append, List.filter_append, ← List.append_assoc]
    rfl

/-- When an edit adds an instance, the others are written as before and in the same order, so the
script has at most one more text. To remove the instance again takes nothing else away and
leaves the world as it was, but for the number that is spent. -/
theorem addition_is_local_and_reversible (h : Reachable w) {edit : Edit} {id : InstanceId}
    (hrun : edit.run w = .ok (.created id, v)) :
    (∀ style,
      ((v.ordered.filter (·.id != id)).map fun o => (o, v.text style o)) =
        w.ordered.map fun o => (o, w.text style o)) ∧
    (∀ style, ∃ before inserted after : List String, inserted.length ≤ 1 ∧
      before ++ after = (w.ordered.map (w.text style)).filter (!·.isEmpty) ∧
      w.script style = "\n".intercalate (before ++ after ++ [w.runLine]) ∧
      v.script style = "\n".intercalate (before ++ inserted ++ after ++ [w.runLine])) ∧
    v.remove id = .ok ([id], { w with nextId := v.nextId }) := by
  have hv := h.of_run hrun
  obtain ⟨o, rfl, ho, rfl⟩ := exists_append_of_run hrun
  refine ⟨?_, h.linked.exists_script_append h.wellFormed hv.wellFormed ho,
    h.linked.remove_append h.wellFormed hv.linked hv.wellFormed ho⟩
  intro style
  rw [h.linked.filter_ordered_append h.wellFormed ho]
  refine List.map_congr_left ?_
  intro p hp
  rw [h.linked.text_append h.wellFormed ho (mem_ordered_iff.mp hp) style]

/-- A link from the first node to the third comes last among the instances, and goes again
alone. -/
theorem addition_is_local_and_reversible_network :
    Reachable network ∧ ∃ v,
      (Edit.addRelation link "ac" ⟨1⟩ ⟨3⟩).run network = .ok (.created ⟨6⟩, v) ∧
      v.instances.map (·.name) = ["ns", "a", "b", "c", "ab", "bc", "ac"] ∧
      (∀ style,
        ((v.ordered.filter (·.id != ⟨6⟩)).map fun o => (o, v.text style o)) =
          network.ordered.map fun o => (o, network.text style o)) ∧
      v.remove ⟨6⟩ = .ok ([⟨6⟩], { network with nextId := 7 }) := by
  have hrun : (Edit.addRelation link "ac" ⟨1⟩ ⟨3⟩).run network =
      .ok (.created ⟨6⟩, (network.push link "ac" (.relation ⟨1⟩ ⟨3⟩)).2) := by decide
  obtain ⟨htexts, -, hremove⟩ := addition_is_local_and_reversible reachable_network hrun
  exact ⟨reachable_network, _, hrun, by decide, htexts, hremove⟩

end World

end Stencil
