import Stencil.Proofs.World.Run

/-!
# The values that edits leave

A value starts as the default of its attribute, an edit sets it to one that the options of the
attribute allow, and a reset makes it the default again. The default need not be one of the
options, so what edits keep is that a value is one or the other.

An edit names the attribute that it sets. Of several attributes of one name it sets the first,
by whose options the value is checked; the others keep their defaults.
-/

namespace Stencil

/-- The value is the default of the attribute, or its options allow it. -/
def Attribute.Takes (a : Attribute) (value : String) : Prop :=
  value = a.initial ∨ a.allows value = true

namespace Snippet

/-- There is an attribute of that name before the position. -/
def NamedBefore (s : Snippet) (index : Nat) (name : String) : Prop :=
  ∃ j < index, ∃ b, s.attributes[j]? = some b ∧ b.name = name

/-- The attribute that a name stands for is the first of that name, also by its position. -/
theorem exists_attributeIndex? {s : Snippet} {name : String} {a : Attribute}
    (h : s.attribute? name = some a) :
    ∃ index, s.attributeIndex? name = some index ∧ s.attributes[index]? = some a ∧
      a.name = name ∧ ¬ s.NamedBefore index name := by
  obtain ⟨hname, index, hlt, rfl, hfirst⟩ := List.find?_eq_some_iff_getElem.mp h
  have hbefore : ∀ j (hj : j < index), ¬ (s.attributes[j].name == name) = true := by
    intro j hj
    simpa using hfirst j hj
  refine ⟨index, List.findIdx?_eq_some_iff_getElem.mpr ⟨hlt, hname, hbefore⟩,
    List.getElem?_eq_getElem hlt, beq_iff_eq.mp hname, ?_⟩
  rintro ⟨j, hj, b, hb, hbname⟩
  rw [List.getElem?_eq_getElem (Nat.lt_trans hj hlt), Option.some.injEq] at hb
  exact hbefore j hj (beq_iff_eq.mpr (hb ▸ hbname))

end Snippet

namespace Instance

/-- The attributes take the values that they have, and those that are not the first of their name
have their defaults. -/
def Conforms (o : Instance) : Prop :=
  ∀ index a value, o.snippet.attributes[index]? = some a → o.values[index]? = some value →
    a.Takes value ∧ (o.snippet.NamedBefore index a.name → value = a.initial)

variable {o p : Instance}

theorem conforms_of_initialValues (h : o.values = o.snippet.initialValues) : o.Conforms := by
  intro index a value ha hvalue
  have hinitial : a.initial = value := by
    rw [h, Snippet.initialValues, List.getElem?_map, ha] at hvalue
    exact Option.some.inj hvalue
  exact ⟨.inl hinitial.symm, fun _ => hinitial.symm⟩

theorem Conforms.of_values (h : o.Conforms) (hsnippet : p.snippet = o.snippet)
    (hvalues : p.values = o.values) : p.Conforms := by
  unfold Conforms
  rw [hsnippet, hvalues]
  exact h

/-- The value that is set is checked by the options of the attribute at whose position it is
written. -/
theorem Conforms.setValue (h : o.Conforms) {name value : String} {a : Attribute}
    (ha : o.snippet.attribute? name = some a) (hallows : a.allows value = true) :
    (o.setValue name value).Conforms := by
  obtain ⟨index, hindex, haindex, haname, hfirst⟩ := Snippet.exists_attributeIndex? ha
  rw [Instance.setValue, hindex]
  intro i b v hb hv
  change (o.values.set index value)[i]? = some v at hv
  rw [List.getElem?_set] at hv
  split at hv
  · rename_i heq
    subst heq
    split at hv
    · obtain rfl := Option.some.inj hv
      obtain rfl := Option.some.inj (haindex.symm.trans hb)
      exact ⟨.inr hallows, fun hbefore => absurd (haname ▸ hbefore) hfirst⟩
    · cases hv
  · exact h i b v hb hv

end Instance

namespace World

variable {w w' : World}

theorem forall_conforms_mapInstances {f : Instance → Instance} {arrays : List ArrayDef}
    (hf : ∀ o, (f o).snippet = o.snippet ∧ (f o).values = o.values)
    (h : ∀ o ∈ w.instances, o.Conforms) :
    ∀ o ∈ instances { w.mapInstances f with arrays := arrays }, o.Conforms := by
  change ∀ o ∈ w.instances.map f, _
  rw [List.forall_mem_map]
  intro o ho
  exact (h o ho).of_values (hf o).1 (hf o).2

theorem forall_conforms_update {id : InstanceId} {f : Instance → Instance}
    (hf : ∀ o, (f o).snippet = o.snippet ∧ (f o).values = o.values)
    (h : ∀ o ∈ w.instances, o.Conforms) : ∀ o ∈ (w.update id f).instances, o.Conforms := by
  have hupdate : ∀ o : Instance, (if o.id = id then f o else o).snippet = o.snippet ∧
      (if o.id = id then f o else o).values = o.values := by
    intro o
    split
    · exact hf o
    · exact ⟨rfl, rfl⟩
  exact forall_conforms_mapInstances hupdate h

theorem forall_conforms_push {snippet : Snippet} {name : String} {role : Role}
    (h : ∀ o ∈ w.instances, o.Conforms) :
    ∀ o ∈ (w.push snippet name role).2.instances, o.Conforms := by
  rw [instances_push, List.forall_mem_append, List.forall_mem_singleton]
  exact ⟨h, Instance.conforms_of_initialValues rfl⟩

/-- The instance that is set is the one whose attribute was found. -/
theorem WellFormed.forall_conforms_setAttribute (hw : w.WellFormed) {id : InstanceId}
    {name value : String} {o : Instance} {a : Attribute} (ho : w.get? id = some o)
    (ha : o.snippet.attribute? name = some a) (hallows : a.allows value = true)
    (h : ∀ o ∈ w.instances, o.Conforms) :
    ∀ o ∈ (w.update id (·.setValue name value)).instances, o.Conforms := by
  obtain ⟨hmem, hid⟩ := get?_eq_some ho
  rw [update, instances_mapInstances, List.forall_mem_map]
  intro p hp
  split
  · rename_i hpid
    obtain rfl := hw.eq_of_id hp hmem (hpid.trans hid.symm)
    exact (h p hp).setValue ha hallows
  · exact h p hp

/-- The step: an edit leaves values that the attributes take. -/
theorem Effect.forall_conforms {reply : Reply} (he : Effect w reply w') (hw : w.WellFormed)
    (h : ∀ o ∈ w.instances, o.Conforms) : ∀ o ∈ w'.instances, o.Conforms := by
  cases he with
  | addEntity _ _ => exact forall_conforms_push h
  | addRelation _ _ _ _ _ => exact forall_conforms_push h
  | setAttribute ho ha hallows => exact hw.forall_conforms_setAttribute ho ha hallows h
  | keepName => exact h
  | rename _ _ _ => exact forall_conforms_update (fun _ => ⟨rfl, rfl⟩) h
  | remove _ _ =>
      intro o ho
      exact h o ((List.filter_sublist.cons_cons w.environment).subset ho)
  | reset => exact List.forall_mem_singleton.mpr (Instance.conforms_of_initialValues rfl)
  | addArray => exact h
  | resizeArray _ => exact h
  | removeArray _ => exact forall_conforms_mapInstances (fun _ => ⟨rfl, rfl⟩) h
  | setArray _ _ => exact forall_conforms_update (fun _ => ⟨rfl, rfl⟩) h

theorem EditReachable.forall_conforms (h : EditReachable w) : ∀ o ∈ w.instances, o.Conforms := by
  refine h.invariant (P := fun w => ∀ o ∈ w.instances, o.Conforms) ?_ ?_
  · intro snippet name
    exact List.forall_mem_singleton.mpr (Instance.conforms_of_initialValues rfl)
  · intro w w' reply hw hall he
    exact he.forall_conforms hw.reachable.wellFormed hall

/-- After edits alone, every attribute of an instance has a value that is its default or that its
options allow, and one whose name an earlier attribute has is at its default. -/
theorem value_default_or_allowed (h : EditReachable w) {o : Instance} (ho : o ∈ w.instances)
    {index : Nat} {a : Attribute} (ha : o.snippet.attributes[index]? = some a) :
    ∃ value, o.values[index]? = some value ∧ (value = a.initial ∨ a.allows value = true) ∧
      ((∃ j < index, ∃ b, o.snippet.attributes[j]? = some b ∧ b.name = a.name) →
        value = a.initial) := by
  obtain ⟨hlt, -⟩ := List.getElem?_eq_some_iff.mp ha
  rw [← h.reachable.wellFormed.values_length o ho] at hlt
  have hvalue := List.getElem?_eq_getElem hlt
  exact ⟨_, hvalue, h.forall_conforms o ho index a _ ha hvalue⟩

/-- A class whose default is not one of the options, with a second attribute of the name. -/
def lamp : Snippet where
  name := "Lamp"
  unique := false
  kind := .entity "node" 0
  attributes := [⟨"color", some "black", some "red green"⟩, ⟨"color", some "blue", none⟩]
  patterns := []

/-- Two lamps, one of which is set to a colour that is allowed; a colour that is not is
refused. -/
def lamps : World :=
  (lone.performAll [.addEntity lamp "l", .addEntity lamp "m",
    .setAttribute ⟨1⟩ "color" "red", .setAttribute ⟨2⟩ "color" "white"]).2

/-- The first lamp has an allowed colour, the second its default, and the second attributes have
theirs. -/
theorem value_default_or_allowed_lamps :
    EditReachable lamps ∧ lamps.instances.map (·.values) =
        [[], ["red", "blue"], ["black", "blue"]] ∧
      ∃ o ∈ lamps.instances, o.snippet.attributes[1]? = some ⟨"color", some "blue", none⟩ ∧
        o.name = "l" ∧ (∃ value, o.values[0]? = some value ∧
          (value = "black" ∨
            Attribute.allows ⟨"color", some "black", some "red green"⟩ value = true)) ∧
        o.values[1]? = some "blue" := by
  have hreachable : EditReachable lamps :=
    (EditReachable.start ofEnvironment_simulator).performAll _
  have ho : ⟨⟨1⟩, lamp, "l", none, ["red", "blue"], .entity⟩ ∈ lamps.instances := by decide
  have hfirst : lamp.attributes[0]? = some ⟨"color", some "black", some "red green"⟩ := rfl
  have hother : lamp.attributes[1]? = some ⟨"color", some "blue", none⟩ := rfl
  obtain ⟨value, hvalue, htakes, -⟩ := value_default_or_allowed hreachable ho hfirst
  obtain ⟨second, hsecond, -, hdefault⟩ := value_default_or_allowed hreachable ho hother
  obtain rfl := hdefault ⟨0, by decide, _, hfirst, rfl⟩
  exact ⟨hreachable, by decide, _, ho, hother, rfl, ⟨value, hvalue, htakes⟩, hsecond⟩

end World

end Stencil
