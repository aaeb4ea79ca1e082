import Stencil.Proofs.World.Effect

/-!
# Well-formed worlds

What every reachable world satisfies, whatever its classes are: the environment stands
first and is on no array, numbers increase along the list, names are words without
repeats, arrays and values are in range. `WellFormed.effect` is the step and
`Reachable.wellFormed` the run.

Numbers are spent: an edit that hands one out takes the next, and no edit gives one back,
so a run hands out an increasing list of them.
-/

namespace Stencil

/-- `p` is `o` at a later time: the name, the values and the array may be others. -/
structure Instance.Persists (o p : Instance) : Prop where
  id : p.id = o.id
  snippet : p.snippet = o.snippet
  role : p.role = o.role
  length : p.values.length = o.values.length

/-- The arrays before the one that goes keep their positions, those behind it move up. -/
theorem ArrayDef.indexWithout?_eq_some_iff {removed index index' : Nat} :
    indexWithout? removed index = some index' ↔
      index < removed ∧ index' = index ∨ removed < index ∧ index' = index - 1 := by
  unfold indexWithout?
  split
  · simp
    omega
  · split <;> simp <;> omega

namespace Instance

theorem Persists.refl (o : Instance) : o.Persists o := ⟨rfl, rfl, rfl, rfl⟩

theorem persists_setValue (o : Instance) (attributeName value : String) :
    o.Persists (o.setValue attributeName value) := by
  unfold setValue
  split
  · exact ⟨rfl, rfl, rfl, by simp⟩
  · exact .refl o

theorem persists_name (o : Instance) (name : String) : o.Persists { o with name := name } :=
  ⟨rfl, rfl, rfl, rfl⟩

theorem persists_array (o : Instance) (index? : Option Nat) :
    o.Persists { o with array? := index? } :=
  ⟨rfl, rfl, rfl, rfl⟩

theorem persists_withoutArray (o : Instance) (index : Nat) :
    o.Persists (o.withoutArray index) :=
  ⟨rfl, rfl, rfl, rfl⟩

theorem persists_prepareInstance (g : Generator) (o : Instance) :
    o.Persists (g.prepareInstance o) := by
  unfold Generator.prepareInstance
  split
  · rename_i pass _
    exact ⟨rfl, rfl, rfl, pass.length_apply o.name o.values⟩
  · exact .refl o

/-- `World.update` changes one instance and leaves the others. -/
theorem persists_update {f : Instance → Instance} (hf : ∀ o : Instance, o.Persists (f o))
    (id : InstanceId) (o : Instance) : o.Persists (if o.id = id then f o else o) := by
  split
  · exact hf o
  · exact .refl o

@[simp] theorem name_setValue (o : Instance) (attributeName value : String) :
    (o.setValue attributeName value).name = o.name := by
  unfold setValue
  split <;> rfl

@[simp] theorem array?_setValue (o : Instance) (attributeName value : String) :
    (o.setValue attributeName value).array? = o.array? := by
  unfold setValue
  split <;> rfl

@[simp] theorem name_prepareInstance (g : Generator) (o : Instance) :
    (g.prepareInstance o).name = o.name := by
  unfold Generator.prepareInstance
  split <;> rfl

@[simp] theorem array?_prepareInstance (g : Generator) (o : Instance) :
    (g.prepareInstance o).array? = o.array? := by
  unfold Generator.prepareInstance
  split <;> rfl

/-- The array is one of those that are left. -/
theorem lt_of_array?_withoutArray {o : Instance} {count removed index : Nat}
    (ho : ∀ i, o.array? = some i → i < count) (hremoved : removed < count)
    (h : (o.withoutArray removed).array? = some index) : index < count - 1 := by
  obtain ⟨i, hi, hindex⟩ := Option.bind_eq_some_iff.mp h
  have hlt := ho i hi
  obtain ⟨hlow, rfl⟩ | ⟨hhigh, rfl⟩ := ArrayDef.indexWithout?_eq_some_iff.mp hindex
  · omega
  · omega

end Instance

namespace World

/-- What every reachable world satisfies. -/
structure WellFormed (w : World) : Prop where
  environment_id : w.environment.id = ⟨0⟩
  environment_role : w.environment.role = .entity
  environment_array : w.environment.array? = none
  ids_increasing : w.instances.Pairwise fun a b => a.id.index < b.id.index
  id_lt : ∀ o ∈ w.instances, o.id.index < w.nextId
  names_nodup : (w.instances.map (·.name)).Nodup
  isName : ∀ o ∈ w.instances, IsName o.name
  array_lt : ∀ o ∈ w.instances, ∀ index, o.array? = some index → index < w.arrays.length
  values_length : ∀ o ∈ w.instances, o.values.length = o.snippet.attributes.length

namespace WellFormed

variable {w : World}

theorem ids_nodup (h : w.WellFormed) : (w.instances.map (·.id)).Nodup := by
  rw [List.Nodup, List.pairwise_map]
  refine h.ids_increasing.imp ?_
  intro a b hlt heq
  rw [heq] at hlt
  exact Nat.lt_irrefl _ hlt

theorem eq_of_id (h : w.WellFormed) {a b : Instance} (ha : a ∈ w.instances)
    (hb : b ∈ w.instances) (hid : a.id = b.id) : a = b :=
  List.inj_on_of_nodup_map h.ids_nodup ha hb hid

theorem eq_of_name (h : w.WellFormed) {a b : Instance} (ha : a ∈ w.instances)
    (hb : b ∈ w.instances) (hname : a.name = b.name) : a = b :=
  List.inj_on_of_nodup_map h.names_nodup ha hb hname

theorem get?_of_mem (h : w.WellFormed) {o : Instance} (ho : o ∈ w.instances) :
    w.get? o.id = some o :=
  World.get?_of_mem h.ids_nodup ho

theorem id_ne_nextId (h : w.WellFormed) {o : Instance} (ho : o ∈ w.instances) :
    o.id ≠ ⟨w.nextId⟩ := by
  intro hid
  have hlt := h.id_lt o ho
  rw [hid] at hlt
  exact Nat.lt_irrefl _ hlt

theorem start {snippet : Snippet} {name : String} (hname : IsName name) :
    WellFormed ⟨.create ⟨0⟩ snippet name .entity, [], [], 1⟩ where
  environment_id := rfl
  environment_role := rfl
  environment_array := rfl
  ids_increasing := by simp [instances]
  id_lt := by simp [instances, Instance.create]
  names_nodup := by simp [instances]
  isName := by simpa [instances, Instance.create] using hname
  array_lt := by simp [instances, Instance.create]
  values_length := by simp [instances, Instance.create, Snippet.initialValues]

theorem push (h : w.WellFormed) {snippet : Snippet} {name : String} {role : Role}
    (hnew : w.Admits snippet name) : (w.push snippet name role).2.WellFormed where
  environment_id := h.environment_id
  environment_role := h.environment_role
  environment_array := h.environment_array
  ids_increasing := by
    rw [instances_push, List.pairwise_append]
    refine ⟨h.ids_increasing, List.pairwise_singleton _ _, ?_⟩
    intro a ha b hb
    rw [List.mem_singleton.mp hb]
    exact h.id_lt a ha
  id_lt := by
    rw [instances_push, List.forall_mem_append, List.forall_mem_singleton]
    exact ⟨fun o ho => Nat.lt_succ_of_lt (h.id_lt o ho), Nat.lt_succ_self w.nextId⟩
  names_nodup := by
    rw [instances_push, List.map_append, List.nodup_append]
    refine ⟨h.names_nodup, by simp, ?_⟩
    intro a ha b hb
    obtain ⟨o, ho, rfl⟩ := List.mem_map.mp ha
    obtain rfl := List.mem_singleton.mp hb
    exact hnew.free o ho
  isName := by
    rw [instances_push, List.forall_mem_append, List.forall_mem_singleton]
    exact ⟨h.isName, hnew.isName⟩
  array_lt := by
    rw [instances_push, List.forall_mem_append, List.forall_mem_singleton]
    exact ⟨h.array_lt, by simp [Instance.create]⟩
  values_length := by
    rw [instances_push, List.forall_mem_append, List.forall_mem_singleton]
    exact ⟨h.values_length, by simp [Instance.create, Snippet.initialValues]⟩

/-- Instances persist and the arrays are others: what is left to check is the names and the
arrays. -/
theorem mapInstances (h : w.WellFormed) {f : Instance → Instance} {arrays : List ArrayDef}
    (hf : ∀ o : Instance, o.Persists (f o)) (henvironment : (f w.environment).array? = none)
    (hnames : ((w.instances.map f).map (·.name)).Nodup)
    (hname : ∀ o ∈ w.instances, IsName (f o).name)
    (harray : ∀ o ∈ w.instances, ∀ i, (f o).array? = some i → i < arrays.length) :
    WellFormed { w.mapInstances f with arrays := arrays } where
  environment_id := (hf _).id.trans h.environment_id
  environment_role := (hf _).role.trans h.environment_role
  environment_array := henvironment
  ids_increasing := by
    change (w.instances.map f).Pairwise _
    rw [List.pairwise_map]
    refine h.ids_increasing.imp ?_
    intro a b hlt
    rw [(hf a).id, (hf b).id]
    exact hlt
  id_lt := by
    change ∀ p ∈ w.instances.map f, _
    rw [List.forall_mem_map]
    intro o ho
    rw [(hf o).id]
    exact h.id_lt o ho
  names_nodup := hnames
  isName := by
    change ∀ p ∈ w.instances.map f, _
    rw [List.forall_mem_map]
    exact hname
  array_lt := by
    change ∀ p ∈ w.instances.map f, _
    rw [List.forall_mem_map]
    exact harray
  values_length := by
    change ∀ p ∈ w.instances.map f, _
    rw [List.forall_mem_map]
    intro o ho
    rw [(hf o).length, (hf o).snippet]
    exact h.values_length o ho

/-- The case in which the names stay too. -/
theorem mapInstances_of_name (h : w.WellFormed) {f : Instance → Instance}
    {arrays : List ArrayDef} (hf : ∀ o : Instance, o.Persists (f o)) (hname : ∀ o, (f o).name = o.name)
    (henvironment : (f w.environment).array? = none)
    (harray : ∀ o ∈ w.instances, ∀ i, (f o).array? = some i → i < arrays.length) :
    WellFormed { w.mapInstances f with arrays := arrays } := by
  refine h.mapInstances hf henvironment ?_ ?_ harray
  · rw [List.map_map]
    simp only [Function.comp_def, hname]
    exact h.names_nodup
  · intro o ho
    rw [hname]
    exact h.isName o ho

theorem setAttribute (h : w.WellFormed) (id : InstanceId) (attributeName value : String) :
    (w.update id (·.setValue attributeName value)).WellFormed := by
  have harray : ∀ o : Instance,
      (if o.id = id then o.setValue attributeName value else o).array? = o.array? := by
    intro o
    split <;> simp
  refine h.mapInstances_of_name
    (Instance.persists_update (fun o => o.persists_setValue attributeName value) id) ?_ ?_ ?_
  · intro o
    split <;> simp
  · rw [harray]
    exact h.environment_array
  · intro o ho
    rw [harray]
    exact h.array_lt o ho

theorem rename (h : w.WellFormed) (id : InstanceId) {name : String} (hname : IsName name)
    (hfree : ∀ o ∈ w.instances, o.name ≠ name) :
    (w.update id fun o => { o with name := name }).WellFormed := by
  refine h.mapInstances (Instance.persists_update (fun o => o.persists_name name) id) ?_ ?_ ?_ ?_
  · split <;> exact h.environment_array
  · rw [List.map_map]
    refine List.Nodup.map_on ?_ h.ids_nodup.of_map
    intro a ha b hb heq
    -- The new name is free, so it tells the renamed instance from all the others.
    by_cases haid : a.id = id <;> by_cases hbid : b.id = id
    · exact h.eq_of_id ha hb (haid.trans hbid.symm)
    · simp only [Function.comp_apply, haid, hbid, if_true, if_false] at heq
      exact absurd heq.symm (hfree b hb)
    · simp only [Function.comp_apply, haid, hbid, if_true, if_false] at heq
      exact absurd heq (hfree a ha)
    · simp only [Function.comp_apply, haid, hbid, if_false] at heq
      exact h.eq_of_name ha hb heq
  · intro o ho
    split
    · exact hname
    · exact h.isName o ho
  · intro o ho
    split <;> exact h.array_lt o ho

theorem setArray (h : w.WellFormed) (id : InstanceId) {index? : Option Nat}
    (hindex : ∀ index, index? = some index →
      id ≠ w.environment.id ∧ index < w.arrays.length) :
    (w.update id fun o => { o with array? := index? }).WellFormed := by
  refine h.mapInstances_of_name (Instance.persists_update (fun o => o.persists_array index?) id)
    ?_ ?_ ?_
  · intro o
    split <;> rfl
  · split
    · rename_i hid
      cases index? with
      | none => rfl
      | some index => exact absurd hid.symm (hindex index rfl).1
    · exact h.environment_array
  · intro o ho i hi
    split at hi
    · exact (hindex i hi).2
    · exact h.array_lt o ho i hi

theorem withoutArray (h : w.WellFormed) {index : Nat} (hindex : index < w.arrays.length) :
    (w.withoutArray index).WellFormed := by
  refine h.mapInstances_of_name (fun o => o.persists_withoutArray index) (fun o => rfl) ?_ ?_
  · simp [Instance.withoutArray, h.environment_array]
  · intro o ho i hi
    rw [List.length_eraseIdx_of_lt hindex]
    exact Instance.lt_of_array?_withoutArray (h.array_lt o ho) hindex hi

/-- Nothing but arrays that go is a danger to the instances on them. -/
theorem ofArrays (h : w.WellFormed) {arrays : List ArrayDef}
    (hlength : w.arrays.length ≤ arrays.length) : WellFormed { w with arrays := arrays } :=
  { h with array_lt := fun o ho i hi => Nat.lt_of_lt_of_le (h.array_lt o ho i hi) hlength }

theorem without (h : w.WellFormed) (ids : List InstanceId) : (w.without ids).WellFormed := by
  have hsub : (w.without ids).instances.Sublist w.instances :=
    List.filter_sublist.cons_cons w.environment
  exact
    { environment_id := h.environment_id
      environment_role := h.environment_role
      environment_array := h.environment_array
      ids_increasing := h.ids_increasing.sublist hsub
      id_lt := fun o ho => h.id_lt o (hsub.subset ho)
      names_nodup := h.names_nodup.sublist (hsub.map _)
      isName := fun o ho => h.isName o (hsub.subset ho)
      array_lt := fun o ho => h.array_lt o (hsub.subset ho)
      values_length := fun o ho => h.values_length o (hsub.subset ho) }

theorem reset (h : w.WellFormed) : w.reset.WellFormed where
  environment_id := h.environment_id
  environment_role := h.environment_role
  environment_array := h.environment_array
  ids_increasing := List.pairwise_singleton _ _
  id_lt := List.forall_mem_singleton.mpr (h.id_lt w.environment w.environment_mem_instances)
  names_nodup := List.nodup_singleton _
  isName := List.forall_mem_singleton.mpr isName_default
  array_lt := by
    intro o ho i hi
    obtain rfl := List.mem_singleton.mp ho
    exact absurd (h.environment_array.symm.trans hi) (by simp)
  values_length := List.forall_mem_singleton.mpr (by simp [World.reset, Snippet.initialValues])

theorem prepare (h : w.WellFormed) (g : Generator) : (g.prepare w).WellFormed := by
  refine h.mapInstances_of_name (fun o => o.persists_prepareInstance g) (by simp) ?_ ?_
  · rw [Instance.array?_prepareInstance]
    exact h.environment_array
  · intro o ho
    rw [Instance.array?_prepareInstance]
    exact h.array_lt o ho

/-- The step: no edit breaks a well-formed world. -/
theorem effect (h : w.WellFormed) {w' : World} {reply : Reply} (he : Effect w reply w') :
    w'.WellFormed := by
  cases he with
  | addEntity _ hnew => exact h.push hnew
  | addRelation _ hnew _ _ _ => exact h.push hnew
  | setAttribute _ _ _ => exact h.setAttribute _ _ _
  | keepName => exact h
  | rename _ hname hfree => exact h.rename _ hname hfree
  | remove _ _ => exact h.without _
  | reset => exact h.reset
  | addArray => exact h.ofArrays (by simp)
  | resizeArray _ => exact h.ofArrays (by simp)
  | removeArray harray => exact h.withoutArray (List.getElem?_eq_some_iff.mp harray).1
  | setArray _ hindex => exact h.setArray _ hindex

end WellFormed

theorem Reachable.wellFormed {w : World} (h : Reachable w) : w.WellFormed := by
  refine h.invariant ?_ ?_ ?_
  · intro snippet name _ hname
    exact .start hname
  · intro w w' reply _ hw he
    exact hw.effect he
  · intro w g _ hw
    exact hw.prepare g

end World

end Stencil
