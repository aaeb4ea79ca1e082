import Mathlib.Data.List.Forall2
import Stencil.Proofs.World.Values
import Stencil.Scene.Build

/-!
# What a scene builds

Each entity and each relation of a scene becomes one instance at the end of the world, and
nothing else changes: `addEntity_eq_ok` and `addRelation_eq_ok` say which one. So a world that
is built has the environment, then the entities, then the relations, in the order of the
scene, and it is reachable by edits: `exists_of_build`. What an entry names is there (`Resolves`).
-/

namespace Stencil

namespace World

variable {w v : World}

theorem Reachable.of_run (h : Reachable w) {edit : Edit} {reply : Reply}
    (hrun : edit.run w = .ok (reply, v)) : Reachable v := by
  have hedit := h.edit edit
  rwa [perform, hrun] at hedit

/-- The world with one more instance at the end. -/
def append (w : World) (o : Instance) : World :=
  { w with others := w.others ++ [o], nextId := w.nextId + 1 }

theorem instances_append (w : World) (o : Instance) :
    (w.append o).instances = w.instances ++ [o] := rfl

theorem push_eq (w : World) (snippet : Snippet) (name : String) (role : Role) :
    w.push snippet name role = (⟨w.nextId⟩, w.append (.create ⟨w.nextId⟩ snippet name role)) :=
  rfl

theorem update_update (w : World) (id : InstanceId) {f g : Instance → Instance}
    (hf : ∀ o, (f o).id = o.id) : (w.update id f).update id g = w.update id fun o => g (f o) := by
  rw [update, update, mapInstances_mapInstances, update]
  refine mapInstances_congr ?_
  intro o _
  by_cases ho : o.id = id <;> simp [ho, hf]

theorem update_of_id (w : World) (id : InstanceId) : w.update id (fun o => o) = w := by
  simp [update, mapInstances]

/-- The instance that is changed is found in its new form. -/
theorem get?_update_self {id : InstanceId} {o : Instance} {f : Instance → Instance}
    (ho : w.get? id = some o) (hf : ∀ o, (f o).id = o.id) :
    (w.update id f).get? id = some (f o) := by
  have hids (o : Instance) : (if o.id = id then f o else o).id = o.id := by
    split
    · exact hf o
    · rfl
  rw [update, get?_mapInstances w hids, ho, Option.map_some, if_pos (get?_eq_some ho).2]

theorem get?_append_self {o : Instance} (h : ∀ p ∈ w.instances, p.id ≠ o.id) :
    (w.append o).get? o.id = some o := by
  rw [get?, instances_append, List.find?_append, ← get?, get?_eq_none_iff.mpr h]
  simp

/-- A change of the last instance leaves the others, which have other numbers. -/
theorem update_append {o : Instance} (h : ∀ p ∈ w.instances, p.id ≠ o.id)
    (f : Instance → Instance) : (w.append o).update o.id f = w.append (f o) := by
  obtain ⟨henvironment, hothers⟩ := List.forall_mem_cons.mp h
  have hmap : (w.others.map fun p => if p.id = o.id then f p else p) = w.others := by
    refine (List.map_congr_left ?_).trans (List.map_id' w.others)
    intro p hp
    rw [if_neg (hothers p hp)]
  simp [append, update, mapInstances, henvironment, hmap]

/-- `v` is `w` with those instances added at the end. -/
structure Grows (w v : World) (added : List Instance) : Prop where
  environment : v.environment = w.environment
  arrays : v.arrays = w.arrays
  others : v.others = w.others ++ added

theorem Grows.refl (w : World) : Grows w w [] := ⟨rfl, rfl, by simp⟩

theorem Grows.trans {u : World} {added more : List Instance} (h : Grows w v added)
    (h' : Grows v u more) : Grows w u (added ++ more) where
  environment := h'.environment.trans h.environment
  arrays := h'.arrays.trans h.arrays
  others := by rw [h'.others, h.others, List.append_assoc]

theorem grows_append (w : World) (o : Instance) : Grows w (w.append o) [o] := ⟨rfl, rfl, rfl⟩

theorem Grows.mem_instances {added : List Instance} (h : Grows w v added) {o : Instance}
    (ho : o ∈ w.instances) : o ∈ v.instances := by
  rw [instances, h.environment, h.others, ← List.cons_append]
  exact List.mem_append_left _ ho

end World

namespace Scene

open World

variable {registry : Registry} {w w' : World}

theorem lift_eq_ok_iff {α : Type} {edit : Except World.Error α} {a : α} :
    lift edit = .ok a ↔ edit = .ok a := by
  cases edit <;> simp [lift, Except.mapError]

theorem classOf_eq_ok_iff {name : String} {snippet : Snippet} :
    classOf registry name = .ok snippet ↔ registry.snippet? name = some snippet := by
  unfold classOf
  split <;> simp [*]

theorem instanceOf_eq_ok_iff {name : String} {id : InstanceId} :
    instanceOf w name = .ok id ↔ ∃ o, w.find? name = some o ∧ o.id = id := by
  unfold instanceOf
  split <;> simp [*]

/-- The values of an instance of the class after the settings, made one after the other. -/
def settle (snippet : Snippet) (settings : Settings) (values : List String) : List String :=
  settings.foldl
    (fun values setting =>
      match snippet.attributeIndex? setting.1 with
      | some index => values.set index setting.2
      | none => values)
    values

theorem setValue_eq (o : Instance) (name value : String) :
    o.setValue name value = { o with values := settle o.snippet [(name, value)] o.values } := by
  unfold Instance.setValue settle
  split <;> simp [*]

theorem configure_eq_ok {id : InstanceId} {settings : Settings}
    (h : configure w id settings = .ok w') :
    w' = w.update id fun o => { o with values := settle o.snippet settings o.values } := by
  induction settings generalizing w with
  | nil =>
      obtain rfl := Except.ok.inj h
      exact (w.update_of_id id).symm
  | cons setting settings ih =>
      obtain ⟨u, hu, hrest⟩ := bind_eq_ok_iff.mp h
      obtain ⟨_, _, _, _, _, rfl⟩ := setAttribute_eq_ok_iff.mp (lift_eq_ok_iff.mp hu)
      rw [ih hrest]
      simp only [setValue_eq]
      exact w.update_update id fun _ => rfl

/-- What is set is the value of an attribute of the class. -/
theorem attributeIndex?_of_configure {id : InstanceId} {o : Instance} {settings : Settings}
    (ho : w.get? id = some o) (h : configure w id settings = .ok w') :
    ∀ setting ∈ settings, ∃ index, o.snippet.attributeIndex? setting.1 = some index := by
  induction settings generalizing w o with
  | nil => exact fun setting hsetting => absurd hsetting List.not_mem_nil
  | cons setting settings ih =>
      obtain ⟨u, hu, hrest⟩ := bind_eq_ok_iff.mp h
      obtain ⟨o', a, ho', ha, -, rfl⟩ := setAttribute_eq_ok_iff.mp (lift_eq_ok_iff.mp hu)
      obtain rfl := Option.some.inj (ho.symm.trans ho')
      obtain ⟨index, hindex, -⟩ := Snippet.exists_attributeIndex? ha
      have hpersists := fun o : Instance => o.persists_setValue setting.1 setting.2
      have hlater := ih (get?_update_self ho fun o => (hpersists o).id) hrest
      rw [(hpersists o).snippet] at hlater
      exact List.forall_mem_cons.mpr ⟨⟨index, hindex⟩, hlater⟩

theorem place_eq_ok {id : InstanceId} {array? : Option String}
    (h : place w id array? = .ok w') :
    array? = none ∧ w' = w ∨
      ∃ name index, array? = some name ∧ w.arrayIndex? name = some index ∧
        w' = w.update id fun o => { o with array? := some index } := by
  cases array? with
  | none => exact .inl ⟨rfl, (Except.ok.inj h).symm⟩
  | some name =>
      unfold place at h
      dsimp only at h
      split at h
      · simp at h
      · rename_i index hindex
        obtain ⟨-, -, rfl⟩ := setArray_eq_ok_iff.mp (lift_eq_ok_iff.mp h)
        exact .inr ⟨name, index, rfl, hindex, rfl⟩

/-- The instance that an object of a scene becomes, if it is the next one of the world. -/
def nextInstance (w : World) (snippet : Snippet) (name? array? : Option String)
    (settings : Settings) (role : Role) : Instance :=
  ⟨⟨w.nextId⟩, snippet, name?.getD (w.freshName snippet.name), array?.bind w.arrayIndex?,
    settle snippet settings snippet.initialValues, role⟩

/-- The array and the attributes that an object of a scene names are there. -/
structure Resolves (w : World) (snippet : Snippet) (array? : Option String)
    (settings : Settings) : Prop where
  array : ∀ name, array? = some name → ∃ index, w.arrayIndex? name = some index
  attributes : ∀ setting ∈ settings, ∃ index, snippet.attributeIndex? setting.1 = some index

/-- The entity becomes `o` in the world `w`. -/
def EntitySpec.Makes (registry : Registry) (w : World) (spec : EntitySpec) (o : Instance) :
    Prop :=
  ∃ snippet, registry.snippet? spec.className = some snippet ∧
    Resolves w snippet spec.array? spec.settings ∧
    o = nextInstance w snippet spec.name? spec.array? spec.settings .entity

/-- The relation becomes `o` in the world `w`, where its ends are found by their names. -/
def RelationSpec.Makes (registry : Registry) (w : World) (spec : RelationSpec) (o : Instance) :
    Prop :=
  ∃ snippet a b, registry.snippet? spec.className = some snippet ∧
    w.find? spec.source = some a ∧ w.find? spec.target = some b ∧
    Resolves w snippet spec.array? spec.settings ∧
    o = nextInstance w snippet spec.name? spec.array? spec.settings (.relation a.id b.id)

theorem reachable_of_configure (h : Reachable w) {id : InstanceId} {settings : Settings}
    (hok : configure w id settings = .ok w') : Reachable w' := by
  induction settings generalizing w with
  | nil =>
      obtain rfl := Except.ok.inj hok
      exact h
  | cons setting settings ih =>
      obtain ⟨u, hu, hrest⟩ := bind_eq_ok_iff.mp hok
      have hset : (Edit.setAttribute id setting.1 setting.2).run w = .ok (.done, u) := by
        rw [Edit.run, lift_eq_ok_iff.mp hu]
        rfl
      exact ih (h.of_run hset) hrest

theorem reachable_of_place (h : Reachable w) {id : InstanceId} {array? : Option String}
    (hok : place w id array? = .ok w') : Reachable w' := by
  unfold place at hok
  split at hok
  · obtain rfl := Except.ok.inj hok
    exact h
  · split at hok
    · simp at hok
    · rename_i index _
      have hset : (Edit.setArray id (some index)).run w = .ok (.done, w') := by
        rw [Edit.run, lift_eq_ok_iff.mp hok]
        rfl
      exact h.of_run hset

/-- What becomes of a new instance that is put on its array and gets its values. -/
theorem append_of_place_of_configure (hw : w.WellFormed) {w₁ : World} {snippet : Snippet}
    {name? array? : Option String} {role : Role} {settings : Settings}
    (hplace : place (w.push snippet (name?.getD (w.freshName snippet.name)) role).2 ⟨w.nextId⟩
      array? = .ok w₁)
    (hconfigure : configure w₁ ⟨w.nextId⟩ settings = .ok w') :
    w' = w.append (nextInstance w snippet name? array? settings role) ∧
      Resolves w snippet array? settings := by
  have hnew : ∀ p ∈ w.instances, p.id ≠ ⟨w.nextId⟩ := fun p hp => hw.id_ne_nextId hp
  obtain ⟨hplaced, harray⟩ : w₁ = w.append ⟨⟨w.nextId⟩, snippet,
      name?.getD (w.freshName snippet.name), array?.bind w.arrayIndex?, snippet.initialValues,
      role⟩ ∧ ∀ name, array? = some name → ∃ index, w.arrayIndex? name = some index := by
    rcases place_eq_ok hplace with ⟨rfl, rfl⟩ | ⟨arrayName, index, rfl, hindex, rfl⟩
    · exact ⟨rfl, fun name hname => absurd hname (Option.some_ne_none name).symm⟩
    · have hindex' : w.arrayIndex? arrayName = some index := hindex
      rw [push_eq, Option.bind_some, hindex']
      refine ⟨update_append hnew _, ?_⟩
      rintro _ ⟨⟩
      exact ⟨index, hindex'⟩
  subst hplaced
  refine ⟨?_, harray, attributeIndex?_of_configure (get?_append_self hnew) hconfigure⟩
  rw [configure_eq_ok hconfigure]
  exact update_append hnew _

/-- An entity of a scene becomes one instance at the end. -/
theorem addEntity_eq_ok (h : Reachable w) {spec : EntitySpec}
    (hok : addEntity registry w spec = .ok w') :
    Reachable w' ∧ ∃ o, w' = w.append o ∧ spec.Makes registry w o := by
  obtain ⟨snippet, hsnippet, hok⟩ := bind_eq_ok_iff.mp hok
  -- Without a name of its own the entity is added under a fresh one.
  have hnamed : (lift (w.addEntity snippet (spec.name?.getD (w.freshName snippet.name))) >>=
      fun r => place r.2 r.1 spec.array? >>= fun u => configure u r.1 spec.settings) =
        .ok w' := by
    cases hname : spec.name? <;> rw [hname] at hok <;> exact hok
  obtain ⟨⟨id, w₁⟩, hadd, hok⟩ := bind_eq_ok_iff.mp hnamed
  obtain ⟨w₂, hplace, hconfigure⟩ := bind_eq_ok_iff.mp hok
  have hrun : (Edit.addEntity snippet (spec.name?.getD (w.freshName snippet.name))).run w =
      .ok (.created id, w₁) := by
    rw [Edit.run, lift_eq_ok_iff.mp hadd]
    rfl
  refine ⟨reachable_of_configure (reachable_of_place (h.of_run hrun) hplace) hconfigure, ?_⟩
  obtain ⟨-, -, hpush⟩ := addEntity_eq_ok_iff.mp (lift_eq_ok_iff.mp hadd)
  obtain ⟨rfl, rfl⟩ := Prod.mk.inj hpush
  obtain ⟨hw', hresolves⟩ := append_of_place_of_configure h.wellFormed hplace hconfigure
  exact ⟨_, hw', snippet, classOf_eq_ok_iff.mp hsnippet, hresolves, rfl⟩

/-- A relation of a scene becomes one instance at the end. -/
theorem addRelation_eq_ok (h : Reachable w) {spec : RelationSpec}
    (hok : addRelation registry w spec = .ok w') :
    Reachable w' ∧ ∃ o, w' = w.append o ∧ spec.Makes registry w o := by
  obtain ⟨snippet, hsnippet, hok⟩ := bind_eq_ok_iff.mp hok
  obtain ⟨source, hsource, hok⟩ := bind_eq_ok_iff.mp hok
  obtain ⟨target, htarget, hok⟩ := bind_eq_ok_iff.mp hok
  obtain ⟨a, ha, rfl⟩ := instanceOf_eq_ok_iff.mp hsource
  obtain ⟨b, hb, rfl⟩ := instanceOf_eq_ok_iff.mp htarget
  have hnamed : (lift (w.addRelation snippet (spec.name?.getD (w.freshName snippet.name)) a.id
      b.id) >>=
      fun r => place r.2 r.1 spec.array? >>= fun u => configure u r.1 spec.settings) =
        .ok w' := by
    cases hname : spec.name? <;> rw [hname] at hok <;> exact hok
  obtain ⟨⟨id, w₁⟩, hadd, hok⟩ := bind_eq_ok_iff.mp hnamed
  obtain ⟨w₂, hplace, hconfigure⟩ := bind_eq_ok_iff.mp hok
  have hrun : (Edit.addRelation snippet (spec.name?.getD (w.freshName snippet.name)) a.id
      b.id).run w = .ok (.created id, w₁) := by
    rw [Edit.run, lift_eq_ok_iff.mp hadd]
    rfl
  refine ⟨reachable_of_configure (reachable_of_place (h.of_run hrun) hplace) hconfigure, ?_⟩
  obtain ⟨_, _, _, _, _, _, _, _, _, _, hpush⟩ :=
    addRelation_eq_ok_iff.mp (lift_eq_ok_iff.mp hadd)
  obtain ⟨rfl, rfl⟩ := Prod.mk.inj hpush
  obtain ⟨hw', hresolves⟩ := append_of_place_of_configure h.wellFormed hplace hconfigure
  exact ⟨_, hw', snippet, a, b, classOf_eq_ok_iff.mp hsnippet, ha, hb, hresolves, rfl⟩

/-- Objects that are added one after the other, each as one instance, are the instances behind
those of `w`. Each was made in some world between `w` and the last one. -/
theorem exists_of_foldlM {σ : Type} {step : World → σ → Except Error World}
    {P : World → σ → Instance → Prop}
    (hstep : ∀ {u u' : World} {spec : σ}, Reachable u → step u spec = .ok u' →
      Reachable u' ∧ ∃ o, u' = u.append o ∧ P u spec o)
    (h : Reachable w) {specs : List σ} (hok : specs.foldlM step w = .ok w') :
    Reachable w' ∧ ∃ added, Grows w w' added ∧
      List.Forall₂ (fun spec o => ∃ u before after, Grows w u before ∧
        Grows u w' (o :: after) ∧ P u spec o) specs added := by
  induction specs generalizing w with
  | nil =>
      obtain rfl := Except.ok.inj hok
      exact ⟨h, [], .refl w, .nil⟩
  | cons spec specs ih =>
      rw [List.foldlM_cons] at hok
      obtain ⟨w₁, hfirst, hrest⟩ := bind_eq_ok_iff.mp hok
      obtain ⟨h₁, o, rfl, hmakes⟩ := hstep h hfirst
      obtain ⟨h', added, hgrows, hadded⟩ := ih h₁ hrest
      have hfirst := (grows_append w o).trans hgrows
      refine ⟨h', o :: added, hfirst, .cons ?_ (hadded.imp ?_)⟩
      · exact ⟨w, [], added, .refl w, hfirst, hmakes⟩
      · rintro spec' o' ⟨u, before, after, hbefore, hafter, hmakes'⟩
        exact ⟨u, o :: before, after, (grows_append w o).trans hbefore, hafter, hmakes'⟩

/-- The environment and the arrays of a scene. -/
def foundation (scene : Scene) (snippet : Snippet) : World where
  environment :=
    ⟨⟨0⟩, snippet, scene.environment.name?.getD defaultEnvironmentName, none,
      settle snippet scene.environment.settings snippet.initialValues, .entity⟩
  others := []
  arrays := scene.arrays
  nextId := 1

theorem addArrays_eq (w : World) (arrays : List ArrayDef) :
    addArrays w arrays = { w with arrays := w.arrays ++ arrays } := by
  induction arrays generalizing w with
  | nil => simp [addArrays]
  | cons array arrays ih =>
      change addArrays (w.addArray array.name array.elements).2 arrays = _
      rw [ih]
      simp [World.addArray]

theorem reachable_addArrays (h : Reachable w) (arrays : List ArrayDef) :
    Reachable (addArrays w arrays) := by
  induction arrays generalizing w with
  | nil => exact h
  | cons array arrays ih => exact ih (h.edit (.addArray array.name array.elements))

/-- A world that is built is reachable. It has the environment and the arrays of the scene,
and behind the environment one instance for each entity and then for each relation. -/
theorem exists_of_build {scene : Scene} (h : scene.build registry = .ok w) :
    Reachable w ∧ ∃ snippet entities relations,
      registry.snippet? scene.environment.className = some snippet ∧
      Grows (scene.foundation snippet) w (entities ++ relations) ∧
      List.Forall₂ (fun spec o => ∃ u before after, Grows (scene.foundation snippet) u before ∧
        Grows u w (o :: after) ∧ spec.Makes registry u o) scene.entities entities ∧
      List.Forall₂ (fun spec o => ∃ u before after, Grows (scene.foundation snippet) u before ∧
        Grows u w (o :: after) ∧ spec.Makes registry u o) scene.relations relations := by
  obtain ⟨snippet, hsnippet, h⟩ := bind_eq_ok_iff.mp h
  obtain ⟨w₁, hstart, h⟩ := bind_eq_ok_iff.mp h
  obtain ⟨w₂, hconfigure, h⟩ := bind_eq_ok_iff.mp h
  obtain ⟨w₃, hentities, hrelations⟩ := bind_eq_ok_iff.mp h
  have hreachable := reachable_addArrays
    (reachable_of_configure (.start (lift_eq_ok_iff.mp hstart)) hconfigure) scene.arrays
  obtain ⟨-, -, rfl⟩ := ofEnvironment_eq_ok_iff.mp (lift_eq_ok_iff.mp hstart)
  have hfoundation : addArrays w₂ scene.arrays = scene.foundation snippet := by
    rw [addArrays_eq, configure_eq_ok hconfigure]
    simp [foundation, update, mapInstances, Instance.create]
  rw [hfoundation] at hentities hreachable
  obtain ⟨h₃, entities, hgrows, hmade⟩ := exists_of_foldlM
    (fun hu hok => addEntity_eq_ok hu hok) hreachable hentities
  obtain ⟨hw, relations, hgrows', hmade'⟩ := exists_of_foldlM
    (fun hu hok => addRelation_eq_ok hu hok) h₃ hrelations
  refine ⟨hw, snippet, entities, relations, classOf_eq_ok_iff.mp hsnippet, hgrows.trans hgrows',
    hmade.imp ?_, hmade'.imp ?_⟩
  · rintro spec o ⟨u, before, after, hbefore, hafter, hmakes⟩
    exact ⟨u, before, after ++ relations, hbefore, hafter.trans hgrows', hmakes⟩
  · rintro spec o ⟨u, before, after, hbefore, hafter, hmakes⟩
    exact ⟨u, entities ++ before, after, hgrows.trans hbefore, hafter, hmakes⟩

/-- The settings of the environment name attributes of its class. -/
theorem attributeIndex?_of_build {scene : Scene} (h : scene.build registry = .ok w)
    {snippet : Snippet} (hsnippet : registry.snippet? scene.environment.className = some snippet) :
    ∀ setting ∈ scene.environment.settings,
      ∃ index, snippet.attributeIndex? setting.1 = some index := by
  obtain ⟨snippet', hsnippet', h⟩ := bind_eq_ok_iff.mp h
  obtain rfl := Option.some.inj (hsnippet.symm.trans (classOf_eq_ok_iff.mp hsnippet'))
  obtain ⟨w₁, hstart, h⟩ := bind_eq_ok_iff.mp h
  obtain ⟨w₂, hconfigure, -⟩ := bind_eq_ok_iff.mp h
  obtain ⟨-, -, rfl⟩ := ofEnvironment_eq_ok_iff.mp (lift_eq_ok_iff.mp hstart)
  exact attributeIndex?_of_configure rfl hconfigure

end Scene

end Stencil
