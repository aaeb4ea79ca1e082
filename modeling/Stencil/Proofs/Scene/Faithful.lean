import Stencil.Proofs.Library.Registry
import Stencil.Proofs.Scene.Build
import Stencil.Proofs.World.FreshName

/-!
# A world shows its scene

Names in a scene stand for the first thing of that name: a class of the registry, an array, an
attribute of a class. `Shows` says of a world what is at each place of it, without the steps that
built it: the environment, the entities and the relations in the order of the scene, each as its
entry `Depicts` it. A world that is built shows its scene (`shows_of_build`); an environment
without a name of its own has the default name, not one with a number.
-/

namespace Stencil

/-- The position is the first at which the name stands. -/
def FirstAt (names : List String) (name : String) (index : Nat) : Prop :=
  names[index]? = some name ∧ name ∉ names.take index

theorem findIdx?_eq_some_iff_firstAt {α : Type} {key : α → String} {l : List α} {name : String}
    {index : Nat} :
    l.findIdx? (key · == name) = some index ↔ FirstAt (l.map key) name index := by
  rw [List.findIdx?_eq_some_iff_getElem, FirstAt]
  constructor
  · rintro ⟨hlt, hname, hbefore⟩
    refine ⟨by simpa [hlt] using hname, ?_⟩
    rw [List.mem_take_iff_getElem]
    rintro ⟨j, hj, hjname⟩
    rw [List.getElem_map] at hjname
    exact hbefore j (Nat.lt_of_lt_of_le hj (Nat.min_le_left _ _)) (beq_iff_eq.mpr hjname)
  · rintro ⟨hname, hbefore⟩
    obtain ⟨hlt, hname⟩ := List.getElem?_eq_some_iff.mp hname
    rw [List.length_map] at hlt
    refine ⟨hlt, by simpa using hname, ?_⟩
    intro j hj hjname
    refine hbefore (List.mem_take_iff_getElem.mpr ⟨j, ?_, ?_⟩)
    · rw [List.length_map]
      exact Nat.lt_min.mpr ⟨hj, Nat.lt_trans hj hlt⟩
    · rw [List.getElem_map]
      exact beq_iff_eq.mp hjname

namespace Scene

open World

variable {registry : Registry} {scene : Scene} {w u : World} {snippet : Snippet}
  {settings : Settings} {values : List String} {name : String} {index : Nat}

/-! ### The values of an object -/

/-- The values are those of the settings, and the defaults at all other positions. Of several
settings of one name the last counts. -/
structure Filled (snippet : Snippet) (settings : Settings) (values : List String) : Prop where
  length : values.length = snippet.attributes.length
  given : ∀ name value, settings.reverse.lookup name = some value →
    ∃ index, FirstAt (snippet.attributes.map (·.name)) name index ∧ values[index]? = some value
  initial : ∀ index a, snippet.attributes[index]? = some a →
    (∀ setting ∈ settings, ¬ FirstAt (snippet.attributes.map (·.name)) setting.1 index) →
    values[index]? = some a.initial

theorem settle_cons (setting : String × String) (settings : Settings) (values : List String) :
    settle snippet (setting :: settings) values =
      settle snippet settings (settle snippet [setting] values) := rfl

theorem length_settle (settings : Settings) (values : List String) :
    (settle snippet settings values).length = values.length := by
  induction settings generalizing values with
  | nil => rfl
  | cons setting settings ih =>
      rw [settle_cons, ih, settle, List.foldl_cons, List.foldl_nil]
      split <;> simp

/-- One setting writes at the position of its attribute and nowhere else. -/
theorem getElem?_settle_singleton (name value : String) (values : List String) (index : Nat) :
    (settle snippet [(name, value)] values)[index]? =
      if snippet.attributeIndex? name = some index then values[index]?.map fun _ => value
      else values[index]? := by
  rw [settle, List.foldl_cons, List.foldl_nil]
  cases hindex : snippet.attributeIndex? name with
  | none => simp
  | some position =>
      by_cases h : position = index
      · subst h
        rw [if_pos rfl, List.getElem?_set_self']
        rfl
      · simp [h]

theorem attributeIndex?_eq_some_iff :
    snippet.attributeIndex? name = some index ↔
      FirstAt (snippet.attributes.map (·.name)) name index :=
  findIdx?_eq_some_iff_firstAt

theorem attributeIndex?_inj {name' : String} (h : snippet.attributeIndex? name = some index)
    (h' : snippet.attributeIndex? name' = some index) : name' = name := by
  rw [attributeIndex?_eq_some_iff] at h h'
  exact Option.some.inj (h'.1.symm.trans h.1)

/-- At the position of an attribute stands what the last setting of its name says. -/
theorem getElem?_settle (h : snippet.attributeIndex? name = some index) (settings : Settings)
    (values : List String) :
    (settle snippet settings values)[index]? =
      values[index]?.map fun value => (settings.reverse.lookup name).getD value := by
  induction settings generalizing values with
  | nil => simp [settle]
  | cons setting settings ih =>
      obtain ⟨name', value⟩ := setting
      rw [settle_cons, ih, getElem?_settle_singleton, List.reverse_cons, List.lookup_append]
      by_cases hname : name' = name
      · -- A later setting of the same name overwrites this one.
        subst hname
        rw [if_pos h, Option.map_map]
        cases settings.reverse.lookup name' <;> simp [Function.comp_def]
      · have hne : snippet.attributeIndex? name' ≠ some index :=
          fun h' => hname (attributeIndex?_inj h h')
        have hlookup : [(name', value)].lookup name = none := by simp [Ne.symm hname]
        rw [if_neg hne, hlookup, Option.or_none]

theorem getElem?_settle_of_forall_ne
    (h : ∀ setting ∈ settings, snippet.attributeIndex? setting.1 ≠ some index)
    (values : List String) : (settle snippet settings values)[index]? = values[index]? := by
  induction settings generalizing values with
  | nil => rfl
  | cons setting settings ih =>
      obtain ⟨hfirst, hrest⟩ := List.forall_mem_cons.mp h
      rw [settle_cons, ih hrest, getElem?_settle_singleton, if_neg hfirst]

theorem mem_of_lookup_eq_some {value : String} (h : settings.lookup name = some value) :
    (name, value) ∈ settings := by
  obtain ⟨front, rest, rfl, -⟩ := List.lookup_eq_some_iff.mp h
  exact List.mem_append_right _ List.mem_cons_self

theorem filled_settle
    (hknown : ∀ setting ∈ settings, ∃ index, snippet.attributeIndex? setting.1 = some index) :
    Filled snippet settings (settle snippet settings snippet.initialValues) where
  length := by rw [length_settle, Snippet.initialValues, List.length_map]
  given := by
    intro name value hvalue
    obtain ⟨index, hindex⟩ := hknown _ (List.mem_reverse.mp (mem_of_lookup_eq_some hvalue))
    have hfirst := attributeIndex?_eq_some_iff.mp hindex
    obtain ⟨a, ha, -⟩ := Option.map_eq_some_iff.mp (List.getElem?_map ▸ hfirst.1)
    refine ⟨index, hfirst, ?_⟩
    rw [getElem?_settle hindex, hvalue, Snippet.initialValues, List.getElem?_map, ha]
    rfl
  initial := by
    intro index a ha hnone
    have hne : ∀ setting ∈ settings, snippet.attributeIndex? setting.1 ≠ some index :=
      fun setting hsetting h => hnone setting hsetting (attributeIndex?_eq_some_iff.mp h)
    rw [getElem?_settle_of_forall_ne hne, Snippet.initialValues, List.getElem?_map, ha]
    rfl

/-! ### The entries of a scene -/

/-- The instance is the one that an entry of the scene describes, where those of `before` are
there already. -/
structure Depicts (registry : Registry) (arrays : List ArrayDef) (before : List Instance)
    (className : String) (name? array? : Option String) (settings : Settings) (o : Instance) :
    Prop where
  snippet : registry.snippet? className = some o.snippet
  named : ∀ name, name? = some name → o.name = name
  unnamed : name? = none → LeastFree before className o.name
  placed : ∀ name, array? = some name →
    ∃ index, o.array? = some index ∧ FirstAt (arrays.map (·.name)) name index
  unplaced : array? = none → o.array? = none
  filled : Filled o.snippet settings o.values

theorem name_of_snippet? (h : registry.snippet? name = some snippet) : snippet.name = name := by
  rw [Registry.snippet?_eq_find?] at h
  simpa using List.find?_some h

theorem depicts_nextInstance {className : String} {name? array? : Option String}
    (hsnippet : registry.snippet? className = some snippet)
    (hresolves : Resolves u snippet array? settings) (role : Role) :
    Depicts registry u.arrays u.instances className name? array? settings
      (nextInstance u snippet name? array? settings role) where
  snippet := hsnippet
  named := by
    rintro name rfl
    rfl
  unnamed := by
    rintro rfl
    rw [← name_of_snippet? hsnippet]
    exact u.leastFree_freshName snippet.name
  placed := by
    rintro name rfl
    obtain ⟨index, hindex⟩ := hresolves.array name rfl
    exact ⟨index, hindex, findIdx?_eq_some_iff_firstAt.mp hindex⟩
  unplaced := by
    rintro rfl
    rfl
  filled := filled_settle hresolves.attributes

/-! ### The whole scene -/

/-- The world has the arrays of the scene and one instance for each of its entries, in their order.
The environment has the name, or one with a number if there is none. -/
structure Shows (registry : Registry) (scene : Scene) (environmentName? : Option String)
    (w : World) : Prop where
  length : w.instances.length = 1 + scene.entities.length + scene.relations.length
  arrays : w.arrays = scene.arrays
  /-- A number stands for one instance. -/
  ids : (w.instances.map (·.id)).Nodup
  /-- A name stands for one instance. -/
  names : (w.instances.map (·.name)).Nodup
  environment : ∃ o, w.instances[0]? = some o ∧ o.role = .entity ∧
    Depicts registry scene.arrays [] scene.environment.className environmentName? none
      scene.environment.settings o
  entities : ∀ k spec, scene.entities[k]? = some spec → ∃ o, w.instances[1 + k]? = some o ∧
    o.role = .entity ∧
    Depicts registry scene.arrays (w.instances.take (1 + k)) spec.className spec.name?
      spec.array? spec.settings o
  relations : ∀ k spec, scene.relations[k]? = some spec → ∃ o a b,
    w.instances[1 + scene.entities.length + k]? = some o ∧ o.role = .relation a.id b.id ∧
    (a ∈ w.instances.take (1 + scene.entities.length + k) ∧ a.name = spec.source) ∧
    (b ∈ w.instances.take (1 + scene.entities.length + k) ∧ b.name = spec.target) ∧
    Depicts registry scene.arrays (w.instances.take (1 + scene.entities.length + k))
      spec.className spec.name? spec.array? spec.settings o

theorem exists_getElem?_of_forall₂ {α β : Type} {R : α → β → Prop} {l : List α} {m : List β}
    (h : List.Forall₂ R l m) {k : Nat} {a : α} (ha : l[k]? = some a) :
    ∃ b, m[k]? = some b ∧ R a b := by
  induction h generalizing k with
  | nil => cases ha
  | cons hab _ ih =>
      cases k with
      | zero =>
          obtain rfl := Option.some.inj ha
          exact ⟨_, rfl, hab⟩
      | succ k => exact ih ha

theorem getElem?_instances (w : World) (k : Nat) : w.instances[1 + k]? = w.others[k]? := by
  rw [instances, Nat.add_comm, List.getElem?_cons_succ]

theorem take_instances (w : World) (k : Nat) :
    w.instances.take (1 + k) = w.environment :: w.others.take k := by
  rw [instances, Nat.add_comm, List.take_succ_cons]

/-- The instances that were there when one was added are those that stand before it. -/
theorem instances_eq_take {base : World} {before after : List Instance} {o : Instance} {k : Nat}
    (hbase : base.others = []) (hbefore : Grows base u before) (hafter : Grows u w (o :: after))
    (hnodup : w.others.Nodup) (hk : w.others[k]? = some o) :
    u.instances = w.instances.take (1 + k) := by
  have hu : u.others = before := by rw [hbefore.others, hbase, List.nil_append]
  have hw : w.others = before ++ o :: after := by rw [hafter.others, hu]
  have hlength : w.others[before.length]? = some o := by rw [hw]; simp
  -- No instance stands at two places, so `o` stands where `before` ends.
  obtain ⟨hlt, -⟩ := List.getElem?_eq_some_iff.mp hk
  obtain rfl : k = before.length := (List.getElem?_inj hlt hnodup).mp (hk.trans hlength.symm)
  rw [take_instances, hw, List.take_left, instances, hu, hafter.environment]

/-- What the entries of a list became stands in their order behind the first `offset` instances, and
each was made in the world of those before it. -/
theorem exists_made_at {σ : Type} {base : World} {P : World → σ → Instance → Prop}
    (hbase : base.others = []) (hnodup : w.others.Nodup) {specs : List σ} {made : List Instance}
    (hmade : List.Forall₂ (fun spec o => ∃ u before after, Grows base u before ∧
      Grows u w (o :: after) ∧ P u spec o) specs made)
    {offset : Nat} (hplace : ∀ k < made.length, w.others[offset + k]? = made[k]?) {k : Nat}
    {spec : σ} (hspec : specs[k]? = some spec) :
    ∃ o u, w.others[offset + k]? = some o ∧ u.instances = w.instances.take (1 + (offset + k)) ∧
      u.arrays = base.arrays ∧ P u spec o := by
  obtain ⟨o, ho, u, before, after, hbefore, hafter, hmakes⟩ :=
    exists_getElem?_of_forall₂ hmade hspec
  have hk : w.others[offset + k]? = some o := by
    rw [hplace k (List.getElem?_eq_some_iff.mp ho).1, ho]
  exact ⟨o, u, hk, instances_eq_take hbase hbefore hafter hnodup hk, hbefore.arrays, hmakes⟩

theorem depicts_environment
    (hsnippet : registry.snippet? scene.environment.className = some snippet)
    (hknown : ∀ setting ∈ scene.environment.settings,
      ∃ index, snippet.attributeIndex? setting.1 = some index) :
    Depicts registry scene.arrays [] scene.environment.className
      (some (scene.environment.name?.getD defaultEnvironmentName)) none scene.environment.settings
      (scene.foundation snippet).environment where
  snippet := hsnippet
  named := fun name hname => Option.some.inj hname
  unnamed := by
    rintro ⟨⟩
  placed := by
    rintro name ⟨⟩
  unplaced := fun _ => rfl
  filled := filled_settle hknown

/-- A world that is built shows the scene, its environment under the default name if the scene
gives none. -/
theorem shows_of_build (h : scene.build registry = .ok w) :
    Shows registry scene (some (scene.environment.name?.getD defaultEnvironmentName)) w := by
  obtain ⟨hreachable, snippet, entities, relations, hsnippet, hgrows, hentities, hrelations⟩ :=
    exists_of_build h
  have hw := hreachable.wellFormed
  have hothers : w.others = entities ++ relations := by
    rw [hgrows.others]
    exact List.nil_append _
  have hnodup : w.others.Nodup := (List.nodup_cons.mp hw.ids_nodup.of_map).2
  have hlength := hentities.length_eq
  refine ⟨?_, hgrows.arrays, hw.ids_nodup, hw.names_nodup, ?_, ?_, ?_⟩
  · rw [instances, List.length_cons, hothers, List.length_append, hlength, hrelations.length_eq]
    omega
  · refine ⟨w.environment, rfl, hw.environment_role, ?_⟩
    rw [hgrows.environment]
    exact depicts_environment hsnippet (attributeIndex?_of_build h hsnippet)
  · intro k spec hspec
    have hplace : ∀ k < entities.length, w.others[0 + k]? = entities[k]? := by
      intro k hk
      rw [hothers, Nat.zero_add, List.getElem?_append_left hk]
    obtain ⟨o, u, ho, hinstances, harrays, snippet', hsnippet', hresolves, rfl⟩ :=
      exists_made_at rfl hnodup hentities hplace hspec
    rw [Nat.zero_add] at ho hinstances
    refine ⟨_, (getElem?_instances w k).trans ho, rfl, ?_⟩
    rw [← hinstances, ← show u.arrays = scene.arrays from harrays]
    exact depicts_nextInstance hsnippet' hresolves _
  · intro k spec hspec
    have hplace : ∀ k < relations.length,
        w.others[scene.entities.length + k]? = relations[k]? := by
      intro k _
      rw [hothers, hlength, List.getElem?_append_right (Nat.le_add_right _ _),
        Nat.add_sub_cancel_left]
    obtain ⟨o, u, ho, hinstances, harrays, snippet', a, b, hsnippet', ha, hb, hresolves, rfl⟩ :=
      exists_made_at rfl hnodup hrelations hplace hspec
    rw [Nat.add_assoc, ← hinstances, ← show u.arrays = scene.arrays from harrays]
    exact ⟨_, a, b, (getElem?_instances w _).trans ho, rfl, find?_eq_some ha, find?_eq_some hb,
      depicts_nextInstance hsnippet' hresolves _⟩

/-! ### Objects without names -/

/-- A class with two attributes of one name. -/
def probe : Snippet where
  name := "Probe"
  unique := false
  kind := .entity "node" 0
  attributes := [⟨"color", some "black", none⟩, ⟨"size", none, none⟩, ⟨"color", some "white", none⟩]
  patterns := []

/-- The classes of the scene. -/
def probeClasses : Registry := ⟨[⟨"probes", "Probes", "1", [simulator, probe, link]⟩]⟩

/-- Probes of which one has the name that another would get, on arrays of which two have one
name. -/
def probes : Scene where
  environment := ⟨"Simulator", none, []⟩
  arrays := [⟨"i", 2⟩, ⟨"j", 3⟩, ⟨"i", 4⟩]
  entities :=
    [⟨"Probe", some "Probe1", some "i", [("color", "red")]⟩, ⟨"Probe", none, none, []⟩,
      ⟨"Probe", none, some "j", [("size", "1"), ("size", "2")]⟩]
  relations := [⟨"Link", none, "Probe0", "Probe2", none, []⟩]

/-- The world of the probes. -/
def probesWorld : World where
  environment := .create ⟨0⟩ simulator "ns" .entity
  others :=
    [⟨⟨1⟩, probe, "Probe1", some 0, ["red", "", "white"], .entity⟩,
      .create ⟨2⟩ probe "Probe0" .entity,
      ⟨⟨3⟩, probe, "Probe2", some 1, ["black", "2", "white"], .entity⟩,
      .create ⟨4⟩ link "Link0" (.relation ⟨2⟩ ⟨3⟩)]
  arrays := [⟨"i", 2⟩, ⟨"j", 3⟩, ⟨"i", 4⟩]
  nextId := 5

theorem shows_probes :
    probes.build probeClasses = .ok probesWorld ∧
      Shows probeClasses probes (some "ns") probesWorld := by
  have hbuild : probes.build probeClasses = .ok probesWorld := by decide
  exact ⟨hbuild, shows_of_build hbuild⟩

/-- An environment without a name of its own is not called after its class. -/
theorem not_forall_shows :
    ¬ ∀ (registry : Registry) (scene : Scene) (w : World), scene.build registry = .ok w →
      Shows registry scene scene.environment.name? w := by
  intro h
  have hbuild : probes.build probeClasses = .ok probesWorld := by decide
  obtain ⟨_, ⟨⟩, -, hdepicts⟩ := (h probeClasses probes probesWorld hbuild).environment
  obtain ⟨n, hname, -⟩ := hdepicts.unnamed rfl
  have hname : "ns" = "Simulator" ++ toString n := hname
  have hhead := congrArg (fun name => name.toList.head?) hname
  simp at hhead

end Scene

end Stencil
