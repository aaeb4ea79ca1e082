import Stencil.Proofs.World.Run

/-!
# Unique classes and unique ends

Uniqueness is checked when an instance is added and never again: a unique class must have
no instance by then, and an instance at a unique end of a new relation must have no
relation of the class. What this leaves in a world, whatever classes the instances are of,
is that every instance `Tolerates` those that came after it. Edits that remove, rename or
rearrange keep this.

The checks go by the name of the class. So they keep a class to one instance if no two
classes of the run have one name (`unique_classes_and_ends`).
-/

namespace Stencil

/-- The instance that a relation comes from. -/
def Role.source? (role : Role) : Option InstanceId := role.ends?.map (·.1)

/-- The instance that a relation goes to. -/
def Role.target? (role : Role) : Option InstanceId := role.ends?.map (·.2)

namespace Role

variable {role : Role} {id : InstanceId}

theorem source?_eq_some_iff : role.source? = some id ↔ ∃ target, role = .relation id target := by
  cases role <;> simp [source?, ends?]

theorem target?_eq_some_iff : role.target? = some id ↔ ∃ source, role = .relation source id := by
  cases role <;> simp [target?, ends?]

theorem references_of_source? (h : role.source? = some id) : role.references id = true := by
  obtain ⟨target, rfl⟩ := source?_eq_some_iff.mp h
  simp [references]

theorem references_of_target? (h : role.target? = some id) : role.references id = true := by
  obtain ⟨source, rfl⟩ := target?_eq_some_iff.mp h
  simp [references]

end Role

namespace Instance

/-- `p` is `o` at a later time, also after a reset. -/
structure Stays (o p : Instance) : Prop where
  id : p.id = o.id
  snippet : p.snippet = o.snippet
  role : p.role = o.role

theorem Persists.stays {o p : Instance} (h : o.Persists p) : o.Stays p :=
  ⟨h.id, h.snippet, h.role⟩

/-- The instance of that number is at the end of the relation that the class of the relation
describes by `endpoint`. -/
inductive EndsAt (o : Instance) : Endpoint → InstanceId → Prop where
  | source {sourceEnd targetEnd : Endpoint} {style : LineStyle} {id : InstanceId} :
      o.snippet.kind = .relation sourceEnd targetEnd style → o.role.source? = some id →
      EndsAt o sourceEnd id
  | target {sourceEnd targetEnd : Endpoint} {style : LineStyle} {id : InstanceId} :
      o.snippet.kind = .relation sourceEnd targetEnd style → o.role.target? = some id →
      EndsAt o targetEnd id

/-- `a` was there when `b` was let in: they are not of one unique class, and if they are
relations of one class, no unique end of `b` is at an end of `a`. -/
structure Tolerates (a b : Instance) : Prop where
  unique : b.snippet.unique = true → a.snippet.name ≠ b.snippet.name
  ends : ∀ endpoint id, b.EndsAt endpoint id → endpoint.unique = true →
    a.snippet.name = b.snippet.name → a.references id = false

theorem EndsAt.of_stays {o p : Instance} {endpoint : Endpoint} {id : InstanceId}
    (h : p.EndsAt endpoint id) (hp : o.Stays p) : o.EndsAt endpoint id := by
  cases h with
  | source hkind hid => exact .source (hp.snippet ▸ hkind) (hp.role ▸ hid)
  | target hkind hid => exact .target (hp.snippet ▸ hkind) (hp.role ▸ hid)

theorem Tolerates.of_stays {a b a' b' : Instance} (h : a.Tolerates b)
    (ha : a.Stays a') (hb : b.Stays b') : a'.Tolerates b' := by
  refine ⟨?_, ?_⟩
  · rw [ha.snippet, hb.snippet]
    exact h.unique
  · intro endpoint id hend hunique hclass
    rw [ha.snippet, hb.snippet] at hclass
    rw [Instance.references, ha.role]
    exact h.ends endpoint id (hend.of_stays hb) hunique hclass

end Instance

namespace World

/-- An edit that hands out no number adds no instance: some of those that are there stay. -/
theorem Effect.exists_kept {w w' : World} {reply : Reply} (he : Effect w reply w')
    (hreply : reply.created? = none) :
    ∃ kept f, List.Sublist kept w.instances ∧ (∀ o : Instance, o.Stays (f o)) ∧
      w'.instances = kept.map f := by
  have hall : ∀ {v : World} (f : Instance → Instance), (∀ o : Instance, o.Persists (f o)) →
      v.instances = w.instances.map f → ∃ kept f, List.Sublist kept w.instances ∧
        (∀ o : Instance, o.Stays (f o)) ∧ v.instances = kept.map f := by
    intro v f hf hv
    exact ⟨w.instances, f, .refl _, fun o => (hf o).stays, hv⟩
  have hsame : ∀ o : Instance, o.Persists (id o) := .refl
  cases he with
  | addEntity _ _ => cases hreply
  | addRelation _ _ _ _ _ => cases hreply
  | setAttribute _ _ _ =>
      exact hall _ (Instance.persists_update (fun o => o.persists_setValue _ _) _) rfl
  | keepName => exact hall id hsame (List.map_id _).symm
  | rename _ _ _ => exact hall _ (Instance.persists_update (fun o => o.persists_name _) _) rfl
  | remove _ _ =>
      exact ⟨_, id, List.filter_sublist.cons_cons w.environment, fun o => (hsame o).stays,
        (List.map_id _).symm⟩
  | reset =>
      -- The initial values need not be as many as those before, so this is not `Persists`.
      exact ⟨[w.environment],
        fun o => { o with values := o.snippet.initialValues, name := defaultEnvironmentName },
        List.singleton_sublist.mpr w.environment_mem_instances, fun o => ⟨rfl, rfl, rfl⟩, rfl⟩
  | addArray => exact hall id hsame (List.map_id _).symm
  | resizeArray _ => exact hall id hsame (List.map_id _).symm
  | removeArray _ => exact hall _ (fun o => o.persists_withoutArray _) rfl
  | setArray _ _ => exact hall _ (Instance.persists_update (fun o => o.persists_array _) _) rfl

/-- Every instance tolerates those behind it. -/
def Tolerant (w : World) : Prop := w.instances.Pairwise Instance.Tolerates

namespace Tolerant

variable {w : World}

theorem push (h : w.Tolerant) {snippet : Snippet} {name : String} {role : Role}
    (hnew : ∀ a ∈ w.instances, a.Tolerates (.create ⟨w.nextId⟩ snippet name role)) :
    (w.push snippet name role).2.Tolerant := by
  rw [Tolerant, instances_push, List.pairwise_append]
  refine ⟨h, List.pairwise_singleton _ _, ?_⟩
  intro a ha b hb
  obtain rfl := List.mem_singleton.mp hb
  exact hnew a ha

theorem pushEntity (h : w.Tolerant) {snippet : Snippet} {name : String}
    (hnew : w.Admits snippet name) : (w.push snippet name .entity).2.Tolerant := by
  refine h.push ?_
  intro a ha
  refine ⟨fun hunique => hnew.unique hunique a ha, ?_⟩
  intro endpoint id hend
  cases hend with
  | source _ hid => cases hid
  | target _ hid => cases hid

theorem pushRelation (h : w.Tolerant) {snippet : Snippet} {name : String}
    {source target : InstanceId} {sourceEnd targetEnd : Endpoint} {style : LineStyle}
    {a b : Instance} (hkind : snippet.kind = .relation sourceEnd targetEnd style)
    (hnew : w.Admits snippet name) (ha : w.Fits snippet.name sourceEnd source a)
    (hb : w.Fits snippet.name targetEnd target b) :
    (w.push snippet name (.relation source target)).2.Tolerant := by
  refine h.push ?_
  intro o ho
  refine ⟨fun hunique => hnew.unique hunique o ho, ?_⟩
  intro endpoint id hend hunique hclass
  cases hend with
  | source hkind' hid =>
      obtain ⟨rfl, -, -⟩ := Kind.relation.inj (hkind.symm.trans hkind')
      obtain rfl := Option.some.inj hid
      exact hasRelation_eq_false_iff.mp (ha.vacant hunique) o ho hclass
  | target hkind' hid =>
      obtain ⟨-, rfl, -⟩ := Kind.relation.inj (hkind.symm.trans hkind')
      obtain rfl := Option.some.inj hid
      exact hasRelation_eq_false_iff.mp (hb.vacant hunique) o ho hclass

/-- What stays tolerates what stays behind it. -/
theorem of_kept (h : w.Tolerant) {w' : World} {kept : List Instance} {f : Instance → Instance}
    (hkept : kept.Sublist w.instances) (hf : ∀ o : Instance, o.Stays (f o))
    (hw' : w'.instances = kept.map f) : w'.Tolerant := by
  rw [Tolerant, hw', List.pairwise_map]
  exact (h.sublist hkept).imp fun hab => hab.of_stays (hf _) (hf _)

/-- The step: an instance that is let in is tolerated by all that are there. -/
theorem effect (h : w.Tolerant) {w' : World} {reply : Reply} (he : Effect w reply w') :
    w'.Tolerant := by
  by_cases hreply : reply.created? = none
  · obtain ⟨kept, f, hkept, hf, hw'⟩ := he.exists_kept hreply
    exact h.of_kept hkept hf hw'
  · cases he with
    | addEntity _ hnew => exact h.pushEntity hnew
    | addRelation hkind hnew _ ha hb => exact h.pushRelation hkind hnew ha hb
    | _ => exact absurd rfl hreply

end Tolerant

theorem Reachable.tolerant {w : World} (h : Reachable w) : w.Tolerant := by
  refine h.invariant ?_ ?_ ?_
  · intro snippet name _ _
    exact List.pairwise_singleton _ _
  · intro w w' reply _ hw he
    exact hw.effect he
  · intro w g _ hw
    exact hw.of_kept (.refl _) (fun o => (o.persists_prepareInstance g).stays) rfl

/-! ### The classes of a run -/

/-- The class that an edit brings along. -/
def Edit.snippet? : Edit → Option Snippet
  | instantiate snippet => some snippet
  | addEntity snippet _ => some snippet
  | connect snippet _ _ => some snippet
  | addRelation snippet _ _ _ => some snippet
  | _ => none

/-- The class that an event brings along. -/
def Event.snippet? : Event → Option Snippet
  | edit e => e.snippet?
  | prepare _ => none

/-- Classes of one name are one class. -/
def Coherent (classes : List Snippet) : Prop :=
  ∀ s ∈ classes, ∀ t ∈ classes, s.name = t.name → s = t

/-- An edit either adds an instance of its class or hands out no number. -/
theorem push_of_run {w w' : World} {edit : Edit} {reply : Reply}
    (h : edit.run w = .ok (reply, w')) :
    (∃ snippet name role, edit.snippet? = some snippet ∧ w' = (w.push snippet name role).2) ∨
      reply.created? = none := by
  cases edit with
  | instantiate snippet | addEntity snippet name =>
      obtain ⟨⟨id, v⟩, hv, hr⟩ := bind_eq_ok_iff.mp h
      obtain ⟨rfl, rfl⟩ := Prod.mk.inj (pure_eq_ok_iff.mp hr)
      obtain ⟨-, -, hpush⟩ := addEntity_eq_ok_iff.mp hv
      exact .inl ⟨snippet, _, _, rfl, congrArg Prod.snd hpush⟩
  | connect snippet source target | addRelation snippet name source target =>
      obtain ⟨⟨id, v⟩, hv, hr⟩ := bind_eq_ok_iff.mp h
      obtain ⟨rfl, rfl⟩ := Prod.mk.inj (pure_eq_ok_iff.mp hr)
      obtain ⟨_, _, _, _, _, _, _, _, _, _, hpush⟩ := addRelation_eq_ok_iff.mp hv
      exact .inl ⟨snippet, _, _, rfl, congrArg Prod.snd hpush⟩
  | reset | addArray name elements =>
      obtain ⟨rfl, -⟩ := Prod.mk.inj (Except.ok.inj h)
      exact .inr rfl
  | setAttribute id attributeName value | rename id name | resizeArray index elements
  | setArray id index? | remove id | removeArray index =>
      obtain ⟨v, -, hr⟩ := bind_eq_ok_iff.mp h
      obtain ⟨rfl, -⟩ := Prod.mk.inj (pure_eq_ok_iff.mp hr)
      exact .inr rfl

theorem snippet_of_mem_perform {w : World} {edit : Edit} {o : Instance}
    (ho : o ∈ (w.perform edit).2.instances) :
    (∃ p ∈ w.instances, p.snippet = o.snippet) ∨ edit.snippet? = some o.snippet := by
  unfold perform at ho
  cases hrun : edit.run w with
  | error e =>
      rw [hrun] at ho
      exact .inl ⟨o, ho, rfl⟩
  | ok r =>
      rw [hrun] at ho
      rcases push_of_run hrun with ⟨snippet, name, role, hsnippet, hpush⟩ | hreply
      · rw [hpush, instances_push] at ho
        rcases List.mem_append.mp ho with ho | ho
        · exact .inl ⟨o, ho, rfl⟩
        · obtain rfl := List.mem_singleton.mp ho
          exact .inr hsnippet
      · obtain ⟨kept, f, hkept, hf, hw'⟩ := (effect_of_run hrun).exists_kept hreply
        rw [hw'] at ho
        obtain ⟨p, hp, rfl⟩ := List.mem_map.mp ho
        exact .inl ⟨p, hkept.subset hp, (hf p).snippet.symm⟩

/-- The classes of a world are those that it started with and those that the run brought. -/
theorem snippet_of_mem_follow {w : World} {events : List Event} {o : Instance}
    (ho : o ∈ (w.follow events).2.instances) :
    (∃ p ∈ w.instances, p.snippet = o.snippet) ∨ o.snippet ∈ events.filterMap Event.snippet? := by
  induction events generalizing w with
  | nil => exact .inl ⟨o, ho, rfl⟩
  | cons event events ih =>
      have hrest : o.snippet ∈ events.filterMap Event.snippet? →
          o.snippet ∈ (event :: events).filterMap Event.snippet? := by
        intro hmem
        obtain ⟨e, he, hsnippet⟩ := List.mem_filterMap.mp hmem
        exact List.mem_filterMap.mpr ⟨e, List.mem_cons_of_mem _ he, hsnippet⟩
      cases event with
      | edit e =>
          rcases ih (w := (w.perform e).2) ho with ⟨p, hp, hsnippet⟩ | hmem
          · rcases snippet_of_mem_perform hp with hold | hnew
            · rw [hsnippet] at hold
              exact .inl hold
            · rw [hsnippet] at hnew
              exact .inr (List.mem_filterMap.mpr ⟨.edit e, List.mem_cons_self, hnew⟩)
          · exact .inr (hrest hmem)
      | prepare g =>
          rcases ih (w := g.prepare w) ho with ⟨p, hp, hsnippet⟩ | hmem
          · rw [Generator.prepare, instances_mapInstances] at hp
            obtain ⟨q, hq, rfl⟩ := List.mem_map.mp hp
            exact .inl ⟨q, hq, (q.persists_prepareInstance g).snippet.symm.trans hsnippet⟩
          · exact .inr (hrest hmem)

/-! ### At most one -/

/-- The instances of the class of that name. -/
def instancesOf (w : World) (className : String) : List Instance :=
  w.instances.filter (·.snippet.name == className)

theorem mem_instancesOf {w : World} {className : String} {o : Instance} :
    o ∈ w.instancesOf className ↔ o ∈ w.instances ∧ o.snippet.name = className := by
  simp [instancesOf]

/-- Instances of one class tolerate each other in the order in which they stand. -/
theorem Tolerant.instancesOf {w : World} (h : w.Tolerant) {s : Snippet}
    (hclass : ∀ o ∈ w.instances, o.snippet.name = s.name → o.snippet = s) :
    (w.instancesOf s.name).Pairwise fun a b =>
      a.snippet = s ∧ b.snippet = s ∧ a.Tolerates b := by
  refine (h.filter _).imp_of_mem ?_
  intro a b ha hb hab
  obtain ⟨ha, haname⟩ := mem_instancesOf.mp ha
  obtain ⟨hb, hbname⟩ := mem_instancesOf.mp hb
  exact ⟨hclass a ha haname, hclass b hb hbname, hab⟩

/-- A unique class has at most one instance. -/
theorem Tolerant.length_instancesOf {w : World} (h : w.Tolerant) {s : Snippet}
    (hclass : ∀ o ∈ w.instances, o.snippet.name = s.name → o.snippet = s)
    (hunique : s.unique = true) : (w.instancesOf s.name).length ≤ 1 := by
  have hpairs := h.instancesOf hclass
  rcases hlist : w.instancesOf s.name with _ | ⟨a, _ | ⟨b, rest⟩⟩
  · simp
  · simp
  · rw [hlist, List.pairwise_cons] at hpairs
    -- The second instance would not have been let in.
    obtain ⟨ha, hb, hab⟩ := hpairs.1 b List.mem_cons_self
    exact absurd (ha ▸ hb ▸ rfl) (hab.unique (hb ▸ hunique))

/-- No two relations of a class have one end if it is unique. -/
theorem Tolerant.nodup_ends {w : World} (h : w.Tolerant) {s : Snippet} {endpoint : Endpoint}
    (hclass : ∀ o ∈ w.instances, o.snippet.name = s.name → o.snippet = s)
    (hunique : endpoint.unique = true) {end? : Role → Option InstanceId}
    (hends : ∀ o : Instance, o.snippet = s → ∀ id, end? o.role = some id →
      o.EndsAt endpoint id ∧ o.references id = true) :
    ((w.instancesOf s.name).filterMap fun o => end? o.role).Nodup := by
  rw [List.Nodup, List.pairwise_filterMap]
  refine (h.instancesOf hclass).imp ?_
  rintro a b ⟨ha, hb, hab⟩ id hid id' hid' rfl
  have hno := hab.ends endpoint id (hends b hb id hid').1 hunique (by rw [ha, hb])
  rw [(hends a ha id hid).2] at hno
  cases hno

/-- At any point of a run in which classes of one name are one class, a unique class has at
most one instance, and no two relations of a class come from one instance, or go to one, if
that end is unique. -/
theorem unique_classes_and_ends {snippet : Snippet} {name : String} {start : World}
    (hstart : ofEnvironment snippet name = .ok start) {events : List Event}
    (hclasses : Coherent (snippet :: events.filterMap Event.snippet?)) {s : Snippet}
    (hs : s ∈ snippet :: events.filterMap Event.snippet?) :
    (s.unique = true → ((start.follow events).2.instancesOf s.name).length ≤ 1) ∧
      ∀ sourceEnd targetEnd style, s.kind = .relation sourceEnd targetEnd style →
        (sourceEnd.unique = true →
          (((start.follow events).2.instancesOf s.name).filterMap (·.role.source?)).Nodup) ∧
        (targetEnd.unique = true →
          (((start.follow events).2.instancesOf s.name).filterMap (·.role.target?)).Nodup) := by
  have htolerant := ((Reachable.start hstart).follow events).tolerant
  have hclass : ∀ o ∈ (start.follow events).2.instances, o.snippet.name = s.name →
      o.snippet = s := by
    intro o ho
    refine hclasses o.snippet ?_ s hs
    rcases snippet_of_mem_follow ho with ⟨p, hp, hsnippet⟩ | hmem
    · obtain ⟨-, -, rfl⟩ := ofEnvironment_eq_ok_iff.mp hstart
      obtain rfl := List.mem_singleton.mp hp
      rw [← hsnippet]
      exact List.mem_cons_self
    · exact List.mem_cons_of_mem _ hmem
  refine ⟨htolerant.length_instancesOf hclass, ?_⟩
  intro sourceEnd targetEnd style hkind
  refine ⟨fun hunique => htolerant.nodup_ends hclass hunique ?_,
    fun hunique => htolerant.nodup_ends hclass hunique ?_⟩
  · rintro o rfl id hid
    exact ⟨.source hkind hid, Role.references_of_source? hid⟩
  · rintro o rfl id hid
    exact ⟨.target hkind hid, Role.references_of_target? hid⟩

/-- A class of relations between nodes, of which a node may be the source of one only. -/
def chain : Snippet where
  name := "Chain"
  unique := false
  kind := .relation ⟨"node", true⟩ ⟨"node", false⟩ ⟨0, 0, 1, 0⟩
  attributes := []
  patterns := [.literal "$#from# next $#to#"]

/-- Of three nodes the first is chained to the second, and to the third when the second is
gone. A second simulator and a second chain of the first node are refused. -/
def chaining : List Event :=
  [.edit (.addEntity node "a"), .edit (.addEntity node "b"), .edit (.addEntity node "c"),
    .edit (.instantiate simulator), .edit (.addRelation chain "ab" ⟨1⟩ ⟨2⟩),
    .edit (.addRelation chain "ac" ⟨1⟩ ⟨3⟩), .edit (.remove ⟨2⟩),
    .edit (.addRelation chain "ac" ⟨1⟩ ⟨3⟩), .edit (.rename ⟨5⟩ "again")]

/-- There is one simulator, and the first node is the source of one chain. -/
theorem unique_classes_and_ends_chaining :
    ofEnvironment simulator defaultEnvironmentName = .ok lone ∧
      Coherent (simulator :: chaining.filterMap Event.snippet?) ∧
      ((lone.follow chaining).2.instancesOf "Simulator").length ≤ 1 ∧
      (((lone.follow chaining).2.instancesOf "Chain").filterMap (·.role.source?)).Nodup ∧
      created (lone.follow chaining).1 = [⟨1⟩, ⟨2⟩, ⟨3⟩, ⟨4⟩, ⟨5⟩] ∧
      ((lone.follow chaining).2.instancesOf "Chain").map (·.name) = ["again"] := by
  have hclasses : Coherent (simulator :: chaining.filterMap Event.snippet?) := by
    unfold Coherent
    decide
  have hsimulator : simulator ∈ simulator :: chaining.filterMap Event.snippet? := by decide
  have hchain : chain ∈ simulator :: chaining.filterMap Event.snippet? := by decide
  exact ⟨ofEnvironment_simulator, hclasses,
    (unique_classes_and_ends ofEnvironment_simulator hclasses hsimulator).1 rfl,
    ((unique_classes_and_ends ofEnvironment_simulator hclasses hchain).2 _ _ _ rfl).1 rfl,
    by decide, by decide⟩

end World

end Stencil
