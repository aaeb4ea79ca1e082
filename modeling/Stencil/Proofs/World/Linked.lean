import Stencil.Proofs.World.Removal
import Stencil.Proofs.World.Run

/-!
# Relations link what is there

An instance is a relation if its class is one, and then its two ends are different
entities of the categories that the class asks for, and they stand before it in the list
of instances. Since ends are entities, no relation ends at a relation: to remove an
instance and the relations at it leaves no end open, without looking further.
-/

namespace Stencil

namespace World

/-- Among the instances is an entity of that number and of the category asked for. -/
def HasEnd (before : List Instance) (endpoint : Endpoint) (id : InstanceId) : Prop :=
  ∃ a ∈ before, a.id = id ∧ a.role = .entity ∧ a.snippet.category? = some endpoint.category

/-- The instance has the role of its class, and its ends, if it has any, are among the
instances before it. -/
structure Joined (before : List Instance) (o : Instance) : Prop where
  isRelation : o.isRelation = o.snippet.isRelation
  ends : ∀ source target, o.role = .relation source target → source ≠ target ∧
    ∃ sourceEnd targetEnd style, o.snippet.kind = .relation sourceEnd targetEnd style ∧
      HasEnd before sourceEnd source ∧ HasEnd before targetEnd target

/-- Every instance is joined to those before it. -/
def Linked (w : World) : Prop :=
  ∀ before o after, w.instances = before ++ o :: after → Joined before o

theorem HasEnd.mono {before later : List Instance} {endpoint : Endpoint} {id : InstanceId}
    (h : HasEnd before endpoint id) (hsub : ∀ a ∈ before, a ∈ later) :
    HasEnd later endpoint id := by
  obtain ⟨a, ha, hid, hrole, hcategory⟩ := h
  exact ⟨a, hsub a ha, hid, hrole, hcategory⟩

theorem HasEnd.map {before : List Instance} {endpoint : Endpoint} {id : InstanceId}
    {f : Instance → Instance} (hf : ∀ o : Instance, o.Persists (f o))
    (h : HasEnd before endpoint id) : HasEnd (before.map f) endpoint id := by
  obtain ⟨a, ha, hid, hrole, hcategory⟩ := h
  refine ⟨f a, List.mem_map_of_mem ha, (hf a).id.trans hid, (hf a).role.trans hrole, ?_⟩
  rw [(hf a).snippet]
  exact hcategory

theorem Joined.of_entity {before : List Instance} {o : Instance} (hrole : o.role = .entity)
    (hclass : o.snippet.isRelation = false) : Joined before o where
  isRelation := by simp [Instance.isRelation, hrole, Role.isRelation, hclass]
  ends := by simp [hrole]

theorem Joined.map {before : List Instance} {o : Instance} {f : Instance → Instance}
    (hf : ∀ o : Instance, o.Persists (f o)) (h : Joined before o) :
    Joined (before.map f) (f o) where
  isRelation := by
    rw [Instance.isRelation, (hf o).role, (hf o).snippet]
    exact h.isRelation
  ends := by
    intro source target hrole
    rw [(hf o).role] at hrole
    obtain ⟨hne, sourceEnd, targetEnd, style, hkind, hsource, htarget⟩ := h.ends _ _ hrole
    refine ⟨hne, sourceEnd, targetEnd, style, ?_, hsource.map hf, htarget.map hf⟩
    rw [(hf o).snippet]
    exact hkind

namespace Linked

variable {w : World}

theorem joined_of_mem (h : w.Linked) {o : Instance} (ho : o ∈ w.instances) :
    Joined w.instances o := by
  obtain ⟨before, after, hsplit⟩ := List.append_of_mem ho
  have hjoined := h before o after hsplit
  refine ⟨hjoined.isRelation, ?_⟩
  intro source target hrole
  obtain ⟨hne, sourceEnd, targetEnd, style, hkind, hsource, htarget⟩ := hjoined.ends _ _ hrole
  have hsub : ∀ a ∈ before, a ∈ w.instances := by
    intro a ha
    rw [hsplit]
    exact List.mem_append_left _ ha
  exact ⟨hne, sourceEnd, targetEnd, style, hkind, hsource.mono hsub, htarget.mono hsub⟩

/-- An instance of a class with a category is an entity. -/
theorem role_of_category (h : w.Linked) {o : Instance} (ho : o ∈ w.instances)
    {category : String} (hcategory : o.snippet.category? = some category) :
    o.role = .entity := by
  have hclass : o.snippet.isRelation = false := by
    unfold Snippet.category? at hcategory
    unfold Snippet.isRelation
    cases hkind : o.snippet.kind with
    | entity category icon => rfl
    | relation source target style => simp [hkind, Kind.category?] at hcategory
  have hrelation := (h.joined_of_mem ho).isRelation.trans hclass
  cases hrole : o.role with
  | entity => rfl
  | relation source target => simp [Instance.isRelation, hrole, Role.isRelation] at hrelation

theorem start {snippet : Snippet} {name : String} (hclass : snippet.isRelation = false) :
    Linked ⟨.create ⟨0⟩ snippet name .entity, [], [], 1⟩ := by
  intro before o after hsplit
  have ho : o ∈ before ++ o :: after := by simp
  rw [← hsplit] at ho
  obtain rfl := List.mem_singleton.mp ho
  exact .of_entity rfl hclass

/-- A new instance stands behind all others, so it is enough that it is joined to them. -/
theorem push (h : w.Linked) {snippet : Snippet} {name : String} {role : Role}
    (hnew : Joined w.instances (.create ⟨w.nextId⟩ snippet name role)) :
    (w.push snippet name role).2.Linked := by
  intro before o after hsplit
  rw [instances_push] at hsplit
  -- Either `o` is the new instance, or the new one stands at the end of what follows `o`.
  rcases List.eq_nil_or_concat after with rfl | ⟨rest, last, rfl⟩
  · obtain ⟨rfl, hlast⟩ := List.append_inj' hsplit rfl
    obtain rfl := List.singleton_inj.mp hlast
    exact hnew
  · have hsplit' : w.instances ++ [.create ⟨w.nextId⟩ snippet name role] =
        (before ++ o :: rest) ++ [last] := by simpa using hsplit
    exact h before o rest (List.append_inj' hsplit' rfl).1

theorem pushEntity (h : w.Linked) {snippet : Snippet} {name : String}
    (hclass : snippet.isRelation = false) : (w.push snippet name .entity).2.Linked :=
  h.push (.of_entity rfl hclass)

theorem hasEnd_of_fits (h : w.Linked) {className : String} {endpoint : Endpoint}
    {id : InstanceId} {a : Instance} (ha : w.Fits className endpoint id a) :
    HasEnd w.instances endpoint id := by
  obtain ⟨hmem, hid⟩ := get?_eq_some ha.found
  exact ⟨a, hmem, hid, h.role_of_category hmem ha.category, ha.category⟩

theorem pushRelation (h : w.Linked) {snippet : Snippet} {name : String}
    {source target : InstanceId} {sourceEnd targetEnd : Endpoint} {style : LineStyle}
    {a b : Instance} (hkind : snippet.kind = .relation sourceEnd targetEnd style)
    (hne : source ≠ target) (ha : w.Fits snippet.name sourceEnd source a)
    (hb : w.Fits snippet.name targetEnd target b) :
    (w.push snippet name (.relation source target)).2.Linked := by
  refine h.push ⟨?_, ?_⟩
  · simp [Instance.isRelation, Instance.create, Role.isRelation, Snippet.isRelation, hkind,
      Kind.isRelation]
  · intro source' target' hrole
    obtain ⟨rfl, rfl⟩ := Role.relation.inj hrole
    exact ⟨hne, sourceEnd, targetEnd, style, hkind, h.hasEnd_of_fits ha, h.hasEnd_of_fits hb⟩

theorem mapInstances (h : w.Linked) {f : Instance → Instance} {arrays : List ArrayDef}
    (hf : ∀ o : Instance, o.Persists (f o)) :
    Linked { w.mapInstances f with arrays := arrays } := by
  intro before' o' after' hsplit
  change w.instances.map f = before' ++ o' :: after' at hsplit
  obtain ⟨before, rest, hw, rfl, hrest⟩ := List.map_eq_append_iff.mp hsplit
  obtain ⟨o, after, rfl, rfl, rfl⟩ := List.map_eq_cons_iff.mp hrest
  exact (h before o after hw).map hf

/-- An end that is not asked to go stays: what goes with it are relations, and an end is an
entity. -/
theorem hasEnd_filter (hw : w.WellFormed) {id id' : InstanceId} {before : List Instance}
    (hbefore : ∀ a ∈ before, a ∈ w.instances) {endpoint : Endpoint} (hne : id' ≠ id)
    (hend : HasEnd before endpoint id') :
    HasEnd (before.filter fun o => !(w.attached id).contains o.id) endpoint id' := by
  obtain ⟨a, ha, rfl, hrole, hcategory⟩ := hend
  have hstays : a.id ∉ w.attached id := by
    rw [hw.mem_attached_iff (hbefore a ha), Instance.references_of_entity hrole]
    simpa using hne
  exact ⟨a, List.mem_filter.mpr ⟨ha, by simpa using hstays⟩, rfl, hrole, hcategory⟩

/-- No end is left open by a removal. -/
theorem without (h : w.Linked) (hw : w.WellFormed) {id : InstanceId}
    (hne : id ≠ w.environment.id) : (w.without (w.attached id)).Linked := by
  intro before' o after' hsplit
  rw [instances_without (hw.environment_not_mem_attached hne)] at hsplit
  obtain ⟨first, rest, hw', rfl, hrest⟩ := List.filter_eq_append_iff.mp hsplit
  obtain ⟨gone, after, rfl, hgone, hstays, -⟩ := List.filter_eq_cons_iff.mp hrest
  -- Before `o` stood what is left of it now and, next to it, what has gone.
  rw [← List.append_assoc] at hw'
  have hbefore : ∀ a ∈ first ++ gone, a ∈ w.instances := by
    intro a ha
    rw [hw']
    exact List.mem_append_left _ ha
  have ho : o ∈ w.instances := by
    rw [hw']
    simp
  have hjoined := h (first ++ gone) o after hw'
  have hsame : first.filter (fun o => !(w.attached id).contains o.id) =
      (first ++ gone).filter fun o => !(w.attached id).contains o.id := by
    rw [List.filter_append, List.filter_eq_nil_iff.mpr hgone, List.append_nil]
  rw [hsame]
  refine ⟨hjoined.isRelation, ?_⟩
  intro source target hrole
  have hrefers : o.references id = false := by
    have hnot : o.id ∉ w.attached id := by simpa using hstays
    rw [hw.mem_attached_iff ho] at hnot
    simpa using (not_or.mp hnot).2
  obtain ⟨hsource, htarget⟩ := Instance.ne_of_references_eq_false hrole hrefers
  obtain ⟨hdistinct, sourceEnd, targetEnd, style, hkind, hends⟩ := hjoined.ends _ _ hrole
  exact ⟨hdistinct, sourceEnd, targetEnd, style, hkind,
    hasEnd_filter hw hbefore hsource hends.1, hasEnd_filter hw hbefore htarget hends.2⟩

theorem reset (h : w.Linked) (hw : w.WellFormed) : w.reset.Linked := by
  intro before o after hsplit
  have ho : o ∈ before ++ o :: after := by simp
  rw [← hsplit] at ho
  obtain rfl := List.mem_singleton.mp ho
  have hclass := (h.joined_of_mem w.environment_mem_instances).isRelation
  rw [Instance.isRelation, hw.environment_role] at hclass
  exact .of_entity hw.environment_role hclass.symm

/-- The step: no edit of a well-formed world leaves an end open. -/
theorem effect (h : w.Linked) (hw : w.WellFormed) {w' : World} {reply : Reply}
    (he : Effect w reply w') : w'.Linked := by
  cases he with
  | addEntity hclass _ => exact h.pushEntity hclass
  | addRelation hkind _ hne ha hb => exact h.pushRelation hkind hne ha hb
  | setAttribute _ _ _ =>
      exact h.mapInstances (Instance.persists_update (fun o => o.persists_setValue _ _) _)
  | keepName => exact h
  | rename _ _ _ =>
      exact h.mapInstances (Instance.persists_update (fun o => o.persists_name _) _)
  | remove hne _ => exact h.without hw hne
  | reset => exact h.reset hw
  | addArray => exact h
  | resizeArray _ => exact h
  | removeArray _ => exact h.mapInstances fun o => o.persists_withoutArray _
  | setArray _ _ =>
      exact h.mapInstances (Instance.persists_update (fun o => o.persists_array _) _)

/-- The ends of a relation are found in the world. -/
theorem exists_ends (h : w.Linked) (hw : w.WellFormed) {o : Instance} (ho : o ∈ w.instances)
    {source target : InstanceId} (hrole : o.role = .relation source target) :
    ∃ a b, w.get? source = some a ∧ w.get? target = some b ∧
      a.role = .entity ∧ b.role = .entity := by
  obtain ⟨-, _, _, _, -, ⟨a, ha, rfl, harole, -⟩, b, hb, rfl, hbrole, -⟩ :=
    (h.joined_of_mem ho).ends _ _ hrole
  exact ⟨a, b, hw.get?_of_mem ha, hw.get?_of_mem hb, harole, hbrole⟩

/-- No relation is at its own end. -/
theorem not_references_self (h : w.Linked) (hw : w.WellFormed) {o : Instance}
    (ho : o ∈ w.instances) : o.references o.id = false := by
  cases hrole : o.role with
  | entity => exact Instance.references_of_entity hrole o.id
  | relation source target =>
      obtain ⟨a, b, ha, hb, harole, hbrole⟩ := h.exists_ends hw ho hrole
      have hself := hw.get?_of_mem ho
      rw [Bool.eq_false_iff]
      intro hrefers
      rcases (Instance.references_of_relation hrole o.id).mp hrefers with rfl | rfl
      · obtain rfl := Option.some.inj (ha.symm.trans hself)
        simp [hrole] at harole
      · obtain rfl := Option.some.inj (hb.symm.trans hself)
        simp [hrole] at hbrole

end Linked

theorem Reachable.linked {w : World} (h : Reachable w) : w.Linked := by
  refine h.invariant ?_ ?_ ?_
  · intro snippet name hclass _
    exact .start hclass
  · intro w w' reply hw hlinked he
    exact hlinked.effect hw.wellFormed he
  · intro w g _ hlinked
    exact hlinked.mapInstances fun o => o.persists_prepareInstance g

/-- Relations and relation classes belong together, and a relation links two different
entities of the categories of its class that were in the world before it and still are. -/
theorem relation_links_earlier_entities {w : World} (h : Reachable w)
    {before after : List Instance} {o : Instance} (ho : w.instances = before ++ o :: after) :
    (o.isRelation = true ↔ o.snippet.isRelation = true) ∧
      ∀ source target, o.role = .relation source target →
        source ≠ target ∧
          ∃ sourceEnd targetEnd style a b,
            o.snippet.kind = .relation sourceEnd targetEnd style ∧
              w.get? source = some a ∧ a ∈ before ∧ a.role = .entity ∧
                a.snippet.category? = some sourceEnd.category ∧
              w.get? target = some b ∧ b ∈ before ∧ b.role = .entity ∧
                b.snippet.category? = some targetEnd.category := by
  have hjoined := h.linked before o after ho
  refine ⟨by rw [hjoined.isRelation], ?_⟩
  intro source target hrole
  obtain ⟨hne, sourceEnd, targetEnd, style, hkind, ⟨a, ha, rfl, harole, hacategory⟩,
    b, hb, rfl, hbrole, hbcategory⟩ := hjoined.ends source target hrole
  have hmem : ∀ p ∈ before, p ∈ w.instances := by
    intro p hp
    rw [ho]
    exact List.mem_append_left _ hp
  exact ⟨hne, sourceEnd, targetEnd, style, a, b, hkind,
    h.wellFormed.get?_of_mem (hmem a ha), ha, harole, hacategory,
    h.wellFormed.get?_of_mem (hmem b hb), hb, hbrole, hbcategory⟩

/-- The second link of the network, and the nodes that it links. -/
theorem link_links_earlier_nodes :
    ∃ o, network.instances = network.instances.take 5 ++ o :: [] ∧ o.name = "bc" ∧
      o.isRelation = true ∧ o.snippet.isRelation = true ∧
      ∃ a b, network.get? ⟨2⟩ = some a ∧ a ∈ network.instances.take 5 ∧ a.role = .entity ∧
        a.snippet.category? = some "node" ∧
        network.get? ⟨3⟩ = some b ∧ b ∈ network.instances.take 5 ∧ b.role = .entity ∧
        b.snippet.category? = some "node" := by
  have hsplit : network.instances = network.instances.take 5 ++
      .create ⟨5⟩ link "bc" (.relation ⟨2⟩ ⟨3⟩) :: [] := by decide
  obtain ⟨hrelation, hends⟩ := relation_links_earlier_entities reachable_network hsplit
  obtain ⟨-, sourceEnd, targetEnd, style, a, b, hkind, ha⟩ := hends ⟨2⟩ ⟨3⟩ rfl
  obtain ⟨rfl, rfl, rfl⟩ := Kind.relation.inj hkind
  exact ⟨_, hsplit, rfl, rfl, hrelation.mp rfl, a, b, ha⟩

end World

end Stencil
