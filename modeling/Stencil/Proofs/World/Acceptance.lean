import Stencil.Proofs.World.Unique

/-!
# Two requests for relations

A relation is refused if an instance at a unique end of it is at an end of another relation
of the class already. Of two requests the one that comes second is held against the first
in this way, and the first against the second is not: that it may have a unique end where
the second has the other one goes unseen. So it can matter which of them comes first.
`acceptance_order_iff` says when: if one end of the class is unique, the other is not, and
one of the requests starts where the other ends.
-/

namespace Stencil

namespace World

/-- A request for a relation of a class. -/
structure Request where
  name : String
  source : InstanceId
  target : InstanceId
  deriving DecidableEq, Repr

/-- The role of the relation that is asked for. -/
def Request.role (r : Request) : Role := .relation r.source r.target

/-- The relation can be added. -/
def Accepts (w : World) (snippet : Snippet) (r : Request) : Prop :=
  ∃ v, w.addRelation snippet r.name r.source r.target = .ok v

/-- The relations can be added one after the other. -/
def AcceptsBoth (w : World) (snippet : Snippet) (first second : Request) : Prop :=
  ∃ v, w.addRelation snippet first.name first.source first.target = .ok v ∧
    v.2.Accepts snippet second

variable {w : World} {snippet : Snippet} {sourceEnd targetEnd : Endpoint} {style : LineStyle}
  {r r₁ r₂ : Request}

theorem hasRelation_push (w : World) (snippet : Snippet) (name : String) (role : Role)
    (id : InstanceId) :
    (w.push snippet name role).2.hasRelation id snippet.name =
      (w.hasRelation id snippet.name || role.references id) := by
  simp [hasRelation, Instance.create, Instance.references]

theorem admits_push_iff {name name' : String} {role : Role} :
    (w.push snippet name role).2.Admits snippet name' ↔
      snippet.unique = false ∧ name ≠ name' ∧ w.Admits snippet name' := by
  constructor
  · intro h
    have hnew : Instance.create ⟨w.nextId⟩ snippet name role ∈
        (w.push snippet name role).2.instances := by simp
    have hold : ∀ o ∈ w.instances, o ∈ (w.push snippet name role).2.instances := by
      intro o ho
      exact List.mem_append_left _ ho
    refine ⟨?_, h.free _ hnew, ?_, h.isName, fun o ho => h.free o (hold o ho)⟩
    · by_contra hunique
      exact h.unique (by simpa using hunique) _ hnew rfl
    · exact fun hunique o ho => h.unique hunique o (hold o ho)
  · rintro ⟨hunique, hname, h⟩
    refine ⟨by simp [hunique], h.isName, ?_⟩
    rw [instances_push, List.forall_mem_append, List.forall_mem_singleton]
    exact ⟨h.free, hname⟩

/-- A relation that was just added fits no end, and takes the unique ends that it is at. -/
theorem fits_push_iff (hclass : snippet.category? = none) {name : String} {role : Role}
    {endpoint : Endpoint} {id : InstanceId} {o : Instance} :
    (w.push snippet name role).2.Fits snippet.name endpoint id o ↔
      w.Fits snippet.name endpoint id o ∧
        (endpoint.unique = true → role.references id = false) := by
  have hget : (w.push snippet name role).2.get? id =
      (w.get? id).or ([Instance.create ⟨w.nextId⟩ snippet name role].find? (·.id == id)) := by
    rw [get?, instances_push, List.find?_append, ← get?]
  constructor
  · rintro ⟨hfound, hcategory, hvacant⟩
    rw [hasRelation_push] at hvacant
    have hold : w.get? id = some o := by
      rw [hget, Option.or_eq_some_iff] at hfound
      rcases hfound with hold | ⟨-, hnew⟩
      · exact hold
      · obtain rfl := List.mem_singleton.mp (List.mem_of_find?_eq_some hnew)
        rw [show (Instance.create ⟨w.nextId⟩ snippet name role).snippet = snippet from rfl,
          hclass] at hcategory
        cases hcategory
    refine ⟨⟨hold, hcategory, fun hunique => ?_⟩, fun hunique => ?_⟩
    · exact (Bool.or_eq_false_iff.mp (hvacant hunique)).1
    · exact (Bool.or_eq_false_iff.mp (hvacant hunique)).2
  · rintro ⟨⟨hfound, hcategory, hvacant⟩, hrefers⟩
    refine ⟨by rw [hget, hfound, Option.some_or], hcategory, fun hunique => ?_⟩
    rw [hasRelation_push, hvacant hunique, hrefers hunique]
    rfl

theorem accepts_iff (hkind : snippet.kind = .relation sourceEnd targetEnd style) :
    w.Accepts snippet r ↔
      w.Admits snippet r.name ∧ r.source ≠ r.target ∧
        (∃ a, w.Fits snippet.name sourceEnd r.source a) ∧
        ∃ b, w.Fits snippet.name targetEnd r.target b := by
  constructor
  · rintro ⟨v, hv⟩
    obtain ⟨_, _, _, a, b, hkind', hnew, hne, ha, hb, -⟩ := addRelation_eq_ok_iff.mp hv
    obtain ⟨rfl, rfl, rfl⟩ := Kind.relation.inj (hkind.symm.trans hkind')
    exact ⟨hnew, hne, ⟨a, ha⟩, b, hb⟩
  · rintro ⟨hnew, hne, ⟨a, ha⟩, b, hb⟩
    exact ⟨_, addRelation_eq_ok_iff.mpr
      ⟨sourceEnd, targetEnd, style, a, b, hkind, hnew, hne, ha, hb, rfl⟩⟩

theorem acceptsBoth_iff_push :
    w.AcceptsBoth snippet r₁ r₂ ↔
      w.Accepts snippet r₁ ∧ (w.push snippet r₁.name r₁.role).2.Accepts snippet r₂ := by
  constructor
  · rintro ⟨v, hv, hsecond⟩
    obtain ⟨_, _, _, _, _, _, _, _, _, _, rfl⟩ := addRelation_eq_ok_iff.mp hv
    exact ⟨⟨_, hv⟩, hsecond⟩
  · rintro ⟨⟨v, hv⟩, hsecond⟩
    obtain ⟨_, _, _, _, _, _, _, _, _, _, rfl⟩ := addRelation_eq_ok_iff.mp hv
    exact ⟨_, hv, hsecond⟩

/-- Two requests of different names are accepted one after the other when each is on its own
and the second has no unique end where the first has an end. -/
theorem acceptsBoth_iff (hkind : snippet.kind = .relation sourceEnd targetEnd style)
    (hname : r₁.name ≠ r₂.name) :
    w.AcceptsBoth snippet r₁ r₂ ↔
      w.Accepts snippet r₁ ∧ w.Accepts snippet r₂ ∧ snippet.unique = false ∧
        (sourceEnd.unique = true → r₁.role.references r₂.source = false) ∧
        (targetEnd.unique = true → r₁.role.references r₂.target = false) := by
  have hclass : snippet.category? = none := by
    rw [Snippet.category?, hkind]
    rfl
  rw [acceptsBoth_iff_push, accepts_iff hkind (w := (w.push _ _ _).2), accepts_iff hkind (r := r₂)]
  simp only [admits_push_iff, fits_push_iff hclass, exists_and_right, hname, ne_eq,
    not_false_eq_true, true_and]
  tauto

theorem Request.references_eq_false_iff {id : InstanceId} :
    r.role.references id = false ↔ r.source ≠ id ∧ r.target ≠ id := by
  simp [Request.role, Role.references]

theorem Accepts.source_ne_target (h : w.Accepts snippet r) : r.source ≠ r.target := by
  obtain ⟨v, hv⟩ := h
  obtain ⟨_, _, _, _, _, _, _, hne, _⟩ := addRelation_eq_ok_iff.mp hv
  exact hne

/-- Whether two requests of different names are accepted depends on their order just when each
is accepted on its own, one end of the class is unique and the other is not, and one of them
starts where the other ends but not the other way round. -/
theorem acceptance_order_iff (hkind : snippet.kind = .relation sourceEnd targetEnd style)
    (hname : r₁.name ≠ r₂.name) :
    ¬ (w.AcceptsBoth snippet r₁ r₂ ↔ w.AcceptsBoth snippet r₂ r₁) ↔
      w.Accepts snippet r₁ ∧ w.Accepts snippet r₂ ∧ snippet.unique = false ∧
        sourceEnd.unique ≠ targetEnd.unique ∧
        (r₁.target = r₂.source ↔ r₂.target ≠ r₁.source) := by
  rw [acceptsBoth_iff hkind hname, acceptsBoth_iff hkind hname.symm]
  simp only [Request.references_eq_false_iff]
  by_cases halone : w.Accepts snippet r₁ ∧ w.Accepts snippet r₂ ∧ snippet.unique = false
  · obtain ⟨h₁, h₂, hclass⟩ := halone
    have hne₁ := h₁.source_ne_target
    have hne₂ := h₂.source_ne_target
    simp only [h₁, h₂, hclass, true_and]
    -- Requests that share a unique end are refused in either order, and so are those that
    -- form a circle.
    cases hsource : sourceEnd.unique <;> cases htarget : targetEnd.unique <;> grind
  · tauto

/-! ### A chain of three nodes -/

/-- The first node of the network is to be chained to the second. -/
def firstChain : Request := ⟨"x", ⟨1⟩, ⟨2⟩⟩

/-- The second node of the network is to be chained to the third. -/
def secondChain : Request := ⟨"y", ⟨2⟩, ⟨3⟩⟩

theorem accepts_firstChain : network.Accepts chain firstChain := ⟨_, rfl⟩

theorem accepts_secondChain : network.Accepts chain secondChain := ⟨_, rfl⟩

theorem acceptsBoth_secondChain : network.AcceptsBoth chain secondChain firstChain :=
  ⟨_, rfl, _, rfl⟩

/-- The second chain can be added before the first, but not after it. -/
theorem acceptance_order_network :
    chain.kind = .relation ⟨"node", true⟩ ⟨"node", false⟩ ⟨0, 0, 1, 0⟩ ∧
      firstChain.name ≠ secondChain.name ∧
      ¬ (network.AcceptsBoth chain firstChain secondChain ↔
        network.AcceptsBoth chain secondChain firstChain) ∧
      network.AcceptsBoth chain secondChain firstChain := by
  refine ⟨rfl, by decide, ?_, acceptsBoth_secondChain⟩
  exact (acceptance_order_iff rfl (by decide)).mpr
    ⟨accepts_firstChain, accepts_secondChain, rfl, by decide, by decide⟩

/-- It is not so that two requests are accepted in one order if they are in the other. The
node that starts the second chain may have one such chain only; added in this order it has two. -/
theorem not_forall_acceptance_order :
    (¬ ∀ w : World, Reachable w → ∀ snippet : Snippet, snippet.isRelation = true →
      ∀ r₁ r₂ : Request, r₁.name ≠ r₂.name →
        (w.AcceptsBoth snippet r₁ r₂ ↔ w.AcceptsBoth snippet r₂ r₁)) ∧
    ∃ v, Reachable v ∧ ((v.instancesOf "Chain").filter (·.references ⟨2⟩)).length = 2 := by
  constructor
  · intro hall
    have hfirst := (hall network reachable_network chain rfl firstChain secondChain
      (by decide)).mpr acceptsBoth_secondChain
    obtain ⟨-, -, -, hvacant, -⟩ := (acceptsBoth_iff rfl (by decide)).mp hfirst
    exact absurd (hvacant rfl) (by decide)
  · exact ⟨_, reachable_network.performAll
      [.addRelation chain "y" ⟨2⟩ ⟨3⟩, .addRelation chain "x" ⟨1⟩ ⟨2⟩], by decide⟩

end World

end Stencil
