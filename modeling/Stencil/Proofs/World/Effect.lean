import Stencil.Proofs.World.Check
import Stencil.World.Reachable

/-!
# Accepted edits

For each edit that may be refused, the condition under which it is not, and the world that
it makes then. `Effect` gathers the edits by what they do to the world: it is what an
invariant is checked against, one case for each kind of change.
-/

namespace Stencil

namespace World

/-- An entity is added when its class is one of entities that the world admits. -/
theorem addEntity_eq_ok_iff {w : World} {snippet : Snippet} {name : String}
    {r : InstanceId × World} :
    w.addEntity snippet name = .ok r ↔
      snippet.isRelation = false ∧ w.Admits snippet name ∧ r = w.push snippet name .entity := by
  unfold addEntity
  by_cases hrel : snippet.isRelation = true
  · simp [hrel, bind_eq_ok_iff, throw_ne_ok]
  · rw [Bool.not_eq_true] at hrel
    simp only [hrel, Bool.false_eq_true, if_false, bind_eq_ok_iff, checkNew_eq_ok_iff,
      pure_eq_ok_iff, exists_const, true_and]

/-- A relation is added when its class is one of relations that the world admits, and two
different instances fit its ends. -/
theorem addRelation_eq_ok_iff {w : World} {snippet : Snippet} {name : String}
    {source target : InstanceId} {r : InstanceId × World} :
    w.addRelation snippet name source target = .ok r ↔
      ∃ sourceEnd targetEnd style a b,
        snippet.kind = .relation sourceEnd targetEnd style ∧ w.Admits snippet name ∧
          source ≠ target ∧ w.Fits snippet.name sourceEnd source a ∧
          w.Fits snippet.name targetEnd target b ∧
          r = w.push snippet name (.relation source target) := by
  unfold addRelation
  split
  · rename_i hkind
    simp [hkind]
  · rename_i sourceEnd targetEnd style hkind
    simp only [bind_eq_ok_iff, checkNew_eq_ok_iff, demand_eq_ok_iff, exists_const]
    by_cases hne : source = target
    · simp [hne, bind_eq_ok_iff, throw_ne_ok]
    simp only [hne, if_false, bind_eq_ok_iff, checkCategory_eq_ok_iff, checkVacant_eq_ok_iff,
      pure_eq_ok_iff, exists_const]
    constructor
    · rintro ⟨hnew, a, ha, b, hb, hsource, htarget, hfreeSource, hfreeTarget, rfl⟩
      rw [(get?_eq_some ha).2] at hfreeSource
      rw [(get?_eq_some hb).2] at hfreeTarget
      exact ⟨sourceEnd, targetEnd, style, a, b, hkind, hnew, hne, ⟨ha, hsource, hfreeSource⟩,
        ⟨hb, htarget, hfreeTarget⟩, rfl⟩
    · rintro ⟨_, _, _, a, b, hkind', hnew, _, ha, hb, rfl⟩
      obtain ⟨rfl, rfl, rfl⟩ := Kind.relation.inj (hkind.symm.trans hkind')
      refine ⟨hnew, a, ha.found, b, hb.found, ha.category, hb.category, ?_, ?_, rfl⟩
      · rw [(get?_eq_some ha.found).2]
        exact ha.vacant
      · rw [(get?_eq_some hb.found).2]
        exact hb.vacant

/-- An attribute is set when the instance has one of that name that allows the value. -/
theorem setAttribute_eq_ok_iff {w w' : World} {id : InstanceId} {attributeName value : String} :
    w.setAttribute id attributeName value = .ok w' ↔
      ∃ o a, w.get? id = some o ∧ o.snippet.attribute? attributeName = some a ∧
        a.allows value = true ∧ w' = w.update id (·.setValue attributeName value) := by
  simp only [setAttribute, bind_eq_ok_iff, demand_eq_ok_iff]
  constructor
  · rintro ⟨o, ho, h⟩
    split at h
    · exact absurd h throw_ne_ok
    · rename_i a ha
      split at h
      · rename_i hallows
        exact ⟨o, a, ho, ha, hallows, pure_eq_ok_iff.mp h⟩
      · exact absurd h throw_ne_ok
  · rintro ⟨o, a, ho, ha, hallows, rfl⟩
    exact ⟨o, ho, by simp [ha, hallows, pure_eq_ok_iff]⟩

/-- An instance may keep its name, or take a free one. -/
theorem rename_eq_ok_iff {w w' : World} {id : InstanceId} {name : String} :
    w.rename id name = .ok w' ↔
      ∃ o, w.get? id = some o ∧
        (o.name = name ∧ w' = w ∨
          o.name ≠ name ∧ IsName name ∧ (∀ p ∈ w.instances, p.name ≠ name) ∧
            w' = w.update id fun o => { o with name := name }) := by
  unfold rename
  cases hget : w.get? id with
  | none =>
      simp only [Option.any_none, Bool.false_eq_true, if_false, bind_eq_ok_iff,
        demand_eq_ok_iff, hget, reduceCtorEq, false_and, and_false, exists_false]
  | some o =>
      by_cases hname : o.name = name
      · simp [hname, eq_comm]
      · simp only [Option.any_some, beq_iff_eq, hname, if_false, bind_eq_ok_iff,
          checkName_eq_ok_iff, demand_eq_ok_iff, hget, pure_eq_ok_iff, exists_const]
        simp [hname, and_assoc]

/-- Every instance but the environment can be removed. -/
theorem remove_eq_ok_iff {w : World} {id : InstanceId} {r : List InstanceId × World} :
    w.remove id = .ok r ↔
      id ≠ w.environment.id ∧ (∃ o, w.get? id = some o) ∧
        r = (w.attached id, w.without (w.attached id)) := by
  unfold remove
  by_cases h : id = w.environment.id
  · simp [h]
  · simp only [h, if_false, bind_eq_ok_iff, demand_eq_ok_iff, pure_eq_ok_iff, ne_eq,
      not_false_eq_true, true_and, exists_and_right]

theorem resizeArray_eq_ok_iff {w w' : World} {index elements : Nat} :
    w.resizeArray index elements = .ok w' ↔
      ∃ array, w.arrays[index]? = some array ∧
        w' = { w with arrays := w.arrays.set index { array with elements := elements } } := by
  simp only [resizeArray, bind_eq_ok_iff, demandArray_eq_ok_iff, pure_eq_ok_iff]

theorem removeArray_eq_ok_iff {w : World} {index : Nat} {r : ArrayDef × World} :
    w.removeArray index = .ok r ↔
      ∃ array, w.arrays[index]? = some array ∧ r = (array, w.withoutArray index) := by
  simp only [removeArray, bind_eq_ok_iff, demandArray_eq_ok_iff, pure_eq_ok_iff]

/-- An instance that is there can be taken off its array; all but the environment can be put
on an array that is there. -/
theorem setArray_eq_ok_iff {w w' : World} {id : InstanceId} {index? : Option Nat} :
    w.setArray id index? = .ok w' ↔
      (∃ o, w.get? id = some o) ∧
        (∀ index, index? = some index → id ≠ w.environment.id ∧ index < w.arrays.length) ∧
        w' = w.update id fun o => { o with array? := index? } := by
  unfold setArray
  cases index? with
  | none =>
      simp only [Option.isSome_none, Bool.and_false, Bool.false_eq_true, if_false,
        bind_eq_ok_iff, demand_eq_ok_iff, pure_eq_ok_iff]
      simp
  | some index =>
      by_cases h : id = w.environment.id
      · simp [h, bind_eq_ok_iff, throw_ne_ok]
      · have harray : (∃ array, w.arrays[index]? = some array) ↔ index < w.arrays.length := by
          simp [List.getElem?_eq_some_iff]
        simp only [h, decide_false, Bool.false_and, Bool.false_eq_true, if_false,
          bind_eq_ok_iff, demandArray_eq_ok_iff, demand_eq_ok_iff, pure_eq_ok_iff]
        simp only [exists_and_right, harray]
        simp [h, and_left_comm]

/-- What an accepted edit answers and what it makes of the world, with what its checks have
found. -/
inductive Effect (w : World) : Reply → World → Prop where
  | addEntity {snippet : Snippet} {name : String} :
      snippet.isRelation = false → w.Admits snippet name →
      Effect w (.created ⟨w.nextId⟩) (w.push snippet name .entity).2
  | addRelation {snippet : Snippet} {name : String} {source target : InstanceId}
      {sourceEnd targetEnd : Endpoint} {style : LineStyle} {a b : Instance} :
      snippet.kind = .relation sourceEnd targetEnd style → w.Admits snippet name →
      source ≠ target → w.Fits snippet.name sourceEnd source a →
      w.Fits snippet.name targetEnd target b →
      Effect w (.created ⟨w.nextId⟩) (w.push snippet name (.relation source target)).2
  | setAttribute {id : InstanceId} {attributeName value : String} {o : Instance}
      {a : Attribute} :
      w.get? id = some o → o.snippet.attribute? attributeName = some a →
      a.allows value = true →
      Effect w .done (w.update id (·.setValue attributeName value))
  | keepName : Effect w .done w
  | rename {id : InstanceId} {name : String} {o : Instance} :
      w.get? id = some o → IsName name → (∀ p ∈ w.instances, p.name ≠ name) →
      Effect w .done (w.update id fun o => { o with name := name })
  | remove {id : InstanceId} {o : Instance} :
      id ≠ w.environment.id → w.get? id = some o →
      Effect w (.removed (w.attached id)) (w.without (w.attached id))
  | reset : Effect w .done w.reset
  | addArray {name : String} {elements : Nat} :
      Effect w (.arrayAdded w.arrays.length)
        { w with arrays := w.arrays ++ [⟨name, elements⟩] }
  | resizeArray {index elements : Nat} {array : ArrayDef} :
      w.arrays[index]? = some array →
      Effect w .done
        { w with arrays := w.arrays.set index { array with elements := elements } }
  | removeArray {index : Nat} {array : ArrayDef} :
      w.arrays[index]? = some array →
      Effect w (.arrayRemoved array) (w.withoutArray index)
  | setArray {id : InstanceId} {index? : Option Nat} {o : Instance} :
      w.get? id = some o →
      (∀ index, index? = some index → id ≠ w.environment.id ∧ index < w.arrays.length) →
      Effect w .done (w.update id fun o => { o with array? := index? })

/-- An entity is added in the same way, whoever chose its name. -/
theorem effect_of_addEntity {w w' : World} {snippet : Snippet} {name : String}
    {id : InstanceId} (h : w.addEntity snippet name = .ok (id, w')) :
    Effect w (.created id) w' := by
  obtain ⟨hrel, hnew, hr⟩ := addEntity_eq_ok_iff.mp h
  obtain ⟨rfl, rfl⟩ := Prod.mk.inj hr
  exact .addEntity hrel hnew

theorem effect_of_addRelation {w w' : World} {snippet : Snippet} {name : String}
    {source target id : InstanceId}
    (h : w.addRelation snippet name source target = .ok (id, w')) :
    Effect w (.created id) w' := by
  obtain ⟨_, _, _, a, b, hkind, hnew, hne, ha, hb, hr⟩ := addRelation_eq_ok_iff.mp h
  obtain ⟨rfl, rfl⟩ := Prod.mk.inj hr
  exact .addRelation hkind hnew hne ha hb

theorem effect_of_run {w w' : World} {edit : Edit} {reply : Reply}
    (h : edit.run w = .ok (reply, w')) : Effect w reply w' := by
  cases edit with
  | instantiate snippet =>
      obtain ⟨⟨id, v⟩, hv, hr⟩ := bind_eq_ok_iff.mp h
      obtain ⟨rfl, rfl⟩ := Prod.mk.inj (pure_eq_ok_iff.mp hr)
      exact effect_of_addEntity hv
  | addEntity snippet name =>
      obtain ⟨⟨id, v⟩, hv, hr⟩ := bind_eq_ok_iff.mp h
      obtain ⟨rfl, rfl⟩ := Prod.mk.inj (pure_eq_ok_iff.mp hr)
      exact effect_of_addEntity hv
  | connect snippet source target =>
      obtain ⟨⟨id, v⟩, hv, hr⟩ := bind_eq_ok_iff.mp h
      obtain ⟨rfl, rfl⟩ := Prod.mk.inj (pure_eq_ok_iff.mp hr)
      exact effect_of_addRelation hv
  | addRelation snippet name source target =>
      obtain ⟨⟨id, v⟩, hv, hr⟩ := bind_eq_ok_iff.mp h
      obtain ⟨rfl, rfl⟩ := Prod.mk.inj (pure_eq_ok_iff.mp hr)
      exact effect_of_addRelation hv
  | setAttribute id attributeName value =>
      obtain ⟨v, hv, hr⟩ := bind_eq_ok_iff.mp h
      obtain ⟨rfl, rfl⟩ := Prod.mk.inj (pure_eq_ok_iff.mp hr)
      obtain ⟨o, a, ho, ha, hallows, rfl⟩ := setAttribute_eq_ok_iff.mp hv
      exact .setAttribute ho ha hallows
  | rename id name =>
      obtain ⟨v, hv, hr⟩ := bind_eq_ok_iff.mp h
      obtain ⟨rfl, rfl⟩ := Prod.mk.inj (pure_eq_ok_iff.mp hr)
      obtain ⟨o, ho, ⟨-, rfl⟩ | ⟨-, hname, hfree, rfl⟩⟩ := rename_eq_ok_iff.mp hv
      · exact .keepName
      · exact .rename ho hname hfree
  | remove id =>
      obtain ⟨⟨ids, v⟩, hv, hr⟩ := bind_eq_ok_iff.mp h
      obtain ⟨rfl, rfl⟩ := Prod.mk.inj (pure_eq_ok_iff.mp hr)
      obtain ⟨hne, ⟨o, ho⟩, hr⟩ := remove_eq_ok_iff.mp hv
      obtain ⟨rfl, rfl⟩ := Prod.mk.inj hr
      exact .remove hne ho
  | reset =>
      obtain ⟨rfl, rfl⟩ := Prod.mk.inj (Except.ok.inj h)
      exact .reset
  | addArray name elements =>
      obtain ⟨rfl, rfl⟩ := Prod.mk.inj (Except.ok.inj h)
      exact .addArray
  | resizeArray index elements =>
      obtain ⟨v, hv, hr⟩ := bind_eq_ok_iff.mp h
      obtain ⟨rfl, rfl⟩ := Prod.mk.inj (pure_eq_ok_iff.mp hr)
      obtain ⟨array, harray, rfl⟩ := resizeArray_eq_ok_iff.mp hv
      exact .resizeArray harray
  | removeArray index =>
      obtain ⟨⟨array, v⟩, hv, hr⟩ := bind_eq_ok_iff.mp h
      obtain ⟨rfl, rfl⟩ := Prod.mk.inj (pure_eq_ok_iff.mp hr)
      obtain ⟨_, harray, hr⟩ := removeArray_eq_ok_iff.mp hv
      obtain ⟨rfl, rfl⟩ := Prod.mk.inj hr
      exact .removeArray harray
  | setArray id index? =>
      obtain ⟨v, hv, hr⟩ := bind_eq_ok_iff.mp h
      obtain ⟨rfl, rfl⟩ := Prod.mk.inj (pure_eq_ok_iff.mp hr)
      obtain ⟨⟨o, ho⟩, hindex, rfl⟩ := setArray_eq_ok_iff.mp hv
      exact .setArray ho hindex

/-- An edit has an effect, or it is refused and the world stays. -/
theorem perform_cases (w : World) (edit : Edit) :
    (∃ reply, (w.perform edit).1 = .ok reply ∧ Effect w reply (w.perform edit).2) ∨
      (∃ e, (w.perform edit).1 = .error e) ∧ (w.perform edit).2 = w := by
  unfold perform
  cases h : edit.run w with
  | error e => exact .inr ⟨⟨e, rfl⟩, rfl⟩
  | ok r => exact .inl ⟨r.1, rfl, effect_of_run h⟩

/-- The one induction over how a world comes about: what holds of the environment alone and
is kept by effects and by passes is an invariant. -/
theorem Reachable.invariant {P : World → Prop}
    (start : ∀ {snippet : Snippet} {name : String}, snippet.isRelation = false →
      IsName name → P ⟨.create ⟨0⟩ snippet name .entity, [], [], 1⟩)
    (effect : ∀ {w w' : World} {reply : Reply}, Reachable w → P w → Effect w reply w' → P w')
    (prepare : ∀ {w : World} (g : Generator), Reachable w → P w → P (g.prepare w))
    {w : World} (h : Reachable w) : P w := by
  induction h with
  | start hw =>
      obtain ⟨hrel, hname, rfl⟩ := ofEnvironment_eq_ok_iff.mp hw
      exact start hrel hname
  | edit e hw ih =>
      rcases perform_cases _ e with ⟨reply, -, heffect⟩ | ⟨-, hsame⟩
      · exact effect hw ih heffect
      · rw [hsame]
        exact ih
  | prepare g hw ih => exact prepare g hw ih

/-- The same for edits alone: what passes may break can be an invariant of these. -/
theorem EditReachable.invariant {P : World → Prop}
    (start : ∀ {snippet : Snippet} {name : String},
      P ⟨.create ⟨0⟩ snippet name .entity, [], [], 1⟩)
    (effect : ∀ {w w' : World} {reply : Reply},
      EditReachable w → P w → Effect w reply w' → P w')
    {w : World} (h : EditReachable w) : P w := by
  induction h with
  | start hw =>
      obtain ⟨-, -, rfl⟩ := ofEnvironment_eq_ok_iff.mp hw
      exact start
  | edit e hw ih =>
      rcases perform_cases _ e with ⟨reply, -, heffect⟩ | ⟨-, hsame⟩
      · exact effect hw ih heffect
      · rw [hsame]
        exact ih

end World

end Stencil
