import Stencil.Proofs.World.Instances

/-!
# When a check passes

The checks of an edit run one after the other in `Except`. Each is met by exactly one
condition on the world, stated here once, so that later proofs read conditions and not
code: `IsName` for the spelling of a name, `Admits` for a new instance of a class,
`Fits` for an instance at the end of a new relation.
-/

namespace Stencil

theorem bind_eq_ok_iff {ε α β : Type} {x : Except ε α} {f : α → Except ε β} {b : β} :
    (x >>= f) = .ok b ↔ ∃ a, x = .ok a ∧ f a = .ok b := by
  cases x with
  | error e => simp [bind, Except.bind]
  | ok a => simp [bind, Except.bind]

theorem pure_eq_ok_iff {ε α : Type} {a b : α} : (pure a : Except ε α) = .ok b ↔ b = a := by
  simp [pure, Except.pure, eq_comm]

theorem throw_ne_ok {ε α : Type} {e : ε} {a : α} : (throw e : Except ε α) ≠ .ok a := by
  simp [throw, throwThe, MonadExceptOf.throw]

namespace World

/-- A name is one word: it is not empty and no blank is in it. -/
def IsName (name : String) : Prop :=
  name ≠ "" ∧ ∀ c ∈ name.toList, Text.isBlank c = false

/-- The world takes a new instance of the class under the name. -/
structure Admits (w : World) (snippet : Snippet) (name : String) : Prop where
  unique : snippet.unique = true → ∀ o ∈ w.instances, o.snippet.name ≠ snippet.name
  isName : IsName name
  free : ∀ o ∈ w.instances, o.name ≠ name

/-- The instance `o` of number `id` may stand at an end of a new relation of the class. -/
structure Fits (w : World) (className : String) (endpoint : Endpoint) (id : InstanceId)
    (o : Instance) : Prop where
  found : w.get? id = some o
  category : o.snippet.category? = some endpoint.category
  vacant : endpoint.unique = true → w.hasRelation id className = false

theorem checkSyntax_eq_ok_iff {name : String} {u : Unit} :
    checkSyntax name = .ok u ↔ IsName name := by
  by_cases h : name = ""
  · simp [checkSyntax, IsName, h]
  · simp [checkSyntax, IsName, h]

theorem isName_default : IsName defaultEnvironmentName :=
  checkSyntax_eq_ok_iff.mp (rfl : checkSyntax defaultEnvironmentName = .ok ())

theorem checkName_eq_ok_iff {w : World} {name : String} {u : Unit} :
    w.checkName name = .ok u ↔ IsName name ∧ ∀ o ∈ w.instances, o.name ≠ name := by
  rw [checkName, bind_eq_ok_iff, ← isFree_iff]
  constructor
  · rintro ⟨_, hsyntax, hfree⟩
    refine ⟨checkSyntax_eq_ok_iff.mp hsyntax, ?_⟩
    by_contra hn
    simp [hn, throw_ne_ok] at hfree
  · rintro ⟨hname, hfree⟩
    exact ⟨(), checkSyntax_eq_ok_iff.mpr hname, by simp [hfree, pure, Except.pure]⟩

theorem hasInstanceOf_eq_false_iff {w : World} {className : String} :
    w.hasInstanceOf className = false ↔ ∀ o ∈ w.instances, o.snippet.name ≠ className := by
  simp [hasInstanceOf]

theorem hasRelation_eq_false_iff {w : World} {id : InstanceId} {className : String} :
    w.hasRelation id className = false ↔
      ∀ o ∈ w.instances, o.snippet.name = className → o.references id = false := by
  simp [hasRelation]

theorem checkNew_eq_ok_iff {w : World} {snippet : Snippet} {name : String} {u : Unit} :
    w.checkNew snippet name = .ok u ↔ w.Admits snippet name := by
  unfold checkNew
  split
  · rename_i htaken
    obtain ⟨hunique, hthere⟩ := Bool.and_eq_true_iff.mp htaken
    refine ⟨fun h => by simp at h, fun h => ?_⟩
    rw [hasInstanceOf_eq_false_iff.mpr (h.unique hunique)] at hthere
    simp at hthere
  · rename_i hnew
    rw [checkName_eq_ok_iff]
    constructor
    · rintro ⟨hname, hfree⟩
      refine ⟨fun hunique => ?_, hname, hfree⟩
      rw [← hasInstanceOf_eq_false_iff]
      simpa [hunique] using hnew
    · exact fun h => ⟨h.isName, h.free⟩

theorem demand_eq_ok_iff {w : World} {id : InstanceId} {o : Instance} :
    w.demand id = .ok o ↔ w.get? id = some o := by
  unfold demand
  split <;> simp [*]

theorem demandArray_eq_ok_iff {w : World} {index : Nat} {array : ArrayDef} :
    w.demandArray index = .ok array ↔ w.arrays[index]? = some array := by
  unfold demandArray array?
  split <;> simp [*]

theorem checkCategory_eq_ok_iff {className : String} {side : Side} {endpoint : Endpoint}
    {o : Instance} {u : Unit} :
    checkCategory className side endpoint o = .ok u ↔
      o.snippet.category? = some endpoint.category := by
  unfold checkCategory
  split
  · rename_i hnone
    simp [hnone]
  · rename_i found hfound
    by_cases h : found = endpoint.category <;> simp [hfound, h]

theorem checkVacant_eq_ok_iff {w : World} {className : String} {endpoint : Endpoint}
    {o : Instance} {u : Unit} :
    w.checkVacant className endpoint o = .ok u ↔
      (endpoint.unique = true → w.hasRelation o.id className = false) := by
  unfold checkVacant
  by_cases h : endpoint.unique <;> simp [h]

theorem ofEnvironment_eq_ok_iff {snippet : Snippet} {name : String} {w : World} :
    ofEnvironment snippet name = .ok w ↔
      snippet.isRelation = false ∧ IsName name ∧
        w = ⟨.create ⟨0⟩ snippet name .entity, [], [], 1⟩ := by
  unfold ofEnvironment
  split
  · rename_i hrel
    simp [hrel]
  · rename_i hrel
    rw [bind_eq_ok_iff]
    simp [checkSyntax_eq_ok_iff, hrel, pure_eq_ok_iff]

end World

end Stencil
