import Stencil.Proofs.Script.Resolve

/-!
# What instances read of one another

The text of an instance reads other instances at its ends, and of those their names and arrays
only. So if all instances of a world get other values or other classes but keep their outlines, an
instance still has the same ends and loops, and tokens that do not ask for values are looked up
with the same result.
-/

namespace Stencil

/-- The instances have one number, name, array and role. -/
structure Instance.SameOutline (o p : Instance) : Prop where
  id : p.id = o.id
  name : p.name = o.name
  array : p.array? = o.array?
  role : p.role = o.role

theorem Instance.SameOutline.reserves_iff {o p : Instance} {token : String}
    (h : o.SameOutline p) : p.Reserves token ↔ o.Reserves token := by
  rw [Reserves, Reserves, isRelation, isRelation, h.role]

namespace World

variable {w : World} {o : Instance} {token : String} {f : Instance → Instance}
  (hf : ∀ o : Instance, o.SameOutline (f o))

include hf

theorem get?_of_outline (w : World) (id : InstanceId) :
    (w.mapInstances f).get? id = (w.get? id).map f :=
  w.get?_mapInstances (fun o => (hf o).id) id

theorem arrayOf?_of_outline (w : World) (o : Instance) :
    (w.mapInstances f).arrayOf? (f o) = w.arrayOf? o := by
  rw [arrayOf?, (hf o).array]
  rfl

theorem qualifiedName_of_outline (w : World) (o : Instance) :
    (w.mapInstances f).qualifiedName (f o) = w.qualifiedName o := by
  rw [qualifiedName, arrayOf?_of_outline hf, (hf o).name, qualifiedName]

theorem endName_of_outline (w : World) (catalog : Catalog) (id : InstanceId) (token : String) :
    (w.mapInstances f).endName catalog id token = w.endName catalog id token := by
  rw [endName, endName, get?_of_outline hf]
  cases w.get? id with
  | none => rfl
  | some o => exact qualifiedName_of_outline hf w o

/-- A token that the instance reserves does not ask for a value. -/
theorem lookup_of_outline (hvalue : ¬ o.Reserves token → (f o).valueOf? token = o.valueOf? token)
    (catalog : Catalog) :
    (w.mapInstances f).lookup catalog (f o) token = w.lookup catalog o token := by
  by_cases hreserves : o.Reserves token
  · cases hrole : o.role with
    | entity =>
        obtain rfl : token = "name" := by
          refine hreserves.resolve_right fun h => ?_
          rw [Instance.isRelation, hrole] at h
          cases h.1
        rw [lookup_of_entity _ catalog ((hf o).role.trans hrole), lookup_of_entity w catalog hrole,
          if_pos rfl, if_pos rfl, qualifiedName_of_outline hf]
    | relation source target =>
        rw [lookup_of_relation _ catalog ((hf o).role.trans hrole),
          lookup_of_relation w catalog hrole, endName_of_outline hf, endName_of_outline hf,
          qualifiedName_of_outline hf]
        rcases hreserves with rfl | ⟨-, rfl | rfl⟩ <;> rfl
  · rw [lookup_of_not_reserves (mt (hf o).reserves_iff.mp hreserves),
      lookup_of_not_reserves hreserves, hvalue hreserves]

theorem loops_of_outline (w : World) (o : Instance) :
    (w.mapInstances f).loops (f o) = w.loops o := by
  have hindex : (w.mapInstances f).arrayIndexOf? = w.arrayIndexOf? := by
    funext id
    rw [arrayIndexOf?, arrayIndexOf?, get?_of_outline hf, Option.bind_map]
    congr 1
    funext p
    exact (hf p).array
  rw [loops, loops, arrayOf?_of_outline hf, (hf o).array, (hf o).role, hindex]
  rfl

/-- The same lines in the same loops are the same text. -/
theorem text_of_outline {style : Style}
    (hlines : (w.mapInstances f).lines style (f o) = w.lines style o) :
    (w.mapInstances f).text style (f o) = w.text style o := by
  unfold text frame
  rw [hlines, loops_of_outline hf]

end World

end Stencil
