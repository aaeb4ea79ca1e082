import Stencil.Proofs.Script.Alike
import Stencil.Proofs.World.Linked

/-!
# What the removal of an array does

The arrays behind the one that goes move up, and the positions that instances hold move
along: an instance finds the array that it was on, and two instances are on one array
exactly if they were. So the script is that of the world in which the instances on the
array have been taken off it, one by one, and the array is still there.
-/

namespace Stencil

/-- What was found at a position is found at the one that it moves to. -/
theorem ArrayDef.getElem?_eraseIdx {arrays : List ArrayDef} {removed index index' : Nat}
    (h : indexWithout? removed index = some index') :
    (arrays.eraseIdx removed)[index']? = arrays[index]? := by
  rcases indexWithout?_eq_some_iff.mp h with ⟨hlow, rfl⟩ | ⟨hhigh, rfl⟩
  · exact List.getElem?_eraseIdx_of_lt hlow
  · rw [List.getElem?_eraseIdx_of_ge (Nat.le_sub_one_of_lt hhigh),
      Nat.sub_add_cancel (Nat.one_le_of_lt hhigh)]

theorem ArrayDef.indexWithout?_of_ne {removed index : Nat} (h : index ≠ removed) :
    ∃ index', indexWithout? removed index = some index' := by
  rcases Nat.lt_or_gt_of_ne h with hlow | hhigh
  · exact ⟨index, indexWithout?_eq_some_iff.mpr (.inl ⟨hlow, rfl⟩)⟩
  · exact ⟨index - 1, indexWithout?_eq_some_iff.mpr (.inr ⟨hhigh, rfl⟩)⟩

/-- No two positions move to one. -/
theorem ArrayDef.indexWithout?_inj {removed index₁ index₂ index' : Nat}
    (h₁ : indexWithout? removed index₁ = some index')
    (h₂ : indexWithout? removed index₂ = some index') : index₁ = index₂ := by
  rcases indexWithout?_eq_some_iff.mp h₁ with h₁ | h₁ <;>
    rcases indexWithout?_eq_some_iff.mp h₂ with h₂ | h₂ <;> omega

namespace Instance

/-- The instance off the array at a position; on any other array it stays. -/
def offArray (o : Instance) (index : Nat) : Instance :=
  if o.array? = some index then { o with array? := none } else o

theorem array?_offArray_ne (o : Instance) (index : Nat) :
    (o.offArray index).array? ≠ some index := by
  unfold offArray
  split
  · simp
  · assumption

/-- To lose an array that one has been taken off is to lose it. -/
theorem withoutArray_offArray (o : Instance) (index : Nat) :
    (o.offArray index).withoutArray index = o.withoutArray index := by
  unfold offArray
  split
  · rename_i hon
    simp [withoutArray, hon, ArrayDef.indexWithout?]
  · rfl

theorem array?_withoutArray_eq_iff {a b : Instance} {index : Nat}
    (ha : a.array? ≠ some index) (hb : b.array? ≠ some index) :
    (a.withoutArray index).array? = (b.withoutArray index).array? ↔ a.array? = b.array? := by
  refine ⟨?_, fun h => by simp [withoutArray, h]⟩
  intro h
  cases hai : a.array? with
  | none =>
      cases hbj : b.array? with
      | none => rfl
      | some j =>
          obtain ⟨j', hj⟩ := ArrayDef.indexWithout?_of_ne (by simpa [hbj] using hb)
          simp [withoutArray, hai, hbj, hj] at h
  | some i =>
      obtain ⟨i', hi⟩ := ArrayDef.indexWithout?_of_ne (by simpa [hai] using ha)
      cases hbj : b.array? with
      | none => simp [withoutArray, hai, hbj, hi] at h
      | some j =>
          obtain ⟨j', hj⟩ := ArrayDef.indexWithout?_of_ne (by simpa [hbj] using hb)
          simp [withoutArray, hai, hbj, hi, hj] at h
          subst h
          rw [ArrayDef.indexWithout?_inj hi hj]

end Instance

namespace World

variable {w : World}

theorem alike_withoutArray (w : World) {index : Nat} {o : Instance} (h : o.array? ≠ some index) :
    Alike w (w.withoutArray index) o (o.withoutArray index) := by
  refine ⟨rfl, rfl, rfl, ?_, ?_⟩
  · cases hi : o.array? with
    | none => simp [arrayOf?, Instance.withoutArray, hi]
    | some i =>
        obtain ⟨i', hi'⟩ := ArrayDef.indexWithout?_of_ne (by simpa [hi] using h)
        simp [arrayOf?, Instance.withoutArray, hi, hi', array?, withoutArray,
          ArrayDef.getElem?_eraseIdx hi']
  · cases hi : o.array? with
    | none => simp [Instance.withoutArray, hi]
    | some i =>
        obtain ⟨i', hi'⟩ := ArrayDef.indexWithout?_of_ne (by simpa [hi] using h)
        simp [Instance.withoutArray, hi, hi']

theorem get?_withoutArray (w : World) (index : Nat) (id : InstanceId) :
    (w.withoutArray index).get? id = (w.get? id).map (·.withoutArray index) :=
  w.get?_mapInstances (f := (·.withoutArray index)) (fun _ => rfl) id

/-- An array that no instance is on leaves no trace in the script. -/
theorem script_withoutArray (h : w.Linked) (hw : w.WellFormed) {index : Nat}
    (hindex : index < w.arrays.length) (hvacant : ∀ o ∈ w.instances, o.array? ≠ some index)
    (style : Style) : (w.withoutArray index).script style = w.script style := by
  refine script_eq_of_forall_corresponds (hw.withoutArray hindex)
    (f := (·.withoutArray index)) rfl (.refl _) ?_ style
  intro o ho
  have halike := w.alike_withoutArray (hvacant o ho)
  cases hrole : o.role with
  | entity => exact .entity halike hrole hrole
  | relation source target =>
      obtain ⟨a, b, ha, hb, -, -⟩ := h.exists_ends hw ho hrole
      have hoff := hvacant a (get?_eq_some ha).1
      have hoff' := hvacant b (get?_eq_some hb).1
      refine .relation halike hrole hrole ha hb ?_ ?_ (w.alike_withoutArray hoff)
        (w.alike_withoutArray hoff') (Instance.array?_withoutArray_eq_iff hoff hoff')
      · rw [get?_withoutArray, ha, Option.map_some]
      · rw [get?_withoutArray, hb, Option.map_some]

/-- After the removal of an array an instance is found as before, on the array that it was on,
unless this is the one that went. -/
theorem WellFormed.exists_get?_withoutArray (h : w.WellFormed) (index : Nat) {o : Instance}
    (ho : o ∈ w.instances) :
    ∃ p, (w.withoutArray index).get? o.id = some p ∧
      (o.array? = none ∨ o.array? = some index → p.array? = none) ∧
      ∀ i, o.array? = some i → i ≠ index →
        ∃ i' array, p.array? = some i' ∧ (w.withoutArray index).arrays[i']? = some array ∧
          w.arrays[i]? = some array := by
  refine ⟨o.withoutArray index, ?_, ?_, ?_⟩
  · rw [get?_withoutArray, h.get?_of_mem ho, Option.map_some]
  · rintro (hnone | hon)
    · simp [Instance.withoutArray, hnone]
    · simp [Instance.withoutArray, hon, ArrayDef.indexWithout?]
  · intro i hi hne
    obtain ⟨i', hi'⟩ := ArrayDef.indexWithout?_of_ne hne
    have hlt : i < w.arrays.length := h.array_lt o ho i hi
    have harray : w.arrays[i]? = some w.arrays[i] := List.getElem?_eq_getElem hlt
    have hmoved : (w.withoutArray index).arrays[i']? = some w.arrays[i] :=
      (ArrayDef.getElem?_eraseIdx hi').trans harray
    exact ⟨i', w.arrays[i], by simp [Instance.withoutArray, hi, hi'], hmoved, harray⟩

/-- The world with every instance off the array at a position. -/
def vacate (w : World) (index : Nat) : World := w.mapInstances (·.offArray index)

theorem array?_ne_of_mem_vacate {index : Nat} {p : Instance}
    (hp : p ∈ (w.vacate index).instances) : p.array? ≠ some index := by
  rw [vacate, instances_mapInstances] at hp
  obtain ⟨o, -, rfl⟩ := List.mem_map.mp hp
  exact o.array?_offArray_ne index

theorem withoutArray_vacate (w : World) (index : Nat) :
    (w.vacate index).withoutArray index = w.withoutArray index := by
  simp only [withoutArray, vacate, mapInstances_mapInstances, Instance.withoutArray_offArray]
  rfl

theorem perform_of_run {edit : Edit} {reply : Reply} {v : World}
    (h : edit.run w = .ok (reply, v)) : w.perform edit = (.ok reply, v) := by
  rw [perform, h]

theorem perform_setArray_none {id : InstanceId} (hid : (w.get? id).isSome) :
    w.perform (.setArray id none) =
      (.ok .done, w.update id fun o => { o with array? := none }) := by
  have hset : w.setArray id none = .ok (w.update id fun o => { o with array? := none }) := by
    rw [setArray_eq_ok_iff]
    exact ⟨Option.isSome_iff_exists.mp hid, by simp, rfl⟩
  refine perform_of_run ?_
  rw [Edit.run, hset]
  rfl

/-- Taking instances off their arrays one by one takes them all off, in any order. -/
theorem performAll_setArray_none (w : World) (ids : List InstanceId)
    (hids : ∀ id ∈ ids, (w.get? id).isSome) :
    w.performAll (ids.map fun id => .setArray id none) =
      (ids.map fun _ => .ok .done,
        w.mapInstances fun o => if o.id ∈ ids then { o with array? := none } else o) := by
  induction ids generalizing w with
  | nil => simp [performAll, mapInstances]
  | cons id ids ih =>
      have hrest : ∀ id' ∈ ids,
          ((w.update id fun o => { o with array? := none }).get? id').isSome := by
        intro id' hid'
        rw [update, get?_mapInstances, Option.isSome_map]
        · exact hids id' (List.mem_cons_of_mem _ hid')
        · exact fun o => (Instance.persists_update (fun o => o.persists_array none) id o).id
      rw [List.map_cons, performAll, perform_setArray_none (hids id List.mem_cons_self)]
      dsimp only
      rw [ih _ hrest]
      dsimp only
      rw [List.map_cons, update, mapInstances_mapInstances]
      refine congrArg (Prod.mk _) (mapInstances_congr ?_)
      intro o _
      by_cases ho : o.id = id <;> by_cases hmem : o.id ∈ ids <;> simp [ho, hmem]

/-- Taking off all instances that are on an array vacates it. -/
theorem WellFormed.performAll_vacate (h : w.WellFormed) {index : Nat} {ids : List InstanceId}
    (hids : ∀ id, id ∈ ids ↔ ∃ o ∈ w.instances, o.id = id ∧ o.array? = some index) :
    w.performAll (ids.map fun id => .setArray id none) =
      (ids.map fun _ => .ok .done, w.vacate index) := by
  have hfound : ∀ id ∈ ids, (w.get? id).isSome := by
    intro id hid
    obtain ⟨o, ho, hoid, -⟩ := (hids id).mp hid
    exact get?_isSome_iff.mpr ⟨o, ho, hoid⟩
  rw [w.performAll_setArray_none ids hfound]
  refine congrArg (Prod.mk _) (mapInstances_congr ?_)
  intro o ho
  have hon : o.id ∈ ids ↔ o.array? = some index := by
    rw [hids]
    constructor
    · rintro ⟨p, hp, hid, harray⟩
      rwa [h.eq_of_id ho hp hid.symm]
    · intro harray
      exact ⟨o, ho, rfl, harray⟩
  simp only [hon, Instance.offArray]

/-- The removal of an array returns it and leaves the others in their order. An instance on another
array is on the same array afterwards, wherever that has moved to, and the instances on it are on
none. The script is the one that is written when these have been taken off in any order and the
array is left. -/
theorem removeArray_keeps_others_and_script (h : Reachable w) {index : Nat}
    (hindex : index < w.arrays.length) :
    ∃ v, w.removeArray index = .ok (w.arrays[index], v) ∧ v.arrays = w.arrays.eraseIdx index ∧
      (∀ o ∈ w.instances, ∃ p, v.get? o.id = some p ∧
        (o.array? = none ∨ o.array? = some index → p.array? = none) ∧
        ∀ i, o.array? = some i → i ≠ index →
          ∃ i' array, p.array? = some i' ∧ v.arrays[i']? = some array ∧
            w.arrays[i]? = some array) ∧
      ∀ ids : List InstanceId,
        (∀ id, id ∈ ids ↔ ∃ o ∈ w.instances, o.id = id ∧ o.array? = some index) →
        ∃ u, w.performAll (ids.map fun id => .setArray id none) =
            (ids.map fun _ => .ok .done, u) ∧
          u.arrays = w.arrays ∧ ∀ style, v.script style = u.script style := by
  have hw := h.wellFormed
  refine ⟨w.withoutArray index, ?_, rfl, fun o ho => hw.exists_get?_withoutArray index ho, ?_⟩
  · exact removeArray_eq_ok_iff.mpr ⟨_, List.getElem?_eq_getElem hindex, rfl⟩
  · intro ids hids
    have hperform := hw.performAll_vacate hids
    have hu : Reachable (w.vacate index) := by
      have hall := h.performAll (ids.map fun id => .setArray id none)
      rwa [hperform] at hall
    refine ⟨w.vacate index, hperform, rfl, ?_⟩
    intro style
    rw [← withoutArray_vacate]
    exact script_withoutArray hu.linked hu.wellFormed hindex
      (fun p hp => array?_ne_of_mem_vacate hp) style

/-- The first array of the network goes: the node on it is on none, and the node on the
second is still on it, though it is the first now. -/
theorem removeArray_first :
    0 < network.arrays.length ∧
      (∀ id, id ∈ [(⟨1⟩ : InstanceId)] ↔
        ∃ o ∈ network.instances, o.id = id ∧ o.array? = some 0) ∧
      ∃ v, network.removeArray 0 = .ok (⟨"i", 2⟩, v) ∧ v.arrays = [⟨"j", 3⟩] ∧
        (v.get? ⟨1⟩).map (·.array?) = some none ∧
        (v.get? ⟨2⟩).bind v.arrayOf? = some ⟨"j", 3⟩ ∧
        ∃ u, network.performAll [.setArray ⟨1⟩ none] = ([.ok .done], u) ∧
          u.arrays = [⟨"i", 2⟩, ⟨"j", 3⟩] ∧ ∀ style, v.script style = u.script style := by
  have hindex : 0 < network.arrays.length := by decide
  have hon : ∀ o ∈ network.instances, o.array? = some 0 → o.id ∈ [(⟨1⟩ : InstanceId)] := by decide
  have hids : ∀ id, id ∈ [(⟨1⟩ : InstanceId)] ↔
      ∃ o ∈ network.instances, o.id = id ∧ o.array? = some 0 := by
    intro id
    constructor
    · intro hid
      obtain rfl := List.mem_singleton.mp hid
      decide
    · rintro ⟨o, ho, rfl, harray⟩
      exact hon o ho harray
  obtain ⟨v, hremove, hleft, -, hscript⟩ :=
    removeArray_keeps_others_and_script reachable_network hindex
  obtain ⟨u, hperform, harrays, hsame⟩ := hscript [⟨1⟩] hids
  obtain ⟨-, rfl⟩ := Prod.mk.inj (Except.ok.inj hremove)
  exact ⟨hindex, hids, _, hremove, hleft, by decide, by decide, u, hperform, harrays, hsame⟩

end World

end Stencil
