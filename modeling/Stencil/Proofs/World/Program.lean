import Stencil.Proofs.World.Action

/-!
# Programs and functions agree

An edit is written twice: as a function that returns the world after it or none, and as a program
that changes the world in place. Where no number is used twice, they answer alike and leave the
same world (`exec_program`). The reachable worlds are such, so a history can be read in either
way, and what holds of the programs holds of `performAll`.
-/

namespace Stencil

namespace World

variable {w : World}

theorem perform_eq_settle (w : World) (edit : Edit) :
    w.perform edit = Program.settle w id (edit.run w) := by
  unfold perform
  cases edit.run w <;> rfl

theorem modify_findIdx_eq_map {l : List Instance} (hids : (l.map (·.id)).Nodup) (id : InstanceId)
    (f : Instance → Instance) :
    l.modify (l.findIdx (·.id == id)) f = l.map fun o => if o.id = id then f o else o := by
  induction l with
  | nil => rfl
  | cons o l ih =>
      obtain ⟨hnew, hrest⟩ := List.nodup_cons.mp hids
      rw [List.findIdx_cons, List.map_cons]
      by_cases ho : o.id = id
      · -- No later instance has the number.
        have hsame : ∀ p ∈ l, (if p.id = id then f p else p) = p := by
          intro p hp
          refine if_neg fun hpid => hnew ?_
          exact List.mem_map.mpr ⟨p, hp, hpid.trans ho.symm⟩
        simp [ho, List.map_congr_left hsame]
      · rw [beq_false_of_ne ho, cond_false, List.modify_succ_cons, ih hrest, if_neg ho]

theorem WellFormed.alterFirst_eq_update (h : w.WellFormed) (id : InstanceId)
    (f : Instance → Instance) : w.alterFirst id f = w.update id f := by
  obtain ⟨hnew, hrest⟩ := List.nodup_cons.mp h.ids_nodup
  rw [alterFirst, update, World.mapInstances]
  by_cases hid : w.environment.id = id
  · have hsame : ∀ p ∈ w.others, (if p.id = id then f p else p) = p := by
      intro p hp
      refine if_neg fun hpid => hnew ?_
      exact List.mem_map.mpr ⟨p, hp, hpid.trans hid.symm⟩
    simp [hid, List.map_congr_left hsame]
  · simp [hid, modify_findIdx_eq_map hrest]

/-- Only the instance of that number matters. -/
theorem WellFormed.update_congr (h : w.WellFormed) {id : InstanceId} {o : Instance}
    (ho : w.get? id = some o) {f g : Instance → Instance} (hfg : f o = g o) :
    w.update id f = w.update id g := by
  obtain ⟨hmem, hid⟩ := get?_eq_some ho
  refine mapInstances_congr fun p hp => ?_
  by_cases hpid : p.id = id
  · rw [if_pos hpid, if_pos hpid, h.eq_of_id hp hmem (hpid.trans hid.symm), hfg]
  · rw [if_neg hpid, if_neg hpid]

namespace Action

open Program

theorem exec_addEntity (snippet : Snippet) (name : String) (w : World) :
    (addEntity snippet name).exec w = settle w id (w.addEntity snippet name) := by
  unfold addEntity World.addEntity
  rw [exec_bind, exec_failIf]
  cases snippet.isRelation with
  | true => rfl
  | false => exact exec_check_bind fun _ _ => rfl

theorem exec_addRelation (snippet : Snippet) (name : String) (source target : InstanceId)
    (w : World) :
    (addRelation snippet name source target).exec w =
      settle w id (w.addRelation snippet name source target) := by
  unfold addRelation World.addRelation
  cases snippet.kind with
  | entity category icon => rfl
  | relation sourceEnd targetEnd style =>
      refine exec_check_bind fun _ _ => ?_
      refine exec_check_bind fun a _ => ?_
      refine exec_check_bind fun b _ => ?_
      rw [exec_bind, exec_failIf]
      by_cases hself : source = target
      · simp only [hself, decide_true, if_true]
        rfl
      · simp only [hself, decide_false, if_false]
        refine exec_check_bind fun _ _ => ?_
        refine exec_check_bind fun _ _ => ?_
        refine exec_check_bind fun _ _ => ?_
        exact exec_check_bind fun _ _ => rfl

theorem exec_setAttribute (h : w.WellFormed) (id : InstanceId) (attributeName value : String) :
    (setAttribute id attributeName value).exec w =
      settle w ((), ·) (w.setAttribute id attributeName value) := by
  refine exec_check_bind fun o ho => ?_
  have hfound : o.snippet.attribute? attributeName =
      (o.snippet.attributeIndex? attributeName).bind (o.snippet.attributes[·]?) :=
    List.find?_eq_bind_findIdx?_getElem?
  cases hindex : o.snippet.attributeIndex? attributeName with
  | none =>
      rw [hindex, Option.bind_none] at hfound
      rw [hfound]
      rfl
  | some index =>
      obtain ⟨hlt, -⟩ := List.findIdx?_eq_some_iff_getElem.mp hindex
      rw [hindex, Option.bind_some, List.getElem?_eq_getElem hlt] at hfound
      have hwrite : w.update id (fun o => { o with values := o.values.set index value }) =
          w.update id (·.setValue attributeName value) := by
        refine h.update_congr (demand_eq_ok_iff.mp ho) ?_
        rw [Instance.setValue, hindex]
      dsimp only
      rw [hfound, List.getElem?_eq_getElem hlt, Option.forM, exec_bind, exec_failIf]
      dsimp only
      cases o.snippet.attributes[index].allows value with
      | false => rfl
      | true =>
          change (modify _ : Action Unit).exec w = _
          rw [exec_modify, h.alterFirst_eq_update, hwrite]
          rfl

theorem exec_rename (h : w.WellFormed) (id : InstanceId) (name : String) :
    (rename id name).exec w = settle w ((), ·) (w.rename id name) := by
  unfold rename World.rename
  rw [exec_bind, exec_get]
  dsimp only
  by_cases hsame : (w.get? id).any (·.name == name)
  · rw [if_pos hsame, if_pos hsame]
    rfl
  · rw [if_neg hsame, if_neg hsame]
    refine exec_check_bind fun _ _ => ?_
    refine exec_check_bind fun _ _ => ?_
    rw [exec_modify, h.alterFirst_eq_update]
    rfl

theorem exec_remove (gone : InstanceId) (w : World) :
    (remove gone).exec w = settle w id (w.remove gone) := by
  unfold remove World.remove
  rw [exec_bind, exec_get]
  dsimp only
  rw [exec_bind, exec_failIf]
  by_cases hid : gone = w.environment.id
  · simp only [hid, decide_true, if_true]
    rfl
  · simp only [hid, decide_false, if_false]
    exact exec_check_bind fun _ _ => rfl

theorem exec_resizeArray (index elements : Nat) (w : World) :
    (resizeArray index elements).exec w = settle w ((), ·) (w.resizeArray index elements) :=
  exec_check_bind fun _ _ => rfl

theorem exec_removeArray (index : Nat) (w : World) :
    (removeArray index).exec w = settle w id (w.removeArray index) :=
  exec_check_bind fun _ _ => rfl

theorem exec_setArray (h : w.WellFormed) (id : InstanceId) (index? : Option Nat) :
    (setArray id index?).exec w = settle w ((), ·) (w.setArray id index?) := by
  have hwrite : (do
      let _ ← check (·.demand id)
      modify (·.alterFirst id fun o => { o with array? := index? }) : Action Unit).exec w =
        settle w ((), ·) (do
          let _ ← w.demand id
          return w.update id fun o => { o with array? := index? }) := by
    refine exec_check_bind fun _ _ => ?_
    rw [exec_modify, h.alterFirst_eq_update]
    rfl
  unfold setArray World.setArray
  rw [exec_bind, exec_get]
  dsimp only
  rw [exec_bind, exec_failIf]
  cases hrefused : (decide (id = w.environment.id) && index?.isSome) with
  | true => rfl
  | false =>
      cases index? with
      | none => exact hwrite
      | some index =>
          simp only [Bool.false_eq_true, if_false, Option.forM]
          rw [exec_bind, exec_check]
          cases w.demandArray index with
          | error e => rfl
          | ok array => exact hwrite

theorem exec_addArray (name : String) (elements : Nat) (w : World) :
    (addArray name elements).exec w =
      (.ok (w.addArray name elements).1, (w.addArray name elements).2) := by
  have hcount : (w.arrays ++ [ArrayDef.mk name elements]).length - 1 = w.arrays.length := by simp
  rw [World.addArray, ← hcount]
  rfl

theorem exec_instantiate (snippet : Snippet) (w : World) :
    (instantiate snippet).exec w = settle w id (w.instantiate snippet) := by
  rw [instantiate, exec_bind, exec_get, World.instantiate]
  exact exec_addEntity snippet (w.freshName snippet.name) w

theorem exec_connect (snippet : Snippet) (source target : InstanceId) (w : World) :
    (connect snippet source target).exec w = settle w id (w.connect snippet source target) := by
  rw [connect, exec_bind, exec_get, World.connect]
  exact exec_addRelation snippet (w.freshName snippet.name) source target w

end Action

/-- In a well-formed world the programs do what `perform` does. -/
theorem exec_program (h : w.WellFormed) (edit : Edit) : edit.program.exec w = w.perform edit := by
  rw [perform_eq_settle]
  cases edit with
  | instantiate snippet => exact Program.exec_bind_pure (Action.exec_instantiate _ _) _
  | addEntity snippet name => exact Program.exec_bind_pure (Action.exec_addEntity _ _ _) _
  | connect snippet source target => exact Program.exec_bind_pure (Action.exec_connect _ _ _ _) _
  | addRelation snippet name source target =>
      exact Program.exec_bind_pure (Action.exec_addRelation _ _ _ _ _) _
  | setAttribute id attributeName value =>
      exact Program.exec_bind_pure (Action.exec_setAttribute h _ _ _) _
  | rename id name => exact Program.exec_bind_pure (Action.exec_rename h _ _) _
  | remove gone => exact Program.exec_bind_pure (Action.exec_remove _ _) _
  | reset => rfl
  | addArray name elements =>
      change (_ >>= fun index => pure (.arrayAdded index) : Action Reply).exec w = _
      rw [Program.exec_bind, Action.exec_addArray]
      rfl
  | resizeArray index elements => exact Program.exec_bind_pure (Action.exec_resizeArray _ _ _) _
  | removeArray index => exact Program.exec_bind_pure (Action.exec_removeArray _ _) _
  | setArray id index? => exact Program.exec_bind_pure (Action.exec_setArray h _ _) _

theorem Reachable.execAll_eq_performAll (h : Reachable w) (edits : List Edit) :
    w.execAll edits = w.performAll edits := by
  induction edits generalizing w with
  | nil => rfl
  | cons edit edits ih =>
      have hexec := exec_program h.wellFormed edit
      have hnext := h.edit edit
      rcases hperform : w.perform edit with ⟨reply, v⟩
      rw [hperform] at hexec hnext
      rw [execAll_cons hexec, ih hnext, performAll, hperform]

end World

end Stencil
