import Stencil.Proofs.Program
import Stencil.Proofs.World.WellFormed
import Stencil.World.Action

/-!
# A refused edit leaves no trace

Every edit checks before it writes (`atomic_program`). What is refused can therefore be left out
of a list of edits: the rest gets the same answers and leads to the same world.

The world that the edits start in may be any, and none of it has to be in order.
-/

namespace Stencil

namespace World

namespace Action

open Program

theorem exec_create (snippet : Snippet) (name : String) (role : Role) (w : World) :
    (create snippet name role).exec w = (.ok ⟨w.nextId⟩, (w.push snippet name role).2) := rfl

theorem atomic_create (snippet : Snippet) (name : String) (role : Role) :
    Atomic (create snippet name role) :=
  Succeeds.atomic fun w => ⟨_, _, exec_create snippet name role w⟩

theorem atomic_addEntity (snippet : Snippet) (name : String) :
    Atomic (addEntity snippet name) := by
  refine (reads_failIf _ _).bind fun _ => ?_
  refine (reads_check _).bind fun _ => ?_
  exact atomic_create snippet name .entity

theorem atomic_addRelation (snippet : Snippet) (name : String) (source target : InstanceId) :
    Atomic (addRelation snippet name source target) := by
  unfold addRelation
  split
  · exact (reads_throw _).atomic
  · refine (reads_check _).bind fun _ => ?_
    refine (reads_check _).bind fun a => ?_
    refine (reads_check _).bind fun b => ?_
    refine (reads_failIf _ _).bind fun _ => ?_
    refine (reads_check _).bind fun _ => ?_
    refine (reads_check _).bind fun _ => ?_
    refine (reads_check _).bind fun _ => ?_
    refine (reads_check _).bind fun _ => ?_
    exact atomic_create snippet name (.relation source target)

theorem atomic_setAttribute (id : InstanceId) (attributeName value : String) :
    Atomic (setAttribute id attributeName value) := by
  refine (reads_check _).bind fun o => ?_
  split
  · exact (reads_throw _).atomic
  · refine (reads_forM _ fun a => reads_failIf _ _).bind fun _ => ?_
    exact (succeeds_modify _).atomic

theorem atomic_rename (id : InstanceId) (name : String) : Atomic (rename id name) := by
  refine reads_get.bind fun w => ?_
  split
  · exact (succeeds_pure _).atomic
  · refine (reads_check _).bind fun _ => ?_
    refine (reads_check _).bind fun _ => ?_
    exact (succeeds_modify _).atomic

theorem atomic_remove (id : InstanceId) : Atomic (remove id) := by
  refine reads_get.bind fun w => ?_
  refine (reads_failIf _ _).bind fun _ => ?_
  refine (reads_check _).bind fun _ => ?_
  refine reads_get.bind fun w' => ?_
  exact (succeeds_modify _).atomic.bind fun _ => succeeds_pure _

theorem atomic_resizeArray (index elements : Nat) : Atomic (resizeArray index elements) :=
  (reads_check _).bind fun _ => (succeeds_modify _).atomic

theorem atomic_removeArray (index : Nat) : Atomic (removeArray index) := by
  refine (reads_check _).bind fun array => Succeeds.atomic ?_
  refine (succeeds_modify _).bind fun _ => ?_
  exact (succeeds_modify _).bind fun _ => succeeds_pure array

theorem atomic_setArray (id : InstanceId) (index? : Option Nat) : Atomic (setArray id index?) := by
  refine reads_get.bind fun w => ?_
  refine (reads_failIf _ _).bind fun _ => ?_
  refine (reads_forM _ fun index => reads_check _).bind fun _ => ?_
  refine (reads_check _).bind fun _ => ?_
  exact (succeeds_modify _).atomic

theorem succeeds_reset : Succeeds reset := by
  refine (succeeds_modify _).bind fun _ => ?_
  refine (succeeds_modify _).bind fun _ => ?_
  exact (succeeds_modify _).bind fun _ => succeeds_modify _

theorem succeeds_addArray (name : String) (elements : Nat) : Succeeds (addArray name elements) := by
  refine (succeeds_modify _).bind fun _ => ?_
  exact Succeeds.bind (fun w => ⟨w, w, rfl⟩) fun w => succeeds_pure _

end Action

/-- The step: every edit reads all that can refuse it before it writes. -/
theorem Edit.atomic_program (edit : Edit) : edit.program.Atomic := by
  cases edit with
  | instantiate snippet =>
      exact (Program.reads_get.bind fun w => Action.atomic_addEntity _ _).bind
        fun _ => Program.succeeds_pure _
  | addEntity snippet name =>
      exact (Action.atomic_addEntity _ _).bind fun _ => Program.succeeds_pure _
  | connect snippet source target =>
      exact (Program.reads_get.bind fun w => Action.atomic_addRelation _ _ _ _).bind
        fun _ => Program.succeeds_pure _
  | addRelation snippet name source target =>
      exact (Action.atomic_addRelation _ _ _ _).bind fun _ => Program.succeeds_pure _
  | setAttribute id attributeName value =>
      exact (Action.atomic_setAttribute _ _ _).bind fun _ => Program.succeeds_pure _
  | rename id name => exact (Action.atomic_rename _ _).bind fun _ => Program.succeeds_pure _
  | remove id => exact (Action.atomic_remove _).bind fun _ => Program.succeeds_pure _
  | reset => exact Action.succeeds_reset.atomic.bind fun _ => Program.succeeds_pure _
  | addArray name elements =>
      exact (Action.succeeds_addArray _ _).atomic.bind fun _ => Program.succeeds_pure _
  | resizeArray index elements =>
      exact (Action.atomic_resizeArray _ _).bind fun _ => Program.succeeds_pure _
  | removeArray index =>
      exact (Action.atomic_removeArray _).bind fun _ => Program.succeeds_pure _
  | setArray id index? => exact (Action.atomic_setArray _ _).bind fun _ => Program.succeeds_pure _

theorem execAll_cons {w v : World} {edit : Edit} {reply : Except Error Reply}
    (h : edit.program.exec w = (reply, v)) (edits : List Edit) :
    w.execAll (edit :: edits) = (reply :: (v.execAll edits).1, (v.execAll edits).2) := by
  change ((edit.program.exec w).1 :: ((edit.program.exec w).2.execAll edits).1,
    ((edit.program.exec w).2.execAll edits).2) = _
  rw [h]

/-- The edits that were not refused, given the answers to all of them. -/
def accepted (edits : List Edit) (replies : List (Except Error Reply)) : List Edit :=
  ((edits.zip replies).filter (·.2.isOk)).map (·.1)

theorem accepted_cons_error (edit : Edit) (edits : List Edit) (e : Error)
    (replies : List (Except Error Reply)) :
    accepted (edit :: edits) (.error e :: replies) = accepted edits replies := rfl

theorem accepted_cons_ok (edit : Edit) (edits : List Edit) (reply : Reply)
    (replies : List (Except Error Reply)) :
    accepted (edit :: edits) (.ok reply :: replies) = edit :: accepted edits replies := rfl

/-- Edits that are refused can be left out: the answers to the others and the world in the end
stay the same. -/
theorem refused_edits_leave_no_trace (w : World) (edits : List Edit) :
    let (replies, final) := w.execAll edits
    replies.length = edits.length ∧
      w.execAll (accepted edits replies) = (replies.filter (·.isOk), final) := by
  induction edits generalizing w with
  | nil => exact ⟨rfl, rfl⟩
  | cons edit edits ih =>
      rcases hexec : edit.program.exec w with ⟨e | reply, v⟩
      · -- The edit is refused, so the next one starts in the same world without it.
        obtain rfl : v = w := edit.atomic_program w e v hexec
        obtain ⟨hlength, hrest⟩ := ih v
        rw [execAll_cons hexec]
        refine ⟨congrArg (· + 1) hlength, ?_⟩
        rw [accepted_cons_error, hrest]
        rfl
      · obtain ⟨hlength, hrest⟩ := ih v
        rw [execAll_cons hexec]
        refine ⟨congrArg (· + 1) hlength, ?_⟩
        rw [accepted_cons_ok, execAll_cons hexec, hrest]
        rfl

end World

end Stencil
