import Stencil.Proofs.World.Linked

/-!
# A reset starts anew

A reset writes the name and the values of the environment. Its number, its class, its role and
its array it leaves as they are, and does so rightly: no edit and no pass has changed them since
the start. So a reset leads back to the world that the class of the environment starts with, but
for the next number, which no script shows.
-/

namespace Stencil

namespace World

variable {w : World}

theorem script_nextId (w : World) (n : Nat) (style : Style) :
    { w with nextId := n }.script style = w.script style := rfl

/-- The class of the environment is one that a world can start with. -/
theorem Reachable.environment_class (h : Reachable w) :
    w.environment.snippet.isRelation = false := by
  have hclass := (h.linked.joined_of_mem w.environment_mem_instances).isRelation
  rw [Instance.isRelation, h.wellFormed.environment_role] at hclass
  exact hclass.symm

/-- What a reset does not write is as it was at the start. -/
theorem WellFormed.environment_reset (h : w.WellFormed) :
    w.reset.environment =
      .create ⟨0⟩ w.environment.snippet defaultEnvironmentName .entity := by
  rw [Instance.create, ← h.environment_id, ← h.environment_role, ← h.environment_array]
  rfl

/-- A reset leads to the world that the class of the environment starts with under the default
name; only the numbers handed out before stay spent. The environment is an entity on no array
there, and all scripts are those of the start. -/
theorem reset_starts_anew (h : Reachable w) :
    ∃ start, ofEnvironment w.environment.snippet "ns" = .ok start ∧
      w.reset = { start with nextId := w.nextId } ∧
      w.reset.environment.role = .entity ∧ w.reset.environment.array? = none ∧
      (∀ style, w.reset.script style = start.script style) ∧
      ∀ g : Generator, (g.assemble w.reset).1 = (g.assemble start).1 := by
  let start : World :=
    ⟨.create ⟨0⟩ w.environment.snippet defaultEnvironmentName .entity, [], [], 1⟩
  have hstart : ofEnvironment w.environment.snippet "ns" = .ok start :=
    ofEnvironment_eq_ok_iff.mpr ⟨h.environment_class, isName_default, rfl⟩
  have hreset : w.reset = { start with nextId := w.nextId } := by
    dsimp only [start]
    rw [← h.wellFormed.environment_reset]
    rfl
  refine ⟨start, hstart, hreset, h.wellFormed.environment_role, h.wellFormed.environment_array,
    ?_, ?_⟩
  · intro style
    rw [hreset]
    exact start.script_nextId w.nextId style
  · intro g
    rw [hreset]
    exact (g.prepare start).script_nextId w.nextId g.style

/-- A class of environments with an attribute. -/
def clockwork : Snippet where
  name := "Clockwork"
  unique := true
  kind := .entity "env" 4
  attributes := [⟨"step", some "0.1", none⟩]
  patterns := [.literal "set #name# [new Clockwork #step#]"]

/-- The clockwork alone. -/
def stopped : World := ⟨.create ⟨0⟩ clockwork defaultEnvironmentName .entity, [], [], 1⟩

/-- The clockwork with another step and another name, and a node on an array. -/
def ticking : World :=
  (stopped.performAll [.setAttribute ⟨0⟩ "step" "0.5", .rename ⟨0⟩ "sim", .addArray "i" 2,
    .addEntity node "a", .setArray ⟨1⟩ (some 0)]).2

/-- The reset takes back the step, the name, the node and the array. -/
theorem reset_starts_anew_ticking :
    Reachable ticking ∧ ticking.environment.name = "sim" ∧ ticking.environment.values = ["0.5"] ∧
      ticking.others.map (·.array?) = [some 0] ∧
      ticking.reset = { stopped with nextId := 2 } ∧
      ∀ style, ticking.reset.script style = stopped.script style := by
  have hstart : ofEnvironment clockwork "ns" = .ok stopped := rfl
  have hreachable : Reachable ticking := (Reachable.start hstart).performAll _
  obtain ⟨start, hstart', hreset, -, -, hscript, -⟩ := reset_starts_anew hreachable
  obtain rfl := Except.ok.inj (hstart.symm.trans hstart')
  exact ⟨hreachable, by decide, by decide, by decide, hreset, hscript⟩

end World

end Stencil
