import Stencil.Proofs.Script.Palette
import Stencil.Proofs.World.Run

/-!
# Passes that make colours distinct

A pass changes the values of the instances of its class, and nothing else in the world. If every
pass that is registered makes colours distinct, then there is nothing left to do for them after
the first time: the world is prepared once and for all, and to assemble a script again gives the
same script.
-/

namespace Stencil

namespace Generator

variable {g : Generator} {o : Instance}

/-- The names of the classes with a pass. -/
def registered (g : Generator) : List String := g.passes.map (·.1)

theorem pass?_eq_none {className : String} (h : className ∉ g.registered) :
    g.pass? className = none := by
  rw [pass?, Option.map_eq_none_iff, List.find?_eq_none]
  intro p hp hname
  exact h (List.mem_map.mpr ⟨p, hp, beq_iff_eq.mp hname⟩)

theorem exists_pass?_of_mem {className : String} (h : className ∈ g.registered) :
    ∃ p ∈ g.passes, g.pass? className = some p.2 := by
  obtain ⟨q, hq, hname⟩ := List.mem_map.mp h
  have hfound : (g.passes.find? (·.1 == className)).isSome = true :=
    List.find?_isSome.mpr ⟨q, hq, beq_iff_eq.mpr hname⟩
  obtain ⟨p, hp⟩ := Option.isSome_iff_exists.mp hfound
  exact ⟨p, List.mem_of_find?_eq_some hp, by rw [pass?, hp, Option.map_some]⟩

theorem prepareInstance_of_notMem (h : o.snippet.name ∉ g.registered) :
    g.prepareInstance o = o := by
  rw [prepareInstance, pass?_eq_none h]

/-- Every pass that is registered makes colours distinct. -/
def OnlyDistinguishes (g : Generator) : Prop := ∀ p ∈ g.passes, p.2 = .distinctColors

namespace OnlyDistinguishes

theorem prepareInstance_of_mem (h : g.OnlyDistinguishes) (ho : o.snippet.name ∈ g.registered) :
    g.prepareInstance o = { o with values := Palette.distinguish o.values } := by
  obtain ⟨p, hp, hpass⟩ := exists_pass?_of_mem ho
  rw [prepareInstance, hpass, h p hp]
  rfl

theorem prepareInstance_prepareInstance (h : g.OnlyDistinguishes) (o : Instance) :
    g.prepareInstance (g.prepareInstance o) = g.prepareInstance o := by
  by_cases ho : o.snippet.name ∈ g.registered
  · have ho' : (g.prepareInstance o).snippet.name ∈ g.registered := by
      rwa [(Instance.persists_prepareInstance g o).snippet]
    rw [h.prepareInstance_of_mem ho', h.prepareInstance_of_mem ho,
      Palette.distinguish_distinguish]
  · rw [prepareInstance_of_notMem ho, prepareInstance_of_notMem ho]

theorem prepare_prepare (h : g.OnlyDistinguishes) (w : World) :
    g.prepare (g.prepare w) = g.prepare w := by
  rw [prepare, prepare, World.mapInstances_mapInstances]
  exact World.mapInstances_congr fun o _ => h.prepareInstance_prepareInstance o

end OnlyDistinguishes

/-- If all passes make colours distinct, they change the values of the instances of their classes
and nothing else, and they change them once: a second preparation changes nothing, and a second
script is the first one. -/
theorem prepare_distinguishes_once (h : g.OnlyDistinguishes) (w : World) :
    List.Forall₂
        (fun o p => p = { o with values := p.values } ∧
          p.values =
            if o.snippet.name ∈ g.registered then Palette.distinguish o.values else o.values)
        w.instances (g.prepare w).instances ∧
      (g.prepare w).arrays = w.arrays ∧ (g.prepare w).nextId = w.nextId ∧
      g.prepare (g.prepare w) = g.prepare w ∧
      g.assemble (g.assemble w).2 = g.assemble w := by
  refine ⟨?_, rfl, rfl, h.prepare_prepare w, ?_⟩
  · change List.Forall₂ _ w.instances (w.instances.map g.prepareInstance)
    rw [List.forall₂_map_right_iff, List.forall₂_same]
    intro o _
    by_cases ho : o.snippet.name ∈ g.registered
    · rw [h.prepareInstance_of_mem ho, if_pos ho]
      exact ⟨rfl, rfl⟩
    · rw [prepareInstance_of_notMem ho, if_neg ho]
      exact ⟨rfl, rfl⟩
  · change ((g.prepare (g.prepare w)).script g.style, g.prepare (g.prepare w)) = _
    rw [h.prepare_prepare w]
    rfl

/-- A class with three colours, which are the same until they are chosen. -/
def badge : Snippet where
  name := "Badge"
  unique := false
  kind := .entity "node" 0
  attributes := [⟨"fill", some "red", none⟩, ⟨"edge", some "red", none⟩, ⟨"text", some "red", none⟩]
  patterns := [.literal "set #name# [badge #fill# #edge# #text#]"]

/-- A badge and a node. -/
def badges : World :=
  (World.lone.performAll [.addEntity badge "b", .addEntity World.node "n"]).2

/-- A generator with a pass for badges. -/
def recoloring : Generator := ⟨.standard, [("Badge", .distinctColors)]⟩

/-- The badge gets two new colours, once. -/
theorem prepare_distinguishes_once_badges :
    recoloring.OnlyDistinguishes ∧
      badges.instances.map (·.values) = [[], ["red", "red", "red"], ["black"]] ∧
      (recoloring.prepare badges).instances.map (·.values) =
        [[], ["red", "white", "black"], ["black"]] ∧
      recoloring.prepare (recoloring.prepare badges) = recoloring.prepare badges ∧
      recoloring.assemble (recoloring.assemble badges).2 = recoloring.assemble badges := by
  have honly : recoloring.OnlyDistinguishes := by
    intro p hp
    rw [List.mem_singleton.mp hp]
  obtain ⟨-, -, -, hprepare, hassemble⟩ := prepare_distinguishes_once honly badges
  exact ⟨honly, by decide, by decide, hprepare, hassemble⟩

end Generator

end Stencil
