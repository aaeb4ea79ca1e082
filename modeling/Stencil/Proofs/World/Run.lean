import Stencil.Proofs.World.WellFormed

/-!
# Runs

`follow` is a run as a list of events, `Reachable` what a run can lead to. Every number
that a run hands out is at least the next number of the world it starts from, and larger
than the numbers handed out before, whatever is removed in between.
-/

namespace Stencil

namespace World

theorem Reachable.follow {w : World} (h : Reachable w) (events : List Event) :
    Reachable (w.follow events).2 := by
  induction events generalizing w with
  | nil => exact h
  | cons event events ih =>
      cases event with
      | edit e => exact ih (h.edit e)
      | prepare g => exact ih (h.prepare g)

theorem Reachable.performAll {w : World} (h : Reachable w) (edits : List Edit) :
    Reachable (w.performAll edits).2 := by
  induction edits generalizing w with
  | nil => exact h
  | cons e edits ih => exact ih (h.edit e)

theorem EditReachable.performAll {w : World} (h : EditReachable w) (edits : List Edit) :
    EditReachable (w.performAll edits).2 := by
  induction edits generalizing w with
  | nil => exact h
  | cons e edits ih => exact ih (h.edit e)

theorem follow_append (w : World) (events later : List Event) :
    (w.follow (events ++ later)).2 = ((w.follow events).2.follow later).2 := by
  induction events generalizing w with
  | nil => rfl
  | cons event events ih =>
      cases event with
      | edit e => exact ih (w.perform e).2
      | prepare g => exact ih (g.prepare w)

/-- The reachable worlds are the ends of runs. -/
theorem reachable_iff_exists_follow {w : World} :
    Reachable w ↔ ∃ snippet name start events,
      ofEnvironment snippet name = .ok start ∧ (start.follow events).2 = w := by
  constructor
  · intro h
    induction h with
    | @start snippet name w hw => exact ⟨snippet, name, w, [], hw, rfl⟩
    | edit e _ ih =>
        obtain ⟨snippet, name, start, events, hstart, rfl⟩ := ih
        exact ⟨snippet, name, start, events ++ [.edit e], hstart, follow_append _ _ _⟩
    | prepare g _ ih =>
        obtain ⟨snippet, name, start, events, hstart, rfl⟩ := ih
        exact ⟨snippet, name, start, events ++ [.prepare g], hstart, follow_append _ _ _⟩
  · rintro ⟨snippet, name, start, events, hstart, rfl⟩
    exact (Reachable.start hstart).follow events

/-- A reply hands out the next number, or none; then the next number stays. -/
theorem Effect.nextId {w w' : World} {reply : Reply} (h : Effect w reply w') :
    reply.created? = some ⟨w.nextId⟩ ∧ w'.nextId = w.nextId + 1 ∨
      reply.created? = none ∧ w'.nextId = w.nextId := by
  cases h with
  | addEntity _ _ => exact .inl ⟨rfl, rfl⟩
  | addRelation _ _ _ _ _ => exact .inl ⟨rfl, rfl⟩
  | _ => exact .inr ⟨rfl, rfl⟩

theorem created_cons_error (e : Error) (replies : List (Except Error Reply)) :
    created (.error e :: replies) = created replies := rfl

theorem created_cons_ok (reply : Reply) (replies : List (Except Error Reply)) :
    created (.ok reply :: replies) = reply.created?.toList ++ created replies := by
  cases h : reply.created? with
  | none => simp [created, Except.toOption, h]
  | some id => simp [created, Except.toOption, h]

/-- The numbers that a run hands out start at the next number and increase. -/
theorem created_follow (w : World) (events : List Event) :
    (∀ id ∈ created (w.follow events).1, w.nextId ≤ id.index) ∧
      (created (w.follow events).1).Pairwise fun a b => a.index < b.index := by
  induction events generalizing w with
  | nil => exact ⟨by simp [World.follow, created], by simp [World.follow, created]⟩
  | cons event events ih =>
      cases event with
      | prepare g => exact ih (g.prepare w)
      | edit e =>
          -- The rest of the run starts from the next number that this edit leaves.
          obtain ⟨hge, hincreasing⟩ := ih (w.perform e).2
          change (∀ id ∈ created ((w.perform e).1 :: ((w.perform e).2.follow events).1), _) ∧
            (created ((w.perform e).1 :: ((w.perform e).2.follow events).1)).Pairwise _
          rcases perform_cases w e with ⟨reply, hreply, heffect⟩ | ⟨⟨e', herror⟩, hsame⟩
          · rw [hreply, created_cons_ok]
            rcases heffect.nextId with ⟨hcreated, hnext⟩ | ⟨hnone, hnext⟩
            · rw [hnext] at hge
              rw [hcreated]
              refine ⟨?_, ?_⟩
              · intro id hid
                rcases List.mem_cons.mp hid with rfl | hid
                · exact Nat.le_refl _
                · exact Nat.le_of_succ_le (hge id hid)
              · exact List.pairwise_cons.mpr ⟨hge, hincreasing⟩
            · rw [hnext] at hge
              rw [hnone]
              exact ⟨hge, hincreasing⟩
          · rw [hsame] at hge hincreasing ⊢
            rw [herror, created_cons_error]
            exact ⟨hge, hincreasing⟩

theorem nodup_created_follow (w : World) (events : List Event) :
    (created (w.follow events).1).Nodup := by
  refine (created_follow w events).2.imp ?_
  intro a b hlt heq
  rw [heq] at hlt
  exact Nat.lt_irrefl _ hlt

/-! ### A small network -/

/-- The class of the environment. -/
def simulator : Snippet where
  name := "Simulator"
  unique := true
  kind := .entity "env" 4
  attributes := []
  patterns := [.literal "set #name# [new Simulator]"]

/-- A class of entities. -/
def node : Snippet where
  name := "Node"
  unique := false
  kind := .entity "node" 0
  attributes := [⟨"color", some "black", none⟩]
  patterns := [.literal "set #name# [$#env.name# node]"]

/-- A class of relations between nodes. -/
def link : Snippet where
  name := "Link"
  unique := false
  kind := .relation ⟨"node", false⟩ ⟨"node", false⟩ ⟨0, 0, 1, 0⟩
  attributes := []
  patterns := [.literal "$#env.name# duplex-link $#from# $#to#"]

/-- The simulator alone. -/
def lone : World := ⟨.create ⟨0⟩ simulator defaultEnvironmentName .entity, [], [], 1⟩

/-- Three nodes in a row, the first two of them on arrays of their own. -/
def building : List Edit :=
  [.addArray "i" 2, .addArray "j" 3, .addEntity node "a", .addEntity node "b",
    .addEntity node "c", .setArray ⟨1⟩ (some 0), .setArray ⟨2⟩ (some 1),
    .addRelation link "ab" ⟨1⟩ ⟨2⟩, .addRelation link "bc" ⟨2⟩ ⟨3⟩]

/-- The world with the three nodes. -/
def network : World := (lone.performAll building).2

theorem ofEnvironment_simulator : ofEnvironment simulator defaultEnvironmentName = .ok lone :=
  rfl

theorem reachable_network : Reachable network :=
  (Reachable.start ofEnvironment_simulator).performAll building

/-- The network is built, and its middle node replaced; a name that is taken is refused, and
in the end all is given up for a new node. -/
def rebuilding : List Event :=
  building.map .edit ++
    [.edit (.remove ⟨2⟩), .edit (.removeArray 0), .edit (.addEntity node "c"),
      .edit (.addEntity node "b"), .edit (.addRelation link "bc" ⟨6⟩ ⟨3⟩),
      .prepare ⟨.standard, [("Node", .distinctColors)]⟩, .edit .reset,
      .edit (.addEntity node "a")]

/-- However a run goes, it ends in a well-formed world, and no number that it hands out to a
new instance comes back, not after a removal nor after a reset. -/
theorem wellFormed_follow_and_nodup_created {snippet : Snippet} {name : String} {w : World}
    (h : ofEnvironment snippet name = .ok w) (events : List Event) :
    (w.follow events).2.WellFormed ∧ (created (w.follow events).1).Nodup :=
  ⟨((Reachable.start h).follow events).wellFormed, nodup_created_follow w events⟩

/-- The numbers of a removed node and of its link are not handed out again, nor are those that
were spent before a reset. -/
theorem wellFormed_follow_network :
    ofEnvironment simulator defaultEnvironmentName = .ok lone ∧
      (lone.follow rebuilding).2.WellFormed ∧ (created (lone.follow rebuilding).1).Nodup ∧
      (lone.follow rebuilding).2.instances.map (·.id) = [⟨0⟩, ⟨8⟩] ∧
      created (lone.follow rebuilding).1 = [⟨1⟩, ⟨2⟩, ⟨3⟩, ⟨4⟩, ⟨5⟩, ⟨6⟩, ⟨7⟩, ⟨8⟩] := by
  obtain ⟨hwell, hnodup⟩ := wellFormed_follow_and_nodup_created ofEnvironment_simulator rebuilding
  exact ⟨ofEnvironment_simulator, hwell, hnodup, by decide, by decide⟩

end World

end Stencil
