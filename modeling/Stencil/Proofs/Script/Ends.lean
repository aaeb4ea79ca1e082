import Stencil.Proofs.Script.Order
import Stencil.Proofs.World.Linked

/-!
# Where the ends of a relation stand

A relation is to be written behind the entities that it links, and ranks are there to
see to it. They do so for the environment, which stands first, and for most layers. But
relations have ranks up to ten, and an entity of layer `other` has rank eleven; and any
link of a timer has rank eight, also the one to a generic entity of rank nine. Such an end
*trails* its links. `ends_stand_before_relation_iff` says that these are all the exceptions.
-/

namespace Stencil

namespace Layer

/-- An entity of layer `x` has a higher rank than its links to layer `y`. -/
def Trails (x y : Layer) : Prop := x = other ∨ x = generic ∧ y = timer

instance (x y : Layer) : Decidable (Trails x y) := inferInstanceAs (Decidable (_ ∨ _))

theorem linkRank_comm (x y : Option Layer) : linkRank x y = linkRank y x := by
  rcases x with _ | x <;> rcases y with _ | y
  · rfl
  · cases y <;> rfl
  · cases x <;> rfl
  · cases x <;> cases y <;> rfl

theorem rank_lt_linkRank_iff (x y : Layer) :
    x.rank < linkRank (some x) (some y) ↔ ¬ x.Trails y := by
  cases x <;> cases y <;> decide

/-- Entities have odd ranks, links have even ones. -/
theorem rank_ne_linkRank (x y : Layer) : x.rank ≠ linkRank (some x) (some y) := by
  cases x <;> cases y <;> decide

end Layer

namespace World

variable {w : World}

/-- `a` stands somewhere before `o` in the script. -/
def StandsBefore (w : World) (a o : Instance) : Prop :=
  ∃ before after, w.ordered = before ++ o :: after ∧ a ∈ before

theorem rank_le_of_precedes {a b : Instance} (h : w.precedes a b = true) :
    w.rank a ≤ w.rank b := by
  rcases precedes_iff.mp h with hlt | ⟨heq, -⟩
  · exact Nat.le_of_lt hlt
  · exact Nat.le_of_eq heq

theorem mem_others_of_ne {o : Instance} (ho : o ∈ w.instances) (hne : o ≠ w.environment) :
    o ∈ w.others := by
  rcases List.mem_cons.mp ho with rfl | ho
  · exact absurd rfl hne
  · exact ho

/-- The environment stands before every other instance. -/
theorem standsBefore_environment {o : Instance} (ho : o ∈ w.others) :
    w.StandsBefore w.environment o := by
  obtain ⟨before, after, hsplit⟩ :=
    List.append_of_mem (List.mem_mergeSort.mpr ho : o ∈ w.others.mergeSort w.precedes)
  refine ⟨w.environment :: before, after, ?_, List.mem_cons_self⟩
  rw [ordered, hsplit, List.cons_append]

/-- Of two instances, neither of them the environment, the one of smaller rank stands first. -/
theorem standsBefore_of_rank_lt {a o : Instance} (ha : a ∈ w.others) (ho : o ∈ w.others)
    (hlt : w.rank a < w.rank o) : w.StandsBefore a o := by
  have hsorted := w.pairwise_mergeSort_precedes w.others
  obtain ⟨before, after, hsplit⟩ :=
    List.append_of_mem (List.mem_mergeSort.mpr ho : o ∈ w.others.mergeSort w.precedes)
  refine ⟨w.environment :: before, after, by rw [ordered, hsplit, List.cons_append], ?_⟩
  have hmem : a ∈ before ++ o :: after := hsplit ▸ List.mem_mergeSort.mpr ha
  rw [hsplit, List.pairwise_append, List.pairwise_cons] at hsorted
  rcases List.mem_append.mp hmem with hbefore | hrest
  · exact List.mem_cons_of_mem _ hbefore
  · rcases List.mem_cons.mp hrest with rfl | hafter
    · exact absurd hlt (Nat.lt_irrefl _)
    · have hle := rank_le_of_precedes (hsorted.2.1.1 a hafter)
      exact absurd hlt (Nat.not_lt_of_le hle)

theorem rank_le_of_standsBefore {a o : Instance} (ha : a ≠ w.environment)
    (h : w.StandsBefore a o) : w.rank a ≤ w.rank o := by
  have hsorted := w.pairwise_mergeSort_precedes w.others
  obtain ⟨before, after, hsplit, hmem⟩ := h
  cases before with
  | nil => exact absurd hmem List.not_mem_nil
  | cons first before =>
      rw [ordered, List.cons_append, List.cons_eq_cons] at hsplit
      obtain ⟨rfl, hsplit⟩ := hsplit
      rw [hsplit, List.pairwise_append] at hsorted
      rcases List.mem_cons.mp hmem with rfl | hbefore
      · exact absurd rfl ha
      · exact rank_le_of_precedes (hsorted.2.2 a hbefore o List.mem_cons_self)

theorem standsBefore_iff_rank_lt {a o : Instance} (ha : a ∈ w.instances) (ho : o ∈ w.instances)
    (hane : a ≠ w.environment) (hone : o ≠ w.environment) (hrank : w.rank a ≠ w.rank o) :
    w.StandsBefore a o ↔ w.rank a < w.rank o := by
  constructor
  · intro h
    exact Nat.lt_of_le_of_ne (rank_le_of_standsBefore hane h) hrank
  · exact standsBefore_of_rank_lt (mem_others_of_ne ha hane) (mem_others_of_ne ho hone)

theorem rank_of_entity {a : Instance} {x : Layer} (hrole : a.role = .entity)
    (hlayer : Layer.of? a = some x) : w.rank a = x.rank := by
  simp [rank, hrole, hlayer]

theorem rank_of_relation {o a b : Instance} {source target : InstanceId}
    (hrole : o.role = .relation source target) (ha : w.get? source = some a)
    (hb : w.get? target = some b) :
    w.rank o = Layer.linkRank (Layer.of? a) (Layer.of? b) := by
  simp [rank, hrole, ha, hb]

/-- An entity has a layer. -/
theorem Linked.exists_layer (h : w.Linked) {a : Instance} (ha : a ∈ w.instances)
    (hrole : a.role = .entity) : ∃ x, Layer.of? a = some x := by
  have hclass := (h.joined_of_mem ha).isRelation
  rw [Instance.isRelation, hrole] at hclass
  unfold Layer.of?
  unfold Snippet.isRelation at hclass
  cases hkind : a.snippet.kind with
  | entity category icon => exact ⟨Layer.ofIcon icon, rfl⟩
  | relation source target style => simp [hkind, Kind.isRelation, Role.isRelation] at hclass

/-- Each end of a relation stands before it if it is the environment or does not trail its
links to the layer of the other end, and only then. -/
theorem ends_stand_before_relation_iff (h : Reachable w) {o : Instance} (ho : o ∈ w.instances)
    {source target : InstanceId} (hrole : o.role = .relation source target) :
    ∃ a b x y, w.get? source = some a ∧ w.get? target = some b ∧
      Layer.of? a = some x ∧ Layer.of? b = some y ∧
      (w.StandsBefore a o ↔ a = w.environment ∨ ¬ x.Trails y) ∧
      (w.StandsBefore b o ↔ b = w.environment ∨ ¬ y.Trails x) := by
  have hw := h.wellFormed
  obtain ⟨a, b, ha, hb, harole, hbrole⟩ := h.linked.exists_ends hw ho hrole
  have hamem := (get?_eq_some ha).1
  have hbmem := (get?_eq_some hb).1
  obtain ⟨x, hx⟩ := h.linked.exists_layer hamem harole
  obtain ⟨y, hy⟩ := h.linked.exists_layer hbmem hbrole
  have hone : o ≠ w.environment := by
    rintro rfl
    simp [hw.environment_role] at hrole
  have hrank : w.rank o = Layer.linkRank (some x) (some y) := by
    rw [rank_of_relation hrole ha hb, hx, hy]
  have hrank' : w.rank o = Layer.linkRank (some y) (some x) := by
    rw [hrank, Layer.linkRank_comm]
  -- One end of layer `z`, the other of layer `z'`: the argument is the same for both ends.
  have hend : ∀ {e : Instance} {z z' : Layer}, e ∈ w.instances → e.role = .entity →
      Layer.of? e = some z → w.rank o = Layer.linkRank (some z) (some z') →
      (w.StandsBefore e o ↔ e = w.environment ∨ ¬ z.Trails z') := by
    intro e z z' he herole hz hlink
    by_cases hene : e = w.environment
    · refine iff_of_true ?_ (.inl hene)
      rw [hene]
      exact standsBefore_environment (mem_others_of_ne ho hone)
    · have herank := rank_of_entity (w := w) herole hz
      have hne : w.rank e ≠ w.rank o := by
        rw [herank, hlink]
        exact Layer.rank_ne_linkRank z z'
      rw [standsBefore_iff_rank_lt he ho hene hone hne, herank, hlink,
        Layer.rank_lt_linkRank_iff]
      simp [hene]
  exact ⟨a, b, x, y, ha, hb, hx, hy, hend hamem harole hx hrank, hend hbmem hbrole hy hrank'⟩

/-! ### A gadget on a clock -/

/-- A class of entities whose icon is of no known layer. -/
def gadget : Snippet where
  name := "Gadget"
  unique := false
  kind := .entity "gadget" 7
  attributes := []
  patterns := [.literal "set #name# [new Gadget]"]

/-- A class of timers. -/
def clock : Snippet where
  name := "Clock"
  unique := false
  kind := .entity "clock" 3
  attributes := []
  patterns := [.literal "set #name# [new Clock]"]

/-- A class of relations from gadgets to timers. -/
def timing : Snippet where
  name := "Timing"
  unique := false
  kind := .relation ⟨"gadget", false⟩ ⟨"clock", false⟩ ⟨0, 0, 1, 0⟩
  attributes := []
  patterns := [.literal "$#from# use $#to#"]

/-- A gadget, a clock and the relation between them. -/
def workshop : World :=
  (lone.performAll
    [.addEntity gadget "g", .addEntity clock "c", .addRelation timing "t" ⟨1⟩ ⟨2⟩]).2

/-- The relation of the workshop. -/
def workshopTiming : Instance := .create ⟨3⟩ timing "t" (.relation ⟨1⟩ ⟨2⟩)

theorem reachable_workshop : Reachable workshop :=
  (Reachable.start ofEnvironment_simulator).performAll _

theorem workshopTiming_mem : workshopTiming ∈ workshop.instances := by decide

/-- The relation of the workshop is written behind the clock and before the gadget. -/
theorem timing_between_clock_and_gadget :
    workshopTiming ∈ workshop.instances ∧ workshopTiming.role = .relation ⟨1⟩ ⟨2⟩ ∧
      ∃ g c, workshop.get? ⟨1⟩ = some g ∧ workshop.get? ⟨2⟩ = some c ∧
        Layer.of? g = some .other ∧ Layer.of? c = some .timer ∧
        ¬ workshop.StandsBefore g workshopTiming ∧ workshop.StandsBefore c workshopTiming := by
  obtain ⟨g, c, x, y, hg, hc, hx, hy, hgiff, hciff⟩ :=
    ends_stand_before_relation_iff reachable_workshop workshopTiming_mem rfl
  have hg' : workshop.get? ⟨1⟩ = some (.create ⟨1⟩ gadget "g" .entity) := by decide
  have hc' : workshop.get? ⟨2⟩ = some (.create ⟨2⟩ clock "c" .entity) := by decide
  obtain rfl := Option.some.inj (hg'.symm.trans hg)
  obtain rfl := Option.some.inj (hc'.symm.trans hc)
  obtain rfl : Layer.other = x := Option.some.inj hx
  obtain rfl : Layer.timer = y := Option.some.inj hy
  refine ⟨workshopTiming_mem, rfl, _, _, hg, hc, rfl, rfl, ?_, ?_⟩
  · rw [hgiff]
    decide
  · rw [hciff]
    decide

/-- It is not so that the ends of a relation always stand before it. -/
theorem not_forall_ends_stand_before :
    ¬ ∀ w : World, Reachable w → ∀ o ∈ w.instances, ∀ source target,
      o.role = .relation source target → ∀ a b, w.get? source = some a →
        w.get? target = some b → w.StandsBefore a o ∧ w.StandsBefore b o := by
  intro hall
  have hg : workshop.get? ⟨1⟩ = some (.create ⟨1⟩ gadget "g" .entity) := by decide
  have hc : workshop.get? ⟨2⟩ = some (.create ⟨2⟩ clock "c" .entity) := by decide
  have hbefore := (hall workshop reachable_workshop workshopTiming workshopTiming_mem ⟨1⟩ ⟨2⟩ rfl
    _ _ hg hc).1
  have hrank := rank_le_of_standsBefore (by decide) hbefore
  revert hrank
  decide

end World

end Stencil
