import Stencil.Proofs.Script.Alike
import Stencil.Proofs.World.Linked

/-!
# Loop variables

A token that names an instance on an array resolves to a text with the loop variable of the
array in it. What opens the loops is decided elsewhere and by other rules: an instance on
an array has the loop over that one only, wherever its ends are, and loops over two arrays
are opened even if both have one variable. `named_variable_bound_iff` says that the variable of a token
has its loop, and one only, but for these two cases.
-/

namespace Stencil

namespace Frame

/-- The text opens loops over the arrays, one in another. The line that opens a loop may
have a margin. -/
inductive Opens : List ArrayDef → String → Prop where
  | nil : Opens [] ""
  | cons {arrays : List ArrayDef} {text : String} (margin : String) (array : ArrayDef) :
      margin = "" ∨ margin = Frame.margin → Opens arrays text →
      Opens (array :: arrays) (margin ++ header array ++ text)

end Frame

/-- A frame opens its loops, whatever the style. -/
theorem Loops.opens_frame (loops : Loops) (style : LoopStyle) :
    Frame.Opens loops.toList (loops.frame style).opening := by
  have hflush : ∀ {arrays : List ArrayDef} {text : String} (array : ArrayDef),
      Frame.Opens arrays text → Frame.Opens (array :: arrays) (Frame.header array ++ text) := by
    intro arrays text array h
    simpa using h.cons "" array (.inl rfl)
  have hindented : ∀ array : ArrayDef,
      Frame.Opens [array] (Frame.margin ++ Frame.header array) := by
    intro array
    simpa using Frame.Opens.nil.cons Frame.margin array (.inr rfl)
  have halone : ∀ array : ArrayDef, Frame.Opens [array] (Frame.header array) := by
    intro array
    simpa using hflush array .nil
  obtain ⟨outer?, inner?⟩ := loops
  cases outer? with
  | none =>
      cases inner? with
      | none => exact .nil
      | some inner =>
          cases style with
          | nested => exact halone inner
          | legacy => exact hindented inner
  | some outer =>
      cases inner? with
      | none => exact halone outer
      | some inner =>
          have h := hflush outer (hindented inner)
          rw [← String.append_assoc] at h
          exact h

namespace World

/-- The token names the instance `p` when it stands in the text of `o`. -/
inductive Names (w : World) (o : Instance) : String → Instance → Prop where
  | self : Names w o "name" o
  | source {source target : InstanceId} {a : Instance} :
      o.role = .relation source target → w.get? source = some a → Names w o "from" a
  | target {source target : InstanceId} {b : Instance} :
      o.role = .relation source target → w.get? target = some b → Names w o "to" b

/-- The ends of the relation are on two arrays of one name. -/
def EndsClash (w : World) (o : Instance) : Prop :=
  ∃ source target a b A B, o.role = .relation source target ∧
    w.get? source = some a ∧ w.get? target = some b ∧
    w.arrayOf? a = some A ∧ w.arrayOf? b = some B ∧ a.array? ≠ b.array? ∧ A.name = B.name

variable {w : World} {o p : Instance} {token : String} {A : ArrayDef}

theorem qualifiedName_of_arrayOf? (h : w.arrayOf? p = some A) :
    w.qualifiedName p = p.name ++ "($" ++ A.name ++ ")" := by
  rw [qualifiedName, h]

theorem resolve_of_afterEnv?_eq_none (w : World) (catalog : Catalog) (o : Instance)
    (h : Token.afterEnv? token.toList = none) :
    w.resolve catalog o token = w.lookup catalog o token := by
  have hnone : Token.environmentToken? token.toList = none := by
    unfold Token.environmentToken?
    split <;> simp_all
  rw [resolve, hnone]

theorem Names.resolve_eq (h : w.Names o token p) (catalog : Catalog) :
    w.resolve catalog o token = w.qualifiedName p := by
  cases h with
  | self =>
      rw [resolve_of_afterEnv?_eq_none w catalog o (by decide)]
      cases hrole : o.role with
      | entity => rw [lookup_of_entity w catalog hrole, if_pos rfl]
      | relation source target => simp [lookup_of_relation w catalog hrole]
  | source hrole ha =>
      rw [resolve_of_afterEnv?_eq_none w catalog o (by decide),
        lookup_of_relation w catalog hrole, if_pos rfl, endName_of_get? ha]
  | target hrole hb =>
      rw [resolve_of_afterEnv?_eq_none w catalog o (by decide)]
      simp [lookup_of_relation w catalog hrole, endName_of_get? hb]

/-- The loops of a relation that is on no array are those over the arrays of its ends. -/
theorem toList_loops_of_relation {source target : InstanceId} {a b : Instance}
    (hrole : o.role = .relation source target) (hoff : o.array? = none)
    (ha : w.get? source = some a) (hb : w.get? target = some b) :
    (w.loops o).toList =
      if a.array? = b.array? then (w.arrayOf? a).toList
      else (w.arrayOf? a).toList ++ (w.arrayOf? b).toList := by
  rw [loops_of_relation hrole (by simp [hoff]) ha hb]
  by_cases hsame : a.array? = b.array?
  · cases harray : a.array? with
    | none => simp [← hsame, harray, arrayOf?, Loops.toList]
    | some index => simp [← hsame, harray, Loops.toList]
  · simp [hsame, Loops.toList]

theorem toList_loops_of_array (h : w.arrayOf? o = some A) : (w.loops o).toList = [A] := by
  have hon : o.array?.isSome = true := by
    obtain ⟨index, hindex, -⟩ := Option.bind_eq_some_iff.mp h
    rw [hindex, Option.isSome_some]
  rw [loops, if_pos hon, h]
  rfl

/-- No loop over the array of `p` has the variable. -/
theorem filter_arrayOf?_eq_nil_iff {name : String} :
    (w.arrayOf? p).toList.filter (·.name == name) = [] ↔
      ∀ B, w.arrayOf? p = some B → B.name ≠ name := by
  cases w.arrayOf? p <;> simp

theorem filter_of_arrayOf? (h : w.arrayOf? p = some A) :
    (w.arrayOf? p).toList.filter (·.name == A.name) = [A] := by
  simp [h]

/-- An instance on an array has its own loop only. -/
theorem filter_loops_of_array {B : ArrayDef} (h : w.arrayOf? o = some B) :
    (w.loops o).toList.filter (·.name == A.name) = [A] ↔ B = A := by
  rw [toList_loops_of_array h]
  constructor
  · intro hfilter
    have hmem : A ∈ [B].filter (·.name == A.name) := by
      rw [hfilter]
      exact List.mem_singleton_self A
    exact (List.mem_singleton.mp (List.mem_filter.mp hmem).1).symm
  · rintro rfl
    simp

/-- The variable of an end of a relation on no array has one loop unless the ends clash. -/
theorem filter_loops_of_relation {source target : InstanceId} {a b : Instance}
    (hrole : o.role = .relation source target) (hoff : o.array? = none)
    (ha : w.get? source = some a) (hb : w.get? target = some b)
    (hp : p = a ∨ p = b) (hA : w.arrayOf? p = some A) :
    (w.loops o).toList.filter (·.name == A.name) = [A] ↔ ¬ w.EndsClash o := by
  rw [toList_loops_of_relation hrole hoff ha hb]
  have hclash : w.EndsClash o ↔ ∃ A B, w.arrayOf? a = some A ∧ w.arrayOf? b = some B ∧
      a.array? ≠ b.array? ∧ A.name = B.name := by
    constructor
    · rintro ⟨_, _, a', b', A, B, hrole', ha', hb', h⟩
      obtain ⟨rfl, rfl⟩ := Role.relation.inj (hrole.symm.trans hrole')
      obtain rfl := Option.some.inj (ha.symm.trans ha')
      obtain rfl := Option.some.inj (hb.symm.trans hb')
      exact ⟨A, B, h⟩
    · rintro ⟨A, B, h⟩
      exact ⟨source, target, a, b, A, B, hrole, ha, hb, h⟩
  by_cases hsame : a.array? = b.array?
  · have hshared : w.arrayOf? a = w.arrayOf? b := by rw [arrayOf?, arrayOf?, hsame]
    have hA' : w.arrayOf? a = some A := by
      rcases hp with rfl | rfl
      · exact hA
      · rw [hshared, hA]
    rw [if_pos hsame, filter_of_arrayOf? hA', hclash]
    simp [hsame]
  · -- The loop over the array of the other end must not have the variable.
    rw [if_neg hsame, List.filter_append, hclash]
    rcases hp with rfl | rfl
    · rw [filter_of_arrayOf? hA, List.append_right_eq_self, filter_arrayOf?_eq_nil_iff]
      simp [hA, hsame, eq_comm]
    · rw [filter_of_arrayOf? hA, List.append_left_eq_self, filter_arrayOf?_eq_nil_iff]
      simp [hA, hsame]

/-- A token that names an instance on the array `A` resolves to its name with the variable of
`A` in it. The frame opens one loop of this variable, which is the loop over `A`, just when the
text is that of an instance on `A` itself or on no array, and in the latter case its ends do
not clash. -/
theorem named_variable_bound_iff (h : Reachable w) (ho : o ∈ w.instances)
    (hnames : w.Names o token p) (hA : w.arrayOf? p = some A) (style : LoopStyle) :
    (∀ catalog, w.resolve catalog o token = p.name ++ "($" ++ A.name ++ ")") ∧
      Frame.Opens (w.loops o).toList (w.frame style o).opening ∧
      ((w.loops o).toList.filter (·.name == A.name) = [A] ↔
        w.arrayOf? o = some A ∨ o.array? = none ∧ ¬ w.EndsClash o) := by
  refine ⟨?_, (w.loops o).opens_frame style, ?_⟩
  · intro catalog
    rw [hnames.resolve_eq, qualifiedName_of_arrayOf? hA]
  · cases hindex : o.array? with
    | some index =>
        have hlt := h.wellFormed.array_lt o ho index hindex
        have hB : w.arrayOf? o = some w.arrays[index] := by
          simp [arrayOf?, hindex, array?, hlt]
        rw [filter_loops_of_array hB, hB]
        simp
    | none =>
        have hoff : w.arrayOf? o = none := by rw [arrayOf?, hindex, Option.bind_none]
        have hiff : (w.loops o).toList.filter (·.name == A.name) = [A] ↔ ¬ w.EndsClash o := by
          cases hnames with
          | self => simp [hoff] at hA
          | source hrole ha =>
              obtain ⟨_, b, _, hb, -⟩ := h.linked.exists_ends h.wellFormed ho hrole
              exact filter_loops_of_relation hrole hindex ha hb (.inl rfl) hA
          | target hrole hb =>
              obtain ⟨a, _, ha, _, -⟩ := h.linked.exists_ends h.wellFormed ho hrole
              exact filter_loops_of_relation hrole hindex ha hb (.inr rfl) hA
        rw [hiff, hoff]
        simp

/-- The nodes of the network are on arrays of two names, so in the text of their link the first
node is called `a($i)` and there is one loop of `i`, which runs up to two. -/
theorem named_variable_bound_network :
    ∃ o a, o ∈ network.instances ∧ o.name = "ab" ∧ network.Names o "from" a ∧
      network.arrayOf? a = some ⟨"i", 2⟩ ∧
      (∀ catalog, network.resolve catalog o "from" = "a($i)") ∧
      (∀ style, Frame.Opens [⟨"i", 2⟩, ⟨"j", 3⟩] (network.frame style o).opening) ∧
      (network.loops o).toList.filter (·.name == "i") = [⟨"i", 2⟩] := by
  have ho : Instance.create ⟨4⟩ link "ab" (.relation ⟨1⟩ ⟨2⟩) ∈ network.instances := by decide
  have ha : network.get? ⟨1⟩ =
      some { Instance.create ⟨1⟩ node "a" .entity with array? := some 0 } := by decide
  have hb : network.get? ⟨2⟩ =
      some { Instance.create ⟨2⟩ node "b" .entity with array? := some 1 } := by decide
  have hnames : network.Names (.create ⟨4⟩ link "ab" (.relation ⟨1⟩ ⟨2⟩)) "from" _ :=
    .source rfl ha
  have hbound := named_variable_bound_iff reachable_network ho hnames rfl
  have hends : ¬ network.EndsClash (.create ⟨4⟩ link "ab" (.relation ⟨1⟩ ⟨2⟩)) := by
    rintro ⟨_, _, _, _, A, B, hrole, ha', hb', hA, hB, -, hname⟩
    obtain ⟨rfl, rfl⟩ := Role.relation.inj hrole
    obtain rfl := Option.some.inj (ha.symm.trans ha')
    obtain rfl := Option.some.inj (hb.symm.trans hb')
    obtain rfl : ⟨"i", 2⟩ = A := Option.some.inj hA
    obtain rfl : ⟨"j", 3⟩ = B := Option.some.inj hB
    exact absurd hname (by decide)
  exact ⟨_, _, ho, rfl, hnames, rfl, (hbound .nested).1, fun style => (hbound style).2.1,
    (hbound .nested).2.2.mpr (.inr ⟨rfl, hends⟩)⟩

/-! ### Crossing links -/

/-- The nodes `a` and `b` are on two arrays of one name. Of the two links between them one is
on no array, the other on a third array. -/
def crossing : World :=
  (lone.performAll
    [.addArray "i" 2, .addArray "j" 3, .addArray "i" 2, .addEntity node "a",
      .addEntity node "b", .setArray ⟨1⟩ (some 0), .setArray ⟨2⟩ (some 2),
      .addRelation link "ab" ⟨1⟩ ⟨2⟩, .addRelation link "ba" ⟨2⟩ ⟨1⟩,
      .setArray ⟨4⟩ (some 1)]).2

theorem reachable_crossing : Reachable crossing :=
  (Reachable.start ofEnvironment_simulator).performAll _

theorem get?_crossing :
    crossing.get? ⟨1⟩ = some { Instance.create ⟨1⟩ node "a" .entity with array? := some 0 } := by
  decide

/-- It is not so that the variable of a token always has one loop, over the array that it is
of: in the text of a relation on no array it may have two, and in that of a relation on an array
it may have none. -/
theorem not_forall_named_variable_bound :
    (¬ ∀ w : World, Reachable w → ∀ o ∈ w.instances, o.array? = none → ∀ token p A,
      w.Names o token p → w.arrayOf? p = some A →
        (w.loops o).toList.filter (·.name == A.name) = [A]) ∧
    ¬ ∀ w : World, Reachable w → ∀ o ∈ w.instances, o.array? ≠ none → ∀ token p A,
      w.Names o token p → w.arrayOf? p = some A →
        (w.loops o).toList.filter (·.name == A.name) = [A] := by
  constructor
  · intro hall
    have hone := hall crossing reachable_crossing
      (.create ⟨3⟩ link "ab" (.relation ⟨1⟩ ⟨2⟩)) (by decide) rfl "from" _ ⟨"i", 2⟩
      (.source rfl get?_crossing) rfl
    revert hone
    decide
  · intro hall
    have hone := hall crossing reachable_crossing
      { Instance.create ⟨4⟩ link "ba" (.relation ⟨2⟩ ⟨1⟩) with array? := some 1 } (by decide)
      (by decide) "to" _ ⟨"i", 2⟩ (.target rfl get?_crossing) rfl
    revert hone
    decide

end World

end Stencil
