import Stencil.Proofs.Snippet.Accepted
import Stencil.Proofs.World.FreshName
import Stencil.Proofs.World.Run

/-!
# New instances of classes that were read

A fresh name is never taken, and the digits in it are no blanks. So the name of a new instance is
refused only for a blank in the name of the class. A header is taken apart at spaces, tabs and line
breaks and at no other blank of `Text.isBlank`: a class may be read with such a blank in its name,
and then it has no instances (`refused_for_name_iff`).
-/

namespace Stencil

namespace Text

theorem isBlank_eq_false_of_isDigit {c : Char} (h : c.isDigit = true) : isBlank c = false := by
  rw [← Bool.not_eq_true]
  intro hblank
  have hword := isWordChar_eq_false_of_isBlank hblank
  simp [isWordChar, Char.isAlphanum, h] at hword

end Text

namespace Snippet

variable {block : String} {s : Snippet}

theorem isWord_name_of_parse (h : parse block = .ok s) : Header.IsWord s.name := by
  obtain ⟨sections, hsections⟩ := exists_ofSections_of_parse h
  exact isWord_of_ofSections hsections s.name List.mem_cons_self

end Snippet

namespace World

variable {w : World} {s : Snippet} {name className : String} {e : Error}

/-- There is a blank in the text. -/
def HasBlank (text : String) : Prop := ∃ c ∈ text.toList, Text.isBlank c = true

/-- A unique class has no instance yet. -/
def HasRoomFor (w : World) (s : Snippet) : Prop :=
  s.unique = true → ∀ o ∈ w.instances, o.snippet.name ≠ s.name

/-- The refusal is about the name of the new instance. -/
def Error.BlamesName : Error → Prop
  | duplicateName _ | invalidName _ => True
  | _ => False

/-! ### Names with a number -/

theorem hasBlank_numbered_iff (className : String) (n : Nat) :
    HasBlank (numbered className n) ↔ HasBlank className := by
  have hdigits : ∀ c ∈ (toString n).toList, Text.isBlank c = false := by
    intro c hc
    have htext : (toString n).toList = Nat.toDigits 10 n := Nat.toList_repr
    rw [htext] at hc
    exact Text.isBlank_eq_false_of_isDigit
      (Nat.isDigit_of_mem_toDigits (by decide) (by decide) hc)
  rw [HasBlank, HasBlank, numbered, String.toList_append]
  constructor
  · rintro ⟨c, hc, hblank⟩
    rcases List.mem_append.mp hc with hc | hc
    · exact ⟨c, hc, hblank⟩
    · rw [hdigits c hc] at hblank
      cases hblank
  · rintro ⟨c, hc, hblank⟩
    exact ⟨c, List.mem_append_left _ hc, hblank⟩

theorem numbered_ne_empty (h : className ≠ "") (n : Nat) : numbered className n ≠ "" := by
  simp [numbered, h]

/-! ### The check of a new instance -/

theorem checkSyntax_eq_error_iff (hname : name ≠ "") :
    checkSyntax name = .error e ↔ HasBlank name ∧ e = .invalidName name := by
  have hblank : name.toList.any Text.isBlank = true ↔ HasBlank name := List.any_eq_true
  have hempty : name.isEmpty = false := by simpa using hname
  rw [← hblank, checkSyntax, hempty, Bool.false_or]
  cases name.toList.any Text.isBlank <;> simp [eq_comm]

theorem checkName_freshName (w : World) (className : String) :
    w.checkName (w.freshName className) = checkSyntax (w.freshName className) := by
  obtain ⟨n, -, hname, hfree, -⟩ := w.exists_freshName_eq className
  rw [checkName, hname]
  simp only [hfree, if_true]
  exact bind_pure _

/-- A fresh name is refused for its spelling alone. -/
theorem checkNew_freshName_eq_error_iff (hname : s.name ≠ "") (he : e.BlamesName) :
    w.checkNew s (w.freshName s.name) = .error e ↔
      w.HasRoomFor s ∧ HasBlank s.name ∧ e = .invalidName (w.freshName s.name) := by
  rw [checkNew]
  split
  · next htaken =>
      obtain ⟨hunique, hthere⟩ := Bool.and_eq_true_iff.mp htaken
      constructor
      · intro h
        cases h
        exact he.elim
      · rintro ⟨hroom, -, -⟩
        rw [hasInstanceOf_eq_false_iff.mpr (hroom hunique)] at hthere
        cases hthere
  · next hnew =>
      have hroom : w.HasRoomFor s := by
        intro hunique
        rw [← hasInstanceOf_eq_false_iff]
        simpa [hunique] using hnew
      obtain ⟨n, -, hn, -, -⟩ := w.exists_freshName_eq s.name
      have hfresh : w.freshName s.name ≠ "" := hn ▸ numbered_ne_empty hname n
      have hblank : HasBlank (w.freshName s.name) ↔ HasBlank s.name :=
        hn ▸ hasBlank_numbered_iff s.name n
      rw [checkName_freshName, checkSyntax_eq_error_iff hfresh, hblank, and_iff_right hroom]

/-! ### The checks of the ends -/

/-- No refusal of the outcome is about a name. -/
def Blameless {α : Type} (outcome : Except Error α) : Prop :=
  ∀ e, outcome = .error e → ¬ e.BlamesName

section Blameless

variable {α β : Type} {x : Except Error α} {f : α → Except Error β}

/-- A refusal for a name comes from the first step if it cannot come from those behind it. -/
theorem bind_eq_error_iff (hf : ∀ a, Blameless (f a)) (he : e.BlamesName) :
    (x >>= f) = .error e ↔ x = .error e := by
  cases x with
  | error e' =>
      constructor
      · rintro ⟨⟩
        rfl
      · rintro ⟨⟩
        rfl
  | ok a =>
      constructor
      · intro h
        exact absurd he (hf a e h)
      · rintro ⟨⟩

theorem blameless_bind (hx : Blameless x) (hf : ∀ a, Blameless (f a)) : Blameless (x >>= f) :=
  fun e h he => hx e ((bind_eq_error_iff hf he).mp h) he

end Blameless

theorem blameless_demand (w : World) (id : InstanceId) : Blameless (w.demand id) := by
  unfold demand
  split <;> rintro e ⟨⟩ ⟨⟩

theorem blameless_checkCategory (className : String) (side : Side) (endpoint : Endpoint)
    (o : Instance) : Blameless (checkCategory className side endpoint o) := by
  unfold checkCategory
  split
  · rintro e ⟨⟩ ⟨⟩
  · split <;> rintro e ⟨⟩ ⟨⟩

theorem blameless_checkVacant (w : World) (className : String) (endpoint : Endpoint)
    (o : Instance) : Blameless (w.checkVacant className endpoint o) := by
  unfold checkVacant
  split <;> rintro e ⟨⟩ ⟨⟩

/-- A new relation is refused for its name if a new instance would be. -/
theorem addRelation_eq_error_iff {source target : InstanceId} (he : e.BlamesName) :
    w.addRelation s name source target = .error e ↔
      s.isRelation = true ∧ w.checkNew s name = .error e := by
  unfold addRelation Snippet.isRelation
  cases s.kind with
  | entity category icon =>
      constructor
      · rintro ⟨⟩
        exact he.elim
      · rintro ⟨⟨⟩, -⟩
  | relation sourceEnd targetEnd style =>
      simp only [Kind.isRelation, true_and]
      -- What is checked behind the name are the ends.
      refine bind_eq_error_iff (fun _ => ?_) he
      refine blameless_bind (blameless_demand w source) fun a => ?_
      refine blameless_bind (blameless_demand w target) fun b => ?_
      split
      · rintro e ⟨⟩ ⟨⟩
      · refine blameless_bind (blameless_checkCategory _ _ _ _) fun _ => ?_
        refine blameless_bind (blameless_checkCategory _ _ _ _) fun _ => ?_
        refine blameless_bind (blameless_checkVacant _ _ _ _) fun _ => ?_
        refine blameless_bind (blameless_checkVacant _ _ _ _) fun _ => ?_
        rintro e ⟨⟩

/-- A new entity is refused for its name if a new instance would be. -/
theorem addEntity_eq_error_iff (he : e.BlamesName) :
    w.addEntity s name = .error e ↔ s.isRelation = false ∧ w.checkNew s name = .error e := by
  unfold addEntity
  by_cases hrel : s.isRelation = true
  · simp only [hrel, if_true]
    constructor
    · rintro ⟨⟩
      exact he.elim
    · rintro ⟨⟨⟩, -⟩
  · rw [Bool.not_eq_true] at hrel
    simp only [hrel, Bool.false_eq_true, if_false, true_and]
    refine bind_eq_error_iff (fun _ => ?_) he
    rintro e ⟨⟩

/-! ### Fresh instances -/

/-- A class with room for an instance and no blank in its name is admitted under a fresh name. -/
theorem admits_freshName (hname : s.name ≠ "") (hroom : w.HasRoomFor s)
    (hblank : ¬ HasBlank s.name) : w.Admits s (w.freshName s.name) := by
  obtain ⟨n, -, hn, hfree, -⟩ := w.exists_freshName_eq s.name
  rw [hn]
  refine ⟨hroom, ⟨numbered_ne_empty hname n, ?_⟩, isFree_iff.mp hfree⟩
  intro c hc
  rw [← Bool.not_eq_true]
  intro hc'
  exact hblank ((hasBlank_numbered_iff s.name n).mp ⟨c, hc, hc'⟩)

/-- The name of a class that was read has no blank that headers are taken apart at. Where another
blank is in it, and only there, a new instance is refused for its name, which is never found to be
taken. -/
theorem refused_for_name_iff {block : String} (h : Snippet.parse block = .ok s) (w : World) :
    (∀ c ∈ s.name.toList, c ∉ [' ', '\t', '\n', '\r']) ∧
      (s.isRelation = false → w.HasRoomFor s →
        ((∃ r, w.instantiate s = .ok r) ↔ ¬ HasBlank s.name)) ∧
      (∀ e, e.BlamesName → (w.instantiate s = .error e ↔ s.isRelation = false ∧
        w.HasRoomFor s ∧ HasBlank s.name ∧ e = .invalidName (w.freshName s.name))) ∧
      ∀ source target e, e.BlamesName → (w.connect s source target = .error e ↔
        s.isRelation = true ∧ w.HasRoomFor s ∧ HasBlank s.name ∧
          e = .invalidName (w.freshName s.name)) := by
  have hword := Snippet.isWord_name_of_parse h
  have hrefused {e : Error} (he : e.BlamesName) :=
    checkNew_freshName_eq_error_iff (w := w) hword.ne_empty he
  have hentities {e : Error} (he : e.BlamesName) : w.instantiate s = .error e ↔
      s.isRelation = false ∧ w.HasRoomFor s ∧ HasBlank s.name ∧
        e = .invalidName (w.freshName s.name) := by
    rw [instantiate, addEntity_eq_error_iff he, hrefused he]
  refine ⟨?_, ?_, fun e he => hentities he, ?_⟩
  · intro c hc hgap
    exact hword.chars c hc (List.mem_append_left [':'] hgap)
  · intro hentity hroom
    constructor
    · rintro ⟨r, hr⟩ hblank
      have hrefusal := (hentities (e := .invalidName _) trivial).mpr ⟨hentity, hroom, hblank, rfl⟩
      rw [hr] at hrefusal
      cases hrefusal
    · intro hblank
      exact ⟨_, addEntity_eq_ok_iff.mpr
        ⟨hentity, admits_freshName hword.ne_empty hroom hblank, rfl⟩⟩
  · intro source target e he
    rw [connect, addRelation_eq_error_iff he, hrefused he]

/-- Nodes with a no-break space in the name of their class. -/
def spacedNode : Snippet where
  name := "No\u00a0de"
  unique := false
  kind := .entity "node" 0
  attributes := []
  patterns := [.literal "set #name# [new Node]"]

/-- The block of the class. -/
def spacedNodeBlock : String :=
  "entity No\u00a0de node 0 : begin set #name# [new Node]; end"

theorem parse_spacedNodeBlock : Snippet.parse spacedNodeBlock = .ok spacedNode := by
  decide +kernel

/-- The class is read, but the simulator gets no instance of it. -/
theorem spacedNode_refused :
    Snippet.parse spacedNodeBlock = .ok spacedNode ∧
      (¬ ∃ r, lone.instantiate spacedNode = .ok r) ∧
      lone.instantiate spacedNode = .error (.invalidName "No\u00a0de0") := by
  obtain ⟨-, hok, herror, -⟩ := refused_for_name_iff parse_spacedNodeBlock lone
  have hroom : lone.HasRoomFor spacedNode := fun h => absurd h (by decide)
  have hblank : HasBlank spacedNode.name := ⟨'\u00a0', by decide, by decide⟩
  have hname : lone.freshName spacedNode.name = "No\u00a0de0" := by decide
  refine ⟨parse_spacedNodeBlock, ?_, ?_⟩
  · rw [hok rfl hroom]
    exact not_not_intro hblank
  · rw [herror (.invalidName _) trivial, hname]
    exact ⟨rfl, hroom, hblank, rfl⟩

/-- Not each class of entities that was read can be instantiated, be it unique or not. -/
theorem not_forall_instantiable :
    ¬ ∀ (w : World) (block : String) (s : Snippet), Reachable w →
      Snippet.parse block = .ok s → s.isRelation = false → w.HasRoomFor s →
      ∃ r, w.instantiate s = .ok r := by
  intro h
  have hroom : lone.HasRoomFor spacedNode := fun h => absurd h (by decide)
  obtain ⟨r, hr⟩ := h lone spacedNodeBlock spacedNode (.start ofEnvironment_simulator)
    parse_spacedNodeBlock rfl hroom
  have hrefused : lone.instantiate spacedNode = .error (.invalidName "No\u00a0de0") := by decide
  rw [hr] at hrefused
  cases hrefused

end World

end Stencil
