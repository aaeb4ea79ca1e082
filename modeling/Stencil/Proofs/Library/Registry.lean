import Mathlib.Data.List.Nodup
import Stencil.Library.Action
import Stencil.Proofs.Library.Load
import Stencil.Proofs.Program

/-!
# Names in a registry

A library keeps the names of its snippets distinct, also when it is loaded from a text. A
registry takes a library if neither its name nor that of any of its snippets is taken; so
all names stay distinct, within and across libraries, and a search for a name finds the
one that has it. A call looks at all that can refuse its library before it writes
(`Call.atomic_program`), so it appends a library or leaves the registry as it is, which is
why what is found once is found ever after.
-/

namespace Stencil

/-- Where keys are distinct, a search for a key finds the one that has it. -/
theorem find?_eq_some_iff_of_nodup {α : Type} {key : α → String} {l : List α}
    (h : (l.map key).Nodup) {k : String} {a : α} :
    l.find? (key · == k) = some a ↔ a ∈ l ∧ key a = k := by
  constructor
  · intro hfound
    exact ⟨List.mem_of_find?_eq_some hfound, by simpa using List.find?_some hfound⟩
  · rintro ⟨ha, rfl⟩
    cases hfound : l.find? (key · == key a) with
    | none => exact absurd (List.find?_eq_none.mp hfound a ha) (by simp)
    | some b =>
        have hkey : key b = key a := by simpa using List.find?_some hfound
        rw [List.inj_on_of_nodup_map h (List.mem_of_find?_eq_some hfound) ha hkey]

/-- Names stay distinct when others are put behind them. -/
theorem nodup_map_append {α : Type} {key : α → String} {l m : List α} (hl : (l.map key).Nodup)
    (hm : (m.map key).Nodup) (hne : ∀ a ∈ l, ∀ b ∈ m, key a ≠ key b) :
    ((l ++ m).map key).Nodup := by
  rw [List.map_append, List.nodup_append]
  refine ⟨hl, hm, ?_⟩
  intro k hk k' hk'
  obtain ⟨a, ha, rfl⟩ := List.mem_map.mp hk
  obtain ⟨b, hb, rfl⟩ := List.mem_map.mp hk'
  exact hne a ha b hb

namespace Library

variable {library library' : Library} {snippet : Snippet}

/-- The library comes about by adding snippets to an empty one or to one that was loaded. -/
inductive Made : Library → Prop where
  | new (name toolbar version : String) : Made ⟨name, toolbar, version, []⟩
  | parse {text : String} {load : Load} : parse text = .ok load → Made load.library
  | add {library library' : Library} {snippet : Snippet} :
      Made library → library.add snippet = .ok library' → Made library'

/-- No two snippets have one name. -/
def Distinct (library : Library) : Prop := (library.snippets.map (·.name)).Nodup

theorem Distinct.add (h : library.Distinct) (hadd : library.add snippet = .ok library') :
    library'.Distinct := by
  obtain ⟨hfree, rfl⟩ := add_eq_ok_iff.mp hadd
  refine nodup_map_append h (List.nodup_singleton _) ?_
  intro s hs t ht
  obtain rfl := List.mem_singleton.mp ht
  exact hfree s hs

theorem distinct_nil {name toolbar version : String} :
    Distinct ⟨name, toolbar, version, []⟩ := List.nodup_nil

theorem Load.distinct_read {load load' : Load} {position : Nat} {block : Block}
    (h : load.library.Distinct) (hread : load.read position block = .ok load') :
    load'.library.Distinct := by
  unfold read at hread
  split at hread
  · cases hread
    exact h
  · split at hread
    · next library hadd =>
        cases hread
        exact h.add hadd
    · cases hread
      exact h
    · cases hread

theorem Load.distinct_readAll {load load' : Load} {position : Nat} {blocks : List Block}
    (h : load.library.Distinct) (hread : load.readAll position blocks = .ok load') :
    load'.library.Distinct := by
  induction blocks generalizing load position with
  | nil =>
      cases hread
      exact h
  | cons block blocks ih =>
      obtain ⟨next, hnext, hrest⟩ := bind_eq_ok_iff.mp hread
      exact ih (distinct_read h hnext) hrest

theorem distinct_of_parse {text : String} {load : Load} (h : parse text = .ok load) :
    load.library.Distinct := by
  unfold parse at h
  split at h
  · exact Load.distinct_readAll distinct_nil h
  all_goals cases h

theorem Made.distinct (h : library.Made) : library.Distinct := by
  induction h with
  | new name toolbar version => exact distinct_nil
  | parse hparse => exact distinct_of_parse hparse
  | add _ hadd ih => exact ih.add hadd

end Library

namespace Registry

variable {registry registry' : Registry} {library : Library} {text : String}

/-- The name of the library is free, and so are the names of its snippets. -/
structure Takes (registry : Registry) (library : Library) : Prop where
  name : ∀ l ∈ registry.libraries, l.name ≠ library.name
  snippets : ∀ s ∈ registry.snippets, ∀ t ∈ library.snippets, s.name ≠ t.name

theorem snippet?_eq_find? (registry : Registry) (name : String) :
    registry.snippet? name = registry.snippets.find? (·.name == name) := by
  rw [snippets, List.find?_flatMap]
  rfl

theorem library?_isSome_eq_false_iff {name : String} :
    (registry.library? name).isSome = false ↔ ∀ l ∈ registry.libraries, l.name ≠ name := by
  simp [library?]

/-- No snippet of the library has a name that is taken. -/
theorem find?_clash_eq_none_iff :
    (library.snippets.find? fun s => (registry.snippet? s.name).isSome) = none ↔
      ∀ s ∈ registry.snippets, ∀ t ∈ library.snippets, s.name ≠ t.name := by
  simp only [List.find?_eq_none, snippet?_eq_find?, List.find?_isSome, beq_iff_eq, not_exists,
    not_and]
  exact forall₂_comm

theorem add_eq_ok_iff :
    registry.add library = .ok registry' ↔
      registry.Takes library ∧ registry' = ⟨registry.libraries ++ [library]⟩ := by
  have htakes : registry.Takes library ↔
      (registry.library? library.name).isSome = false ∧
        (library.snippets.find? fun s => (registry.snippet? s.name).isSome) = none := by
    rw [library?_isSome_eq_false_iff, find?_clash_eq_none_iff]
    exact ⟨fun h => ⟨h.name, h.snippets⟩, fun h => ⟨h.1, h.2⟩⟩
  rw [htakes, add]
  cases (registry.library? library.name).isSome with
  | true => simp
  | false =>
      cases library.snippets.find? fun s => (registry.snippet? s.name).isSome with
      | none => simp [eq_comm]
      | some clash => simp

namespace Call

/-- The library that is to be added, and what was left out of it. -/
def offer : Call → Except Library.Error Library.Load
  | add library => .ok ⟨library, []⟩
  | load text => Library.parse text

/-- The diagnostics and the registry after the call, unless it fails. -/
def run (registry : Registry) : Call → Except Library.Error (List Library.Diagnostic × Registry)
  | add library => do return ([], ← registry.add library)
  | load text => registry.load text

theorem run_eq_ok_iff {call : Call} {diagnostics : List Library.Diagnostic} :
    call.run registry = .ok (diagnostics, registry') ↔
      ∃ load, call.offer = .ok load ∧ diagnostics = load.diagnostics ∧
        registry.Takes load.library ∧ registry' = ⟨registry.libraries ++ [load.library]⟩ := by
  cases call with
  | add library =>
      simp only [run, offer, bind_eq_ok_iff, pure_eq_ok_iff, add_eq_ok_iff, Prod.mk.injEq,
        Except.ok.injEq, exists_eq_left']
      constructor
      · rintro ⟨_, ⟨htakes, rfl⟩, rfl, rfl⟩
        exact ⟨rfl, htakes, rfl⟩
      · rintro ⟨rfl, htakes, rfl⟩
        exact ⟨_, ⟨htakes, rfl⟩, rfl, rfl⟩
  | load text =>
      simp only [run, offer, Registry.load, bind_eq_ok_iff, pure_eq_ok_iff, add_eq_ok_iff,
        Prod.mk.injEq]
      constructor
      · rintro ⟨load, hparse, _, ⟨htakes, rfl⟩, rfl, rfl⟩
        exact ⟨load, hparse, rfl, htakes, rfl⟩
      · rintro ⟨load, hparse, rfl, htakes, rfl⟩
        exact ⟨load, hparse, _, ⟨htakes, rfl⟩, rfl, rfl⟩

end Call

/-! ### Calls as programs -/

namespace Action

open Program

theorem exec_add (library : Library) (registry : Registry) :
    (add library).exec registry = settle registry ((), ·) (registry.add library) := by
  unfold add Registry.add
  rw [exec_bind, exec_get]
  dsimp only
  rw [exec_bind, exec_failIf]
  cases (registry.library? library.name).isSome with
  | true => rfl
  | false =>
      simp only [Bool.false_eq_true, if_false]
      cases library.snippets.find? fun s => (registry.snippet? s.name).isSome with
      | some clash => rfl
      | none => rfl

theorem exec_load (text : String) (registry : Registry) :
    (load text).exec registry = settle registry id (registry.load text) := by
  refine exec_check_bind fun loaded _ => ?_
  rw [exec_bind, exec_add]
  cases registry.add loaded.library <;> rfl

/-- All that can refuse a library is read before it is put behind the others. -/
theorem atomic_add (library : Library) : Atomic (add library) := by
  refine reads_get.bind fun registry => ?_
  refine (reads_failIf _ _).bind fun _ => ?_
  split
  · exact (reads_throw _).atomic
  · exact (succeeds_modify _).atomic

theorem atomic_load (text : String) : Atomic (load text) := by
  refine (reads_check _).bind fun loaded => ?_
  exact (atomic_add loaded.library).bind fun _ => succeeds_pure _

end Action

theorem Call.atomic_program (call : Call) : call.program.Atomic := by
  cases call with
  | add library => exact (Action.atomic_add library).bind fun _ => Program.succeeds_pure _
  | load text => exact Action.atomic_load text

/-- The program of a call does what the function does. -/
theorem perform_eq_settle (registry : Registry) (call : Call) :
    registry.perform call = Program.settle registry id (call.run registry) := by
  cases call with
  | add library => exact Program.exec_bind_pure (Action.exec_add library registry) _
  | load text => exact Action.exec_load text registry

/-- The registry comes about by calls that add libraries. -/
inductive Reachable : Registry → Prop where
  | empty : Reachable .empty
  | perform {registry : Registry} (call : Call) :
      (∀ library, call = .add library → library.Made) → Reachable registry →
      Reachable (registry.perform call).2

/-- A call appends the library that it offers if the registry takes it. If it does not, or if
none is offered, the call fails and the registry stays. -/
theorem perform_cases (registry : Registry) (call : Call) :
    (∃ load, call.offer = .ok load ∧ registry.Takes load.library ∧
      registry.perform call =
        (.ok load.diagnostics, ⟨registry.libraries ++ [load.library]⟩)) ∨
    (∃ e, registry.perform call = (.error e, registry)) ∧
      ∀ load, call.offer = .ok load → ¬ registry.Takes load.library := by
  rw [perform_eq_settle]
  cases hrun : call.run registry with
  | ok r =>
      obtain ⟨load, hoffer, hdiagnostics, htakes, hregistry⟩ := Call.run_eq_ok_iff.mp hrun
      refine .inl ⟨load, hoffer, htakes, ?_⟩
      rw [← hdiagnostics, ← hregistry]
      rfl
  | error e =>
      refine .inr ⟨⟨e, rfl⟩, ?_⟩
      intro load hoffer htakes
      rw [Call.run_eq_ok_iff.mpr ⟨load, hoffer, rfl, htakes, rfl⟩] at hrun
      cases hrun

/-- No two libraries have one name, and no two snippets, whichever libraries they are of. -/
structure Distinct (registry : Registry) : Prop where
  libraries : (registry.libraries.map (·.name)).Nodup
  snippets : (registry.snippets.map (·.name)).Nodup

theorem snippets_append (registry : Registry) (library : Library) :
    snippets ⟨registry.libraries ++ [library]⟩ = registry.snippets ++ library.snippets := by
  simp [snippets]

theorem Distinct.append (h : registry.Distinct) (hlibrary : library.Distinct)
    (htakes : registry.Takes library) : Distinct ⟨registry.libraries ++ [library]⟩ where
  libraries := by
    refine nodup_map_append h.libraries (List.nodup_singleton _) ?_
    intro l hl l' hl'
    obtain rfl := List.mem_singleton.mp hl'
    exact htakes.name l hl
  snippets := by
    rw [snippets_append]
    exact nodup_map_append h.snippets hlibrary htakes.snippets

theorem Call.distinct_of_offer {call : Call} (hmade : ∀ library, call = .add library → library.Made)
    {load : Library.Load} (hoffer : call.offer = .ok load) : load.library.Distinct := by
  cases call with
  | add library =>
      obtain rfl := Except.ok.inj hoffer
      exact (hmade library rfl).distinct
  | load text => exact Library.distinct_of_parse hoffer

theorem Reachable.distinct (h : Reachable registry) : registry.Distinct := by
  induction h with
  | empty => exact ⟨List.nodup_nil, List.nodup_nil⟩
  | @perform registry call hmade _ ih =>
      rcases registry.perform_cases call with ⟨load, hoffer, htakes, hperform⟩ | ⟨⟨e, hperform⟩, -⟩
      · rw [hperform]
        exact ih.append (Call.distinct_of_offer hmade hoffer) htakes
      · rw [hperform]
        exact ih

/-- Calls leave the libraries that are there, in their places. -/
theorem exists_libraries_performAll (registry : Registry) (calls : List Call) :
    ∃ added, (registry.performAll calls).libraries = registry.libraries ++ added := by
  induction calls generalizing registry with
  | nil => exact ⟨[], by simp [performAll]⟩
  | cons call calls ih =>
      obtain ⟨added, hadded⟩ := ih (registry.perform call).2
      -- A call that is taken puts its library in front of those added later.
      change ((registry.perform call).2.performAll calls).libraries = _ at hadded
      rcases registry.perform_cases call with ⟨load, -, -, hperform⟩ | ⟨⟨e, hperform⟩, -⟩
      · rw [hperform] at hadded
        refine ⟨load.library :: added, ?_⟩
        rw [performAll, List.foldl_cons, ← performAll, hperform, hadded]
        simp
      · rw [hperform] at hadded
        refine ⟨added, ?_⟩
        rw [performAll, List.foldl_cons, ← performAll, hperform, hadded]

theorem library?_performAll {name : String} (h : registry.library? name = some library)
    (calls : List Call) : (registry.performAll calls).library? name = some library := by
  obtain ⟨added, hadded⟩ := registry.exists_libraries_performAll calls
  rw [library?, hadded, List.find?_append, ← library?, h, Option.some_or]

theorem snippet?_performAll {name : String} {s : Snippet} (h : registry.snippet? name = some s)
    (calls : List Call) : (registry.performAll calls).snippet? name = some s := by
  obtain ⟨added, hadded⟩ := registry.exists_libraries_performAll calls
  rw [snippet?, hadded, List.findSome?_append, ← snippet?, h, Option.some_or]

/-- In a registry that calls have made, the names of libraries are distinct and so are those of
all snippets, and a name finds the snippet that has it. A call fails just when its library is
not taken or cannot be read. The program of a call that fails has written nothing until then, and
no snippet of the library is found that was not there; one that succeeds leaves the registry that
`add` and `load` return. What a name finds it finds after any further calls. -/
theorem names_distinct_and_lookups_stable (h : Reachable registry) :
    (registry.libraries.map (·.name)).Nodup ∧
      (registry.snippets.map (·.name)).Nodup ∧
      (∀ name s, registry.snippet? name = some s ↔ s ∈ registry.snippets ∧ s.name = name) ∧
      (∀ call, (∃ e, (registry.perform call).1 = .error e) ↔
        ∀ load, call.offer = .ok load → ¬ registry.Takes load.library) ∧
      (∀ call e, (registry.perform call).1 = .error e →
        (registry.perform call).2 = registry ∧
          ∀ load, call.offer = .ok load → ∀ s ∈ load.library.snippets,
            registry.snippet? s.name = none → (registry.perform call).2.snippet? s.name = none) ∧
      (∀ call, registry.perform call = Program.settle registry id (call.run registry)) ∧
      ∀ calls,
        (∀ name library, registry.library? name = some library →
          (registry.performAll calls).library? name = some library) ∧
        ∀ name s, registry.snippet? name = some s →
          (registry.performAll calls).snippet? name = some s := by
  refine ⟨h.distinct.libraries, h.distinct.snippets, ?_, ?_, ?_, registry.perform_eq_settle, ?_⟩
  · intro name s
    rw [snippet?_eq_find?]
    exact find?_eq_some_iff_of_nodup h.distinct.snippets
  · intro call
    rcases registry.perform_cases call with ⟨load, hoffer, htakes, hperform⟩ | ⟨⟨e, hperform⟩, hno⟩
    · rw [hperform]
      exact iff_of_false (by simp) fun hall => hall load hoffer htakes
    · rw [hperform]
      exact iff_of_true ⟨e, rfl⟩ hno
  · intro call e hfails
    have hsame : (registry.perform call).2 = registry :=
      call.atomic_program registry e _ (Prod.ext hfails rfl)
    rw [hsame]
    exact ⟨rfl, fun _ _ _ _ hfree => hfree⟩
  · intro calls
    exact ⟨fun _ _ hl => library?_performAll hl calls, fun _ _ hs => snippet?_performAll hs calls⟩

/-! ### A library that clashes on its last snippet -/

/-- The snippet of the text below. -/
def nodeSnippet : Snippet where
  name := "Node"
  unique := false
  kind := .entity "node" 0
  attributes := []
  patterns := [.literal "n"]

/-- The text of a library with one snippet. -/
def baseText : String := "Base\nBase\n1\nentity Node node 0 : begin n; end\n"

/-- The registry with this library. -/
def base : Registry := ⟨[⟨"Base", "Base", "1", [nodeSnippet]⟩]⟩

/-- A library of which the last snippet has a name that is taken. -/
def more : Library := ⟨"More", "More", "1", [{ nodeSnippet with name := "Router" }, nodeSnippet]⟩

theorem perform_baseText : empty.perform (.load baseText) = (.ok [], base) := by decide +kernel

theorem reachable_base : Reachable base := by
  have h := Reachable.empty.perform (.load baseText) (by simp)
  rwa [perform_baseText] at h

/-- The library is rejected as a whole, and what was there is still there. -/
theorem names_distinct_and_lookups_stable_base :
    Reachable base ∧ (base.perform (.add more)).1 = .error (.duplicateSnippet "Node") ∧
      (base.perform (.add more)).2 = base ∧
      (base.perform (.add more)).2.snippet? "Router" = none ∧
      nodeSnippet ∈ base.snippets ∧
      (base.performAll [.add more, .load baseText]).snippet? "Node" = some nodeSnippet := by
  have hfails : (base.perform (.add more)).1 = .error (.duplicateSnippet "Node") := by decide
  obtain ⟨-, -, hfind, -, hrejected, -, hstable⟩ := names_distinct_and_lookups_stable reachable_base
  obtain ⟨hsame, hinvisible⟩ := hrejected _ _ hfails
  have hnode : base.snippet? "Node" = some nodeSnippet := by decide
  exact ⟨reachable_base, hfails, hsame, hinvisible _ rfl _ List.mem_cons_self (by decide),
    ((hfind _ _).mp hnode).1, (hstable _).2 _ _ hnode⟩

end Registry

end Stencil
