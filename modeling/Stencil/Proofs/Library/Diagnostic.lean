import Stencil.CommandLine.Run
import Stencil.Proofs.Library.Load
import Stencil.Proofs.Snippet.Error

/-!
# Which diagnostics can be shown

An error has no report when its span runs backwards. That is the error of a header that
breaks off, and no other. A diagnostic that holds one has no report either, and loading the
library file ends the run (`unshown_iff_breaksOff`).
-/

namespace Stencil

theorem Report.draw?_eq_none {report : Report} {source file : String} :
    report.draw? source file = none ↔ report.span.stop < report.span.start := by
  unfold draw?
  split <;> simp [*]

theorem Snippet.Error.span_report (e : Snippet.Error) : e.report.span = e.span := by
  cases e <;> rfl

/-- An error of a block cannot be shown just when the header of the block breaks off. -/
theorem Snippet.exists_unshown_iff {block : String} {found : List Error}
    (h : parse block = .error found) (file : String) :
    (∃ e ∈ found, e.report.draw? block file = none) ↔ BreaksOff block := by
  simp only [Report.draw?_eq_none, Error.span_report]
  constructor
  · rintro ⟨e, he, hspan⟩
    exact ((span_of_parse_eq_error h he).2.2.mp hspan).1
  · intro hbreaks
    obtain ⟨found', h', e, he, hheader⟩ := hbreaks.exists_badHeader
    obtain rfl := Except.error.inj (h.symm.trans h')
    exact ⟨e, he, (span_of_parse_eq_error h he).2.2.mpr ⟨hbreaks, hheader⟩⟩

theorem mapM_eq_none {α β : Type} {f : α → Option β} {l : List α} :
    l.mapM f = none ↔ ∃ a ∈ l, f a = none := by
  induction l with
  | nil => simp
  | cons a l ih =>
      rw [List.mapM_cons]
      cases ha : f a with
      | none => simp [ha]
      | some b =>
          rw [List.exists_mem_cons_iff, ← ih]
          cases hl : l.mapM f <;> simp [ha]

theorem mapM_eq_some {α β : Type} {f : α → Option β} {l : List α} (h : ∀ a ∈ l, f a ≠ none) :
    l.mapM f = some (l.filterMap f) := by
  induction l with
  | nil => rfl
  | cons a l ih =>
      obtain ⟨ha, hl⟩ := List.forall_mem_cons.mp h
      obtain ⟨b, hb⟩ := Option.ne_none_iff_exists'.mp ha
      rw [List.mapM_cons, ih hl, List.filterMap_cons_some hb, hb]
      rfl

namespace Library

variable {d : Diagnostic} {load : Load} {text : String}

/-- What the diagnostic says is wrong with its block. -/
def Diagnostic.Stands (d : Diagnostic) : Prop :=
  match d.problem with
  | .malformed errors => Snippet.parse d.source = .error errors
  | .duplicate name => ∃ s, Snippet.parse d.source = .ok s ∧ s.name = name

theorem Load.stands_reject (hload : ∀ d ∈ load.diagnostics, d.Stands) {position : Nat}
    {block : Block} {problem : Problem}
    (hnew : Diagnostic.Stands ⟨position, block.line, block.text, problem⟩) :
    ∀ d ∈ (load.reject position block problem).diagnostics, d.Stands := by
  intro d hd
  rcases List.mem_append.mp hd with hd | hd
  · exact hload d hd
  · exact List.mem_singleton.mp hd ▸ hnew

theorem Load.stands_read {load' : Load} {position : Nat} {block : Block}
    (hload : ∀ d ∈ load.diagnostics, d.Stands) (hread : load.read position block = .ok load') :
    ∀ d ∈ load'.diagnostics, d.Stands := by
  unfold read at hread
  split at hread
  · next errors hparse =>
      cases hread
      exact stands_reject hload hparse
  · next snippet hparse =>
      split at hread
      · cases hread
        exact hload
      · next name hadd =>
          cases hread
          obtain ⟨-, hname⟩ := add_eq_error_iff.mp hadd
          exact stands_reject hload ⟨snippet, hparse, Error.duplicateSnippet.inj hname⟩
      · cases hread

theorem Load.stands_readAll {load' : Load} {position : Nat} {blocks : List Block}
    (hload : ∀ d ∈ load.diagnostics, d.Stands)
    (hread : load.readAll position blocks = .ok load') : ∀ d ∈ load'.diagnostics, d.Stands := by
  induction blocks generalizing load position with
  | nil =>
      cases hread
      exact hload
  | cons block blocks ih =>
      obtain ⟨next, hnext, hrest⟩ := bind_eq_ok_iff.mp hread
      exact ih (stands_read hload hnext) hrest

theorem stands_of_parse (h : parse text = .ok load) (hd : d ∈ load.diagnostics) : d.Stands := by
  unfold parse at h
  split at h
  · exact Load.stands_readAll (by simp) h d hd
  all_goals cases h

theorem Diagnostic.report?_eq_none (h : d.Stands) (file : String) :
    d.report? file = none ↔ Snippet.BreaksOff d.source := by
  unfold Stands at h
  unfold report?
  cases hproblem : d.problem with
  | malformed errors =>
      rw [hproblem] at h
      simp only [Option.map_eq_none_iff, mapM_eq_none]
      exact Snippet.exists_unshown_iff h _
  | duplicate name =>
      rw [hproblem] at h
      obtain ⟨s, hparse, -⟩ := h
      refine iff_of_false (by simp) ?_
      intro hbreaks
      obtain ⟨found, hfound, -⟩ := hbreaks.exists_badHeader
      rw [hparse] at hfound
      cases hfound

theorem exists_parse_of_load {registry registry' : Registry} {diagnostics : List Diagnostic}
    (h : registry.load text = .ok (diagnostics, registry')) :
    ∃ load, parse text = .ok load ∧ diagnostics = load.diagnostics := by
  simp only [Registry.load, bind_eq_ok_iff, pure_eq_ok_iff] at h
  obtain ⟨load, hparse, added, -, heq⟩ := h
  cases heq
  exact ⟨load, hparse, rfl⟩

end Library

namespace CommandLine

variable {m : Type → Type} [Monad m] [LawfulMonad m]

/-- A run breaks off at a library file with a block whose header breaks off, and at no other
library file that it can read. -/
theorem loadLibrary_eq {sources : Sources m} {loaded : Loaded} {path text : String}
    {diagnostics : List Library.Diagnostic} {registry : Registry}
    (hfile : sources.file path = pure (.ok text))
    (hload : loaded.registry.load text = .ok (diagnostics, registry)) :
    loadLibrary sources loaded path =
      if ∃ d ∈ diagnostics, Snippet.BreaksOff d.source then throw (.breakOff loaded.notes)
      else
        pure ⟨registry, loaded.notes ++ page (diagnostics.filterMap (·.report? path)),
          loaded.rejected + diagnostics.length⟩ := by
  obtain ⟨load, hparse, rfl⟩ := Library.exists_parse_of_load hload
  have hreport : ∀ d ∈ load.diagnostics, (d.report? path = none ↔ Snippet.BreaksOff d.source) :=
    fun d hd => Library.Diagnostic.report?_eq_none (Library.stands_of_parse hparse hd) path
  have hlift : (liftM (sources.file path) : Run m (Except FileError String)) =
      pure (.ok text) := by
    rw [hfile, liftM_pure]
  unfold loadLibrary
  rw [hlift, pure_bind]
  simp only [hload]
  by_cases hbreaks : ∃ d ∈ load.diagnostics, Snippet.BreaksOff d.source
  · obtain ⟨d, hd, hsource⟩ := hbreaks
    rw [if_pos ⟨d, hd, hsource⟩, mapM_eq_none.mpr ⟨d, hd, (hreport d hd).mpr hsource⟩]
  · rw [if_neg hbreaks,
      mapM_eq_some fun d hd hnone => hbreaks ⟨d, hd, (hreport d hd).mp hnone⟩]

end CommandLine

/-- Take any text. As a block, its errors lie within it, and each can be shown unless it is
about a header that breaks off. As a library, so can its diagnostics. As a file, it ends the run
that loads it just when one of its blocks breaks off. -/
theorem unshown_iff_breaksOff (text file : String) :
    (∀ found, Snippet.parse text = .error found → ∀ e ∈ found,
      e.span.start ≤ Text.size text.toList ∧ e.span.stop ≤ Text.size text.toList ∧
        (e.span.stop < e.span.start ↔ Snippet.BreaksOff text ∧ e.IsBadHeader) ∧
        (e.report.draw? text file = none ↔ e.span.stop < e.span.start)) ∧
    (∀ load, Library.parse text = .ok load → ∀ d ∈ load.diagnostics,
      (d.report? file = none ↔ Snippet.BreaksOff d.source)) ∧
    ∀ (m : Type → Type) [Monad m] [LawfulMonad m] (sources : CommandLine.Sources m)
      (loaded : CommandLine.Loaded) (diagnostics : List Library.Diagnostic)
      (registry : Registry), sources.file file = pure (.ok text) →
        loaded.registry.load text = .ok (diagnostics, registry) →
        CommandLine.loadLibrary sources loaded file =
          if ∃ d ∈ diagnostics, Snippet.BreaksOff d.source then throw (.breakOff loaded.notes)
          else
            pure ⟨registry,
              loaded.notes ++ CommandLine.page (diagnostics.filterMap (·.report? file)),
              loaded.rejected + diagnostics.length⟩ := by
  refine ⟨?_, ?_, fun m _ _ _ _ _ _ => CommandLine.loadLibrary_eq⟩
  · intro found h e he
    obtain ⟨hstart, hstop, hiff⟩ := Snippet.span_of_parse_eq_error h he
    refine ⟨hstart, hstop, hiff, ?_⟩
    rw [Report.draw?_eq_none, Snippet.Error.span_report]
  · intro load h d hd
    exact Library.Diagnostic.report?_eq_none (Library.stands_of_parse h hd) file

/-! ### A block without an icon -/

/-- A block whose header ends before the number of its icon, with a blank behind it. -/
def iconless : String := "entity Node node : begin end"

/-- What is wrong with it. -/
def iconlessError : Snippet.Error := .badHeader ⟨17, 16⟩ "Unexpected end of header" []

/-- A library that holds the block. -/
def iconlessLibrary : String := "core\nCore\n1.0\n" ++ iconless ++ "\n"

theorem parse_iconless : Snippet.parse iconless = .error [iconlessError] := by decide +kernel

theorem load_iconlessLibrary :
    Registry.empty.load iconlessLibrary =
      .ok ([⟨0, 4, iconless, .malformed [iconlessError]⟩], ⟨[⟨"core", "Core", "1.0", []⟩]⟩) := by
  decide +kernel

/-- The error cannot be shown, nor the diagnostic, and the run breaks off. -/
theorem iconless_breaks_off :
    Snippet.parse iconless = .error [iconlessError] ∧
      iconlessError.report.draw? iconless "core.nsl" = none ∧
      Library.Diagnostic.report? ⟨0, 4, iconless, .malformed [iconlessError]⟩ "core.nsl" = none ∧
      CommandLine.loadLibrary (m := Id) ⟨fun _ => .ok iconlessLibrary, ""⟩ ⟨.empty, "", 0⟩
        "core.nsl" = throw (.breakOff "") := by
  have hbreaks : Snippet.BreaksOff iconless := by decide +kernel
  obtain ⟨herrors, -, -⟩ := unshown_iff_breaksOff iconless "core.nsl"
  obtain ⟨-, hdiagnostics, hload⟩ := unshown_iff_breaksOff iconlessLibrary "core.nsl"
  obtain ⟨-, -, hbackwards, hshown⟩ := herrors _ parse_iconless iconlessError List.mem_cons_self
  obtain ⟨load, hparse, hmem⟩ := Library.exists_parse_of_load load_iconlessLibrary
  refine ⟨parse_iconless, ?_, ?_, ?_⟩
  · exact hshown.mpr (hbackwards.mpr ⟨hbreaks, _, _, _, rfl⟩)
  · exact (hdiagnostics load hparse _ (hmem ▸ List.mem_cons_self)).mpr hbreaks
  · rw [hload Id _ _ _ _ rfl load_iconlessLibrary, if_pos ⟨_, List.mem_cons_self, hbreaks⟩]

/-- It is not so that every error has a span that runs forward and can be shown. -/
theorem not_forall_errors_shown :
    ¬ ∀ block found, Snippet.parse block = .error found → ∀ e ∈ found,
      e.span.start ≤ e.span.stop ∧ e.span.stop ≤ Text.size block.toList ∧
        ∀ file, e.report.draw? block file ≠ none := by
  intro hall
  have hle := (hall iconless _ parse_iconless iconlessError List.mem_cons_self).1
  exact absurd hle (by decide)

end Stencil
