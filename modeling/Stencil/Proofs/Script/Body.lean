import Stencil.Proofs.Script.Outline
import Stencil.Proofs.Script.Styles
import Stencil.Proofs.Script.Template

/-!
# The lines of an instance

Every pattern of a class writes one line: its guard selects a template (`Pattern.Selects`), and the
template is filled in or, if a tag is left open, stands for the text of the catalog
(`Style.Writes`). What is left without the blank lines is the body. A pattern sees nothing of the
other patterns, so the body is put together pattern by pattern (`lines_redraft`), and a template
that is not selected is not seen at all.
-/

namespace Stencil

/-- The template that the pattern stands for when names resolve so. -/
inductive Pattern.Selects (resolve : String → String) : Pattern → String → Prop where
  | literal {template : String} : Selects resolve (.literal template) template
  /-- The guard resolves to the value. -/
  | main {guard value main alternative : String} :
      resolve guard = value → Selects resolve (.conditional guard value main alternative) main
  /-- The guard resolves to something else. -/
  | alternative {guard value main alternative : String} :
      resolve guard ≠ value →
      Selects resolve (.conditional guard value main alternative) alternative

theorem Pattern.selects_iff {resolve : String → String} {p : Pattern} {template : String} :
    p.Selects resolve template ↔ p.select resolve = template := by
  constructor
  · intro h
    cases h with
    | literal => rfl
    | main h => exact if_pos h
    | alternative h => exact if_neg h
  · rintro rfl
    cases p with
    | literal template => exact .literal
    | conditional guard value main alternative =>
        by_cases h : resolve guard = value
        · rw [select, if_pos h]
          exact .main h
        · rw [select, if_neg h]
          exact .alternative h

namespace Template

variable {resolve : String → String} {separator : Char} {template : String}

theorem fill_of_even (h : Even (template.toList.count separator)) :
    fill resolve separator template =
      .ok (fillIn (pieces separator template.toList)
        ((closedTags (pieces separator template.toList)).map resolve)) := by
  rw [fill, expand, expandFrom_of_even h, List.mapM_pure]
  rfl

theorem exists_fill_of_odd (h : Odd (template.toList.count separator)) :
    ∃ e, fill resolve separator template = .error e := by
  obtain ⟨front, opened, -, -, hexpand⟩ :=
    exists_expandFrom_of_odd (m := Id) (fun tag => pure (resolve tag)) h 0
  rw [fill, expand, hexpand, List.mapM_pure]
  exact ⟨_, rfl⟩

end Template

/-- The line that a pattern writes when names resolve so. -/
inductive Style.Writes (style : Style) (resolve : String → String) : Pattern → String → Prop where
  /-- Every tag of the template is closed and replaced. -/
  | filled {p : Pattern} {template : String} :
      p.Selects resolve template → Even (template.toList.count style.separator) →
      Writes style resolve p
        (Template.fillIn (Template.pieces style.separator template.toList)
          ((Template.closedTags (Template.pieces style.separator template.toList)).map resolve))
  /-- A tag of the template is left open. -/
  | malformed {p : Pattern} {template : String} :
      p.Selects resolve template → Odd (template.toList.count style.separator) →
      Writes style resolve p style.catalog.badPattern

namespace World

variable {w : World} {style : Style} {o : Instance}

theorem writes_line (w : World) (style : Style) (o : Instance) (p : Pattern) :
    style.Writes (w.resolve style.catalog o) p
      (w.line style o (p.select (w.resolve style.catalog o))) := by
  have hselects := Pattern.selects_iff.mpr (rfl : p.select (w.resolve style.catalog o) = _)
  rcases Nat.even_or_odd ((p.select (w.resolve style.catalog o)).toList.count style.separator)
    with heven | hodd
  · rw [line, Template.fill_of_even heven]
    exact .filled hselects heven
  · obtain ⟨e, he⟩ := Template.exists_fill_of_odd hodd
    rw [line, he]
    exact .malformed hselects hodd

end World

namespace Instance

/-- The instance as one of a class with other patterns. -/
def withPatterns (o : Instance) (patterns : List Pattern) : Instance :=
  { o with snippet := { o.snippet with patterns := patterns } }

end Instance

namespace World

/-- The world in which the classes of instances have other patterns. -/
def redraft (w : World) (draft : Instance → List Pattern) : World :=
  w.mapInstances fun o => o.withPatterns (draft o)

variable {w : World} {style : Style} {o : Instance} {draft : Instance → List Pattern}

theorem outline_withPatterns (draft : Instance → List Pattern) (o : Instance) :
    o.SameOutline (o.withPatterns (draft o)) :=
  ⟨rfl, rfl, rfl, rfl⟩

/-- No name resolves to anything that patterns have a part in. -/
theorem resolve_redraft (w : World) (draft : Instance → List Pattern) (catalog : Catalog)
    (o : Instance) :
    (w.redraft draft).resolve catalog (o.withPatterns (draft o)) = w.resolve catalog o := by
  funext token
  unfold resolve
  split
  · exact lookup_of_outline (outline_withPatterns draft) (fun _ => rfl) catalog
  · exact lookup_of_outline (outline_withPatterns draft) (fun _ => rfl) catalog

theorem frame_redraft (w : World) (draft : Instance → List Pattern) (loops : LoopStyle)
    (o : Instance) : (w.redraft draft).frame loops (o.withPatterns (draft o)) = w.frame loops o :=
  congrArg (Loops.frame loops) (loops_of_outline (outline_withPatterns draft) w o)

/-- The lines are those of the patterns, of each as if it were the only one. -/
theorem lines_redraft (w : World) (draft : Instance → List Pattern) (style : Style)
    (o : Instance) :
    (w.redraft draft).lines style (o.withPatterns (draft o)) =
      (draft o).flatMap fun p => w.lines style (o.withPatterns [p]) := by
  unfold lines line
  rw [resolve_redraft, List.map_eq_flatMap, List.filter_flatMap]
  rfl

theorem lines_singleton_of_selects {p q : Pattern} {template : String}
    (hp : p.Selects (w.resolve style.catalog o) template)
    (hq : q.Selects (w.resolve style.catalog o) template) :
    w.lines style (o.withPatterns [p]) = w.lines style (o.withPatterns [q]) := by
  have hselect : p.select (w.resolve style.catalog o) = q.select (w.resolve style.catalog o) :=
    (Pattern.selects_iff.mp hp).trans (Pattern.selects_iff.mp hq).symm
  change [w.line style o (p.select (w.resolve style.catalog o))].filter _ =
    [w.line style o (q.select (w.resolve style.catalog o))].filter _
  rw [hselect]

theorem flatMap_lines_of_selects {patterns patterns' : List Pattern}
    (h : List.Forall₂ (fun p q => ∃ template, p.Selects (w.resolve style.catalog o) template ∧
      q.Selects (w.resolve style.catalog o) template) patterns patterns') :
    patterns.flatMap (fun p => w.lines style (o.withPatterns [p])) =
      patterns'.flatMap fun q => w.lines style (o.withPatterns [q]) := by
  induction h with
  | nil => rfl
  | cons hpq _ ih =>
      obtain ⟨template, hp, hq⟩ := hpq
      rw [List.flatMap_cons, List.flatMap_cons, lines_singleton_of_selects hp hq, ih]

theorem text_redraft_of_selects {draft' : Instance → List Pattern}
    (h : List.Forall₂ (fun p q => ∃ template, p.Selects (w.resolve style.catalog o) template ∧
      q.Selects (w.resolve style.catalog o) template) (draft o) (draft' o)) :
    (w.redraft draft).text style (o.withPatterns (draft o)) =
      (w.redraft draft').text style (o.withPatterns (draft' o)) := by
  unfold text
  rw [lines_redraft, lines_redraft, frame_redraft, frame_redraft, flatMap_lines_of_selects h]

/-- A text that is trimmed is blank only if it is empty. -/
theorem isBlankText_text (h : w.lines style o ≠ []) : isBlankText (w.text style o) = false := by
  rw [← Bool.not_eq_true, isBlankText, Text.allBlank, List.all_eq_true]
  intro hblank
  have htrim := Text.trim_eq_nil_iff.mpr hblank
  rw [text_eq_trimmed h, trimmed, String.toList_ofList, Text.trim_trim] at htrim
  refine h (text_eq_empty_iff.mp ?_)
  rw [text_eq_trimmed h, trimmed, htrim, String.ofList_nil]

/-- Every pattern writes the template that its guard selects, filled in, or the text of the catalog
if the template has an odd number of separators. Without the blank ones these are the lines of the
instance, and its text is empty if there are none, whatever its arrays. Otherwise the text is the
lines in their loops, trimmed, and neither blank nor does it start or end with a blank. With other
patterns in its class or in any other, the instance has the lines that each of its patterns writes
alone, in order, and the same text as long as each of its patterns selects the same template. -/
theorem text_written_line_by_line (w : World) (style : Style) (o : Instance) :
    (∃ written : List String,
      List.Forall₂ (style.Writes (w.resolve style.catalog o)) o.snippet.patterns written ∧
      w.lines style o = written.filter (!isBlankText ·)) ∧
    (w.text style o = "" ↔ w.lines style o = []) ∧
    (w.lines style o ≠ [] →
      isBlankText (w.text style o) = false ∧
      (∀ c, (w.text style o).toList.head? = some c → Text.isBlank c = false) ∧
      (∀ c, (w.text style o).toList.getLast? = some c → Text.isBlank c = false) ∧
      w.text style o = trimmed ((w.frame style.loops o).opening ++
        String.join ((w.lines style o).map (· ++ "\n")) ++ (w.frame style.loops o).closing)) ∧
    (∀ draft : Instance → List Pattern,
      (w.redraft draft).lines style (o.withPatterns (draft o)) =
        (draft o).flatMap fun p => w.lines style (o.withPatterns [p])) ∧
    ∀ draft draft' : Instance → List Pattern,
      List.Forall₂ (fun p q => ∃ template, p.Selects (w.resolve style.catalog o) template ∧
        q.Selects (w.resolve style.catalog o) template) (draft o) (draft' o) →
      (w.redraft draft).text style (o.withPatterns (draft o)) =
        (w.redraft draft').text style (o.withPatterns (draft' o)) := by
  refine ⟨⟨_, ?_, rfl⟩, text_eq_empty_iff, fun hlines => ?_,
    fun draft => w.lines_redraft draft style o, fun draft draft' => text_redraft_of_selects⟩
  · rw [List.forall₂_map_right_iff, List.forall₂_same]
    exact fun p _ => w.writes_line style o p
  · have htext := text_eq_trimmed hlines
    have htrim : Text.trim (w.text style o).toList = (w.text style o).toList := by
      rw [htext, trimmed, String.toList_ofList, Text.trim_trim]
    obtain ⟨hhead, hlast⟩ := Text.trim_eq_self_iff.mp htrim
    exact ⟨isBlankText_text hlines, hhead, hlast, htext⟩

/-- A node of the network that is on an array. -/
def looped : Instance := ⟨⟨1⟩, node, "a", some 0, ["black"], .entity⟩

/-- A template that the guard does not select, a blank line, and a tag that is left open. -/
def sparse (unselected : String) : List Pattern :=
  [.conditional "color" "red" unselected "plain", .literal " ", .literal "#name", .literal "end"]

/-- The open tag costs its own line only, the blank line goes, and the template that is not
selected may have an open tag or none. With the blank line alone there is no loop either. -/
theorem text_written_line_by_line_network :
    (network.redraft fun _ => sparse "#color").lines .standard
        (looped.withPatterns (sparse "#color")) =
      ["plain", Catalog.standard.badPattern, "end"] ∧
    (network.redraft fun _ => sparse "#color").text .standard
        (looped.withPatterns (sparse "#color")) =
      (network.redraft fun _ => sparse "red").text .standard
        (looped.withPatterns (sparse "red")) ∧
    network.text .standard (looped.withPatterns [.literal " "]) = "" := by
  obtain ⟨-, -, -, hlines, htext⟩ := text_written_line_by_line network .standard looped
  have hblack : network.resolve Style.standard.catalog looped "color" ≠ "red" := by
    decide +kernel
  have hguard (unselected : String) :
      Pattern.Selects (network.resolve Style.standard.catalog looped)
        (.conditional "color" "red" unselected "plain") "plain" := .alternative hblack
  refine ⟨(hlines _).trans (by decide +kernel), htext _ _ ?_,
    (text_written_line_by_line network .standard _).2.1.mpr (by decide +kernel)⟩
  exact .cons ⟨_, hguard _, hguard _⟩ (List.forall₂_same.mpr fun p _ =>
    ⟨_, Pattern.selects_iff.mpr rfl, Pattern.selects_iff.mpr rfl⟩)

end World

end Stencil
