import Stencil.Proofs.Script.Alike
import Stencil.Proofs.Text.Blank
import Stencil.Proofs.World.Linked

/-!
# The two styles of loops

The styles differ where a loop over the array of a target is closed: in one its line has a
margin, in the other it has none or comes in another place. So scripts in the two styles have
the same lines up to margins. No text gets shorter from one style to the other, so they can
only be the same if each text is (`eq_of_intercalate_eq`), and the texts that are not are
those with an inner loop.
-/

namespace Stencil

/-- What stands between the line feeds of a text. -/
def linesOf (text : String) : List (List Char) := Text.pieces (· == '\n') text.toList

/-- The lines of a text without the spaces in front of them. -/
def unindented (text : String) : List (List Char) :=
  (linesOf text).map (List.dropWhile (· == ' '))

theorem length_unindented (text : String) : (unindented text).length = (linesOf text).length :=
  List.length_map _

theorem linesOf_append (s t : String) : linesOf (s ++ "\n" ++ t) = linesOf s ++ linesOf t := by
  have hsplit : (s ++ "\n" ++ t).toList = s.toList ++ '\n' :: t.toList := by simp
  rw [linesOf, hsplit, Text.pieces_append rfl, linesOf, linesOf]

theorem unindented_append (s t : String) :
    unindented (s ++ "\n" ++ t) = unindented s ++ unindented t := by
  rw [unindented, linesOf_append, List.map_append, unindented, unindented]

theorem unindented_intercalate {texts : List String} (h : texts ≠ []) :
    unindented ("\n".intercalate texts) = texts.flatMap unindented := by
  induction texts with
  | nil => exact absurd rfl h
  | cons text texts ih =>
      cases texts with
      | nil => simp
      | cons next texts =>
          rw [String.intercalate_cons_cons, unindented_append, ih (List.cons_ne_nil _ _)]
          simp only [List.flatMap_cons]

theorem length_intercalate_le (separator : String) {texts texts' : List String}
    (h : List.Forall₂ (fun s t => s.length ≤ t.length) texts texts') :
    (separator.intercalate texts).length ≤ (separator.intercalate texts').length := by
  induction h with
  | nil => exact Nat.le_refl _
  | cons hst hrest ih =>
      cases hrest with
      | nil => simpa using hst
      | cons hnext hmore =>
          simp only [String.intercalate_cons_cons, String.length_append]
          omega

/-- Lists of texts that are joined to the same are the same, if the texts of the one are not
longer than those of the other. -/
theorem eq_of_intercalate_eq {separator : String} {texts texts' : List String}
    (hlength : List.Forall₂ (fun s t => s.length ≤ t.length) texts texts')
    (h : separator.intercalate texts = separator.intercalate texts') : texts = texts' := by
  induction hlength with
  | nil => rfl
  | @cons s t _ _ hst hrest ih =>
      cases hrest with
      | nil => simpa using h
      | cons hnext hmore =>
          have hle := length_intercalate_le separator (hmore.cons hnext)
          rw [String.intercalate_cons_cons, String.intercalate_cons_cons] at h
          -- The rests are not longer either, so the first texts must be of one length.
          have hsum := congrArg String.length h
          simp only [String.length_append] at hsum
          have hsame : s.length = t.length := by omega
          have hlist := congrArg String.toList h
          simp only [String.toList_append, List.append_assoc] at hlist
          obtain ⟨hfirst, hlist⟩ := List.append_inj hlist
            (by rwa [String.length_toList, String.length_toList])
          rw [String.toList_inj.mp hfirst,
            ih (String.toList_inj.mp (List.append_cancel_left hlist))]

/-- A text with blanks around it is trimmed to that text if it starts and ends with other
characters. -/
theorem trimmed_eq {s t : String} {before after : List Char}
    (hs : s.toList = before ++ t.toList ++ after) (hbefore : ∀ c ∈ before, Text.isBlank c = true)
    (hafter : ∀ c ∈ after, Text.isBlank c = true) (ht : Text.trim t.toList = t.toList) :
    trimmed s = t := by
  rw [trimmed, hs, Text.trim_append_append hbefore hafter ht, String.ofList_toList]

theorem Frame.toList_header (array : ArrayDef) : ∃ rest, (header array).toList = 'f' :: rest := by
  delta header
  simp only [String.toList_append, List.append_assoc]
  exact ⟨_, rfl⟩

/-- A text that starts with a loop and ends with its closing brace is trimmed of a margin and a
line feed around it. -/
theorem trimmed_loop {s t margin : String} (array : ArrayDef) (middle : String)
    (hmargin : margin = "" ∨ margin = Frame.margin)
    (ht : t = Frame.header array ++ middle ++ "\x7d") (hs : s = margin ++ t ++ "\n") :
    trimmed s = t := by
  have hblanks : s.toList = margin.toList ++ t.toList ++ ['\n'] := by simp [hs]
  refine trimmed_eq hblanks ?_ (List.forall_mem_singleton.mpr (by decide)) ?_
  · rcases hmargin with rfl | rfl
    · exact List.all_eq_true.mp (by decide)
    · exact List.all_eq_true.mp (by decide)
  · obtain ⟨rest, hrest⟩ := Frame.toList_header array
    have hfirst : t.toList.head? = some 'f' := by simp [ht, hrest]
    have hlast : t.toList.getLast? = some '}' := by simp [ht]
    rw [Text.trim_eq_self_iff, hfirst, hlast]
    constructor
    · rintro c ⟨⟩
      decide
    · rintro c ⟨⟩
      decide

namespace Loops

variable {loops : Loops}

theorem frame_eq_of_inner?_eq_none (h : loops.inner? = none) (style style' : LoopStyle) :
    loops.frame style = loops.frame style' := by
  obtain ⟨outer?, inner?⟩ := loops
  obtain rfl : inner? = none := h
  cases outer? <;> rfl

/-- What stands behind the text in an inner loop, nested and legacy. -/
inductive Closing : String → String → Prop where
  /-- There is no outer loop. -/
  | alone : Closing "\x7d" "  \x7d"
  /-- The outer loop is closed in the last line, or in the one before. -/
  | inOuter : Closing "  \x7d\n\x7d" "\x7d\n  \x7d"

/-- What stands in front of the text in an inner loop is the same. -/
theorem exists_trimmed_wrap (h : loops.inner? ≠ none) (body : String) :
    ∃ opening closing closing', Closing closing closing' ∧
      trimmed ((loops.frame .nested).wrap body) = opening ++ body ++ closing ∧
      trimmed ((loops.frame .legacy).wrap body) = opening ++ body ++ closing' := by
  obtain ⟨outer?, inner?⟩ := loops
  obtain ⟨inner, rfl⟩ : ∃ inner, inner? = some inner := Option.ne_none_iff_exists'.mp h
  cases outer? with
  | none =>
      refine ⟨Frame.header inner, _, _, .alone, ?_, ?_⟩
      · refine trimmed_loop inner body (.inl rfl) rfl ?_
        simp [frame, Frame.wrap, Frame.footer, ← String.toList_inj]
      · refine trimmed_loop inner (body ++ Frame.margin) (.inr rfl) ?_ ?_
        · simp [Frame.margin, ← String.toList_inj]
        · simp [frame, Frame.wrap, Frame.footer, Frame.margin, ← String.toList_inj]
  | some outer =>
      refine ⟨Frame.header outer ++ Frame.margin ++ Frame.header inner, _, _, .inOuter, ?_, ?_⟩
      · refine trimmed_loop outer
          (Frame.margin ++ Frame.header inner ++ body ++ Frame.margin ++ Frame.footer) (.inl rfl)
          ?_ ?_
        · simp [Frame.footer, Frame.margin, ← String.toList_inj]
        · simp [frame, Frame.wrap, Frame.footer, Frame.margin, ← String.toList_inj]
      · refine trimmed_loop outer
          (Frame.margin ++ Frame.header inner ++ body ++ Frame.footer ++ Frame.margin) (.inl rfl)
          ?_ ?_
        · simp [Frame.footer, Frame.margin, ← String.toList_inj]
        · simp [frame, Frame.wrap, Frame.footer, Frame.margin, ← String.toList_inj]

end Loops

/-- The style with its loops written in a given way. -/
def Style.withLoops (style : Style) (loops : LoopStyle) : Style := { style with loops := loops }

/-- The generator with its loops written in a given way. -/
def Generator.withLoops (g : Generator) (loops : LoopStyle) : Generator :=
  { g with style := g.style.withLoops loops }

namespace World

variable {w : World} {o : Instance} {style : Style}

/-- The lines of an instance, one under the other. -/
def body (w : World) (style : Style) (o : Instance) : String :=
  String.join ((w.lines style o).map (· ++ "\n"))

theorem exists_body_eq (h : w.lines style o ≠ []) : ∃ init, w.body style o = init ++ "\n" := by
  obtain ⟨lines, last, hlines⟩ := (List.eq_nil_or_concat (w.lines style o)).resolve_left h
  refine ⟨String.join (lines.map (· ++ "\n")) ++ last, ?_⟩
  rw [body, hlines]
  simp [String.append_assoc]

theorem text_eq_trimmed (h : w.lines style o ≠ []) :
    w.text style o = trimmed (((w.loops o).frame style.loops).wrap (w.body style o)) := by
  simp [text, h, frame, body]

theorem text_eq_empty (h : w.lines style o = []) : w.text style o = "" := by
  simp [text, h]

/-- What an instance writes is not blank. -/
theorem text_eq_empty_iff : w.text style o = "" ↔ w.lines style o = [] := by
  refine ⟨fun htext => by_contra fun hne => ?_, text_eq_empty⟩
  obtain ⟨line, hline⟩ := List.exists_mem_of_ne_nil _ hne
  obtain ⟨c, hc, hblank⟩ : ∃ c ∈ line.toList, Text.isBlank c = false := by
    simpa [isBlankText, Text.allBlank] using (List.mem_filter.mp hline).2
  have hbody : c ∈ (w.body style o).toList := by
    simp only [body, String.toList_join, List.mem_flatMap, List.mem_map]
    exact ⟨line ++ "\n", ⟨line, hline, rfl⟩, by simp [hc]⟩
  rw [text_eq_trimmed hne, trimmed, String.ofList_eq_empty_iff, Text.trim_eq_nil_iff] at htext
  have hall := htext c (by simp [Frame.wrap, hbody])
  rw [hblank] at hall
  cases hall

theorem text_withLoops_eq (h : w.lines style o = [] ∨ (w.loops o).inner? = none)
    (loops loops' : LoopStyle) :
    w.text (style.withLoops loops) o = w.text (style.withLoops loops') o := by
  by_cases hlines : w.lines style o = []
  · have hempty : ∀ loops, w.text (style.withLoops loops) o = "" := fun _ => text_eq_empty hlines
    rw [hempty loops, hempty loops']
  · have htext : ∀ loops, w.text (style.withLoops loops) o =
        trimmed (((w.loops o).frame loops).wrap (w.body style o)) := fun _ => text_eq_trimmed hlines
    rw [htext loops, htext loops',
      Loops.frame_eq_of_inner?_eq_none (h.resolve_left hlines) loops loops']

/-- With an inner loop the two texts differ, but only in margins, and the nested one is not
longer. -/
theorem text_withLoops_of_inner? (hlines : w.lines style o ≠ [])
    (hinner : (w.loops o).inner? ≠ none) :
    unindented (w.text (style.withLoops .nested) o) =
        unindented (w.text (style.withLoops .legacy) o) ∧
      (w.text (style.withLoops .nested) o).length ≤ (w.text (style.withLoops .legacy) o).length ∧
      w.text (style.withLoops .nested) o ≠ w.text (style.withLoops .legacy) o := by
  obtain ⟨init, hinit⟩ := exists_body_eq hlines
  obtain ⟨opening, closing, closing', hclosing, hnested, hlegacy⟩ :=
    Loops.exists_trimmed_wrap hinner (w.body style o)
  have hs : w.text (style.withLoops .nested) o = opening ++ (init ++ "\n") ++ closing := by
    rw [← hinit, ← hnested]
    exact text_eq_trimmed hlines
  have ht : w.text (style.withLoops .legacy) o = opening ++ (init ++ "\n") ++ closing' := by
    rw [← hinit, ← hlegacy]
    exact text_eq_trimmed hlines
  obtain ⟨hunindented, hle, hne⟩ : unindented closing = unindented closing' ∧
      closing.length ≤ closing'.length ∧ closing ≠ closing' := by
    cases hclosing <;> decide
  rw [hs, ht]
  refine ⟨?_, ?_, ?_⟩
  · rw [← String.append_assoc, unindented_append, unindented_append, hunindented]
  · simp only [String.length_append]
    exact Nat.add_le_add_left hle _
  · rwa [Ne, String.append_right_inj]

/-- An instance is written alike in both styles unless it has an inner loop. -/
theorem text_withLoops_eq_iff :
    w.text (style.withLoops .nested) o = w.text (style.withLoops .legacy) o ↔
      w.lines style o = [] ∨ (w.loops o).inner? = none := by
  refine ⟨fun heq => ?_, fun h => text_withLoops_eq h _ _⟩
  by_contra hnot
  obtain ⟨hlines, hinner⟩ := not_or.mp hnot
  exact (text_withLoops_of_inner? hlines hinner).2.2 heq

theorem unindented_text_withLoops (w : World) (style : Style) (o : Instance) :
    unindented (w.text (style.withLoops .nested) o) =
      unindented (w.text (style.withLoops .legacy) o) := by
  by_cases h : w.lines style o = [] ∨ (w.loops o).inner? = none
  · rw [text_withLoops_eq h .nested .legacy]
  · obtain ⟨hlines, hinner⟩ := not_or.mp h
    exact (text_withLoops_of_inner? hlines hinner).1

theorem length_text_withLoops_le (w : World) (style : Style) (o : Instance) :
    (w.text (style.withLoops .nested) o).length ≤
      (w.text (style.withLoops .legacy) o).length := by
  by_cases h : w.lines style o = [] ∨ (w.loops o).inner? = none
  · rw [text_withLoops_eq h .nested .legacy]
  · obtain ⟨hlines, hinner⟩ := not_or.mp h
    exact (text_withLoops_of_inner? hlines hinner).2.1

/-- The instances with a text, in the order of the script. Which they are does not depend on how
loops are written. -/
def written (w : World) (style : Style) : List Instance :=
  w.ordered.filter fun o => !(w.lines style o).isEmpty

theorem written_withLoops (w : World) (style : Style) (loops : LoopStyle) :
    w.written (style.withLoops loops) = w.written style := rfl

theorem mem_written_iff : o ∈ w.written style ↔ o ∈ w.instances ∧ w.lines style o ≠ [] := by
  simp [written, mem_ordered_iff]

/-- The pieces that the script is joined of. -/
theorem script_eq (w : World) (style : Style) :
    w.script style = "\n".intercalate ((w.written style).map (w.text style) ++ [w.runLine]) := by
  have hfilter : w.ordered.filter ((!·.isEmpty) ∘ w.text style) = w.written style := by
    refine List.filter_congr ?_
    intro o _
    rw [Function.comp_apply, Bool.not_inj_iff, Bool.eq_iff_iff, String.isEmpty_iff,
      List.isEmpty_iff, text_eq_empty_iff]
  rw [script, List.filter_map, hfilter]

theorem unindented_script_withLoops (w : World) (style : Style) :
    unindented (w.script (style.withLoops .nested)) =
      unindented (w.script (style.withLoops .legacy)) := by
  rw [script_eq, script_eq, written_withLoops, written_withLoops,
    unindented_intercalate (by simp), unindented_intercalate (by simp), List.flatMap_append,
    List.flatMap_append, List.flatMap_map, List.flatMap_map,
    List.flatMap_congr fun o _ => w.unindented_text_withLoops style o]

/-- Scripts are the same only if all texts are: no text gets shorter, so what one text gets longer
is not made up for by another. -/
theorem script_withLoops_eq_iff_forall_text :
    w.script (style.withLoops .nested) = w.script (style.withLoops .legacy) ↔
      ∀ o ∈ w.written style,
        w.text (style.withLoops .nested) o = w.text (style.withLoops .legacy) o := by
  rw [script_eq, script_eq, written_withLoops, written_withLoops]
  constructor
  · intro h
    have hlength : List.Forall₂ (fun s t : String => s.length ≤ t.length)
        ((w.written style).map (w.text (style.withLoops .nested)) ++ [w.runLine])
        ((w.written style).map (w.text (style.withLoops .legacy)) ++ [w.runLine]) := by
      refine List.rel_append ?_ (.cons le_rfl .nil)
      rw [List.forall₂_map_left_iff, List.forall₂_map_right_iff, List.forall₂_same]
      exact fun o _ => w.length_text_withLoops_le style o
    exact List.map_inj_left.mp (List.append_cancel_right (eq_of_intercalate_eq hlength h))
  · intro h
    rw [List.map_congr_left h]

/-- The relation is on no array, and its target is on an array that its source is not on. -/
def Staggered (w : World) (o : Instance) : Prop :=
  o.array? = none ∧ ∃ source target index, o.role = .relation source target ∧
    w.arrayIndexOf? target = some index ∧ w.arrayIndexOf? source ≠ some index

/-- The inner loops are those of staggered relations. -/
theorem inner?_eq_none_iff (h : Reachable w) (ho : o ∈ w.instances) :
    (w.loops o).inner? = none ↔ ¬ w.Staggered o := by
  cases hon : o.array? with
  | some index => simp [loops, hon, Staggered]
  | none =>
      cases hrole : o.role with
      | entity => simp [loops, hon, hrole, Staggered]
      | relation source target =>
          obtain ⟨a, b, ha, hb, -, -⟩ := h.linked.exists_ends h.wellFormed ho hrole
          obtain ⟨hbmem, -⟩ := get?_eq_some hb
          have hstaggered : w.Staggered o ↔
              ∃ index, b.array? = some index ∧ a.array? ≠ some index := by
            simp [Staggered, hon, hrole, arrayIndexOf?_of_get? ha, arrayIndexOf?_of_get? hb]
          rw [hstaggered, loops_of_relation hrole (by simp [hon]) ha hb]
          cases hindex : b.array? with
          | none => simp [arrayOf?, hindex]
          | some index =>
              have hlt := h.wellFormed.array_lt b hbmem index hindex
              have harray : w.arrayOf? b = some w.arrays[index] := by
                simp [arrayOf?, hindex, array?, hlt]
              by_cases hsame : a.array? = some index
              · simp [hsame]
              · simp [hsame, harray]

/-- Scripts in the two styles have the same lines up to the spaces in front of them, and are the
same unless a staggered relation is written. -/
theorem loop_styles_differ_in_indentation (h : Reachable w) (g : Generator) :
    let nested := ((g.withLoops .nested).assemble w).1
    let legacy := ((g.withLoops .legacy).assemble w).1
    (linesOf nested).length = (linesOf legacy).length ∧
      (linesOf nested).map (List.dropWhile (· == ' ')) =
        (linesOf legacy).map (List.dropWhile (· == ' ')) ∧
      (nested = legacy ↔
        ¬ ∃ r ∈ (g.prepare w).instances, (g.prepare w).text g.style r ≠ "" ∧
          (g.prepare w).Staggered r) := by
  intro nested legacy
  have hnested : nested = (g.prepare w).script (g.style.withLoops .nested) := rfl
  have hlegacy : legacy = (g.prepare w).script (g.style.withLoops .legacy) := rfl
  have hsame : unindented nested = unindented legacy := by
    rw [hnested, hlegacy, unindented_script_withLoops]
  refine ⟨?_, hsame, ?_⟩
  · rw [← length_unindented, hsame, length_unindented]
  · rw [hnested, hlegacy, script_withLoops_eq_iff_forall_text]
    constructor
    · rintro hall ⟨r, hr, htext, hstaggered⟩
      have hlines := mt text_eq_empty_iff.mpr htext
      have hor := text_withLoops_eq_iff.mp (hall r (mem_written_iff.mpr ⟨hr, hlines⟩))
      exact (inner?_eq_none_iff (h.prepare g) hr).mp (hor.resolve_left hlines) hstaggered
    · intro hnone r hwritten
      obtain ⟨hr, hlines⟩ := mem_written_iff.mp hwritten
      refine text_withLoops_eq_iff.mpr (.inr ((inner?_eq_none_iff (h.prepare g) hr).mpr ?_))
      intro hstaggered
      exact hnone ⟨r, hr, mt text_eq_empty_iff.mp hlines, hstaggered⟩

/-- The link from a node on one array to a node on another is written in both styles, not in the
same way. -/
theorem loop_styles_differ_in_indentation_network :
    let nested := ((Generator.withLoops ⟨.standard, []⟩ .nested).assemble network).1
    let legacy := ((Generator.withLoops ⟨.standard, []⟩ .legacy).assemble network).1
    (linesOf nested).length = (linesOf legacy).length ∧
      (linesOf nested).map (List.dropWhile (· == ' ')) =
        (linesOf legacy).map (List.dropWhile (· == ' ')) ∧
      nested ≠ legacy := by
  obtain ⟨hlength, hlines, hiff⟩ :=
    loop_styles_differ_in_indentation reachable_network ⟨.standard, []⟩
  refine ⟨hlength, hlines, fun heq => hiff.mp heq ?_⟩
  refine ⟨.create ⟨4⟩ link "ab" (.relation ⟨1⟩ ⟨2⟩), by decide, ?_, ?_⟩
  · rw [Ne, text_eq_empty_iff]
    decide +kernel
  · exact ⟨rfl, ⟨1⟩, ⟨2⟩, 1, rfl, by decide, by decide⟩

end World

end Stencil
