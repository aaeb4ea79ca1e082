import Stencil.Proofs.Library.Diagnostic
import Stencil.Proofs.Report.Row
import Stencil.Proofs.Snippet.Standing

/-!
# The location a report prints

A report prints a line and a column in front of what it quotes. They are those of the place that
has as many characters before it as the place of the error has bytes, so they are right just when
all that stands before the error is one byte a character, and the error does not reach too far
(`Snippet.location_right_iff`).
-/

namespace Stencil

namespace Report

open Text (lineAfter columnAfter)

variable {report : Report} {source : List Char} {front : List Char} {row final : Row}
  {file printed : String} {line line' column column' : Nat}

/-- The printed report gives this line and column of the file as the location. -/
def Locates (report : Report) (file : String) (line column : Nat) (printed : String) : Prop :=
  ∃ margin rest : String, (∀ c ∈ margin.toList, c = ' ') ∧
    printed = "Error: " ++ report.headline ++ "\n" ++
      (margin ++ "╭─[" ++ (file ++ ":" ++ toString line ++ ":" ++ toString column) ++ "]\n" ++ rest)

/-- A printed report gives one location only. -/
theorem Locates.unique (h : report.Locates file line column printed)
    (h' : report.Locates file line' column' printed) : line = line' ∧ column = column' := by
  obtain ⟨margin, rest, hmargin, rfl⟩ := h
  obtain ⟨margin', rest', hmargin', heq⟩ := h'
  have hcorner {s : String} (hs : ∀ c ∈ s.toList, c = ' ') : '╭' ∉ s.toList :=
    fun hmem => absurd (hs _ hmem) (by decide)
  have hlists := congrArg String.toList ((String.append_right_inj _).mp heq)
  simp only [String.toList_append, List.append_assoc] at hlists
  obtain ⟨-, hplace⟩ :=
    Text.eq_of_append_cons_of_notMem (hcorner hmargin) (hcorner hmargin') hlists
  have hnumbers := List.append_cancel_left
    (List.append_cancel_left (hplace : ['─', '['] ++ _ = ['─', '['] ++ _))
  obtain ⟨hline, hrest⟩ := Text.eq_of_toString_append (c := ':') (by decide)
    (List.cons_eq_cons.mp hnumbers).2
  exact ⟨hline, (Text.eq_of_toString_append (c := ']') (by decide) hrest).1⟩

theorem not_locates_headline :
    ¬ report.Locates file line column ("Error: " ++ report.headline ++ "\n") := by
  rintro ⟨margin, rest, -, heq⟩
  have hempty := String.append_eq_left_iff.mp heq.symm
  simp at hempty

/-- The row that holds the start of the span gives the location. -/
theorem exists_quote?_eq (hlast : report.last ≤ source.length)
    (hrow : Row.holding? (Row.all source) report.span.start = some row)
    (hfinal : Row.holding? (Row.all source) report.last = some final) (file : String) :
    ∃ margin rest : String, (∀ c ∈ margin.toList, c = ' ') ∧
      report.quote? source file = some (margin ++ "╭─[" ++ (file ++ ":" ++ toString row.number ++
        ":" ++ toString (report.span.start - row.start + 1)) ++ "]\n" ++ rest) := by
  unfold quote?
  simp only [if_neg (Nat.not_lt_of_le hlast), hrow, hfinal, Option.bind_eq_bind, Option.bind_some,
    Option.pure_def, List.cons_append, List.map_cons, String.join_cons, Option.some_inj,
    String.append_assoc]
  refine ⟨_, _, ?_, rfl⟩
  simp

variable {text : String}

theorem start_le_last (report : Report) : report.span.start ≤ report.last := Nat.le_max_left _ _

/-- What is drawn gives the place with so many characters before it as the span has bytes. -/
theorem exists_draw?_locates (h : Text.IsLined text.toList)
    (hle : report.span.start ≤ report.span.stop) (hlast : report.last ≤ text.toList.length)
    (file : String) :
    ∃ front printed, front <+: text.toList ∧ front.length = report.span.start ∧
      report.draw? text file = some printed ∧
      report.Locates file (lineAfter front) (columnAfter front) printed := by
  have hprefix (n : Nat) (hn : n ≤ text.toList.length) :
      ∃ front, front <+: text.toList ∧ front.length = n :=
    ⟨_, List.take_prefix n text.toList, List.length_take_of_le hn⟩
  obtain ⟨front, hfront, hstart⟩ := hprefix _ (Nat.le_trans report.start_le_last hlast)
  obtain ⟨front', hfront', hlast'⟩ := hprefix _ hlast
  obtain ⟨row, hrow, hnumber, hcolumn⟩ := Row.exists_holding?_all h hfront
  obtain ⟨final, hfinal, -⟩ := Row.exists_holding?_all h hfront'
  rw [hstart] at hrow hcolumn
  rw [hlast'] at hfinal
  obtain ⟨margin, rest, hmargin, hquote⟩ := exists_quote?_eq hlast hrow hfinal file
  refine ⟨front, _, hfront, hstart, if_neg (Nat.not_lt_of_le hle), margin, rest, hmargin, ?_⟩
  rw [hquote, Option.getD_some, hnumber, hcolumn]

/-- Nothing is drawn of a place that reaches too far. -/
theorem draw?_of_length_lt (hle : report.span.start ≤ report.span.stop)
    (hlast : text.toList.length < report.last) (file : String) :
    report.draw? text file = some ("Error: " ++ report.headline ++ "\n") := by
  rw [draw?, if_neg (Nat.not_lt_of_le hle), quote?, if_pos hlast, Option.getD_none,
    String.append_empty]

/-- What is drawn of a place at a text of the source, and when its location is that of the text. -/
theorem exists_draw?_iff {before marked after : List Char} (h : Text.IsLined text.toList)
    (hsplit : text.toList = before ++ marked ++ after)
    (hspan : report.span = .ofText (Text.size before) marked) (file : String) :
    ∃ printed, report.draw? text file = some printed ∧
      (text.toList.length < report.last → printed = "Error: " ++ report.headline ++ "\n") ∧
      (report.last ≤ text.toList.length →
        ∃ front, front <+: text.toList ∧ front.length = Text.size before ∧
          report.Locates file (lineAfter front) (columnAfter front) printed) ∧
      (report.Locates file (lineAfter before) (columnAfter before) printed ↔
        (∀ c ∈ before, c.utf8Size = 1) ∧
          Text.size marked ≤ marked.length + after.length + 1) := by
  have hstart : report.span.start = Text.size before := by rw [hspan]; rfl
  have hstop : report.span.stop = Text.size before + Text.size marked := by rw [hspan]; rfl
  have hle : report.span.start ≤ report.span.stop := by omega
  have hlength := congrArg List.length hsplit
  simp only [List.length_append] at hlength
  have hmax : report.last = max (Text.size before) (Text.size before + Text.size marked - 1) := by
    rw [last, hstart, hstop]
  have hsize := Text.length_le_size before
  rw [← Text.size_eq_length_iff]
  by_cases hlast : report.last ≤ text.toList.length
  · obtain ⟨front, printed, hfront, hfrontLength, hdraw, hlocates⟩ :=
      exists_draw?_locates h hle hlast file
    rw [hstart] at hfrontLength
    refine ⟨printed, hdraw, fun hlt => absurd hlast (Nat.not_le_of_lt hlt),
      fun _ => ⟨front, hfront, hfrontLength, hlocates⟩, ?_⟩
    have hbefore : before <+: text.toList :=
      ⟨marked ++ after, by rw [hsplit, List.append_assoc]⟩
    constructor
    · intro hright
      obtain ⟨hline, hcolumn⟩ := hlocates.unique hright
      have hsame := Text.eq_of_place_eq hfront hbefore hline hcolumn
      have hbytes : Text.size before = before.length := by rw [← hfrontLength, hsame]
      exact ⟨hbytes, by omega⟩
    · rintro ⟨hbytes, -⟩
      have hsame : front = before :=
        (List.prefix_of_prefix_length_le hfront hbefore (by omega)).eq_of_length (by omega)
      rwa [← hsame]
  · have hlt := Nat.lt_of_not_le hlast
    refine ⟨_, draw?_of_length_lt hle hlt file, fun _ => rfl, fun hle => absurd hle hlast,
      iff_of_false not_locates_headline ?_⟩
    rintro ⟨hbytes, hreach⟩
    omega

end Report

namespace Snippet

open Text (lineAfter columnAfter)

/-- Take a block that line feeds alone break, and an error of it whose span runs forward. The span
is that of a text of the block. The location that the report gives is the place with as many
characters before it as the text has bytes before it, and there is none if the end of the span,
counted so, is behind the block. So the location is that of the text just when the text is
preceded by characters of one byte only, and has at most one byte more than there are characters
from its start to the end of the block. -/
theorem location_right_iff {block : String} {found : List Error} {e : Error}
    (hblock : Text.IsLined block.toList) (h : parse block = .error found) (he : e ∈ found)
    (hle : e.span.start ≤ e.span.stop) :
    (∃ before text after, block.toList = before ++ text ++ after ∧
      e.span = .ofText (Text.size before) text) ∧
    ∀ before text after, block.toList = before ++ text ++ after →
      e.span = .ofText (Text.size before) text → ∀ file, ∃ printed,
        e.report.draw? block file = some printed ∧
        (block.toList.length < e.report.last →
          printed = "Error: " ++ e.report.headline ++ "\n") ∧
        (e.report.last ≤ block.toList.length →
          ∃ front, front <+: block.toList ∧ front.length = Text.size before ∧
            e.report.Locates file (lineAfter front) (columnAfter front) printed) ∧
        (e.report.Locates file (lineAfter before) (columnAfter before) printed ↔
          (∀ c ∈ before, c.utf8Size = 1) ∧
            Text.size text ≤ text.length + after.length + 1) := by
  constructor
  · obtain ⟨before, text, after, hsplit, hspan⟩ := standsIn_of_parse_eq_error h he hle
    exact ⟨before, text, after, hsplit, by rw [hspan, Nat.zero_add]⟩
  · intro before text after hsplit hspan file
    exact Report.exists_draw?_iff hblock hsplit (e.span_report.trans hspan) file

/-! ### A block in ASCII and one with an accent -/

/-- A block with a blank in the name of an attribute on its third line. -/
def plainBlock : String := "entity Node node 0 :\n  step=1;\n  x y;\nbegin\nend"

/-- What is wrong with it. -/
def plainError : Error := .badAttribute ⟨33, 36⟩ "attribute name 'x y' contains whitespace"

/-- A block with a letter of two bytes in front of a pattern without a value. -/
def accentedBlock : String := "entity Café node 0 : begin ?color end"

/-- What is wrong with it. -/
def accentedError : Error := .badPattern ⟨28, 34⟩ "conditional pattern has no '='"

theorem isLined_plainBlock : Text.IsLined plainBlock.toList := by decide +kernel

theorem isLined_accentedBlock : Text.IsLined accentedBlock.toList := by decide +kernel

theorem parse_accentedBlock : parse accentedBlock = .error [accentedError] := by decide +kernel

/-- The location on the third line is right. With the accent the location is a column too far. -/
theorem location_right_iff_plain_accented :
    (∃ printed, plainError.report.draw? plainBlock "core.nsl" = some printed ∧
      plainError.report.Locates "core.nsl" 3 3 printed) ∧
    ∃ printed, accentedError.report.draw? accentedBlock "core.nsl" = some printed ∧
      accentedError.report.Locates "core.nsl" 1 29 printed := by
  have hplain : parse plainBlock = .error [plainError] := by decide +kernel
  obtain ⟨-, hright⟩ := location_right_iff isLined_plainBlock hplain List.mem_cons_self (by decide)
  obtain ⟨-, hshown⟩ := location_right_iff isLined_accentedBlock parse_accentedBlock
    List.mem_cons_self (by decide)
  obtain ⟨printed, hdraw, -, -, hiff⟩ := hright "entity Node node 0 :\n  step=1;\n  ".toList
    "x y".toList ";\nbegin\nend".toList (by decide +kernel) (by decide +kernel) "core.nsl"
  obtain ⟨printed', hdraw', -, hlocated, -⟩ := hshown "entity Café node 0 : begin ".toList
    "?color".toList " end".toList (by decide +kernel) (by decide +kernel) "core.nsl"
  obtain ⟨front, hfront, hlength, hlocates⟩ := hlocated (by decide +kernel)
  have hsame : front = accentedBlock.toList.take 28 := by
    rw [List.prefix_iff_eq_take.mp hfront, hlength]
    rfl
  rw [hsame] at hlocates
  have hbytes := Text.size_eq_length_iff.mp
    (by decide +kernel : Text.size "entity Node node 0 :\n  step=1;\n  ".toList = 33)
  exact ⟨⟨printed, hdraw, hiff.mpr ⟨hbytes, by decide⟩⟩, printed', hdraw', hlocates⟩

/-- The pattern stands on one line, at its column 28, and the report does not say so. -/
theorem not_location_right_accented :
    Text.IsLined accentedBlock.toList ∧ parse accentedBlock = .error [accentedError] ∧
      ∃ before text after, accentedBlock.toList = before ++ text ++ after ∧
        accentedError.span = .ofText (Text.size before) text ∧ '\n' ∉ text ∧
        lineAfter before = 1 ∧ columnAfter before = 28 ∧
        ∃ printed, accentedError.report.draw? accentedBlock "core.nsl" = some printed ∧
          ¬ accentedError.report.Locates "core.nsl" 1 28 printed := by
  have hsplit : accentedBlock.toList =
      "entity Café node 0 : begin ".toList ++ "?color".toList ++ " end".toList := by
    decide +kernel
  have hspan : accentedError.span =
      .ofText (Text.size "entity Café node 0 : begin ".toList) "?color".toList := by
    decide +kernel
  obtain ⟨printed, hdraw, -, -, hiff⟩ := Report.exists_draw?_iff isLined_accentedBlock hsplit
    (accentedError.span_report.trans hspan) "core.nsl"
  refine ⟨isLined_accentedBlock, parse_accentedBlock, _, _, _, hsplit, hspan, by decide,
    by decide +kernel, by decide +kernel, printed, hdraw, fun hright => ?_⟩
  have haccent := (hiff.mp hright).1 'é' (by simp)
  revert haccent
  decide

end Snippet

end Stencil
