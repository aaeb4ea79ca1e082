import Mathlib.Data.List.Induction
import Stencil.Library.Load
import Stencil.Proofs.Library.Block
import Stencil.Proofs.Text.Blank
import Stencil.Proofs.World.Check

/-!
# What a load keeps

Each block of a text is judged behind those before it: it defines nothing, or a snippet whose
name one of them has, or a snippet that is new. `kept` and `rejected` collect the verdicts
without a library at hand, and a load comes to just these (`parse_eq`): a library refuses a
snippet for its name and for nothing else, and the names it has are those that the blocks so
far define.
-/

namespace Stencil

namespace Library

variable {library : Library} {snippet : Snippet} {block block' : Block}
  {earlier later : List Block} {text text' : String}

theorem contains_eq_false_iff {name : String} :
    library.contains name = false ↔ ∀ s ∈ library.snippets, s.name ≠ name := by
  simp [contains, find?]

theorem add_eq_ok_iff {library' : Library} :
    library.add snippet = .ok library' ↔
      (∀ s ∈ library.snippets, s.name ≠ snippet.name) ∧
        library' = { library with snippets := library.snippets ++ [snippet] } := by
  rw [← contains_eq_false_iff, add]
  cases library.contains snippet.name with
  | true => simp
  | false => simp only [Bool.false_eq_true, if_false, Except.ok.injEq, true_and, eq_comm]

/-- A snippet is refused for its name only. -/
theorem add_eq_error_iff {e : Error} :
    library.add snippet = .error e ↔
      library.contains snippet.name = true ∧ .duplicateSnippet snippet.name = e := by
  rw [add]
  cases library.contains snippet.name <;> simp

section Verdicts

/-- What `f` makes of the blocks, each together with those before it. -/
def collect {α : Type} (f : List Block → Block → Option α) (blocks : List Block) : List α :=
  blocks.zipIdx.filterMap fun (block, i) => f (blocks.take i) block

/-- Whether one of the blocks defines a snippet of the name. -/
def defines (blocks : List Block) (name : String) : Bool :=
  blocks.any fun block => (Snippet.parse block.text).toOption.any (·.name == name)

/-- The snippet to be kept of a block, or why there is none. -/
def verdict (earlier : List Block) (block : Block) : Except Problem Snippet :=
  match Snippet.parse block.text with
  | .error errors => .error (.malformed errors)
  | .ok s => if defines earlier s.name then .error (.duplicate s.name) else .ok s

/-- The diagnostic that a block calls for. Its position is the number of blocks before it. -/
def diagnose (earlier : List Block) (block : Block) : Option Diagnostic :=
  match verdict earlier block with
  | .ok _ => none
  | .error problem => some ⟨earlier.length, block.line, block.text, problem⟩

/-- The snippets to be kept. -/
def kept (blocks : List Block) : List Snippet :=
  collect (fun earlier block => (verdict earlier block).toOption) blocks

/-- The diagnostics called for. -/
def rejected (blocks : List Block) : List Diagnostic := collect diagnose blocks

theorem collect_append_singleton {α : Type} (f : List Block → Block → Option α)
    (blocks : List Block) (block : Block) :
    collect f (blocks ++ [block]) = collect f blocks ++ (f blocks block).toList := by
  rw [collect, List.zipIdx_append, List.filterMap_append]
  congr 1
  · apply List.filterMap_congr
    rintro ⟨b, i⟩ hmem
    have hi : i < blocks.length := by simpa using List.snd_lt_of_mem_zipIdx hmem
    simp only [List.take_append_of_le_length (Nat.le_of_lt hi)]
  · cases h : f blocks block <;> simp [h]

theorem kept_append_singleton (earlier : List Block) (block : Block) :
    kept (earlier ++ [block]) = kept earlier ++ (verdict earlier block).toOption.toList :=
  collect_append_singleton _ earlier block

theorem rejected_append_singleton (earlier : List Block) (block : Block) :
    rejected (earlier ++ [block]) = rejected earlier ++ (diagnose earlier block).toList :=
  collect_append_singleton _ earlier block

theorem defines_append_singleton (earlier : List Block) (block : Block) (name : String) :
    defines (earlier ++ [block]) name =
      (defines earlier name || (Snippet.parse block.text).toOption.any (·.name == name)) := by
  simp [defines]

theorem mem_collect_iff {α : Type} {f : List Block → Block → Option α} {blocks : List Block}
    {a : α} :
    a ∈ collect f blocks ↔
      ∃ i block, blocks[i]? = some block ∧ f (blocks.take i) block = some a := by
  simp only [collect, List.mem_filterMap, Prod.exists, List.mem_zipIdx_iff_getElem?]
  exact exists_comm

/-- A diagnostic tells the position of its block. -/
theorem verdict_of_mem_rejected {blocks : List Block} {d : Diagnostic} (h : d ∈ rejected blocks)
    (hblock : blocks[d.block]? = some block) :
    ∃ problem, verdict (blocks.take d.block) block = .error problem ∧
      d = ⟨d.block, block.line, block.text, problem⟩ := by
  obtain ⟨i, b, hb, hd⟩ := mem_collect_iff.mp h
  have hi : i < blocks.length := (List.getElem?_eq_some_iff.mp hb).1
  unfold diagnose at hd
  split at hd
  · cases hd
  · next problem hverdict =>
      obtain rfl := Option.some.inj hd
      simp only [List.length_take, Nat.min_eq_left (Nat.le_of_lt hi)] at hblock ⊢
      obtain rfl := Option.some.inj (hb.symm.trans hblock)
      exact ⟨problem, hverdict, rfl⟩

/-- The names of what is kept are those that are defined. -/
theorem exists_mem_kept_iff {blocks : List Block} {name : String} :
    (∃ s ∈ kept blocks, s.name = name) ↔ defines blocks name = true := by
  induction blocks using List.reverseRecOn with
  | nil => simp [kept, collect, defines]
  | append_singleton earlier block ih =>
      rw [kept_append_singleton, defines_append_singleton, Bool.or_eq_true, ← ih]
      simp only [List.mem_append, or_and_right, exists_or]
      cases hparse : Snippet.parse block.text with
      | error errors => simp [verdict, hparse, Except.toOption]
      | ok s =>
          by_cases hdefined : defines earlier s.name = true
          · -- The block adds no snippet, and the name it defines is there already.
            have hthere : s.name = name → ∃ t ∈ kept earlier, t.name = name := by
              rintro rfl
              exact ih.mpr hdefined
            simpa [verdict, hparse, hdefined, Except.toOption] using hthere
          · simp [verdict, hparse, hdefined, Except.toOption]

/-- Every block is kept or has a diagnostic. -/
theorem length_kept_add_length_rejected (blocks : List Block) :
    (kept blocks).length + (rejected blocks).length = blocks.length := by
  induction blocks using List.reverseRecOn with
  | nil => rfl
  | append_singleton earlier block ih =>
      have hone : (verdict earlier block).toOption.toList.length +
          (diagnose earlier block).toList.length = 1 := by
        unfold diagnose
        cases verdict earlier block <;> rfl
      rw [kept_append_singleton, rejected_append_singleton, List.length_append,
        List.length_append, List.length_append, List.length_singleton]
      omega

/-- A block that is left out defines nothing that is not defined before it. -/
theorem defines_append_cons_of_rejected {problem : Problem}
    (h : verdict earlier block = .error problem) (later : List Block) (name : String) :
    defines (earlier ++ block :: later) name = defines (earlier ++ later) name := by
  have hnew : (Snippet.parse block.text).toOption.any (·.name == name) = true →
      defines earlier name = true := by
    unfold verdict at h
    split at h
    · next errors hparse => simp [hparse, Except.toOption]
    · next s hparse =>
        split at h
        · next hdefined =>
            rw [hparse]
            simp only [Except.toOption, Option.any_some, beq_iff_eq]
            rintro rfl
            exact hdefined
        · cases h
  rw [Bool.eq_iff_iff]
  simp only [defines, List.any_append, List.any_cons, Bool.or_eq_true] at hnew ⊢
  constructor
  · rintro (hearlier | hblock | hlater)
    · exact .inl hearlier
    · exact .inl (hnew hblock)
    · exact .inr hlater
  · rintro (hearlier | hlater)
    · exact .inl hearlier
    · exact .inr (.inr hlater)

theorem verdict_congr {earlier earlier' : List Block}
    (h : ∀ name, defines earlier name = defines earlier' name) (block : Block) :
    verdict earlier block = verdict earlier' block := by
  unfold verdict
  simp only [h]

/-- In place of a block that is left out there may be any other that defines nothing: the
diagnostic is another one, and all else stays. -/
theorem exists_rejected_append_cons {problem : Problem} {errors : List Snippet.Error}
    (h : verdict earlier block = .error problem) (h' : Snippet.parse block'.text = .error errors)
    (later : List Block) :
    kept (earlier ++ block' :: later) = kept (earlier ++ block :: later) ∧
      ∃ rest,
        rejected (earlier ++ block :: later) =
          rejected earlier ++ ⟨earlier.length, block.line, block.text, problem⟩ :: rest ∧
        rejected (earlier ++ block' :: later) =
          rejected earlier ++
            ⟨earlier.length, block'.line, block'.text, .malformed errors⟩ :: rest := by
  have hverdict' : verdict earlier block' = .error (.malformed errors) := by rw [verdict, h']
  induction later using List.reverseRecOn with
  | nil =>
      rw [kept_append_singleton, kept_append_singleton, rejected_append_singleton,
        rejected_append_singleton, h, hverdict', diagnose, diagnose, h, hverdict']
      exact ⟨rfl, [], rfl, rfl⟩
  | append_singleton later last ih =>
      obtain ⟨hkept, rest, hrejected, hrejected'⟩ := ih
      have hsame : verdict (earlier ++ block' :: later) last =
          verdict (earlier ++ block :: later) last := by
        refine verdict_congr (fun name => ?_) last
        rw [defines_append_cons_of_rejected h, defines_append_cons_of_rejected hverdict']
      have hdiagnose : diagnose (earlier ++ block' :: later) last =
          diagnose (earlier ++ block :: later) last := by
        rw [diagnose, diagnose, hsame, List.length_append, List.length_append, List.length_cons,
          List.length_cons]
      rw [← List.cons_append, ← List.append_assoc, ← List.cons_append, ← List.append_assoc,
        kept_append_singleton, kept_append_singleton, rejected_append_singleton,
        rejected_append_singleton, hkept, hsame, hdiagnose, hrejected, hrejected']
      exact ⟨rfl, rest ++ (diagnose (earlier ++ block :: later) last).toList, by simp, by simp⟩

end Verdicts

/-- The load after the blocks, under the headings of the library. -/
def Load.after (library : Library) (blocks : List Block) : Load :=
  ⟨{ library with snippets := kept blocks }, rejected blocks⟩

/-- The next block is read as it is judged. Its snippet is never refused for another reason
than its name. -/
theorem Load.read_after (library : Library) (earlier : List Block) (block : Block) :
    (after library earlier).read earlier.length block =
      .ok (after library (earlier ++ [block])) := by
  have hcontains (name : String) :
      (after library earlier).library.contains name = defines earlier name := by
    rw [Bool.eq_iff_iff, ← exists_mem_kept_iff]
    simp [after, contains, find?]
  have hnext : after library (earlier ++ [block]) =
      ⟨{ library with snippets := kept earlier ++ (verdict earlier block).toOption.toList },
        rejected earlier ++ (diagnose earlier block).toList⟩ := by
    rw [after, kept_append_singleton, rejected_append_singleton]
  rw [hnext, read, diagnose, verdict]
  cases hparse : Snippet.parse block.text with
  | error errors => simp [reject, after, Except.toOption]
  | ok s =>
      simp only [add, hcontains]
      cases defines earlier s.name <;> simp [reject, after, Except.toOption]

theorem Load.readAll_after (library : Library) (earlier later : List Block) :
    (after library earlier).readAll earlier.length later =
      .ok (after library (earlier ++ later)) := by
  induction later generalizing earlier with
  | nil => rw [List.append_nil, readAll]
  | cons block later ih =>
      have hrest := ih (earlier ++ [block])
      rw [List.length_append, List.length_singleton, List.append_assoc] at hrest
      rw [readAll, read_after]
      exact hrest

/-- The blocks of a text: those of the lines behind the three headings. -/
def blocksOf (text : String) : List Block :=
  blocks firstLine ((Text.lines text.toList).drop 3)

/-- The library without snippets that has the first three lines for its headings. -/
def ofHeadings (lines : List (List Char)) : Library :=
  let heading (i : Nat) := String.ofList (Text.trim (lines.getD i []))
  ⟨heading 0, heading 1, heading 2, []⟩

theorem ofHeadings_append {front : List (List Char)} (h : 3 ≤ front.length)
    (back : List (List Char)) : ofHeadings (front ++ back) = ofHeadings front := by
  match front with
  | _ :: _ :: _ :: _ => rfl
  | [] | [_] | [_, _] => simp at h

theorem parse_of_three_le (h : 3 ≤ (Text.lines text.toList).length) :
    parse text = .ok (.after (ofHeadings (Text.lines text.toList)) (blocksOf text)) := by
  unfold parse blocksOf
  match hlines : Text.lines text.toList with
  | name :: toolbar :: version :: body =>
      exact Load.readAll_after (ofHeadings (name :: toolbar :: version :: body)) []
        (blocks firstLine body)
  | [] | [_] | [_, _] => simp [hlines] at h

/-- A heading that is not there is the only thing that a load can fail for. -/
theorem parse_of_lt_three (h : (Text.lines text.toList).length < 3) :
    ∃ heading, parse text = .error (.missingHeading heading) := by
  unfold parse
  match hlines : Text.lines text.toList with
  | _ :: _ :: _ :: _ =>
      rw [hlines] at h
      simp at h
      omega
  | [] | [_] | [_, _] => exact ⟨_, rfl⟩

/-- In `text'` other lines stand in place of those of a block of `text`, as many as these, and
they form the block `block'` of `text'` and no other. -/
structure Replaces (text text' : String) (block block' : Block) : Prop where
  exists_lines : ∃ front new back,
    Text.lines text.toList = front ++ block.lines ++ back ∧
      Text.lines text'.toList = front ++ new ++ back ∧
      front.length + 1 = block.line ∧ new.length = block.lines.length ∧
      blocks block.line new = [block']
  mem_blocksOf : block' ∈ blocksOf text'

theorem splits_blocksOf (text : String) :
    Splits firstLine ((Text.lines text.toList).drop 3) (blocksOf text) :=
  splits_blocks _ _

/-- Other lines in the place of a block change neither the headings nor any other block. -/
theorem Replaces.exists_blocksOf {i : Nat} (h : Replaces text text' block block')
    (hblock : (blocksOf text)[i]? = some block) :
    3 ≤ (Text.lines text'.toList).length ∧
      ofHeadings (Text.lines text'.toList) = ofHeadings (Text.lines text.toList) ∧
      ∃ later, blocksOf text = (blocksOf text).take i ++ block :: later ∧
        blocksOf text' = (blocksOf text).take i ++ block' :: later := by
  obtain ⟨⟨front, new, back, hlines, hlines', hline, hlength, hnew⟩, hmem⟩ := h
  obtain ⟨hi, hget⟩ := List.getElem?_eq_some_iff.mp hblock
  have hsplit : blocksOf text =
      (blocksOf text).take i ++ block :: (blocksOf text).drop (i + 1) := by
    rw [← hget, ← List.drop_eq_getElem_cons, List.take_append_drop]
  have hsplits := splits_blocksOf text
  rw [hsplit] at hsplits
  -- The block stands behind the headings, so these are among the lines before it.
  have hfront : 3 ≤ front.length := by
    obtain ⟨xs, ys, -, hline', -⟩ := hsplits.exists_lines
    rw [firstLine] at hline'
    omega
  have hdrop (middle : List (List Char)) : (front ++ middle ++ back).drop 3 =
      front.drop 3 ++ middle ++ back := by
    rw [List.append_assoc, List.drop_append_of_le_length hfront, List.append_assoc]
  rw [hlines, hdrop] at hsplits
  rw [blocksOf, hlines', hdrop] at hmem
  have hline : block.line = firstLine + (front.drop 3).length := by
    rw [List.length_drop, firstLine]
    omega
  refine ⟨?_, ?_, (blocksOf text).drop (i + 1), hsplit, ?_⟩
  · rw [hlines', List.length_append, List.length_append]
    omega
  · rw [hlines, hlines', List.append_assoc, List.append_assoc, ofHeadings_append hfront,
      ofHeadings_append hfront]
  · rw [blocksOf, hlines', hdrop]
    exact splits_iff.mp (hsplits.replace hline hlength (splits_iff.mpr hnew) hmem)

/-- A load fails only for a heading that is missing, which is when there are fewer than three
lines. Else each of the blocks, into which the lines behind the headings fall, is kept or has a
diagnostic. Kept are the snippets of the blocks that define one whose name no block before them
defines, which is to say that no snippet kept before them has it; the others have the
diagnostics. A block with a diagnostic can be replaced by as many lines that form a block which
defines nothing: the library stays, and so do the other diagnostics. -/
theorem parse_keeps_all_but_rejected (text : String) :
    ((∃ e, parse text = .error e) ↔ (Text.lines text.toList).length < 3) ∧
    (∀ e, parse text = .error e → ∃ heading, e = .missingHeading heading) ∧
    ∀ load, parse text = .ok load →
      Splits firstLine ((Text.lines text.toList).drop 3) (blocksOf text) ∧
      load.library.snippets.length + load.diagnostics.length = (blocksOf text).length ∧
      load.library.snippets = kept (blocksOf text) ∧
      (∀ earlier name, (∃ s ∈ kept earlier, s.name = name) ↔ defines earlier name = true) ∧
      load.diagnostics = rejected (blocksOf text) ∧
      ∀ d ∈ load.diagnostics, ∀ block, (blocksOf text)[d.block]? = some block →
        ∀ text' block' errors, Replaces text text' block block' →
          Snippet.parse block'.text = .error errors →
          ∃ load' before after, parse text' = .ok load' ∧ load'.library = load.library ∧
            load.diagnostics = before ++ d :: after ∧
            load'.diagnostics =
              before ++ ⟨d.block, block'.line, block'.text, .malformed errors⟩ :: after := by
  rcases Nat.lt_or_ge (Text.lines text.toList).length 3 with hlt | hge
  · obtain ⟨heading, hparse⟩ := parse_of_lt_three hlt
    rw [hparse]
    refine ⟨iff_of_true ⟨_, rfl⟩ hlt, ?_, ?_⟩
    · intro e he
      exact ⟨heading, (Except.error.inj he).symm⟩
    · intro load hload
      cases hload
  · have hparse := parse_of_three_le hge
    rw [hparse]
    refine ⟨iff_of_false (by simp) (by omega), by simp, ?_⟩
    intro load hload
    obtain rfl := Except.ok.inj hload
    refine ⟨splits_blocksOf text, length_kept_add_length_rejected _, rfl,
      fun _ _ => exists_mem_kept_iff, rfl, ?_⟩
    intro d hd block hblock text' block' errors hreplaces herrors
    obtain ⟨problem, hverdict, hdiagnostic⟩ := verdict_of_mem_rejected hd hblock
    obtain ⟨hge', hheadings, later, hblocks, hblocks'⟩ := hreplaces.exists_blocksOf hblock
    obtain ⟨hkept, rest, hrejected, hrejected'⟩ :=
      exists_rejected_append_cons hverdict herrors later
    rw [← hblocks, ← hblocks'] at hkept
    rw [← hblocks] at hrejected
    rw [← hblocks'] at hrejected'
    have hposition : ((blocksOf text).take d.block).length = d.block := by
      have hlt := (List.getElem?_eq_some_iff.mp hblock).1
      rw [List.length_take, Nat.min_eq_left (Nat.le_of_lt hlt)]
    rw [hposition] at hrejected hrejected'
    refine ⟨_, rejected ((blocksOf text).take d.block), rest, parse_of_three_le hge', ?_, ?_, ?_⟩
    · rw [Load.after, Load.after, hheadings, hkept]
    · rw [hdiagnostic]
      exact hrejected
    · exact hrejected'

/-! ### A library that defines a node twice -/

/-- The class that is kept. -/
def firstNode : Snippet := ⟨⟨"Node", false, .entity "node" 0⟩, [], [.literal "first"]⟩

/-- A class that comes behind the second node. -/
def lateAgent : Snippet := ⟨⟨"Agent", false, .entity "agent" 1⟩, [], [.literal "late"]⟩

/-- The lines of a library, with those of the second node as they are given. -/
def nodesLines (second : List (List Char)) : List (List Char) :=
  ["Lib".toList, "Lib".toList, "1".toList, "entity Node node 0 : begin first; end".toList, []] ++
    second ++ ["entity Agent agent 1 : begin late; end".toList]

/-- The text of that library. -/
def nodesText (second : Block) : String :=
  String.ofList ((nodesLines second.lines).flatMap (· ++ ['\n']))

/-- The block of the second node. -/
def secondNode : Block := ⟨6, ["entity Node node 0 :".toList, "begin second; end".toList]⟩

/-- A block that defines nothing. -/
def noNode : Block := ⟨6, ["no node".toList, "end".toList]⟩

/-- What is wrong with it. -/
def noNodeError : Snippet.Error := .missingMarker ⟨11, 11⟩ ":"

/-- The load of the library, with that diagnostic about the second node. -/
def nodesLoad (d : Diagnostic) : Load := ⟨⟨"Lib", "Lib", "1", [firstNode, lateAgent]⟩, [d]⟩

theorem lines_secondNode :
    Text.lines (nodesText secondNode).toList = nodesLines secondNode.lines := by
  rw [nodesText, String.toList_ofList]
  exact Text.lines_flatMap (by decide +kernel)

theorem lines_noNode : Text.lines (nodesText noNode).toList = nodesLines noNode.lines := by
  rw [nodesText, String.toList_ofList]
  exact Text.lines_flatMap (by decide +kernel)

theorem blocksOf_secondNode :
    blocksOf (nodesText secondNode) =
      [⟨4, ["entity Node node 0 : begin first; end".toList]⟩, secondNode,
        ⟨8, ["entity Agent agent 1 : begin late; end".toList]⟩] := by
  rw [blocksOf, lines_secondNode]
  decide +kernel

theorem parse_nodesText :
    parse (nodesText secondNode) =
      .ok (nodesLoad ⟨1, 6, secondNode.text, .duplicate "Node"⟩) := by
  have hthree : 3 ≤ (Text.lines (nodesText secondNode).toList).length := by
    rw [lines_secondNode]
    decide
  rw [parse_of_three_le hthree, lines_secondNode, blocksOf_secondNode]
  decide +kernel

theorem replaces_secondNode :
    Replaces (nodesText secondNode) (nodesText noNode) secondNode noNode where
  exists_lines := by
    rw [lines_secondNode, lines_noNode]
    exact ⟨_, noNode.lines, _, rfl, rfl, by decide, by decide, by decide +kernel⟩
  mem_blocksOf := by
    rw [blocksOf, lines_noNode]
    decide +kernel

/-- The second node is left out. If its block is replaced by one that defines nothing, there is
another diagnostic about it, and all else is the same. -/
theorem parse_keeps_all_but_rejected_nodes :
    parse (nodesText secondNode) =
        .ok (nodesLoad ⟨1, 6, secondNode.text, .duplicate "Node"⟩) ∧
      Replaces (nodesText secondNode) (nodesText noNode) secondNode noNode ∧
      Snippet.parse noNode.text = .error [noNodeError] ∧
      ∃ load', parse (nodesText noNode) = .ok load' ∧
        load'.library.snippets = [firstNode, lateAgent] ∧
        load'.diagnostics = [⟨1, 6, noNode.text, .malformed [noNodeError]⟩] := by
  have hmalformed : Snippet.parse noNode.text = .error [noNodeError] := by decide +kernel
  obtain ⟨-, -, hload⟩ := parse_keeps_all_but_rejected (nodesText secondNode)
  obtain ⟨-, -, -, -, -, hreplaced⟩ := hload _ parse_nodesText
  obtain ⟨load', before, after, hparse, hlibrary, hbefore, hafter⟩ :=
    hreplaced _ List.mem_cons_self secondNode (by rw [blocksOf_secondNode]; rfl) _ _ _
      replaces_secondNode hmalformed
  refine ⟨parse_nodesText, replaces_secondNode, hmalformed, load', hparse, ?_, ?_⟩
  · rw [hlibrary]
    rfl
  · obtain ⟨rfl, rfl⟩ : before = [] ∧ after = [] := by
      simpa [nodesLoad, List.singleton_eq_append_iff] using hbefore
    exact hafter

end Library

end Stencil
