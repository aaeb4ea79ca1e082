import Stencil.Proofs.Header.Printer

/-!
# Words of headers that are read

The names and the categories of a header come from runs of its text, or from numbers that are
written out again. So each of them is a word that a header can hold (`isWord_of_parse`), and in
particular no blank of the header's layout is in it. Other blanks may be.
-/

namespace Stencil

namespace Header

variable {text run : List Char} {tokens : List Token} {token : Token} {name : String}
  {header : Header}

theorem token_of_mem_lexFrom {pos : Nat} {l : Lexeme} (h : l ∈ lexFrom pos text) :
    l.token = .bang ∨ l.token = .invalid ":" ∨ ∃ run, IsRun run ∧ l.token = .ofRun run := by
  fun_induction lexFrom pos text with
  | case1 pos => exact absurd h List.not_mem_nil
  | case2 pos c cs hgap ih => exact ih h
  | case3 pos cs hgap ih =>
      rcases List.mem_cons.mp h with rfl | h
      · exact .inr (.inl rfl)
      · exact ih h
  | case4 pos cs hgap hcolon ih =>
      rcases List.mem_cons.mp h with rfl | h
      · exact .inl rfl
      · exact ih h
  | case5 pos c cs hgap hcolon hbang run ih =>
      rcases List.mem_cons.mp h with rfl | h
      · exact .inr (.inr ⟨run, isRun_cons_takeWhile hgap hcolon hbang cs, rfl⟩)
      · exact ih h

/-- A token that serves as a name was read from a run. -/
theorem exists_isRun_of_names (h : token ∈ Header.tokens text) (hname : Names token name) :
    ∃ run, IsRun run ∧ token = .ofRun run := by
  obtain ⟨l, hl, rfl⟩ := List.mem_map.mp h
  rcases token_of_mem_lexFrom hl with htoken | htoken | hrun
  · rw [htoken] at hname
    cases hname
  · rw [htoken] at hname
    cases hname
  · exact hrun

theorem isWord_of_isRun (hrun : IsRun name.toList) (hkeyword : name ≠ "relation")
    (hnumeral : IsNumeral name.toList → ∃ n : Int32, name = toString n.toInt) : IsWord name where
  ne_empty := by simpa using hrun.ne_nil
  chars := by
    intro c hc
    simpa [isRunChar, isGap, and_assoc] using hrun.isRunChar c hc
  head := hrun.head
  ne_keyword := hkeyword
  numeral := hnumeral

/-- A number has its decimal text as its name, and any other run is its own name. -/
theorem isWord_of_names_ofRun (hrun : IsRun run) (hname : Names (.ofRun run) name) :
    IsWord name := by
  have hspelling := spelling_ofRun run
  generalize Token.ofRun run = token at hname hspelling
  cases hspelling with
  | keyword _ => cases hname
  | outOfRange _ _ _ => cases hname
  | number n _ =>
      obtain rfl := Option.some.inj hname
      exact isWord_of_isRun (isRun_numberSource n) (toString_ne_keyword _) fun _ => ⟨n, rfl⟩
  | word hkeyword hnumeral =>
      obtain rfl := Option.some.inj hname
      rw [← String.toList_ofList (l := run)] at hrun hkeyword hnumeral
      exact isWord_of_isRun hrun (fun h => hkeyword (String.toList_inj.mpr h))
        fun h => absurd h hnumeral

theorem exists_token_of_spells (h : Spells tokens header) :
    ∀ word ∈ header.words, ∃ token ∈ tokens, Names token word := by
  cases h with
  | entity _ _ hname hcategory =>
      simp only [words, List.forall_mem_cons]
      exact ⟨⟨_, by simp, hname⟩, ⟨_, by simp, hcategory⟩, by simp⟩
  | relation _ hname hsource htarget =>
      simp only [words, List.forall_mem_cons]
      exact ⟨⟨_, by simp, hname⟩, ⟨_, by simp, hsource⟩, ⟨_, by simp, htarget⟩, by simp⟩

theorem isWord_of_parse (h : parse text = .ok header) : ∀ word ∈ header.words, IsWord word := by
  intro word hword
  obtain ⟨token, htoken, hname⟩ := exists_token_of_spells (parse_eq_ok.mp h) word hword
  obtain ⟨run, hrun, rfl⟩ := exists_isRun_of_names htoken hname
  exact isWord_of_names_ofRun hrun hname

end Header

end Stencil
