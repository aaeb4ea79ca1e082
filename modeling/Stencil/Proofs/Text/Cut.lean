import Stencil.Text.Blank
import Stencil.Text.Cut

/-!
# Laws of cutting at a word

What is cut off together makes up the text again. A text is searched part by part: the
parts of `s ++ c :: t` are `s` and what stands behind `c`, provided that no occurrence of
the word can reach over `c`.
-/

namespace Stencil

namespace Text

variable {word s t front back : List Char} {before : Option Char} {c : Char}

/-- An element of a list in two parts is in one of them. -/
theorem append_eq_append_cons_cases {α : Type} {front back before after : List α} {a : α}
    (h : front ++ back = before ++ a :: after) :
    (∃ more, front = before ++ a :: more ∧ after = more ++ back) ∨
      ∃ more, before = front ++ more ∧ back = more ++ a :: after := by
  rcases List.append_eq_append_iff.mp h with ⟨more, rfl, rfl⟩ | ⟨more, rfl, hback⟩
  · exact .inr ⟨more, rfl, rfl⟩
  · cases more with
    | nil => exact .inr ⟨[], by simp, hback.symm⟩
    | cons b more =>
        obtain ⟨rfl, hafter⟩ := List.cons_eq_cons.mp hback
        exact .inl ⟨more, rfl, hafter⟩

/-- There is one last occurrence only. -/
theorem eq_of_append_cons_eq_append_cons {α : Type} {front back front' back' : List α} {a : α}
    (h : front ++ a :: back = front' ++ a :: back') (hback : a ∉ back) (hback' : a ∉ back') :
    front = front' ∧ back = back' := by
  rcases append_eq_append_cons_cases h with ⟨more, -, rfl⟩ | ⟨more, rfl, hmore⟩
  · exact absurd (List.mem_append_right _ List.mem_cons_self) hback'
  · cases more with
    | nil => exact ⟨(List.append_nil front).symm, (List.cons_eq_cons.mp hmore).2⟩
    | cons b more =>
        obtain ⟨-, rfl⟩ := List.cons_eq_cons.mp hmore
        exact absurd (List.mem_append_right _ List.mem_cons_self) hback

theorem isWordChar_eq_false_of_isBlank (h : isBlank c = true) :
    isWordChar c = false := by
  rw [← Bool.not_eq_true]
  -- Both sides are comparisons of numbers of characters.
  delta isBlank isWordChar Char.isAlphanum Char.isAlpha Char.isUpper Char.isLower Char.isDigit
    at *
  simp only [Bool.or_eq_true, Bool.and_eq_true, decide_eq_true_eq, beq_iff_eq, ge_iff_le,
    UInt32.le_iff_toNat_le] at h ⊢
  have hval : c.val.toNat = c.toNat := rfl
  rintro (hrange | rfl)
  · simp at hrange
    omega
  · revert h
    decide

theorem cutAt?_append_cons (hs : c ∉ s) (t : List Char) :
    cutAt? c (s ++ c :: t) = some (s, t) := by
  induction s with
  | nil => simp [cutAt?]
  | cons d s ih =>
      rw [List.mem_cons, not_or] at hs
      obtain ⟨hd, hs⟩ := hs
      rw [List.cons_append, cutAt?, if_neg (Ne.symm hd), ih hs]
      rfl

/-- There is one first occurrence only. -/
theorem eq_of_append_cons_of_notMem (hs : c ∉ s) (hfront : c ∉ front)
    (h : s ++ c :: t = front ++ c :: back) : s = front ∧ t = back := by
  have hcut := cutAt?_append_cons hs t
  rw [h, cutAt?_append_cons hfront] at hcut
  obtain ⟨rfl, rfl⟩ := Prod.mk.inj (Option.some.inj hcut)
  exact ⟨rfl, rfl⟩

theorem cutAt?_eq_none (hs : c ∉ s) : cutAt? c s = none := by
  induction s with
  | nil => rfl
  | cons d s ih =>
      rw [List.mem_cons, not_or] at hs
      obtain ⟨hd, hs⟩ := hs
      rw [cutAt?, if_neg (Ne.symm hd), ih hs]
      rfl

/-- A text is cut at the first `c`, so that none stands in front. -/
theorem cutAt?_eq_some_iff :
    cutAt? c s = some (front, back) ↔ s = front ++ c :: back ∧ c ∉ front := by
  constructor
  · intro h
    have hsplit := eq_append_of_cutAt? h
    have hmem : c ∈ s := hsplit ▸ List.mem_append_right _ List.mem_cons_self
    obtain ⟨first, rest, rfl, hfirst⟩ := List.eq_append_cons_of_mem hmem
    rw [cutAt?_append_cons hfirst] at h
    obtain ⟨rfl, rfl⟩ := Prod.mk.inj (Option.some.inj h)
    exact ⟨rfl, hfirst⟩
  · rintro ⟨rfl, hfront⟩
    exact cutAt?_append_cons hfront back

theorem cutAt?_eq_none_iff : cutAt? c s = none ↔ c ∉ s := by
  refine ⟨fun h hc => ?_, cutAt?_eq_none⟩
  obtain ⟨first, rest, rfl, hfirst⟩ := List.eq_append_cons_of_mem hc
  rw [cutAt?_append_cons hfirst] at h
  cases h

theorem toString_injective : Function.Injective (toString : Nat → String) := by
  intro m n h
  have hvalues := congrArg (fun text => Nat.ofDigitChars 10 text.toList 0) h
  simpa using hvalues

/-- A number ends where no digit follows. -/
theorem eq_of_toString_append {m n : Nat} (hc : c.isDigit = false)
    (h : (toString m).toList ++ c :: s = (toString n).toList ++ c :: t) : m = n ∧ s = t := by
  have hdigits (k : Nat) : c ∉ (toString k).toList := by
    intro hmem
    change c ∈ k.repr.toList at hmem
    rw [Nat.toList_repr] at hmem
    have hdigit := Nat.isDigit_of_mem_toDigits (by decide) (by decide) hmem
    rw [hc] at hdigit
    cases hdigit
  obtain ⟨hnumber, hrest⟩ := eq_of_append_cons_of_notMem (hdigits m) (hdigits n) h
  exact ⟨toString_injective (String.toList_inj.mp hnumber), hrest⟩

theorem startsWithWord_iff :
    startsWithWord word before s = true ↔
      ∃ rest, s = word ++ rest ∧ before.any isWordChar = false ∧
        rest.head?.any isWordChar = false := by
  simp only [startsWithWord, Bool.and_eq_true, Bool.not_eq_true', List.isPrefixOf_iff_prefix]
  constructor
  · rintro ⟨⟨⟨rest, rfl⟩, hbefore⟩, hrest⟩
    rw [List.drop_left] at hrest
    exact ⟨rest, rfl, hbefore, hrest⟩
  · rintro ⟨rest, rfl, hbefore, hrest⟩
    rw [List.drop_left]
    exact ⟨⟨⟨rest, rfl⟩, hbefore⟩, hrest⟩

theorem eq_append_of_cutFirst? (h : cutFirst? word before s = some (front, back)) :
    s = front ++ word ++ back := by
  induction s generalizing before front with
  | nil => cases h
  | cons d s ih =>
      unfold cutFirst? at h
      split at h
      · next hstarts =>
          obtain ⟨rest, hsplit, -, -⟩ := startsWithWord_iff.mp hstarts
          rw [hsplit, List.drop_left] at h
          cases h
          exact hsplit
      · obtain ⟨⟨f, b⟩, hcut, heq⟩ := Option.map_eq_some_iff.mp h
        cases heq
        rw [ih hcut]
        rfl

theorem eq_append_of_cutLast? (h : cutLast? word before s = some (front, back)) :
    s = front ++ word ++ back := by
  induction s generalizing before front with
  | nil => cases h
  | cons d s ih =>
      unfold cutLast? at h
      split at h
      · next hcut =>
          cases h
          rw [ih hcut]
          rfl
      · split at h
        · next hstarts =>
            obtain ⟨rest, hsplit, -, -⟩ := startsWithWord_iff.mp hstarts
            rw [hsplit, List.drop_left] at h
            cases h
            exact hsplit
        · cases h

theorem startsWithWord_of_cutLast? (h : cutLast? word before s = some (front, back)) :
    startsWithWord word (front.getLast?.or before) (word ++ back) = true := by
  induction s generalizing before front with
  | nil => cases h
  | cons d s ih =>
      unfold cutLast? at h
      split at h
      · next hcut =>
          cases h
          simpa [List.getLast?_cons] using ih hcut
      · split at h
        · next hstarts =>
            obtain ⟨rest, hsplit, -, -⟩ := startsWithWord_iff.mp hstarts
            rw [hsplit, List.drop_left] at h
            cases h
            rwa [hsplit] at hstarts
        · cases h

/-- The last occurrence behind `c` is the last one of all. -/
theorem cutLast?_append_of_eq_some (h : cutLast? word (some c) t = some (front, back))
    (before : Option Char) (s : List Char) :
    cutLast? word before (s ++ c :: t) = some (s ++ c :: front, back) := by
  induction s generalizing before with
  | nil => simp [cutLast?, h]
  | cons d s ih => simp [cutLast?, ih]

theorem cutLast?_eq_none_of_notMem (hs : c ∉ s) (before : Option Char) :
    cutLast? (c :: word) before s = none := by
  induction s generalizing before with
  | nil => rfl
  | cons d s ih =>
      rw [List.mem_cons, not_or] at hs
      obtain ⟨hd, hs⟩ := hs
      have hstarts : ¬ startsWithWord (c :: word) before (d :: s) = true := by
        rw [startsWithWord_iff]
        rintro ⟨rest, hsplit, -, -⟩
        exact hd (List.cons_eq_cons.mp hsplit).1.symm
      rw [cutLast?, ih hs, if_neg hstarts]

/-- A whole word is the last one if its first letter does not come again. -/
theorem cutLast?_append (hc : c ∉ word ++ back)
    (hstarts : startsWithWord (c :: word) (front.getLast?.or before) (c :: (word ++ back)) = true) :
    cutLast? (c :: word) before (front ++ c :: (word ++ back)) = some (front, back) := by
  have hhere (before : Option Char)
      (h : startsWithWord (c :: word) before (c :: (word ++ back)) = true) :
      cutLast? (c :: word) before (c :: (word ++ back)) = some ([], back) := by
    rw [cutLast?, cutLast?_eq_none_of_notMem hc, if_pos h, ← List.cons_append, List.drop_left]
  rcases List.eq_nil_or_concat front with rfl | ⟨front, d, rfl⟩
  · exact hhere before hstarts
  · rw [List.concat_eq_append] at hstarts ⊢
    rw [List.append_assoc]
    refine cutLast?_append_of_eq_some (hhere (some d) ?_) before front
    simpa using hstarts

/-- The word stands somewhere in the text as a whole word. -/
def HasWord (word : List Char) (before : Option Char) (s : List Char) : Prop :=
  ∃ front back, s = front ++ back ∧ startsWithWord word (front.getLast?.or before) back = true

theorem hasWord_cons {d : Char} :
    HasWord word before (d :: s) ↔
      startsWithWord word before (d :: s) = true ∨ HasWord word (some d) s := by
  constructor
  · rintro ⟨front, back, hsplit, hstarts⟩
    cases front with
    | nil =>
        rw [List.nil_append] at hsplit
        exact .inl (hsplit ▸ hstarts)
    | cons e front =>
        obtain ⟨rfl, rfl⟩ := List.cons_eq_cons.mp hsplit
        exact .inr ⟨front, back, rfl, by simpa [List.getLast?_cons] using hstarts⟩
  · rintro (hstarts | ⟨front, back, rfl, hstarts⟩)
    · exact ⟨[], d :: s, rfl, hstarts⟩
    · exact ⟨d :: front, back, rfl, by simpa [List.getLast?_cons] using hstarts⟩

theorem cutFirst?_eq_none_iff (hword : word ≠ []) :
    cutFirst? word before s = none ↔ ¬ HasWord word before s := by
  induction s generalizing before with
  | nil =>
      refine iff_of_true rfl ?_
      rintro ⟨front, back, hsplit, hstarts⟩
      obtain ⟨rfl, rfl⟩ := List.append_eq_nil_iff.mp hsplit.symm
      obtain ⟨rest, hrest, -⟩ := startsWithWord_iff.mp hstarts
      exact hword (List.append_eq_nil_iff.mp hrest.symm).1
  | cons d s ih =>
      rw [hasWord_cons, not_or, cutFirst?, ← ih]
      split <;> simp [*]

/-- A character that continues no word is as good as none in front of the text. -/
theorem hasWord_some_iff (hchar : isWordChar c = false) :
    HasWord word (some c) s ↔ HasWord word none s := by
  have hbefore (front : List Char) :
      (front.getLast?.or (some c)).any isWordChar = (front.getLast?.or none).any isWordChar := by
    cases front.getLast? <;> simp [hchar]
  simp only [HasWord, startsWithWord, hbefore]

/-- A word without `c` is not found at `c`, nor across it. -/
theorem startsWithWord_append_cons (hc : c ∉ word)
    (hchar : isWordChar c = false) (before : Option Char) (s t : List Char) :
    startsWithWord word before (s ++ c :: t) = startsWithWord word before s := by
  rw [Bool.eq_iff_iff, startsWithWord_iff, startsWithWord_iff]
  constructor
  · rintro ⟨rest, hsplit, hbefore, hrest⟩
    rcases List.append_eq_append_iff.mp hsplit with ⟨more, rfl, hmore⟩ | ⟨more, rfl, rfl⟩
    · cases more with
      | nil => exact ⟨[], by simp, hbefore, rfl⟩
      | cons d more =>
          obtain ⟨rfl, -⟩ := List.cons_eq_cons.mp hmore
          exact absurd (List.mem_append_right _ List.mem_cons_self) hc
    · refine ⟨more, rfl, hbefore, ?_⟩
      cases more with
      | nil => rfl
      | cons d more => exact hrest
  · rintro ⟨rest, rfl, hbefore, hrest⟩
    refine ⟨rest ++ c :: t, by simp, hbefore, ?_⟩
    cases rest with
    | nil => simpa using hchar
    | cons d rest => exact hrest

theorem cutFirst?_append_of_eq_none (hword : word ≠ []) (hc : c ∉ word)
    (hchar : isWordChar c = false) (h : cutFirst? word before s = none) (t : List Char) :
    cutFirst? word before (s ++ c :: t) =
      (cutFirst? word (some c) t).map fun (front, back) => (s ++ c :: front, back) := by
  induction s generalizing before with
  | nil =>
      have hstarts : startsWithWord word before ([] ++ c :: t) = false := by
        rw [startsWithWord_append_cons hc hchar, Bool.eq_false_iff, Ne, startsWithWord_iff]
        rintro ⟨rest, hnil, -, -⟩
        exact hword (List.append_eq_nil_iff.mp hnil.symm).1
      rw [List.nil_append] at hstarts ⊢
      simp [cutFirst?, hstarts]
  | cons d s ih =>
      unfold cutFirst? at h
      split at h
      · cases h
      · next hstarts =>
          have hrest := ih (Option.map_eq_none_iff.mp h)
          rw [List.cons_append, cutFirst?, ← List.cons_append,
            startsWithWord_append_cons hc hchar, if_neg hstarts, hrest, Option.map_map]
          rfl

theorem cutFirst?_of_startsWithWord (hword : word ≠ [])
    (h : startsWithWord word before (word ++ t) = true) :
    cutFirst? word before (word ++ t) = some ([], t) := by
  cases word with
  | nil => exact absurd rfl hword
  | cons d word =>
      rw [List.cons_append, cutFirst?, ← List.cons_append, if_pos h, List.drop_left]

end Text

end Stencil
