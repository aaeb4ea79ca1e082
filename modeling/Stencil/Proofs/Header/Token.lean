import Stencil.Header.Token

/-!
# Laws of header tokens

The decimal text of a number reads back as the number (`ofRun_toString`). A run that is
not the keyword and is not spelled like a number is a word.
-/

namespace Stencil

namespace Header

theorem digitsValue?_toDigits (n : Nat) : digitsValue? (Nat.toDigits 10 n) = some n := by
  have hdigits : (Nat.toDigits 10 n).all Char.isDigit = true := by
    rw [List.all_eq_true]
    intro c hc
    exact Nat.isDigit_of_mem_toDigits (by decide) (by decide) hc
  have hvalue : Nat.ofDigitChars 10 (Nat.toDigits 10 n) 0 = n :=
    Nat.ofDigitChars_toDigits (by decide) (by decide)
  rw [digitsValue?, hdigits, if_pos (by simp [Nat.toDigits_ne_nil])]
  exact congrArg some hvalue

/-- The sign of a number stands in front of its digits, and no digit is a sign. -/
theorem integerValue?_toString (n : Int) : integerValue? (toString n).toList = some n := by
  cases n with
  | ofNat n =>
      have htext : (toString (Int.ofNat n)).toList = Nat.toDigits 10 n := Nat.toList_repr
      rw [htext, integerValue?, digitsValue?_toDigits]
      · rfl
      · intro digits hdigits
        have hmem : '-' ∈ Nat.toDigits 10 n := hdigits ▸ List.mem_cons_self
        exact absurd (Nat.isDigit_of_mem_toDigits (by decide) (by decide) hmem) (by decide)
  | negSucc n =>
      have htext : (toString (Int.negSucc n)).toList = '-' :: Nat.toDigits 10 (n + 1) := by
        have hsign : toString (Int.negSucc n) = "-" ++ (n + 1).repr := rfl
        rw [hsign, String.toList_append, Nat.toList_repr]
        rfl
      rw [htext, integerValue?, digitsValue?_toDigits]
      rfl

/-- A text spelled like a number: digits that a minus may precede. -/
def IsNumeral (text : List Char) : Prop :=
  ∃ digits, digits ≠ [] ∧ (∀ c ∈ digits, c.isDigit = true) ∧
    (text = digits ∨ text = '-' :: digits)

theorem isDigit_of_digitsValue? {digits : List Char} {n : Nat}
    (h : digitsValue? digits = some n) : digits ≠ [] ∧ ∀ c ∈ digits, c.isDigit = true := by
  unfold digitsValue? at h
  split at h
  · next hdigits => simpa using hdigits
  · cases h

theorem isNumeral_of_integerValue? {text : List Char} {n : Int}
    (h : integerValue? text = some n) : IsNumeral text := by
  unfold integerValue? at h
  split at h
  · next digits =>
      obtain ⟨_, hlift, -⟩ := Option.map_eq_some_iff.mp h
      obtain ⟨value, hvalue, -⟩ := Option.bind_eq_some_iff.mp hlift
      obtain ⟨hne, hall⟩ := isDigit_of_digitsValue? hvalue
      exact ⟨digits, hne, hall, .inr rfl⟩
  · obtain ⟨_, hlift, -⟩ := Option.map_eq_some_iff.mp h
    obtain ⟨value, hvalue, -⟩ := Option.bind_eq_some_iff.mp hlift
    obtain ⟨hne, hall⟩ := isDigit_of_digitsValue? hvalue
    exact ⟨text, hne, hall, .inl rfl⟩

theorem exists_digitsValue? {digits : List Char} (hne : digits ≠ [])
    (h : ∀ c ∈ digits, c.isDigit = true) : ∃ n, digitsValue? digits = some n := by
  refine ⟨_, if_pos ?_⟩
  simpa [hne] using h

theorem isNumeral_iff {text : List Char} :
    IsNumeral text ↔ (integerValue? text).isSome = true := by
  constructor
  · rintro ⟨digits, hne, hdigits, rfl | rfl⟩
    · obtain ⟨n, hn⟩ := exists_digitsValue? hne hdigits
      unfold integerValue?
      split
      · exact absurd (hdigits '-' List.mem_cons_self) (by decide)
      · rw [hn]
        rfl
    · obtain ⟨n, hn⟩ := exists_digitsValue? hne hdigits
      rw [integerValue?, hn]
      rfl
  · intro h
    obtain ⟨n, hn⟩ := Option.isSome_iff_exists.mp h
    exact isNumeral_of_integerValue? hn

instance (text : List Char) : Decidable (IsNumeral text) :=
  decidable_of_iff _ isNumeral_iff.symm

theorem integerValue?_keyword : integerValue? "relation".toList = none := by decide

theorem toString_ne_keyword (n : Int) : toString n ≠ "relation" := by
  intro h
  have hvalue := integerValue?_toString n
  rw [h, integerValue?_keyword] at hvalue
  cases hvalue

theorem ofRun_toString (n : Int32) : Token.ofRun (toString n.toInt).toList = .integer n := by
  have hkeyword : (toString n.toInt).toList ≠ "relation".toList :=
    fun h => toString_ne_keyword _ (String.toList_inj.mp h)
  rw [Token.ofRun, if_neg hkeyword, integerValue?_toString]
  simp only [Int32.minValue_le_toInt, Int32.toInt_le, and_self, if_true, Int32.ofInt_toInt]

/-- What a run spells: the keyword, a number within 32 bits, nothing if it is a number out of that
range, or else a word. -/
inductive Spelling (run : List Char) : Token → Prop where
  | keyword : run = "relation".toList → Spelling run .relation
  | number (n : Int32) : integerValue? run = some n.toInt → Spelling run (.integer n)
  | outOfRange (n : Int) :
      integerValue? run = some n → (∀ m : Int32, m.toInt ≠ n) →
      Spelling run (.invalid (String.ofList run))
  | word : run ≠ "relation".toList → ¬ IsNumeral run → Spelling run (.word (String.ofList run))

theorem spelling_ofRun (run : List Char) : Spelling run (Token.ofRun run) := by
  unfold Token.ofRun
  split
  · next hkeyword => exact .keyword hkeyword
  · next hkeyword =>
      cases hvalue : integerValue? run with
      | none =>
          refine .word hkeyword ?_
          rw [isNumeral_iff, hvalue]
          exact Bool.false_ne_true
      | some n =>
          by_cases hrange : Int32.minValue.toInt ≤ n ∧ n ≤ Int32.maxValue.toInt
          · have htoInt : (Int32.ofInt n).toInt = n :=
              Int32.toInt_ofInt_of_le hrange.1 (Int.lt_of_le_of_lt hrange.2 (by decide))
            simp only [hrange, and_self, if_true]
            exact .number _ (by rw [hvalue, htoInt])
          · simp only [hrange, if_false]
            refine .outOfRange n hvalue ?_
            rintro m rfl
            exact hrange ⟨m.minValue_le_toInt, m.toInt_le⟩

end Header

end Stencil
