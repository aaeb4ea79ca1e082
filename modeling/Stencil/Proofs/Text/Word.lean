import Mathlib.Order.Bounds.Defs
import Stencil.Proofs.Text.Bytes
import Stencil.Proofs.Text.Cut

/-!
# Whole words and where they start

`WordAt word text n` says that a whole word starts at byte `n` of a text. A search behind
`lead` finds the first or the last of those that start there (`isLeast_of_cutFirst?`,
`isGreatest_of_cutLast?`) and nothing only if there are none. A word whose first letter does
not come again in it does not overlap with itself (`WordAt.add_size_le`).
-/

namespace Stencil

namespace Text

variable {word text lead body s front back front' rest : List Char} {before : Option Char}
  {c : Char} {m n : Nat}

/-- The character starts at byte `n` of the text. -/
def CharAt (c : Char) (text : List Char) (n : Nat) : Prop :=
  ∃ front back, text = front ++ c :: back ∧ size front = n

/-- The word starts at byte `n` of the text and is a whole one: the bytes next to it, if there
are any, continue no word. -/
def WordAt (word text : List Char) (n : Nat) : Prop :=
  ∃ front back, text = front ++ word ++ back ∧ size front = n ∧
    (∀ b ∈ (bytes front).getLast?, isWordByte b = false) ∧
    ∀ b ∈ (bytes back).head?, isWordByte b = false

theorem forall_mem_eq_false_iff {α : Type} {p : α → Bool} {o : Option α} :
    (∀ a ∈ o, p a = false) ↔ o.any p = false := by
  cases o <;> simp

theorem wordAt_iff :
    WordAt word text n ↔ ∃ front rest, text = front ++ rest ∧ size front = n ∧
      startsWithWord word front.getLast? rest = true := by
  simp only [WordAt, forall_mem_eq_false_iff, any_getLast?_bytes, any_head?_bytes,
    startsWithWord_iff]
  constructor
  · rintro ⟨front, back, rfl, hsize, hbefore, hafter⟩
    exact ⟨front, word ++ back, by simp, hsize, back, rfl, hbefore, hafter⟩
  · rintro ⟨front, _, rfl, hsize, back, rfl, hbefore, hafter⟩
    exact ⟨front, back, by simp, hsize, hbefore, hafter⟩

/-! ### Parts of a text and their sizes -/

theorem size_mono (h : front <+: front') : size front ≤ size front' := by
  obtain ⟨more, rfl⟩ := h
  rw [size_append]
  exact Nat.le_add_right _ _

theorem prefix_of_size_le (h : front ++ back = front' ++ rest) (hsize : size front ≤ size front') :
    front <+: front' := by
  rcases List.append_eq_append_iff.mp h with ⟨more, hmore, -⟩ | ⟨more, rfl, -⟩
  · exact ⟨more, hmore.symm⟩
  · cases more with
    | nil => simp
    | cons c more =>
        have := c.utf8Size_pos
        rw [size_append, size_cons] at hsize
        omega

theorem eq_of_size_eq (h : front ++ back = front' ++ rest) (hsize : size front = size front') :
    front = front' :=
  (prefix_of_size_le h (Nat.le_of_eq hsize)).eq_of_length_le
    (prefix_of_size_le h.symm (Nat.le_of_eq hsize.symm)).length_le

/-- A whole word in the back part of a text. -/
theorem wordAt_append_iff (hlead : lead.getLast? = some c) :
    WordAt word (lead ++ body) n ∧ size lead ≤ n ↔
      ∃ front rest, body = front ++ rest ∧ n = size lead + size front ∧
        startsWithWord word (front.getLast?.or (some c)) rest = true := by
  rw [wordAt_iff]
  constructor
  · rintro ⟨⟨front, rest, hsplit, rfl, hstarts⟩, hsize⟩
    obtain ⟨front, rfl⟩ := prefix_of_size_le hsplit hsize
    rw [List.append_assoc] at hsplit
    rw [List.getLast?_append, hlead] at hstarts
    exact ⟨front, rest, List.append_cancel_left hsplit, size_append _ _, hstarts⟩
  · rintro ⟨front, rest, rfl, rfl, hstarts⟩
    refine ⟨⟨lead ++ front, rest, by simp, size_append _ _, ?_⟩, Nat.le_add_right _ _⟩
    rwa [List.getLast?_append, hlead]

/-! ### The first and the last one -/

theorem startsWithWord_of_cutFirst? (h : cutFirst? word before s = some (front, back)) :
    startsWithWord word (front.getLast?.or before) (word ++ back) = true := by
  induction s generalizing before front with
  | nil => cases h
  | cons d s ih =>
      unfold cutFirst? at h
      split at h
      · next hstarts =>
          obtain ⟨rest, hsplit, -, -⟩ := startsWithWord_iff.mp hstarts
          rw [hsplit, List.drop_left] at h
          cases h
          rwa [hsplit] at hstarts
      · obtain ⟨⟨f, b⟩, hcut, heq⟩ := Option.map_eq_some_iff.mp h
        cases heq
        simpa [List.getLast?_cons] using ih hcut

/-- Each occurrence is the one that is found first, or stands behind it. -/
theorem prefix_of_cutFirst? (h : cutFirst? word before s = some (front, back))
    (hsplit : s = front' ++ rest)
    (hstarts : startsWithWord word (front'.getLast?.or before) rest = true) :
    front <+: front' := by
  induction s generalizing before front front' with
  | nil => cases h
  | cons d s ih =>
      unfold cutFirst? at h
      split at h
      · cases h
        exact List.nil_prefix
      · next hnot =>
          obtain ⟨⟨f, b⟩, hcut, heq⟩ := Option.map_eq_some_iff.mp h
          cases heq
          cases front' with
          | nil =>
              rw [List.nil_append] at hsplit
              exact absurd (hsplit ▸ hstarts) hnot
          | cons e front' =>
              obtain ⟨rfl, hrest⟩ := List.cons_eq_cons.mp hsplit
              have hnext := ih hcut hrest (by simpa [List.getLast?_cons] using hstarts)
              exact (List.prefix_cons_inj d).mpr hnext

theorem cutLast?_eq_none_iff (hword : word ≠ []) :
    cutLast? word before s = none ↔ ¬ HasWord word before s := by
  induction s generalizing before with
  | nil =>
      have hnone : ¬ HasWord word before [] := (cutFirst?_eq_none_iff hword).mp rfl
      exact iff_of_true rfl hnone
  | cons d s ih =>
      rw [hasWord_cons, not_or, ← ih, cutLast?]
      cases cutLast? word (some d) s with
      | none => simp
      | some cut => simp

/-- Each occurrence is the one that is found last, or stands in front of it. -/
theorem prefix_of_cutLast? (hword : word ≠ [])
    (h : cutLast? word before s = some (front, back)) (hsplit : s = front' ++ rest)
    (hstarts : startsWithWord word (front'.getLast?.or before) rest = true) :
    front' <+: front := by
  induction s generalizing before front front' with
  | nil => cases h
  | cons d s ih =>
      cases front' with
      | nil => exact List.nil_prefix
      | cons e front' =>
          obtain ⟨rfl, hrest⟩ := List.cons_eq_cons.mp hsplit
          have hstarts : startsWithWord word (front'.getLast?.or (some d)) rest = true := by
            simpa [List.getLast?_cons] using hstarts
          unfold cutLast? at h
          split at h
          · next hcut =>
              cases h
              exact (List.prefix_cons_inj d).mpr (ih hcut hrest hstarts)
          · next hcut =>
              exact absurd ⟨front', rest, hrest, hstarts⟩ ((cutLast?_eq_none_iff hword).mp hcut)

theorem isLeast_of_cutFirst? (hlead : lead.getLast? = some c)
    (h : cutFirst? word (some c) body = some (front, back)) :
    IsLeast {n | WordAt word (lead ++ body) n ∧ size lead ≤ n} (size lead + size front) := by
  constructor
  · refine (wordAt_append_iff hlead).mpr
      ⟨front, word ++ back, ?_, rfl, startsWithWord_of_cutFirst? h⟩
    rw [eq_append_of_cutFirst? h, List.append_assoc]
  · intro n hn
    obtain ⟨front', rest, hsplit, rfl, hstarts⟩ := (wordAt_append_iff hlead).mp hn
    exact Nat.add_le_add_left (size_mono (prefix_of_cutFirst? h hsplit hstarts)) _

theorem isGreatest_of_cutLast? (hword : word ≠ []) (hlead : lead.getLast? = some c)
    (h : cutLast? word (some c) body = some (front, back)) :
    IsGreatest {n | WordAt word (lead ++ body) n ∧ size lead ≤ n} (size lead + size front) := by
  constructor
  · refine (wordAt_append_iff hlead).mpr
      ⟨front, word ++ back, ?_, rfl, startsWithWord_of_cutLast? h⟩
    rw [eq_append_of_cutLast? h, List.append_assoc]
  · intro n hn
    obtain ⟨front', rest, hsplit, rfl, hstarts⟩ := (wordAt_append_iff hlead).mp hn
    exact Nat.add_le_add_left (size_mono (prefix_of_cutLast? hword h hsplit hstarts)) _

theorem hasWord_iff_exists_wordAt (hlead : lead.getLast? = some c) :
    HasWord word (some c) body ↔ ∃ n, WordAt word (lead ++ body) n ∧ size lead ≤ n := by
  simp only [wordAt_append_iff hlead]
  constructor
  · rintro ⟨front, rest, hsplit, hstarts⟩
    exact ⟨_, front, rest, hsplit, rfl, hstarts⟩
  · rintro ⟨_, front, rest, hsplit, rfl, hstarts⟩
    exact ⟨front, rest, hsplit, hstarts⟩

/-- A word whose first letter comes once does not overlap with itself. -/
theorem WordAt.add_size_le (hc : c ∉ word) (hm : WordAt (c :: word) text m)
    (hn : WordAt (c :: word) text n) (hlt : m < n) : m + size (c :: word) ≤ n := by
  obtain ⟨front, back, hfront, rfl, -, -⟩ := hm
  obtain ⟨front', back', hfront', rfl, -, -⟩ := hn
  rw [hfront, List.append_assoc, List.append_assoc] at hfront'
  obtain ⟨more, rfl⟩ := prefix_of_size_le hfront' (Nat.le_of_lt hlt)
  rw [List.append_assoc] at hfront'
  have hmore := List.append_cancel_left hfront'
  cases more with
  | nil => simp at hlt
  | cons d more =>
      rw [List.cons_append, List.cons_append, List.cons_append] at hmore
      obtain ⟨rfl, hword⟩ := List.cons_eq_cons.mp hmore
      rw [size_append, size_cons, size_cons]
      -- What stands between the two occurrences is no shorter than the word.
      have hle : size word ≤ size more := by
        rcases List.append_eq_append_iff.mp hword with ⟨tail, rfl, -⟩ | ⟨tail, rfl, htail⟩
        · exact size_mono (List.prefix_append _ _)
        · cases tail with
          | nil => simp
          | cons e tail =>
              obtain ⟨rfl, -⟩ := List.cons_eq_cons.mp htail
              exact absurd (List.mem_append_right _ List.mem_cons_self) hc
      omega

end Text

end Stencil
