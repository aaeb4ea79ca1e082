import Stencil.Text.Cut

/-!
# Texts as bytes

`bytes` is a text in UTF-8, and `slice` its bytes within a span. A character that is no ASCII
one has no ASCII bytes, so the bytes next to a place show as well as the characters do whether
a word goes on there (`any_getLast?_bytes`, `any_head?_bytes`).
-/

namespace Stencil

namespace Text

variable {s t : List Char} {c : Char} {n : Nat}

/-- The bytes of a text in UTF-8. -/
def bytes (s : List Char) : List UInt8 := s.flatMap String.utf8EncodeChar

@[simp] theorem bytes_append (s t : List Char) : bytes (s ++ t) = bytes s ++ bytes t :=
  List.flatMap_append

theorem bytes_cons (c : Char) (s : List Char) :
    bytes (c :: s) = String.utf8EncodeChar c ++ bytes s := List.flatMap_cons

theorem length_bytes (s : List Char) : (bytes s).length = size s := by
  induction s with
  | nil => rfl
  | cons c s ih =>
      rw [bytes_cons, List.length_append, String.length_utf8EncodeChar, size_cons, ih]

theorem length_le_size (s : List Char) : s.length ≤ size s := by
  induction s with
  | nil => exact Nat.le_refl 0
  | cons c s ih =>
      have hc := c.utf8Size_pos
      rw [List.length_cons, size_cons]
      omega

/-- A text has as many bytes as characters just when each character is one byte. -/
theorem size_eq_length_iff : size s = s.length ↔ ∀ c ∈ s, c.utf8Size = 1 := by
  induction s with
  | nil => simp
  | cons c s ih =>
      have hc := c.utf8Size_pos
      have hs := length_le_size s
      rw [List.forall_mem_cons, ← ih, size_cons, List.length_cons]
      omega

/-- The bytes of a text within a span. -/
def slice (s : List Char) (span : Span) : List UInt8 :=
  ((bytes s).take span.stop).drop span.start

theorem slice_append (before t after : List Char) :
    slice (before ++ t ++ after) (.ofText (size before) t) = bytes t := by
  rw [slice, Span.ofText, bytes_append, ← length_bytes t, ← length_bytes before, bytes_append,
    ← List.length_append, List.take_left, List.drop_left]

/-! ### Bytes that continue a word -/

/-- The ASCII letters, the digits and the underscore. -/
def isWordByte (b : UInt8) : Bool :=
  let n := b.toNat
  (0x30 ≤ n && n ≤ 0x39) || (0x41 ≤ n && n ≤ 0x5A) || (0x61 ≤ n && n ≤ 0x7A) || n == 0x5F

theorem isWordByte_ofNat_of_lt (h : n < 0x80) :
    isWordByte (UInt8.ofNat n) = ((0x30 ≤ n && n ≤ 0x39) || (0x41 ≤ n && n ≤ 0x5A) ||
      (0x61 ≤ n && n ≤ 0x7A) || n == 0x5F) := by
  have hbyte : (UInt8.ofNat n).toNat = n := by
    rw [UInt8.toNat_ofNat']
    exact Nat.mod_eq_of_lt (by omega)
  rw [isWordByte, hbyte]

theorem isWordByte_ofNat_of_le (h : 0x80 ≤ n) (hn : n < 0x100) :
    isWordByte (UInt8.ofNat n) = false := by
  have hbyte : (UInt8.ofNat n).toNat = n := by
    rw [UInt8.toNat_ofNat']
    exact Nat.mod_eq_of_lt hn
  rw [isWordByte, hbyte]
  simp
  omega

theorem isWordChar_eq (c : Char) :
    isWordChar c = ((0x30 ≤ c.toNat && c.toNat ≤ 0x39) || (0x41 ≤ c.toNat && c.toNat ≤ 0x5A) ||
      (0x61 ≤ c.toNat && c.toNat ≤ 0x7A) || c.toNat == 0x5F) := by
  have hval : c.val.toNat = c.toNat := rfl
  have hunderscore : (c == '_') = (c.toNat == 0x5F) := by
    rw [Bool.eq_iff_iff, beq_iff_eq, beq_iff_eq, ← Char.toNat_inj]
    rfl
  -- What is left are comparisons of numbers of characters.
  delta isWordChar Char.isAlphanum Char.isAlpha Char.isUpper Char.isLower Char.isDigit
  rw [hunderscore, Bool.eq_iff_iff]
  simp only [Bool.or_eq_true, Bool.and_eq_true, decide_eq_true_eq, ge_iff_le,
    UInt32.le_iff_toNat_le, beq_iff_eq, hval]
  simp
  omega

/-- Each byte of a character continues a word just when the character does. -/
theorem isWordByte_of_mem_utf8EncodeChar {b : UInt8} (h : b ∈ String.utf8EncodeChar c) :
    isWordByte b = isWordChar c := by
  rw [isWordChar_eq]
  unfold String.utf8EncodeChar at h
  have hval : c.val.toNat = c.toNat := rfl
  simp only [hval] at h
  by_cases hascii : c.toNat ≤ 0x7F
  · rw [if_pos hascii, List.mem_singleton] at h
    rw [h, isWordByte_ofNat_of_lt (by omega)]
  · have hother : isWordByte b = false := by
      rw [if_neg hascii] at h
      split at h
      · simp only [List.mem_cons, List.not_mem_nil, or_false] at h
        rcases h with rfl | rfl <;> exact isWordByte_ofNat_of_le (by omega) (by omega)
      · split at h
        · simp only [List.mem_cons, List.not_mem_nil, or_false] at h
          rcases h with rfl | rfl | rfl <;> exact isWordByte_ofNat_of_le (by omega) (by omega)
        · simp only [List.mem_cons, List.not_mem_nil, or_false] at h
          rcases h with rfl | rfl | rfl | rfl <;>
            exact isWordByte_ofNat_of_le (by omega) (by omega)
    rw [hother, eq_comm]
    simp
    omega

theorem any_head?_bytes (s : List Char) :
    (bytes s).head?.any isWordByte = s.head?.any isWordChar := by
  cases s with
  | nil => rfl
  | cons c s =>
      obtain ⟨b, rest, hbytes⟩ := List.exists_cons_of_ne_nil (String.utf8EncodeChar_ne_nil (c := c))
      have hmem : b ∈ String.utf8EncodeChar c := hbytes ▸ List.mem_cons_self
      rw [bytes_cons, hbytes]
      exact isWordByte_of_mem_utf8EncodeChar hmem

theorem any_getLast?_bytes (s : List Char) :
    (bytes s).getLast?.any isWordByte = s.getLast?.any isWordChar := by
  rcases List.eq_nil_or_concat s with rfl | ⟨s, c, rfl⟩
  · rfl
  · have hlast : (bytes [c]).getLast? = (String.utf8EncodeChar c).getLast? := by
      rw [bytes_cons, bytes, List.flatMap_nil, List.append_nil]
    have hne := String.utf8EncodeChar_ne_nil (c := c)
    rw [List.concat_eq_append, bytes_append, List.getLast?_append, hlast,
      List.getLast?_eq_some_getLast hne, List.getLast?_append]
    exact isWordByte_of_mem_utf8EncodeChar (List.getLast_mem hne)

end Text

end Stencil
