/-!
# Byte positions

Positions in a text are counted in bytes of its UTF-8 form. The algorithms walk over
characters, so the byte count is a measure on them: `Text.size`. A `Span` is the
range of bytes from `start` up to `stop`; nothing makes `start ≤ stop`, as the span
of a header that ends too early may run backwards.
-/

namespace Stencil

namespace Text

/-- The number of bytes of a text in UTF-8. -/
def size : List Char → Nat
  | [] => 0
  | c :: cs => c.utf8Size + size cs

@[simp] theorem size_nil : size [] = 0 := rfl

@[simp] theorem size_cons (c : Char) (cs : List Char) :
    size (c :: cs) = c.utf8Size + size cs := rfl

@[simp] theorem size_append (s t : List Char) : size (s ++ t) = size s + size t := by
  induction s with
  | nil => simp
  | cons c cs ih => simp [ih, Nat.add_assoc]

theorem size_takeWhile_add_size_dropWhile (p : Char → Bool) (s : List Char) :
    size (s.takeWhile p) + size (s.dropWhile p) = size s := by
  rw [← size_append, List.takeWhile_append_dropWhile]

theorem size_pos {s : List Char} (h : s ≠ []) : 0 < size s := by
  cases s with
  | nil => exact absurd rfl h
  | cons c cs => exact Nat.add_pos_left c.utf8Size_pos _

end Text

structure Span where
  start : Nat
  /-- The byte after the last one. -/
  stop : Nat
  deriving DecidableEq, Repr, Inhabited

namespace Span

def ofText (start : Nat) (s : List Char) : Span := ⟨start, start + Text.size s⟩

def describe (span : Span) : String := s!"{span.start}..{span.stop}"

end Span

end Stencil
