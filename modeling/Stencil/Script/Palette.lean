/-!
# Distinct colours

`Palette.distinguish` makes the colours in a list of values distinct. It counts how many
values have each colour and goes through the values from the last back to the first. A
value whose colour others have too gets the first colour that no value has, and becomes
empty when there is none; the counts follow. So the first value of each colour keeps it.
Values that are no colours of the palette stay as they are.
-/

namespace Stencil

namespace Palette

/-- The colours, in the order in which they are given out. -/
def colors : List String :=
  ["black", "white", "red", "green", "blue", "yellow", "pink", "orange", "cyan", "magenta"]

def contains (value : String) : Bool := colors.contains value

/-- How many values have each colour. -/
abbrev Uses := String → Nat

namespace Uses

def alter (uses : Uses) (color : String) (f : Nat → Nat) : Uses :=
  fun c => if c = color then f (uses c) else uses c

def free? (uses : Uses) : Option String := colors.find? (uses · == 0)

def replace (uses : Uses) (color : String) : String × Uses :=
  let uses := uses.alter color (· - 1)
  match uses.free? with
  | some free => (free, uses.alter free (· + 1))
  | none => ("", uses)

end Uses

/-- Replaces repeats in a list that is written from its last value back to its first. -/
def replaceRepeats : Uses → List String → List String
  | _, [] => []
  | uses, value :: earlier =>
      if contains value && 1 < uses value then
        let (replacement, uses) := uses.replace value
        replacement :: replaceRepeats uses earlier
      else value :: replaceRepeats uses earlier

/-- Makes the colours among the values distinct. -/
def distinguish (values : List String) : List String :=
  (replaceRepeats (values.count ·) values.reverse).reverse

theorem length_replaceRepeats (uses : Uses) (values : List String) :
    (replaceRepeats uses values).length = values.length := by
  induction values generalizing uses with
  | nil => rfl
  | cons value earlier ih =>
      unfold replaceRepeats
      split <;> simp [ih]

@[simp] theorem length_distinguish (values : List String) :
    (distinguish values).length = values.length := by
  simp [distinguish, length_replaceRepeats]

end Palette

end Stencil
