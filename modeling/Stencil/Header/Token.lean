import Stencil.Text.Span

/-!
# Header tokens

The header of a snippet is read as tokens. `Token.ofRun` classifies a maximal run of
text by its spelling; `Token.describe` is the wording used in messages.
-/

namespace Stencil

namespace Header

inductive Token where
  | bang
  | relation
  /-- A decimal number within 32 bits. -/
  | integer (value : Int32)
  /-- Any other run of text. -/
  | word (text : String)
  /-- Text that is no token: a colon, or a number out of range. -/
  | invalid (text : String)
  deriving DecidableEq, Repr, Inhabited

structure Lexeme where
  token : Token
  span : Span
  deriving DecidableEq, Repr, Inhabited

def digitsValue? (digits : List Char) : Option Nat :=
  if !digits.isEmpty && digits.all Char.isDigit then
    some (digits.foldl (fun n c => 10 * n + (c.toNat - '0'.toNat)) 0)
  else none

/-- The value of decimal digits that a minus may precede. -/
def integerValue? : List Char → Option Int
  | '-' :: digits => (digitsValue? digits).map fun n => -(n : Int)
  | digits => (digitsValue? digits).map fun n => (n : Int)

namespace Token

/-- The token spelled by a run of text: the keyword, a number if it is in range, and
a word otherwise. -/
def ofRun (run : List Char) : Token :=
  if run = "relation".toList then relation
  else
    match integerValue? run with
    | some n =>
        if Int32.minValue.toInt ≤ n ∧ n ≤ Int32.maxValue.toInt then integer (Int32.ofInt n)
        else invalid (String.ofList run)
    | none => word (String.ofList run)

/-- The name a token can serve as: a number stands for its decimal text. -/
def name? : Token → Option String
  | integer value => some (toString value.toInt)
  | word text => some text
  | _ => none

def describe : Token → String
  | bang => "'!'"
  | relation => "keyword 'relation'"
  | integer value => "integer " ++ toString value.toInt
  | word text => "name '" ++ text ++ "'"
  | invalid text => "invalid text '" ++ text ++ "'"

end Token

end Header

end Stencil
