import Stencil.Header.Form
import Stencil.Header.Lexer

/-!
# Reading a header

`Header.parse` lexes the text before the first colon of a block and reads the tokens as
one of the forms. When no form fits, the failure is at the first token with which the
tokens up to it no longer begin any form, or at the end of the header when they begin
one throughout.
-/

namespace Stencil

namespace Header

/-- What a failure lists as expected. Words and numbers are not listed. -/
inductive Expectation where
  | bang
  | colon
  | relation
  deriving DecidableEq, Repr, Inhabited

def Expectation.describe : Expectation → String
  | bang => "'!'"
  | colon => "':'"
  | relation => "keyword 'relation'"

/-- Whether the expectation is met by going on in one of the ways left. -/
def Expectation.holds (rests : List (List Place)) : Expectation → Bool
  | bang => rests.any (·.head? == some .bang)
  | colon => rests.any (·.isEmpty)
  | relation => rests.any (·.head? == some .relation)

/-- The expectations that hold, in the order of their wording. -/
def expectations (rests : List (List Place)) : List Expectation :=
  [.bang, .colon, .relation].filter (·.holds rests)

structure Failure where
  /-- The token that fits no form, or nothing at the end of the header. -/
  found : Option Token
  span : Span
  expected : List Expectation
  deriving DecidableEq, Repr, Inhabited

def Failure.message (failure : Failure) : String :=
  "Unexpected " ++
    match failure.found with
    | some token => token.describe
    | none => "end of header"

/-- The first token that cannot be read after those in `past`, with the tokens read
before it; nothing if all can be read. -/
def stuckAt (past : List Token) : List Lexeme → List Token × Option Lexeme
  | [] => (past, none)
  | lexeme :: lexemes =>
      if (Form.rests (past ++ [lexeme.token])).isEmpty then (past, some lexeme)
      else stuckAt (past ++ [lexeme.token]) lexemes

/-- The span reported at the end of a header of `size` bytes: from its length back to
the end of its last token, so that trailing blanks make it run backwards. -/
def endSpan (size : Nat) (lexemes : List Lexeme) : Span :=
  ⟨size, (lexemes.getLast?.map (·.span.stop)).getD size⟩

def failure (size : Nat) (lexemes : List Lexeme) : Failure :=
  match stuckAt [] lexemes with
  | (past, some lexeme) =>
      ⟨some lexeme.token, lexeme.span, expectations (Form.rests past)⟩
  | (past, none) => ⟨none, endSpan size lexemes, expectations (Form.rests past)⟩

def parse (text : List Char) : Except Failure Header :=
  let lexemes := lex text
  match ofTokens? (lexemes.map (·.token)) with
  | some header => .ok header
  | none => .error (failure (Text.size text) lexemes)

end Header

end Stencil
