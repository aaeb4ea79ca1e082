import Stencil.Header.Token

/-!
# Reading header tokens

Blanks separate tokens, a colon is a token of its own, each exclamation mark at the
head of a run is a `bang`, and the rest of the run up to the next blank or colon is one
token, however it is spelled. So nothing but blanks is skipped.
-/

namespace Stencil

namespace Header

def isGap (c : Char) : Bool := c == ' ' || c == '\t' || c == '\n' || c == '\r'

def isRunChar (c : Char) : Bool := !isGap c && c != ':'

def lexFrom (pos : Nat) : List Char → List Lexeme
  | [] => []
  | c :: cs =>
      if isGap c then lexFrom (pos + c.utf8Size) cs
      else if c = ':' then ⟨.invalid ":", .ofText pos [c]⟩ :: lexFrom (pos + c.utf8Size) cs
      else if c = '!' then ⟨.bang, .ofText pos [c]⟩ :: lexFrom (pos + c.utf8Size) cs
      else
        let run := c :: cs.takeWhile isRunChar
        ⟨.ofRun run, .ofText pos run⟩ ::
          lexFrom (pos + Text.size run) (cs.dropWhile isRunChar)
  termination_by s => s.length
  decreasing_by
    all_goals
      have := (List.dropWhile_sublist isRunChar (l := cs)).length_le
      simp only [List.length_cons]
      omega

def lex (text : List Char) : List Lexeme := lexFrom 0 text

end Header

end Stencil
