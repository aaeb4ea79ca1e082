import Stencil.Text.Cut

/-!
# Templates

A template is text with tags in it, each between two separators. `expand` replaces every
tag by what `ask` returns for it and copies the rest. Tags are asked for from left to
right, each once, and what comes back is not expanded again. A tag that is not closed
makes the whole template fail, after the tags before it have been asked for.

The question may have effects: `ask` runs in any monad. `Template.fill` is the case of a
plain function.
-/

namespace Stencil

namespace Template

/-- A tag was opened and not closed. -/
structure UnterminatedTag where
  /-- The byte of the separator that opens it. -/
  position : Nat
  deriving DecidableEq, Repr, Inhabited

def UnterminatedTag.message (e : UnterminatedTag) : String :=
  "unterminated inline tag opened at byte " ++ toString e.position

/-- Expands a text that starts at byte `pos` of the template. -/
def expandFrom {m : Type → Type} [Monad m] (ask : String → m String) (separator : Char)
    (pos : Nat) (text : List Char) : m (Except UnterminatedTag String) :=
  match _ : Text.cutAt? separator text with
  | none => return .ok (String.ofList text)
  | some (before, opened) =>
      match _ : Text.cutAt? separator opened with
      | none => return .error ⟨pos + Text.size before⟩
      | some (tag, after) => do
          let value ← ask (String.ofList tag)
          let past := Text.size before + Text.size tag + 2 * separator.utf8Size
          let rest ← expandFrom ask separator (pos + past) after
          return rest.map fun rest => String.ofList before ++ value ++ rest
  termination_by text.length
  decreasing_by
    have := Text.length_lt_of_cutAt? ‹Text.cutAt? separator text = _›
    have := Text.length_lt_of_cutAt? ‹Text.cutAt? separator opened = _›
    omega

def expand {m : Type → Type} [Monad m] (ask : String → m String) (separator : Char)
    (template : String) : m (Except UnterminatedTag String) :=
  expandFrom ask separator 0 template.toList

/-- Expands a template with a plain function. -/
def fill (resolve : String → String) (separator : Char) (template : String) :
    Except UnterminatedTag String :=
  Id.run (expand (fun tag => pure (resolve tag)) separator template)

end Template

end Stencil
