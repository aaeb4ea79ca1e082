import Stencil.Header.Basic
import Stencil.Header.Token

/-!
# The forms of a header

A header has one of twenty forms: an entity or a relation, each mark `!` written or
not, the spare word that older libraries put before the name written or not. A form is
a list of places, each filled by one token. A header is read by filling the places of
a form (`Form.read`); what may come next after some tokens is what is left of the forms
that they begin (`Form.rests`). Both readings come from the one list `Form.all`.
-/

namespace Stencil

namespace Header

/-- A place of a header, filled by one token. -/
inductive Place where
  | bang
  | relation
  /-- A name, a category or a kind word. -/
  | word
  | integer
  deriving DecidableEq, Repr, Inhabited

namespace Place

def accepts : Place → Token → Bool
  | bang, .bang => true
  | relation, .relation => true
  | word, .word _ => true
  | word, .integer _ => true
  | integer, .integer _ => true
  | _, _ => false

def mark (written : Bool) : List Place := if written then [bang] else []

def spare (written : Bool) : List Place := if written then [word] else []

end Place

/-- The names and the numbers that tokens fill the places with, in order. There must
be one token for each place. -/
def fill? : List Place → List Token → Option (List String × List Int32)
  | [], [] => some ([], [])
  | .bang :: places, .bang :: tokens => fill? places tokens
  | .relation :: places, .relation :: tokens => fill? places tokens
  | .word :: places, token :: tokens => do
      let name ← token.name?
      let (names, numbers) ← fill? places tokens
      return (name :: names, numbers)
  | .integer :: places, .integer n :: tokens => do
      let (names, numbers) ← fill? places tokens
      return (names, n :: numbers)
  | _, _ => none

/-- What is left of the places once the tokens have filled the first of them. -/
def rest? : List Place → List Token → Option (List Place)
  | places, [] => some places
  | [], _ :: _ => none
  | place :: places, token :: tokens =>
      if place.accepts token then rest? places tokens else none

inductive Form where
  | entity (unique spare : Bool)
  | relation (unique spare sourceUnique targetUnique : Bool)
  deriving DecidableEq, Repr, Inhabited

namespace Form

def places : Form → List Place
  | entity unique spare =>
      Place.mark unique ++ .word :: Place.spare spare ++ [.word, .word, .integer]
  | relation unique spare sourceUnique targetUnique =>
      Place.mark unique ++ .relation :: Place.spare spare ++ .word :: Place.mark sourceUnique ++
        .word :: Place.mark targetUnique ++ [.word, .integer, .integer, .integer, .integer]

def all : List Form :=
  let flags := [false, true]
  (flags.flatMap fun unique => flags.map fun spare => entity unique spare) ++
    flags.flatMap fun unique => flags.flatMap fun spare =>
      flags.flatMap fun source => flags.map fun target => relation unique spare source target

theorem mem_all (form : Form) : form ∈ all := by
  cases form with
  | entity unique spare => cases unique <;> cases spare <;> decide
  | relation unique spare source target =>
      cases unique <;> cases spare <;> cases source <;> cases target <;> decide

/-- The header made of the names and the numbers read in a form. The first word of an
entity header is its kind word, and a spare word is passed over. -/
def header? : Form → List String × List Int32 → Option Header
  | entity unique false, ([_, name, category], [icon])
  | entity unique true, ([_, _, name, category], [icon]) =>
      some ⟨name, unique, .entity category icon⟩
  | relation unique false sourceUnique targetUnique,
      ([name, source, target], [base, line, width, tip])
  | relation unique true sourceUnique targetUnique,
      ([_, name, source, target], [base, line, width, tip]) =>
      some ⟨name, unique,
        .relation ⟨source, sourceUnique⟩ ⟨target, targetUnique⟩ ⟨base, line, width, tip⟩⟩
  | _, _ => none

def read (form : Form) (tokens : List Token) : Option Header :=
  (fill? form.places tokens).bind form.header?

/-- What is left of each form that the tokens begin. -/
def rests (tokens : List Token) : List (List Place) :=
  all.filterMap fun form => rest? form.places tokens

end Form

def ofTokens? (tokens : List Token) : Option Header := Form.all.findSome? (·.read tokens)

end Header

end Stencil
