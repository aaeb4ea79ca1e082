import Stencil.Header.Parser

/-!
# Reading a header by a plan

A plan says what a reading by choices asks for, step by step; `Plan.header` is the plan of
`Descent.header`. A reading that fails may have stopped at several tokens, one for each
alternative that was tried. `Plan.stops` keeps them all, with what was asked for there, and
`furthest` makes one of those that lie furthest on. Words and numbers are asked for without
saying so.
-/

namespace Stencil

namespace Header

def Place.asks : Place → List Expectation
  | bang => [.bang]
  | relation => [.relation]
  | word | integer => []

/-- A token that an alternative could not go on with. -/
structure Stop where
  /-- The number of tokens in front of it. -/
  pos : Nat
  asked : List Expectation
  deriving DecidableEq, Repr, Inhabited

/-- The stop that is further on, or both in one if they are at the same token. -/
def Stop.merge (s t : Stop) : Stop :=
  if s.pos < t.pos then t
  else if t.pos < s.pos then s
  else ⟨s.pos, s.asked ++ t.asked.filter fun e => !s.asked.contains e⟩

def furthest : List Stop → Option Stop
  | [] => none
  | stop :: stops =>
      match furthest stops with
      | none => some stop
      | some other => some (stop.merge other)

inductive Plan where
  | finish
  | take (place : Place) (next : Plan)
  /-- Takes a mark if it is there. -/
  | mark (next : Plan)
  /-- Tries the first plan and, if it fails, the second from the same token. -/
  | choice (first second : Plan)
  deriving Repr, Inhabited

namespace Plan

def accepts : Plan → List Token → Bool
  | finish, tokens => tokens.isEmpty
  | take _ _, [] => false
  | take place next, token :: tokens => place.accepts token && next.accepts tokens
  | mark next, .bang :: tokens => next.accepts tokens
  | mark next, tokens => next.accepts tokens
  | choice first second, tokens => first.accepts tokens || second.accepts tokens

/-- Where the alternatives stop that are tried on the tokens behind the first `pos`. A mark
that is not there is asked for as well. -/
def stops : Plan → Nat → List Token → List Stop
  | finish, _, [] => []
  | finish, pos, _ :: _ => [⟨pos, [.colon]⟩]
  | take place _, pos, [] => [⟨pos, place.asks⟩]
  | take place next, pos, token :: tokens =>
      if place.accepts token then next.stops (pos + 1) tokens else [⟨pos, place.asks⟩]
  | mark next, pos, .bang :: tokens => next.stops (pos + 1) tokens
  | mark next, pos, tokens => ⟨pos, [.bang]⟩ :: next.stops pos tokens
  | choice first second, pos, tokens =>
      if first.accepts tokens then first.stops pos tokens
      else first.stops pos tokens ++ second.stops pos tokens

def style : Plan := take .integer (take .integer (take .integer (take .integer finish)))

def relationFields : Plan := mark (take .word (mark (take .word style)))

def entityFields : Plan := take .word (take .integer finish)

def named (fields : Plan) : Plan := take .word fields

def spared (fields : Plan) : Plan := take .word (named fields)

/-- A name and the fields with or without a spare word. -/
def body (spareFirst : Bool) (fields : Plan) : Plan :=
  if spareFirst then choice (spared fields) (named fields)
  else choice (named fields) (spared fields)

def header (relationSpareFirst entitySpareFirst : Bool) : Plan :=
  choice (mark (take .relation (body relationSpareFirst relationFields)))
    (mark (take .word (body entitySpareFirst entityFields)))

end Plan

end Header

end Stencil
