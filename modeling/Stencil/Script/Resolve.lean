import Stencil.Catalog.Basic
import Stencil.Text.Cut
import Stencil.World.Basic

/-!
# Resolving tokens

A token names something of an instance: `name`, the ends `from` and `to` of a relation,
or an attribute. A token with `env` in it is about the environment: what counts is the
text behind the `env` and the one character after it, which may hold an `env` again.
`environmentToken?` strips all of them at once, so resolution is one step of lookup.
-/

namespace Stencil

namespace Token

/-- The text behind the first `env` and the one character after it. That character is
taken to be one byte wide: behind a wider one nothing is left. -/
def afterEnv? (token : List Char) : Option (List Char) :=
  match token with
  | [] => none
  | c :: cs =>
      if "env".toList.isPrefixOf (c :: cs) then
        match (c :: cs).drop 3 with
        | d :: rest => if d.utf8Size = 1 then some rest else some []
        | [] => some []
      else afterEnv? cs

theorem length_lt_of_afterEnv? {token rest : List Char} (h : afterEnv? token = some rest) :
    rest.length < token.length := by
  fun_induction afterEnv? token with
  | case1 => simp at h
  | case2 c cs _ d tail hdrop _ =>
      cases h
      have := congrArg List.length hdrop
      simp at this ⊢
      omega
  | case3 => cases h; simp
  | case4 => cases h; simp
  | case5 c cs _ ih => exact Nat.lt_succ_of_lt (ih h)

/-- What a token with `env` in it asks the environment for; it has no `env` in it. -/
def environmentToken? (token : List Char) : Option (List Char) :=
  match _ : afterEnv? token with
  | none => none
  | some rest => some ((environmentToken? rest).getD rest)
  termination_by token.length
  decreasing_by exact length_lt_of_afterEnv? ‹_›

end Token

namespace World

/-- The name of an instance, with the loop variable of its array behind it. -/
def qualifiedName (w : World) (o : Instance) : String :=
  match w.arrayOf? o with
  | some array => o.name ++ "($" ++ array.name ++ ")"
  | none => o.name

def endName (w : World) (catalog : Catalog) (id : InstanceId) (token : String) : String :=
  match w.get? id with
  | some o => w.qualifiedName o
  | none => catalog.notFound token

/-- What a token without `env` resolves to on an instance. The ends of a relation come
first, then the name, then the attributes. -/
def lookup (w : World) (catalog : Catalog) (o : Instance) (token : String) : String :=
  match o.role, token with
  | .relation source _, "from" => w.endName catalog source token
  | .relation _ target, "to" => w.endName catalog target token
  | _, "name" => w.qualifiedName o
  | _, _ => (o.valueOf? token).getD (catalog.notFound token)

def resolve (w : World) (catalog : Catalog) (o : Instance) (token : String) : String :=
  match Token.environmentToken? token.toList with
  | some rest => w.lookup catalog w.environment (String.ofList rest)
  | none => w.lookup catalog o token

end World

end Stencil
