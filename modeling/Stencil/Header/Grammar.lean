import Stencil.Header.Basic
import Stencil.Header.Token

/-!
# The grammar of headers

`Spells tokens header` says which token lists spell a header, one rule for entities and
one for relations. It is stated on its own and is not shaped like the forms that headers
are read in.
-/

namespace Stencil

namespace Header

def markTokens (unique : Bool) : List Token := if unique then [.bang] else []

/-- A token that can serve as that name. -/
def Names (token : Token) (name : String) : Prop := token.name? = some name

/-- The tokens that may stand for the spare word: none, or one that can serve as a name. -/
def Spare (tokens : List Token) : Prop :=
  tokens = [] ∨ ∃ token name, tokens = [token] ∧ Names token name

inductive Spells : List Token → Header → Prop where
  /-- An entity: a kind word, the name, the category and the icon. -/
  | entity {unique : Bool} {kind name category : Token} {spare : List Token}
      {kindText nameText categoryText : String} {icon : Int32} :
      Names kind kindText → Spare spare → Names name nameText →
        Names category categoryText →
      Spells (markTokens unique ++ kind :: spare ++ [name, category, .integer icon])
        ⟨nameText, unique, .entity categoryText icon⟩
  /-- A relation: the keyword, the name, the two ends and four numbers. -/
  | relation {unique sourceUnique targetUnique : Bool} {name source target : Token}
      {spare : List Token} {nameText sourceText targetText : String}
      {base line width tip : Int32} :
      Spare spare → Names name nameText → Names source sourceText →
        Names target targetText →
      Spells
        (markTokens unique ++ .relation :: spare ++ name :: markTokens sourceUnique ++
          source :: markTokens targetUnique ++
          [target, .integer base, .integer line, .integer width, .integer tip])
        ⟨nameText, unique, .relation ⟨sourceText, sourceUnique⟩ ⟨targetText, targetUnique⟩
          ⟨base, line, width, tip⟩⟩

end Header

end Stencil
