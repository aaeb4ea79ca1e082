import Stencil.Snippet.Basic

/-!
# Writing a snippet

`Snippet.source` writes a definition as a block. It is the form that `Snippet.parse`
reads, without the spare word, with one blank between the words of the header and one
semicolon behind each clause.
-/

namespace Stencil

def markSource (unique : Bool) : String := if unique then "!" else ""

def numberSource (n : Int32) : String := toString n.toInt

def Endpoint.source (endpoint : Endpoint) : String :=
  markSource endpoint.unique ++ endpoint.category

def LineStyle.source (style : LineStyle) : String :=
  String.intercalate " "
    [numberSource style.base, numberSource style.line, numberSource style.width,
      numberSource style.tip]

def Header.source (header : Header) : String :=
  markSource header.unique ++
    match header.kind with
    | .entity category icon =>
        String.intercalate " " ["entity", header.name, category, numberSource icon]
    | .relation source target style =>
        String.intercalate " "
          ["relation", header.name, source.source, target.source, style.source]

def Attribute.source (a : Attribute) : String :=
  a.name ++ (a.default?.map ("=" ++ ·)).getD "" ++ (a.options?.map (":" ++ ·)).getD ""

def Pattern.source : Pattern → String
  | literal template => template
  | conditional guard value main alternative =>
      "?" ++ guard ++ "=" ++ value ++ ":" ++ main ++ ":" ++ alternative

def clausesSource (clauses : List String) : String := String.join (clauses.map (· ++ ";"))

def Snippet.source (s : Snippet) : String :=
  s.toHeader.source ++ " : " ++ clausesSource (s.attributes.map (·.source)) ++ " begin " ++
    clausesSource (s.patterns.map (·.source)) ++ " end"

end Stencil
