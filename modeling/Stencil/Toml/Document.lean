import Stencil.Toml.Table
import Stencil.Toml.Text

/-!
# Reading TOML

`Toml.parse` reads a document, TOML version 1.0 with integers of 64 bits. A reader takes
what it reads off the front of the text and fails otherwise. Arrays and inline tables may
be nested in one another, and a dotted key may have parts, up to `depthLimit`.
-/

namespace Stencil

namespace Toml

abbrev Reader := StateT (List Char) Option

/-- How deep values may be nested, and how many parts a key may have. -/
def depthLimit : Nat := 79

/-- Text without the blanks, line breaks and comments at its head. In a comment, all is
dropped up to the line break. -/
def dropGap (inComment : Bool) : List Char → List Char
  | [] => []
  | '\r' :: '\n' :: rest => dropGap false rest
  | c :: rest =>
      if c == '\n' then dropGap false rest
      else if inComment then if isTextChar c then dropGap true rest else c :: rest
      else if isSpace c then dropGap false rest
      else if c == '#' then dropGap true rest
      else c :: rest

namespace Reader

def gap : Reader Unit := modify (dropGap false)

def spaces : Reader Unit := modify (·.dropWhile isSpace)

def take? (text : String) : Reader Bool := do
  let s ← get
  if text.toList.isPrefixOf s then
    set (s.drop text.toList.length)
    return true
  else return false

def expect (text : String) : Reader Unit := do
  if !(← take? text) then failure

def atEnd : Reader Bool := do return (← get).isEmpty

def takeRun (p : Char → Bool) : Reader (List Char) := do
  let s ← get
  set (s.dropWhile p)
  return s.takeWhile p

/-- Reads up to the end of the line: only blanks and a comment may stand there. -/
def lineEnd : Reader Unit := do
  spaces
  if ← take? "#" then
    let _ ← takeRun isTextChar
  if !(← atEnd) then
    if !(← take? "\n") then expect "\r\n"

def isKeyChar (c : Char) : Bool := c.isAlphanum || c == '-' || c == '_'

def keyPart : Reader String := do
  match ← get with
  | '"' :: rest =>
      let (key, rest) ← basicBody rest
      set rest
      return String.ofList key
  | '\'' :: rest =>
      let (key, rest) ← literalBody rest
      set rest
      return String.ofList key
  | _ =>
      let key ← takeRun isKeyChar
      if key.isEmpty then failure
      return String.ofList key

/-- Reads a key of at most `limit` parts. -/
def path : Nat → Reader Path
  | 0 => failure
  | limit + 1 => do
      spaces
      let key ← keyPart
      spaces
      if ← take? "." then
        let rest ← path limit
        return ⟨key :: rest.parents, rest.key⟩
      else return ⟨[], key⟩

def scalar : Reader Value := do
  match (← get).head? with
  | some '"' | some '\'' =>
      let (text, rest) ← string? (← get)
      set rest
      return .string (String.ofList text)
  | _ =>
      let text ← takeRun isRunChar
      match cutDate? text, (← get) with
      | some (_, []), ' ' :: rest =>
          if rest.head?.any Char.isDigit then
            set rest
            let time ← takeRun isRunChar
            scalar? (text ++ ' ' :: time)
          else scalar? text
      | _, _ => scalar? text

/-- Reads the elements of an array up to its end, of which there are fewer than `fuel`
characters. -/
def items (value : Reader Value) : Nat → Reader (List Value)
  | 0 => failure
  | fuel + 1 => do
      gap
      if ← take? "]" then return []
      let first ← value
      gap
      if ← take? "," then
        let rest ← items value fuel
        return first :: rest
      else
        expect "]"
        return [first]

def pair (value : Reader Value) : Reader (Path × Value) := do
  let key ← path depthLimit
  expect "="
  spaces
  let v ← value
  return (key, v)

def pairs (value : Reader Value) : Nat → Reader (List (Path × Value))
  | 0 => failure
  | fuel + 1 => do
      let first ← pair value
      spaces
      if ← take? "," then
        let rest ← pairs value fuel
        return first :: rest
      else
        expect "\x7d"
        return [first]

/-- Reads a value in which arrays and inline tables are nested at most `depth` deep. -/
def value : Nat → Reader Value
  | 0 => scalar
  | depth + 1 => do
      if ← take? "[" then
        let all ← items (value depth) ((← get).length + 1)
        return .array false all
      else if ← take? "\x7b" then
        spaces
        if ← take? "\x7d" then return .table .inline []
        let all ← pairs (value depth) ((← get).length + 1)
        let entries ← insertPairs .inline [] all
        return .table .inline entries
      else scalar

def body : Nat → Reader (List (Path × Value))
  | 0 => failure
  | fuel + 1 => do
      gap
      match (← get).head? with
      | none | some '[' => return []
      | _ =>
          let first ← pair (value depthLimit)
          lineEnd
          let rest ← body fuel
          return first :: rest

def heading : Reader Heading := do
  if ← take? "[[" then
    let key ← path depthLimit
    expect "]]"
    lineEnd
    return .element key
  else
    expect "["
    let key ← path depthLimit
    expect "]"
    lineEnd
    return .table key

def sections (first : Heading) : Nat → Reader (List Section)
  | 0 => failure
  | fuel + 1 => do
      let all ← body ((← get).length + 1)
      if ← atEnd then return [⟨first, all⟩]
      let next ← heading
      let rest ← sections next fuel
      return ⟨first, all⟩ :: rest

end Reader

/-- The root table of a document. A byte order mark at its head is passed over. -/
def parse (text : String) : Option Entries := do
  let s :=
    match text.toList with
    | '\uFEFF' :: rest => rest
    | s => s
  let (sections, _) ← (Reader.sections .root (s.length + 1)).run s
  rootOfSections sections

end Toml

end Stencil
