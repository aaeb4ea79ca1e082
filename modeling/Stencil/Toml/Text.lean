import Stencil.Toml.Scalar

/-!
# TOML strings

A string is basic, with escapes, or literal, without; each comes in a form on one line
and a form over several. The functions here read the body of a string behind its opening
quotes and return it together with what follows the closing ones.
-/

namespace Stencil

namespace Toml

/-- The characters allowed in text: tabs, and all that are no control characters. -/
def isTextChar (c : Char) : Bool := c == '\t' || (0x20 ≤ c.toNat && c.toNat != 0x7F)

def isSpace (c : Char) : Bool := c == ' ' || c == '\t'

/-- The character whose number is spelled by the first `n` characters, in base
sixteen. -/
def codePoint? (n : Nat) (s : List Char) : Option (Char × List Char) :=
  let digits := s.take n
  let code := numeral 16 digits
  if digits.length = n && digits.all (isDigitOf 16) &&
      (code < 0xD800 || (0xDFFF < code && code < 0x110000)) then
    some (Char.ofNat code, s.drop n)
  else none

def escape? : List Char → Option (Char × List Char)
  | 'b' :: rest => some ('\x08', rest)
  | 't' :: rest => some ('\t', rest)
  | 'n' :: rest => some ('\n', rest)
  | 'f' :: rest => some ('\x0c', rest)
  | 'r' :: rest => some ('\r', rest)
  | '"' :: rest => some ('"', rest)
  | '\\' :: rest => some ('\\', rest)
  | 'u' :: rest => codePoint? 4 rest
  | 'U' :: rest => codePoint? 8 rest
  | _ => none

theorem length_le_of_codePoint? {n : Nat} {s rest : List Char} {c : Char}
    (h : codePoint? n s = some (c, rest)) : rest.length ≤ s.length := by
  simp only [codePoint?] at h
  split at h
  · cases h
    simp
  · simp at h

theorem length_le_of_escape? {s rest : List Char} {c : Char}
    (h : escape? s = some (c, rest)) : rest.length ≤ s.length := by
  unfold escape? at h
  split at h
  case h_8 | h_9 => exact Nat.le_succ_of_le (length_le_of_codePoint? h)
  case h_10 => simp at h
  all_goals cases h; simp

def consBody (c : Char) (read : Option (List Char × List Char)) :
    Option (List Char × List Char) :=
  read.map fun (body, rest) => (c :: body, rest)

def basicBody : List Char → Option (List Char × List Char)
  | [] => none
  | '"' :: rest => some ([], rest)
  | '\\' :: rest =>
      match _ : escape? rest with
      | some (c, rest) => consBody c (basicBody rest)
      | none => none
  | c :: rest => if isTextChar c then consBody c (basicBody rest) else none
  termination_by s => s.length
  decreasing_by
    · have := length_le_of_escape? ‹_›
      simp only [List.length_cons]
      omega
    · simp only [List.length_cons]
      omega

def literalBody : List Char → Option (List Char × List Char)
  | [] => none
  | '\'' :: rest => some ([], rest)
  | c :: rest => if isTextChar c then consBody c (literalBody rest) else none

/-- Whether only blanks stand before the next line break. -/
def breaksLine (s : List Char) : Bool :=
  match s.dropWhile isSpace with
  | '\n' :: _ => true
  | '\r' :: '\n' :: _ => true
  | _ => false

/-- The body of a basic string over several lines. A backslash at the end of a line
drops the line break and all blanks and line breaks behind it, which is what `skipping`
says. Up to two quotes may stand before the closing ones. -/
def longBasicBody (skipping : Bool) : List Char → Option (List Char × List Char)
  | [] => none
  | '"' :: '"' :: '"' :: '"' :: '"' :: rest => some (['"', '"'], rest)
  | '"' :: '"' :: '"' :: '"' :: rest => some (['"'], rest)
  | '"' :: '"' :: '"' :: rest => some ([], rest)
  | '\\' :: rest =>
      if breaksLine rest then longBasicBody true rest
      else
        match _ : escape? rest with
        | some (c, rest) => consBody c (longBasicBody false rest)
        | none => none
  | '\r' :: '\n' :: rest =>
      if skipping then longBasicBody true rest else consBody '\n' (longBasicBody false rest)
  | c :: rest =>
      if skipping && (isSpace c || c == '\n') then longBasicBody true rest
      else if isTextChar c || c == '\n' then consBody c (longBasicBody false rest)
      else none
  termination_by s => s.length
  decreasing_by
    · simp only [List.length_cons]
      omega
    · have := length_le_of_escape? ‹_›
      simp only [List.length_cons]
      omega
    all_goals
      simp only [List.length_cons]
      omega

def longLiteralBody : List Char → Option (List Char × List Char)
  | [] => none
  | '\'' :: '\'' :: '\'' :: '\'' :: '\'' :: rest => some (['\'', '\''], rest)
  | '\'' :: '\'' :: '\'' :: '\'' :: rest => some (['\''], rest)
  | '\'' :: '\'' :: '\'' :: rest => some ([], rest)
  | '\r' :: '\n' :: rest => consBody '\n' (longLiteralBody rest)
  | c :: rest => if isTextChar c || c == '\n' then consBody c (longLiteralBody rest) else none

/-- The text without a line break at its head, which a string over several lines does
not count. -/
def dropBreak : List Char → List Char
  | '\n' :: rest => rest
  | '\r' :: '\n' :: rest => rest
  | s => s

def string? : List Char → Option (List Char × List Char)
  | '"' :: '"' :: '"' :: rest => longBasicBody false (dropBreak rest)
  | '"' :: rest => basicBody rest
  | '\'' :: '\'' :: '\'' :: rest => longLiteralBody (dropBreak rest)
  | '\'' :: rest => literalBody rest
  | _ => none

end Toml

end Stencil
