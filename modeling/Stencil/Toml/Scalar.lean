import Stencil.Text.Blank
import Stencil.Toml.Value

/-!
# TOML numbers, dates and truth values

These values are written without quotes, so each is one run of letters, digits and the
marks `+ - _ . :`; a date and a time may also be two runs with a space between. A run is
classified as a whole.
-/

namespace Stencil

namespace Toml

def isRunChar (c : Char) : Bool := c.isAlphanum || ['+', '-', '_', '.', ':'].contains c

def digitValue (c : Char) : Nat :=
  if c.isDigit then c.toNat - '0'.toNat
  else if c.isLower then c.toNat - 'a'.toNat + 10
  else c.toNat - 'A'.toNat + 10

def isDigitOf (base : Nat) (c : Char) : Bool :=
  (c.isDigit || ('a' ≤ c && c ≤ 'f') || ('A' ≤ c && c ≤ 'F')) && digitValue c < base

def numeral (base : Nat) (digits : List Char) : Nat :=
  digits.foldl (fun n c => base * n + digitValue c) 0

/-- Digits, with single underscores allowed between them; the underscores are dropped. -/
def digitGroups? (base : Nat) (s : List Char) : Option (List Char) :=
  let groups := Text.pieces (· == '_') s
  if groups.all fun g => !g.isEmpty && g.all (isDigitOf base) then some groups.flatten
  else none

/-- The digits of a decimal number, which starts with a zero only if it is zero. -/
def wholeDigits? : List Char → Option (List Char)
  | ['0'] => some ['0']
  | '0' :: _ => none
  | s => digitGroups? 10 s

def cutSign : List Char → Bool × List Char
  | '-' :: s => (true, s)
  | '+' :: s => (false, s)
  | s => (false, s)

def signed (negative : Bool) (n : Nat) : Int := if negative then -(n : Int) else n

/-- An integer, in base ten with a sign or in another base without. It fits 64 bits. -/
def integer? (s : List Char) : Option Int := do
  let n ←
    match s with
    | '0' :: 'x' :: digits => (digitGroups? 16 digits).map fun ds => (numeral 16 ds : Int)
    | '0' :: 'o' :: digits => (digitGroups? 8 digits).map fun ds => (numeral 8 ds : Int)
    | '0' :: 'b' :: digits => (digitGroups? 2 digits).map fun ds => (numeral 2 ds : Int)
    | s =>
        let (negative, digits) := cutSign s
        (wholeDigits? digits).map fun ds => signed negative (numeral 10 ds)
  if Int64.minValue.toInt ≤ n ∧ n ≤ Int64.maxValue.toInt then some n else none

/-- Whether `n` times ten to the power `e` is too large for a float of 64 bits, that is,
not below the middle between the largest one and the next power of two. -/
def overflows (n : Nat) (e : Int) : Bool :=
  let bound := Nat.pow 2 1024 - Nat.pow 2 970
  let digits : Int := (toString n).length
  if n = 0 || digits + e < 309 then false
  else if 309 < digits + e then true
  else if 0 ≤ e then bound ≤ n * Nat.pow 10 e.toNat
  else bound * Nat.pow 10 (-e).toNat ≤ n

def exponent? (s : List Char) : Option Int :=
  let (negative, digits) := cutSign s
  (digitGroups? 10 digits).map fun ds => signed negative (numeral 10 ds)

/-- Whether the text is a float: a decimal number with a fraction, an exponent or both,
or one of the special values. A positive number must be finite. -/
def isFloat (s : List Char) : Bool :=
  let (negative, body) := cutSign s
  if body = "inf".toList || body = "nan".toList then true
  else
    let parts : Option (List Char × Option (List Char)) :=
      match Text.pieces (fun c => c == 'e' || c == 'E') body with
      | [mantissa] => some (mantissa, none)
      | [mantissa, exponent] => some (mantissa, some exponent)
      | _ => none
    let checked : Option Bool := do
      let (mantissa, exponent) ← parts
      let e ← exponent.elim (some 0) exponent?
      match Text.pieces (· == '.') mantissa with
      | [whole] =>
          let whole ← wholeDigits? whole
          return exponent.isSome && (negative || !overflows (numeral 10 whole) e)
      | [whole, fraction] =>
          let whole ← wholeDigits? whole
          let fraction ← digitGroups? 10 fraction
          let n := numeral 10 (whole ++ fraction)
          return negative || !overflows n (e - fraction.length)
      | _ => none
    checked.getD false

def twoDigits? (a b : Char) : Option Nat :=
  if a.isDigit && b.isDigit then some (numeral 10 [a, b]) else none

def daysInMonth (year month : Nat) : Nat :=
  if month = 2 then
    if year % 4 = 0 && (year % 100 != 0 || year % 400 = 0) then 29 else 28
  else if [4, 6, 9, 11].contains month then 30
  else 31

def cutDate? : List Char → Option (List Char × List Char)
  | y₁ :: y₂ :: y₃ :: y₄ :: '-' :: m₁ :: m₂ :: '-' :: d₁ :: d₂ :: rest => do
      let century ← twoDigits? y₁ y₂
      let year ← twoDigits? y₃ y₄
      let month ← twoDigits? m₁ m₂
      let day ← twoDigits? d₁ d₂
      if 1 ≤ month && month ≤ 12 && 1 ≤ day && day ≤ daysInMonth (100 * century + year) month
      then some ([y₁, y₂, y₃, y₄, '-', m₁, m₂, '-', d₁, d₂], rest)
      else none
  | _ => none

/-- A fraction of a second in standard spelling: nine digits at most, and no zeros at
the end. -/
def fractionText (digits : List Char) : List Char :=
  let kept := ((digits.take 9).reverse.dropWhile (· == '0')).reverse
  if kept.isEmpty then [] else '.' :: kept

def cutTime? : List Char → Option (List Char × List Char)
  | h₁ :: h₂ :: ':' :: m₁ :: m₂ :: ':' :: s₁ :: s₂ :: rest => do
      let hour ← twoDigits? h₁ h₂
      let minute ← twoDigits? m₁ m₂
      let second ← twoDigits? s₁ s₂
      if 23 < hour || 59 < minute || 60 < second then none
      else
        let clock := [h₁, h₂, ':', m₁, m₂, ':', s₁, s₂]
        match rest with
        | '.' :: rest =>
            let digits := rest.takeWhile Char.isDigit
            if digits.isEmpty then none
            else some (clock ++ fractionText digits, rest.dropWhile Char.isDigit)
        | rest => some (clock, rest)
  | _ => none

/-- The offset of a time, in standard spelling; it is the whole text. No offset is fine. -/
def offset? : List Char → Option (List Char)
  | [] => some []
  | ['Z'] | ['z'] => some ['Z']
  | [sign, h₁, h₂, ':', m₁, m₂] => do
      let hour ← twoDigits? h₁ h₂
      let minute ← twoDigits? m₁ m₂
      if (sign = '+' || sign = '-') && hour ≤ 23 && minute ≤ 59 then
        let sign := if hour = 0 && minute = 0 then '+' else sign
        some [sign, h₁, h₂, ':', m₁, m₂]
      else none
  | _ => none

def offsetTime? (s : List Char) : Option (List Char) := do
  let (time, rest) ← cutTime? s
  let offset ← offset? rest
  return time ++ offset

/-- A date, a time, or a date and a time with an optional offset, in standard spelling. -/
def datetime? (s : List Char) : Option (List Char) :=
  match cutDate? s with
  | some (date, []) => some date
  | some (date, delimiter :: rest) =>
      if ['T', 't', ' '].contains delimiter then
        (offsetTime? rest).map fun time => date ++ 'T' :: time
      else none
  | none =>
      match cutTime? s with
      | some (time, []) => some time
      | _ => none

def scalar? (s : List Char) : Option Value :=
  if s = "true".toList then some (.boolean true)
  else if s = "false".toList then some (.boolean false)
  else
    match datetime? s with
    | some text => some (.datetime (String.ofList text))
    | none =>
        if isFloat s then some (.float (String.ofList s)) else (integer? s).map .integer

end Toml

end Stencil
