import SharedLink.Binary64
import SharedLink.Text.Blank
import SharedLink.Text.DecimalDigit

/-!
# SharedLink.Text.Numeral

Numbers read from text, as settings are given.

Blanks may stand around a numeral and a sign before it.  Digits are those of any
script, and a single underscore may stand between two of them.  `readInt`
accepts such digits; `readDouble` also a point, an exponent, and the names of
the values that are no numbers, in any case.
-/

namespace SharedLink

namespace Text

/-- Whether a digit comes next. -/
def digitNext : List Char → Bool
  | [] => false
  | c :: _ => (digitValue? c).isSome

/-- The digits that a text starts with, and the rest.  An underscore is passed
over between two digits only; `inside` says that a digit has just been read. -/
def digitRun (inside : Bool) : List Char → List Nat × List Char
  | [] => ([], [])
  | c :: rest =>
    match digitValue? c with
    | some d => let (ds, left) := digitRun true rest; (d :: ds, left)
    | none => if inside && c == '_' && digitNext rest then digitRun false rest else ([], c :: rest)

/-- The number that decimal digits stand for. -/
def ofDigits (ds : List Nat) : Nat := ds.foldl (fun n d => 10 * n + d) 0

/-- A sign, and what follows it. -/
def sign : List Char → Bool × List Char
  | '-' :: rest => (true, rest)
  | '+' :: rest => (false, rest)
  | rest => (false, rest)

/-- Why a text is no integer. -/
inductive IntError where
  /-- it is not of the form of one -/
  | malformed
  /-- it has more digits than are accepted -/
  | tooLong (digits : Nat)
deriving DecidableEq, Repr

/-- The most digits of an integer. -/
def maxDigits : Nat := 4300

/-- An integer in decimal.  The number of digits counts before what follows them
does, a misplaced underscore before either. -/
def readInt (s : String) : Except IntError Int :=
  let (negative, body) := sign (trim s.toList)
  let (ds, left) := digitRun false body
  if ds.isEmpty || left.head? == some '_' then .error .malformed
  else if maxDigits < ds.length then .error (.tooLong ds.length)
  else if !left.isEmpty then .error .malformed
  else .ok (if negative then -(ofDigits ds : Int) else ofDigits ds)

/-- The double nearest to `n · 10 ^ exponent`, infinite beyond the largest one.
Exponents that can only give zero or infinity are told by the place of the
leading digit. -/
def ofScaled (negative : Bool) (n : Nat) (exponent : Int) : Float :=
  let place := exponent + (Nat.toDigits 10 n).length
  let rounded :=
    if n = 0 ∨ place < -400 then Binary64.ofRatio? negative 0 1
    else if 400 < place then none
    else
      let (num, den) := Fraction.scaled 10 n exponent
      Binary64.ofRatio? negative num den
  rounded.getD (Binary64.infinity negative)

/-- The exponent at the end of a decimal: none, or `e` with an optional sign and
digits. -/
def readExponent : List Char → Option Int
  | [] => some 0
  | c :: rest =>
    if c = 'e' ∨ c = 'E' then
      let (negative, body) := sign rest
      match digitRun false body with
      | ([], _) => none
      | (ds, []) => some (if negative then -(ofDigits ds : Int) else ofDigits ds)
      | _ => none
    else none

/-- A decimal with an optional point and exponent; at least one digit stands
before or after the point. -/
def readDecimal (negative : Bool) (s : List Char) : Option Float :=
  let (whole, rest) := digitRun false s
  let (fraction, rest) :=
    match rest with
    | '.' :: rest => digitRun false rest
    | rest => ([], rest)
  if whole.isEmpty && fraction.isEmpty then none
  else (readExponent rest).map fun exponent =>
    ofScaled negative (ofDigits (whole ++ fraction)) (exponent - fraction.length)

/-- A double in decimal, rounded once, or the name of an infinity or of NaN. -/
def readDouble? (s : String) : Option Float :=
  let (negative, body) := sign (trim s.toList)
  let name := String.ofList (body.map Char.toLower)
  if name = "inf" ∨ name = "infinity" then some (Binary64.infinity negative)
  else if name = "nan" then some Binary64.nan
  else readDecimal negative body

end Text

end SharedLink
