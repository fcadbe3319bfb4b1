import SharedLink.Text.Printable

/-!
# SharedLink.Text.Quoted

A text in quotes, with everything that does not print escaped.

Single quotes are used unless the text holds one and no double quote.  The
backslash, the quote in use, line feed, carriage return and tab have escapes of
their own; other characters that do not print are given by their code point in
two, four or eight hexadecimal digits.
-/

namespace SharedLink

namespace Text

/-- `n` in at least `width` hexadecimal digits. -/
def hex (width n : Nat) : List Char :=
  let digits := Nat.toDigits 16 n
  List.replicate (width - digits.length) '0' ++ digits

/-- One character of a text between the quotes `quote`. -/
def escape (quote c : Char) : List Char :=
  if c = '\\' ∨ c = quote then ['\\', c]
  else if c = '\n' then ['\\', 'n']
  else if c = '\r' then ['\\', 'r']
  else if c = '\t' then ['\\', 't']
  else if isPrintable c then [c]
  else if c.toNat < 0x100 then '\\' :: 'x' :: hex 2 c.toNat
  else if c.toNat < 0x10000 then '\\' :: 'u' :: hex 4 c.toNat
  else '\\' :: 'U' :: hex 8 c.toNat

/-- The quote that a text is put in. -/
def quoteFor (s : List Char) : Char :=
  if s.contains '\'' && !s.contains '"' then '"' else '\''

/-- A text in quotes. -/
def quoted (s : String) : String :=
  let quote := quoteFor s.toList
  String.ofList (quote :: s.toList.flatMap (escape quote) ++ [quote])

/-- A list of written items in brackets. -/
def bracketed (items : List String) : String := "[" ++ ", ".intercalate items ++ "]"

/-- A list of quoted texts in brackets. -/
def quotedList (names : List String) : String := bracketed (names.map quoted)

end Text

end SharedLink
