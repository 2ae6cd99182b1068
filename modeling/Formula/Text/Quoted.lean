import Formula.Text.Unprintable

namespace Formula.Text

/-- The last `size` hexadecimal digits of a code point. -/
def hexDigits (size code : Nat) : List Char :=
  let digits := Nat.toDigits 16 code
  List.replicate (size - digits.length) '0' ++ digits

/-- A code point as an escape of the least of three widths that holds it. -/
def codeEscape (code : Nat) : List Char :=
  if code < 0x100 then '\\' :: 'x' :: hexDigits 2 code
  else if code < 0x10000 then '\\' :: 'u' :: hexDigits 4 code
  else '\\' :: 'U' :: hexDigits 8 code

def escape (quote c : Char) : List Char :=
  if c = quote ∨ c = '\\' then ['\\', c]
  else if c = '\n' then ['\\', 'n']
  else if c = '\r' then ['\\', 'r']
  else if c = '\t' then ['\\', 't']
  else if isUnprintable c then codeEscape c.toNat
  else [c]

def singleQuote : Char := '\x27'

def doubleQuote : Char := '\x22'

/-- Single quotes stand around a text unless it holds a single quote and no double one. -/
def quoteFor (s : List Char) : Char :=
  if s.contains singleQuote && !s.contains doubleQuote then doubleQuote else singleQuote

def quotedChars (s : List Char) : List Char :=
  let quote := quoteFor s
  quote :: (s.flatMap (escape quote) ++ [quote])

def quoted (s : String) : String :=
  String.ofList (quotedChars s.toList)

end Formula.Text
