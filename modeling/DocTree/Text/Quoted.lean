import DocTree.Text.Printable

/-!
Quoted text. Single quotes stand around a text unless it holds one and no double quote. The quote in
use and the backslash are escaped, three control characters have letters, and any other character
that cannot be shown is written by its code in two, four or eight hexadecimal digits.
-/
namespace DocTree.Text

def singleQuote : Char := '\x27'
def doubleQuote : Char := '\x22'
def backslash : Char := '\x5c'

def delimiter (cs : List Char) : Char :=
  if singleQuote ∈ cs ∧ doubleQuote ∉ cs then doubleQuote else singleQuote

/-- At least `width` hexadecimal digits. -/
def hex (width n : Nat) : List Char :=
  let digits := Nat.toDigits 16 n
  List.replicate (width - digits.length) '0' ++ digits

def escapeCode (n : Nat) : List Char :=
  if n < 0x100 then backslash :: 'x' :: hex 2 n
  else if n < 0x10000 then backslash :: 'u' :: hex 4 n
  else backslash :: 'U' :: hex 8 n

def escapeChar (shown : Char → Bool) (quote c : Char) : List Char :=
  if c = quote ∨ c = backslash then [backslash, c]
  else if c = '\n' then [backslash, 'n']
  else if c = '\r' then [backslash, 'r']
  else if c = '\t' then [backslash, 't']
  else if shown c then [c]
  else escapeCode c.toNat

def quoteChars (shown : Char → Bool) (cs : List Char) : List Char :=
  let quote := delimiter cs
  quote :: (cs.flatMap (escapeChar shown quote) ++ [quote])

def quote (s : String) : String := String.ofList (quoteChars isPrintable s.toList)

/-- A sequence of bytes in quotes, marked by a b. Only ASCII characters are shown. -/
def quoteBytes (bytes : List UInt8) : String :=
  let shown (c : Char) : Bool := 0x20 ≤ c.toNat && c.toNat < 0x7f
  String.ofList ('b' :: quoteChars shown (bytes.map fun b => Char.ofNat b.toNat))

end DocTree.Text
