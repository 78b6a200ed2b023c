import PhpTypes.Toml.Scanner

/-!
# Numbers in TOML

No setting is a number, so numbers are not evaluated; but a text with a malformed number is not a
document. An integer is written in decimal digits, or in digits of another radix behind `0x`, `0o`
or `0b`; a floating-point number has a fraction, an exponent or both. Underscores may separate
digits.
-/

namespace PhpTypes.Toml

/-- The text behind a sign, if there is one. -/
def dropSign : List Char → List Char
  | '+' :: rest => rest
  | '-' :: rest => rest
  | text => text

/-- Whether a character is a digit in radix 16. -/
def isHexDigit (c : Char) : Bool :=
  (hexDigit? c).isSome

/-- Whether a character is a digit in radix 8. -/
def isOctalDigit (c : Char) : Bool :=
  '0' ≤ c && c ≤ '7'

/-- Whether a character is a digit in radix 2. -/
def isBinaryDigit (c : Char) : Bool :=
  c == '0' || c == '1'

/-- Whether every underscore has digits on its two sides. A single character in front of the first
one may be anything, for instance a sign. -/
def separatesDigits (isDigit : Char → Bool) (word : List Char) : Bool :=
  let pieces := word.splitOn '_'
  let endsWell (piece : List Char) : Bool := piece.length == 1 || piece.getLast?.any isDigit
  pieces.length == 1 ||
    (pieces.tail.all fun piece => piece.head?.any isDigit) && pieces.dropLast.all endsWell

/-- What follows the longest run of digits and underscores at the start of a word. The run has to
hold a digit, and more than one only if it does not start with a zero or `zeros` allows that. -/
def dropDigits? (zeros : Bool) (word : List Char) : Option (List Char) :=
  let run := word.takeWhile fun c => c.isDigit || c == '_'
  let count := run.countP Char.isDigit
  if count == 0 || (1 < count && run.head? == some '0' && !zeros) then none
  else some (word.drop run.length)

/-- What follows a fraction with its dot, if there is one. -/
def dropFraction? : List Char → Option (List Char)
  | '.' :: rest => dropDigits? true rest
  | word => some word

/-- What follows an exponent with its letter, if there is one. -/
def dropExponent? : List Char → Option (List Char)
  | [] => some []
  | c :: rest => if c == 'e' || c == 'E' then dropDigits? true (dropSign rest) else some (c :: rest)

/-- Whether a word without its sign is a floating-point number, up to its underscores. -/
def isFloatShaped (word : List Char) : Bool :=
  ((dropDigits? false word).bind dropFraction?).bind dropExponent? == some []

/-- Whether a word without its sign is a decimal integer, up to its underscores. What follows the
first underscore is left to the check of underscores. -/
def isIntegerShaped (word : List Char) : Bool :=
  (word.dropWhile Char.isDigit).head?.all (· == '_') && (dropDigits? false word).isSome

/-- Whether a word is a decimal number. -/
def isDecimalNumber (word : List Char) : Bool :=
  let unsigned := dropSign word
  if unsigned.any fun c => c == '.' || c == 'e' || c == 'E' then
    isFloatShaped unsigned && separatesDigits Char.isDigit word
  else isIntegerShaped unsigned && separatesDigits isHexDigit word

/-- Whether a word consists of digits of a radix and underscores between them. -/
def isRadixNumber (isDigit : Char → Bool) (word : List Char) : Bool :=
  (word.all fun c => isDigit c || c == '_') && separatesDigits isDigit word

/-- Whether a word is a number. -/
def isNumber : List Char → Bool
  | '0' :: 'x' :: word => isRadixNumber isHexDigit word
  | '0' :: 'o' :: word => isRadixNumber isOctalDigit word
  | '0' :: 'b' :: word => isRadixNumber isBinaryDigit word
  | word => ["inf".toList, "nan".toList].contains (dropSign word) || isDecimalNumber word

end PhpTypes.Toml
