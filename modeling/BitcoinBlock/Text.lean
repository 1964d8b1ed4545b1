/-!
Bytes as hexadecimal text, numbers, characters in messages, and white space. A byte has two digits,
the high half first. Writing uses lower-case digits; reading takes either case and nothing else.
-/
namespace BitcoinBlock.Text

namespace Hex

def digits (b : UInt8) : List Char :=
  [Nat.digitChar (b.toNat / 16), Nat.digitChar (b.toNat % 16)]

def encode (bytes : List UInt8) : String := String.ofList (bytes.flatMap digits)

def value? (c : Char) : Option Nat :=
  if '0' ≤ c ∧ c ≤ '9' then some (c.toNat - '0'.toNat)
  else if 'a' ≤ c ∧ c ≤ 'f' then some (c.toNat - 'a'.toNat + 10)
  else if 'A' ≤ c ∧ c ≤ 'F' then some (c.toNat - 'A'.toNat + 10)
  else none

/-- Why a text is not hexadecimal. Bytes and positions are those of its UTF-8 form. -/
inductive Fault where
  | oddLength
  | badByte (byte : UInt8) (position : Nat)
deriving DecidableEq, Repr

def firstByte (c : Char) : UInt8 := (String.utf8EncodeChar c).headD 0

def digitAt (position : Nat) (c : Char) : Except Fault Nat :=
  match value? c with
  | some n => .ok n
  | none => .error (.badByte (firstByte c) position)

/-- Reads the digits that start at `position`; `done` holds the bytes before them, the last one
first. All characters before a bad one are digits, so characters count bytes here. -/
def decodeFrom (position : Nat) (done : List UInt8) : List Char → Except Fault (List UInt8)
  | [] => .ok done.reverse
  | [c] => do
    let _ ← digitAt position c
    .error .oddLength
  | high :: low :: rest => do
    let h ← digitAt position high
    let l ← digitAt (position + 1) low
    decodeFrom (position + 2) (UInt8.ofNat (16 * h + l) :: done) rest

def byteCount (text : List Char) : Nat := text.foldl (fun n c => n + c.utf8Size) 0

def decode (text : List Char) : Except Fault (List UInt8) :=
  if byteCount text % 2 = 1 then .error .oddLength else decodeFrom 0 [] text

/-- Drops every leading `0x`. -/
def dropMarkers : List Char → List Char
  | '0' :: 'x' :: rest => dropMarkers rest
  | text => text

/-- Drops one leading `0x`, if there is one. -/
def dropMarker : List Char → List Char
  | '0' :: 'x' :: rest => rest
  | text => text

end Hex

/-! ## Numbers

Unsigned numbers in decimal, or in hexadecimal behind `0x` or `0X`. A plus sign may stand in
front of the digits.
-/

namespace Numeral

inductive Fault where
  | empty
  | invalidDigit
  | tooLarge
deriving DecidableEq, Repr

def Fault.text : Fault → String
  | empty => "cannot parse integer from empty string"
  | invalidDigit => "invalid digit found in string"
  | tooLarge => "number too large to fit in target type"

def digit? (radix : Nat) (c : Char) : Option Nat := (Hex.value? c).filter (· < radix)

/-- Takes in digits from the left. Of two faults the one that is met first counts. -/
def extend (radix bound : Nat) : Nat → List Char → Except Fault Nat
  | n, [] => .ok n
  | n, c :: rest =>
    match digit? radix c with
    | none => .error .invalidDigit
    | some d =>
      if n * radix + d < bound then extend radix bound (n * radix + d) rest
      else .error .tooLarge

/-- A number below `bound`, with an optional plus sign. -/
def unsigned (radix bound : Nat) : List Char → Except Fault Nat
  | [] => .error .empty
  | ['+'] => .error .invalidDigit
  | '+' :: digits => extend radix bound 0 digits
  | digits => extend radix bound 0 digits

def word (text : List Char) : Except Fault UInt32 :=
  UInt32.ofNat <$>
    match text with
    | '0' :: 'x' :: digits => unsigned 16 UInt32.size digits
    | '0' :: 'X' :: digits => unsigned 16 UInt32.size digits
    | digits => unsigned 10 UInt32.size digits

def complaint (text : String) (fault : Fault) : String :=
  "invalid number " ++ text ++ ": " ++ fault.text

end Numeral

/-! ## Single characters in messages

They stand between quotes, with escapes for those that would not show.
-/

/-- The first 256 characters without a visible form: controls, the no-break space and the soft
hyphen. -/
def isHidden (b : UInt8) : Bool := b < 0x20 || (0x7f ≤ b && b ≤ 0xa0) || b == 0xad

def glyph (b : UInt8) : String :=
  if b = 0x00 then "\\0"
  else if b = 0x09 then "\\t"
  else if b = 0x0a then "\\n"
  else if b = 0x0d then "\\r"
  else if b = 0x27 then "\\'"
  else if b = 0x5c then "\\\\"
  else if isHidden b then "\\u\x7b" ++ String.ofList (Nat.toDigits 16 b.toNat) ++ "\x7d"
  else String.singleton (Char.ofNat b.toNat)

def quoted (b : UInt8) : String := "'" ++ glyph b ++ "'"

def Hex.Fault.message : Hex.Fault → String
  | .oddLength => "Odd number of digits"
  | .badByte byte position =>
      "Invalid character " ++ quoted byte ++ " at position " ++ toString position

/-! ## White space

The 25 characters with the Unicode property of that name, and text without them at either end.
-/

/-- The first and last code point of each run of white space. -/
def blankRanges : List (Nat × Nat) :=
  [(0x9, 0xd), (0x20, 0x20), (0x85, 0x85), (0xa0, 0xa0), (0x1680, 0x1680), (0x2000, 0x200a),
   (0x2028, 0x2029), (0x202f, 0x202f), (0x205f, 0x205f), (0x3000, 0x3000)]

def isBlank (c : Char) : Bool :=
  blankRanges.any fun (first, last) => first ≤ c.toNat && c.toNat ≤ last

def trimLeft (text : List Char) : List Char := text.dropWhile isBlank

def trimRight (text : List Char) : List Char := (trimLeft text.reverse).reverse

def trim (text : List Char) : List Char := trimRight (trimLeft text)

end BitcoinBlock.Text
