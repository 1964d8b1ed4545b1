import BitcoinBlock.Text

/-! JSON values. Objects keep the order of their fields and every repetition. -/
namespace BitcoinBlock

inductive Json where
  | null
  | bool (b : Bool)
  /-- A number, by its digits. -/
  | number (text : String)
  | string (s : String)
  | array (items : List Json)
  | object (fields : List (String × Json))

namespace Json

def ofNat (n : Nat) : Json := number (toString n)

def ofOption {α : Type} (f : α → Json) (a : Option α) : Json := a.elim null f

def strings (l : List String) : Json := array (l.map string)

/-! ## JSON text

Each item and field stands on a line of its own, two spaces deeper than what holds it.
-/

def hexQuad (n : Nat) : String :=
  let digits := Nat.toDigits 16 n
  String.ofList (List.replicate (4 - digits.length) '0' ++ digits)

def escape (c : Char) : String :=
  if c = '"' then "\\\""
  else if c = '\\' then "\\\\"
  else if c = '\x08' then "\\b"
  else if c = '\x0c' then "\\f"
  else if c = '\n' then "\\n"
  else if c = '\r' then "\\r"
  else if c = '\t' then "\\t"
  else if c.toNat < 0x20 then "\\u" ++ hexQuad c.toNat
  else String.singleton c

def quote (s : String) : String := "\"" ++ String.join (s.toList.map escape) ++ "\""

def newline (depth : Nat) : String := "\n" ++ String.ofList (List.replicate (2 * depth) ' ')

mutual

def render (depth : Nat) : Json → String
  | null => "null"
  | bool true => "true"
  | bool false => "false"
  | number text => text
  | string s => quote s
  | array [] => "[]"
  | array (first :: rest) =>
      "[" ++ newline (depth + 1) ++ render (depth + 1) first ++
        renderItems (depth + 1) rest ++ newline depth ++ "]"
  | object [] => "\x7b\x7d"
  | object ((name, first) :: rest) =>
      "\x7b" ++ newline (depth + 1) ++ quote name ++ ": " ++ render (depth + 1) first ++
        renderFields (depth + 1) rest ++ newline depth ++ "\x7d"

def renderItems (depth : Nat) : List Json → String
  | [] => ""
  | item :: rest => "," ++ newline depth ++ render depth item ++ renderItems depth rest

def renderFields (depth : Nat) : List (String × Json) → String
  | [] => ""
  | (name, value) :: rest =>
      "," ++ newline depth ++ quote name ++ ": " ++ render depth value ++ renderFields depth rest

end

def pretty (v : Json) : String := render 0 v

/-! ## Reading JSON text

White space may stand between any two tokens, and nothing else may.
-/

def isSpace (c : Char) : Bool := c = ' ' || c = '\n' || c = '\t' || c = '\r'

def skip (text : List Char) : List Char := text.dropWhile isSpace

/-- What stands in a string: a character, or the code of a 16-bit unit. -/
inductive Piece where
  | char (c : Char)
  | unit (n : Nat)

def unit? (a b c d : Char) : Option Piece := do
  let digits ← [a, b, c, d].mapM Text.Hex.value?
  return .unit (digits.foldl (fun n digit => 16 * n + digit) 0)

/-- The character behind a backslash and a letter. -/
def escaped? (c : Char) : Option Char :=
  [('"', '"'), ('\\', '\\'), ('/', '/'), ('b', '\x08'), ('f', '\x0c'), ('n', '\n'), ('r', '\r'),
    ('t', '\t')].lookup c

/-- The pieces up to the closing quote, and the text behind it. -/
def pieces : List Char → Option (List Piece × List Char)
  | [] => none
  | '"' :: rest => some ([], rest)
  | '\\' :: 'u' :: a :: b :: c :: d :: rest => do
    let piece ← unit? a b c d
    let (others, rest) ← pieces rest
    return (piece :: others, rest)
  | '\\' :: c :: rest => do
    let piece ← escaped? c
    let (others, rest) ← pieces rest
    return (.char piece :: others, rest)
  | c :: rest =>
    if c.toNat < 0x20 then none
    else do
      let (others, rest) ← pieces rest
      return (.char c :: others, rest)

def isHighUnit (n : Nat) : Bool := 0xd800 ≤ n && n < 0xdc00

def isLowUnit (n : Nat) : Bool := 0xdc00 ≤ n && n < 0xe000

/-- Joins pairs of units. A unit that lacks its partner stands for no character. -/
def characters : List Piece → Option (List Char)
  | [] => some []
  | .char c :: rest => (c :: ·) <$> characters rest
  | .unit n :: .unit m :: rest =>
    if isHighUnit n then
      if isLowUnit m then
        (Char.ofNat (0x10000 + (n - 0xd800) * 0x400 + (m - 0xdc00)) :: ·) <$> characters rest
      else none
    else if isLowUnit n then none
    else (Char.ofNat n :: ·) <$> characters (.unit m :: rest)
  | .unit n :: rest =>
    if isHighUnit n || isLowUnit n then none else (Char.ofNat n :: ·) <$> characters rest

/-- A string whose opening quote is read already. -/
def stringBody (text : List Char) : Option (String × List Char) := do
  let (found, rest) ← pieces text
  let cs ← characters found
  return (String.ofList cs, rest)

def digits (text : List Char) : Option (List Char × List Char) :=
  let found := text.takeWhile Char.isDigit
  if found.isEmpty then none else some (found, text.drop found.length)

def wholePart : List Char → Option (List Char × List Char)
  | '0' :: rest => some (['0'], rest)
  | text => digits text

def fractionPart : List Char → Option (List Char × List Char)
  | '.' :: rest => (fun (found, rest) => ('.' :: found, rest)) <$> digits rest
  | text => some ([], text)

def exponentPart : List Char → Option (List Char × List Char)
  | c :: rest =>
    if c = 'e' || c = 'E' then
      match rest with
      | '+' :: rest => (fun (found, rest) => (c :: '+' :: found, rest)) <$> digits rest
      | '-' :: rest => (fun (found, rest) => (c :: '-' :: found, rest)) <$> digits rest
      | rest => (fun (found, rest) => (c :: found, rest)) <$> digits rest
    else some ([], c :: rest)
  | [] => some ([], [])

def numberValue (text : List Char) : Option (Json × List Char) := do
  let (sign, text) := match text with
    | '-' :: rest => (['-'], rest)
    | rest => ([], rest)
  let (whole, text) ← wholePart text
  let (fraction, text) ← fractionPart text
  let (exponent, text) ← exponentPart text
  return (.number (String.ofList (sign ++ whole ++ fraction ++ exponent)), text)

mutual

/-- Reads a value. Each call takes a character at least every second time, so a depth of twice the
length of the text is never used up. -/
def valueAt : Nat → List Char → Option (Json × List Char)
  | 0, _ => none
  | depth + 1, text =>
    match skip text with
    | 'n' :: 'u' :: 'l' :: 'l' :: rest => some (.null, rest)
    | 't' :: 'r' :: 'u' :: 'e' :: rest => some (.bool true, rest)
    | 'f' :: 'a' :: 'l' :: 's' :: 'e' :: rest => some (.bool false, rest)
    | '"' :: rest => do
      let (s, rest) ← stringBody rest
      return (.string s, rest)
    | '[' :: rest =>
      match skip rest with
      | ']' :: rest => some (.array [], rest)
      | rest => do
        let (items, rest) ← itemsAt depth rest
        return (.array items, rest)
    | '{' :: rest =>
      match skip rest with
      | '}' :: rest => some (.object [], rest)
      | rest => do
        let (fields, rest) ← fieldsAt depth rest
        return (.object fields, rest)
    | text => numberValue text

/-- One item or more, up to the closing bracket. -/
def itemsAt : Nat → List Char → Option (List Json × List Char)
  | 0, _ => none
  | depth + 1, text => do
    let (item, rest) ← valueAt depth text
    match skip rest with
    | ',' :: rest =>
      let (items, rest) ← itemsAt depth rest
      return (item :: items, rest)
    | ']' :: rest => return ([item], rest)
    | _ => none

def fieldsAt : Nat → List Char → Option (List (String × Json) × List Char)
  | 0, _ => none
  | depth + 1, text =>
    match skip text with
    | '"' :: rest => do
      let (name, rest) ← stringBody rest
      match skip rest with
      | ':' :: rest =>
        let (value, rest) ← valueAt depth rest
        match skip rest with
        | ',' :: rest =>
          let (fields, rest) ← fieldsAt depth rest
          return ((name, value) :: fields, rest)
        | '}' :: rest => return ([(name, value)], rest)
        | _ => none
      | _ => none
    | _ => none

end

def parse? (text : String) : Option Json := do
  let cs := text.toList
  let (value, rest) ← valueAt (2 * cs.length + 1) cs
  if (skip rest).isEmpty then return value else none

end Json

end BitcoinBlock
