import BitcoinBlock.Wire.Kind

/-! A position in a byte string that moves forward as values are read. A step that fails leaves it
where it was. -/
namespace BitcoinBlock.Wire

structure Cursor where
  bytes : List UInt8
  position : Nat := 0

namespace Cursor

variable {α : Type}

def remaining (c : Cursor) : List UInt8 := c.bytes.drop c.position

def isEmpty (c : Cursor) : Bool := c.bytes.length ≤ c.position

def advance (c : Cursor) (n : Nat) : Cursor := { c with position := c.position + n }

def decode (codec : Codec α) (c : Cursor) : Except Error (α × Cursor) := do
  let (a, size) ← codec.decodeAt c.bytes c.position
  return (a, c.advance size)

def read (n : Nat) (c : Cursor) : Except Error (List UInt8 × Cursor) := do
  let (bytes, _) ← Decoder.take n c.remaining
  return (bytes, c.advance n)

inductive Step where
  | decode (kind : Kind)
  | read (n : Nat)

/-- What a step finds. -/
inductive Found where
  | value (kind : Kind) (v : kind.Value)
  | bytes (l : List UInt8)

/-- The bytes that a step used. -/
def Found.encode : Found → List UInt8
  | value kind v => kind.codec.encode v
  | bytes l => l

def step (c : Cursor) : Step → Except Error (Found × Cursor)
  | .decode kind => do
    let (v, next) ← c.decode kind.codec
    return (.value kind v, next)
  | .read n => do
    let (l, next) ← c.read n
    return (.bytes l, next)

/-- The cursor behind a step, successful or not. -/
def after (c : Cursor) (s : Step) : Cursor :=
  match c.step s with
  | .ok (_, next) => next
  | .error _ => c

/-- The results of a run of steps, each with the cursor behind it. -/
def run (c : Cursor) : List Step → List (Except Error Found × Cursor)
  | [] => []
  | s :: rest => ((c.step s).map Prod.fst, c.after s) :: (c.after s).run rest

end Cursor

end BitcoinBlock.Wire
