import BitcoinBlock.Hash

/-! What reading and mining report on the way, and results that carry it. -/
namespace BitcoinBlock

inductive Level where
  | debug
  | warn
deriving DecidableEq, Repr

def Level.name : Level → String
  | debug => "DEBUG"
  | warn => "WARN"

inductive Event where
  | hashMismatch (expected actual : Hash)
  | headerOnly (block : Hash)
  | parsing (block : Hash) (count : Nat)
  | countMismatch (found stated : Nat)
  | heightMismatch (block : Hash) (stated encoded : UInt32)
  | parsed (block : Hash) (count left : Nat)
  | mined (height nonce : UInt32)
deriving DecidableEq

namespace Event

def level : Event → Level
  | hashMismatch .. | countMismatch .. | heightMismatch .. => .warn
  | headerOnly .. | parsing .. | parsed .. | mined .. => .debug

def text : Event → String
  | hashMismatch expected actual =>
      "Provided block hash " ++ expected.display ++
        " does not correspond to calculated block hash " ++ actual.display
  | headerOnly block => "Parsed header-only block " ++ block.display
  | parsing block count =>
      "Parsing block " ++ block.display ++ " with " ++ toString count ++ " transactions"
  | countMismatch found stated =>
      "Number of found transactions " ++ toString found ++
        " is not equal to expected number " ++ toString stated
  | heightMismatch block stated encoded =>
      "Block " ++ block.display ++ " specifies height " ++ toString stated.toNat ++
        " but its coinbase encodes " ++ toString encoded.toNat
  | parsed block count left =>
      "Parsed " ++ toString count ++ " transactions of block " ++ block.display ++ ", " ++
        toString left ++ " bytes left"
  | mined height nonce =>
      "Mined block at height " ++ toString height.toNat ++ " with nonce " ++ toString nonce.toNat

end Event

/-! ## Results with the events on the way to them

The results alone compose as if there were no events.
-/

/-- An error does not lose the events before it. -/
structure Logged (α : Type) where
  result : Except Error α
  events : List Event

namespace Logged

variable {α β : Type}

def ofExcept (r : Except Error α) : Logged α := ⟨r, []⟩

def fail (e : Error) : Logged α := ⟨.error e, []⟩

def log (e : Event) : Logged Unit := ⟨.ok (), [e]⟩

def bind (x : Logged α) (f : α → Logged β) : Logged β :=
  match x.result with
  | .ok a => ⟨(f a).result, x.events ++ (f a).events⟩
  | .error e => ⟨.error e, x.events⟩

instance : Monad Logged where
  pure a := ⟨.ok a, []⟩
  bind := bind

@[simp] theorem result_pure (a : α) : (pure a : Logged α).result = .ok a := rfl

@[simp] theorem result_ofExcept (r : Except Error α) : (ofExcept r).result = r := rfl

@[simp] theorem result_fail (e : Error) : (fail e : Logged α).result = .error e := rfl

@[simp] theorem result_log (e : Event) : (log e).result = .ok () := rfl

@[simp] theorem result_bind (x : Logged α) (f : α → Logged β) :
    (x >>= f).result = x.result >>= fun a => (f a).result := by
  rcases x with ⟨_ | _, _⟩ <;> rfl

end Logged

end BitcoinBlock
