import BitcoinBlock.Wire.Codec
import Mathlib.Tactic.Ring

/-! # Running decoders, and words as bytes

What a decoder does to its input, one construct at a time, faults included.
-/
namespace BitcoinBlock

section Except

variable {ε α β : Type}

theorem ok_bind (a : α) (f : α → Except ε β) : (Except.ok a >>= f) = f a := rfl

theorem error_bind (e : ε) (f : α → Except ε β) : (Except.error e >>= f) = .error e := rfl

theorem bind_eq_ok_iff {x : Except ε α} {f : α → Except ε β} {b : β} :
    (x >>= f) = .ok b ↔ ∃ a, x = .ok a ∧ f a = .ok b := by
  cases x with
  | error e => simp [error_bind]
  | ok a => simp [ok_bind]

theorem bind_eq_error_iff {x : Except ε α} {f : α → Except ε β} {e : ε} :
    (x >>= f) = .error e ↔ x = .error e ∨ ∃ a, x = .ok a ∧ f a = .error e := by
  cases x with
  | error e => simp [error_bind]
  | ok a => simp [ok_bind]

theorem map_eq_ok_iff {x : Except ε α} {f : α → β} {b : β} :
    x.map f = .ok b ↔ ∃ a, x = .ok a ∧ f a = b := by
  cases x with
  | error e => simp [Except.map]
  | ok a => simp [Except.map]

theorem map_eq_error_iff {x : Except ε α} {f : α → β} {e : ε} :
    x.map f = .error e ↔ x = .error e := by
  cases x with
  | error e => simp [Except.map]
  | ok a => simp [Except.map]

theorem mapError_eq_ok_iff {x : Except ε α} {f : ε → β} {a : α} :
    x.mapError f = .ok a ↔ x = .ok a := by
  cases x with
  | error e => constructor <;> intro h <;> cases h
  | ok b => constructor <;> intro h <;> cases h <;> rfl

end Except

namespace Wire.Decoder

variable {α β : Type}

theorem pure_apply (a : α) (input : List UInt8) : (pure a : Decoder α) input = .ok (a, input) := rfl

theorem bind_apply (d : Decoder α) (f : α → Decoder β) (input : List UInt8) :
    (d >>= f) input = d input >>= fun p => f p.1 p.2 := rfl

theorem get_apply (input : List UInt8) :
    (get : Decoder (List UInt8)) input = .ok (input, input) := rfl

theorem ite_apply {c : Prop} [Decidable c] (d e : Decoder α) (input : List UInt8) :
    (if c then d else e) input = if c then d input else e input := by
  split <;> rfl

theorem ite_eq_ok_iff {c : Prop} [Decidable c] {d e : Decoder α} {a : α}
    {input rest : List UInt8} :
    (if c then d else e) input = .ok (a, rest) ↔
      (c ∧ d input = .ok (a, rest)) ∨ (¬c ∧ e input = .ok (a, rest)) := by
  by_cases h : c <;> simp [h]

end Wire.Decoder

namespace Wire.Codec

variable {α : Type} {c : Codec α} {raw : List UInt8} {position n : Nat} {a : α} {e : Error}

theorem decodeAt_eq_ok_iff :
    c.decodeAt raw position = .ok (a, n) ↔
      ∃ rest, c.decode (raw.drop position) = .ok (a, rest) ∧
        (raw.drop position).length - rest.length = n := by
  simp only [decodeAt, bind_eq_ok_iff, Prod.exists, pure, Except.pure, Except.ok.injEq,
    Prod.mk.injEq]
  constructor
  · rintro ⟨_, rest, hread, rfl, hn⟩
    exact ⟨rest, hread, hn⟩
  · rintro ⟨rest, hread, hn⟩
    exact ⟨a, rest, hread, rfl, hn⟩

theorem decodeAt_of_error (h : c.decode (raw.drop position) = .error e) :
    c.decodeAt raw position = .error e := by
  rw [decodeAt, h]
  rfl

end Wire.Codec

/-! ## Words as bytes

A byte string of a fixed width and the number it denotes determine each other. Read from its most
significant end, the byte string is also ordered like the number.
-/

theorem ofLittleEndian_lt (l : List UInt8) : ofLittleEndian l < 256 ^ l.length := by
  induction l with
  | nil => simp [ofLittleEndian]
  | cons b rest ih =>
    have hb : b.toNat < 256 := b.toNat_lt
    simp only [ofLittleEndian, List.length_cons, pow_succ]
    omega

theorem ofLittleEndian_littleEndian (width n : Nat) :
    ofLittleEndian (littleEndian width n) = n % 256 ^ width := by
  induction width generalizing n with
  | zero => simp [littleEndian, ofLittleEndian, Nat.mod_one]
  | succ width ih =>
    have hb : (UInt8.ofNat n).toNat = n % 256 := UInt8.toNat_ofNat'
    rw [littleEndian, ofLittleEndian, ih, hb, pow_succ', Nat.mod_mul]

theorem littleEndian_ofLittleEndian (l : List UInt8) :
    littleEndian l.length (ofLittleEndian l) = l := by
  induction l with
  | nil => rfl
  | cons b rest ih =>
    have hb : b.toNat < 256 := b.toNat_lt
    have hlow : (b.toNat + 256 * ofLittleEndian rest) % 256 = b.toNat := by omega
    have hhigh : (b.toNat + 256 * ofLittleEndian rest) / 256 = ofLittleEndian rest := by omega
    rw [List.length_cons, ofLittleEndian, littleEndian, hhigh, ih]
    congr 1
    apply UInt8.toNat_inj.mp
    rw [UInt8.toNat_ofNat', hlow]

theorem ofLittleEndian_append (l m : List UInt8) :
    ofLittleEndian (l ++ m) = ofLittleEndian l + 256 ^ l.length * ofLittleEndian m := by
  induction l with
  | nil => simp [ofLittleEndian]
  | cons b rest ih =>
    rw [List.cons_append, ofLittleEndian, ofLittleEndian, ih, List.length_cons, pow_succ]
    ring

theorem ofLittleEndian_concat (l : List UInt8) (b : UInt8) :
    ofLittleEndian (l ++ [b]) = ofLittleEndian l + 256 ^ l.length * b.toNat := by
  rw [ofLittleEndian_append]
  simp [ofLittleEndian]

theorem ofLittleEndian_reverse_cons (b : UInt8) (l : List UInt8) :
    ofLittleEndian (b :: l).reverse =
      ofLittleEndian l.reverse + 256 ^ l.length * b.toNat := by
  rw [List.reverse_cons, ofLittleEndian_concat, List.length_reverse]

/-- The greater multiple decides, whatever smaller numbers are added. -/
theorem add_mul_lt_add_mul_iff {p x y a b : Nat} (hx : x < p) (hy : y < p) :
    x + p * a < y + p * b ↔ a < b ∨ a = b ∧ x < y := by
  rcases lt_trichotomy a b with hlt | rfl | hgt
  · have hmul : p * (a + 1) ≤ p * b := Nat.mul_le_mul_left p hlt
    rw [Nat.mul_succ] at hmul
    omega
  · omega
  · have hmul : p * (b + 1) ≤ p * a := Nat.mul_le_mul_left p hgt
    rw [Nat.mul_succ] at hmul
    omega

/-- Among byte strings of one width, the most significant byte in which two differ says which of
their numbers is less. -/
theorem lt_iff_ofLittleEndian_reverse_lt {l m : List UInt8} (hlen : l.length = m.length) :
    l < m ↔ ofLittleEndian l.reverse < ofLittleEndian m.reverse := by
  induction l generalizing m with
  | nil =>
    cases m with
    | nil => simp
    | cons b m => simp at hlen
  | cons a l ih =>
    cases m with
    | nil => simp at hlen
    | cons b m =>
      have hlen : l.length = m.length := Nat.succ.inj hlen
      have hl : ofLittleEndian l.reverse < 256 ^ m.length := by
        have hlt := ofLittleEndian_lt l.reverse
        rwa [List.length_reverse, hlen] at hlt
      have hm : ofLittleEndian m.reverse < 256 ^ m.length := by
        have hlt := ofLittleEndian_lt m.reverse
        rwa [List.length_reverse] at hlt
      rw [ofLittleEndian_reverse_cons, ofLittleEndian_reverse_cons, hlen,
        add_mul_lt_add_mul_iff hl hm, List.cons_lt_cons_iff, ih hlen, UInt8.lt_iff_toNat_lt,
        UInt8.toNat_inj]

theorem eq_littleEndian_iff {width n : Nat} (hn : n < 256 ^ width) (l : List UInt8) :
    l = littleEndian width n ↔ l.length = width ∧ ofLittleEndian l = n := by
  constructor
  · rintro rfl
    rw [length_littleEndian, ofLittleEndian_littleEndian, Nat.mod_eq_of_lt hn]
    exact ⟨rfl, rfl⟩
  · rintro ⟨rfl, rfl⟩
    exact (littleEndian_ofLittleEndian l).symm

end BitcoinBlock
