import BitcoinBlock.Proofs.Header
import BitcoinBlock.Proofs.Transaction.RoundTrip
import BitcoinBlock.Proofs.Wire.Exact
import BitcoinBlock.Wire.Kind

/-! # Compact sizes and the codec of every kind of value

A byte of its own or a word behind a marker can state a number, and a small number has forms of
several lengths. Reading accepts the shortest of them only.
-/
namespace BitcoinBlock.Wire

namespace CompactSize

variable {l other : List UInt8} {n : UInt64}

/-- The markers, each with the width of the word behind it. -/
def markers : List (UInt8 × Nat) := [(0xfd, 2), (0xfe, 4), (0xff, 8)]

theorem width_of_mem_markers {marker : UInt8} {width : Nat} (h : (marker, width) ∈ markers) :
    2 ≤ width ∧ width ≤ 8 := by
  simp only [markers, List.mem_cons, Prod.mk.injEq, List.not_mem_nil, or_false] at h
  omega

theorem marker_unique {marker marker' : UInt8} {width : Nat} (h : (marker, width) ∈ markers)
    (h' : (marker', width) ∈ markers) : marker = marker' := by
  simp only [markers, List.mem_cons, Prod.mk.injEq, List.not_mem_nil, or_false] at h h'
  rcases h with ⟨rfl, rfl⟩ | ⟨rfl, rfl⟩ | ⟨rfl, rfl⟩ <;> simp_all

/-- The bytes are a form of the number, not necessarily its shortest one. -/
inductive Denotes : List UInt8 → UInt64 → Prop where
  | byte (b : UInt8) (hb : b.toNat < 0xfd) : Denotes [b] b.toUInt64
  | word {marker : UInt8} {width : Nat} (hmarker : (marker, width) ∈ markers)
      (digits : List UInt8) (hlen : digits.length = width) :
      Denotes (marker :: digits) (UInt64.ofNat (ofLittleEndian digits))

/-- No form of the number is shorter. -/
def IsShortest (l : List UInt8) (n : UInt64) : Prop :=
  ∀ other, Denotes other n → l.length ≤ other.length

theorem denotes_iff :
    Denotes l n ↔ (n.toNat < 0xfd ∧ l = [UInt8.ofNat n.toNat]) ∨
      ∃ marker width, (marker, width) ∈ markers ∧ n.toNat < 256 ^ width ∧
        l = marker :: littleEndian width n.toNat := by
  constructor
  · intro h
    cases h with
    | byte b hb =>
      left
      rw [UInt8.toNat_toUInt64, UInt8.ofNat_toNat]
      exact ⟨hb, rfl⟩
    | @word marker width hmarker digits hlen =>
      right
      have hbound : ofLittleEndian digits < 256 ^ width := hlen ▸ ofLittleEndian_lt digits
      have hsize : ofLittleEndian digits < UInt64.size :=
        hbound.trans_le (Nat.pow_le_pow_right (by decide) (width_of_mem_markers hmarker).2)
      rw [UInt64.toNat_ofNat_of_lt' hsize]
      refine ⟨marker, width, hmarker, hbound, ?_⟩
      rw [← (eq_littleEndian_iff hbound digits).mpr ⟨hlen, rfl⟩]
  · rintro (⟨hlt, rfl⟩ | ⟨marker, width, hmarker, hlt, rfl⟩)
    · have hb : (UInt8.ofNat n.toNat).toNat = n.toNat :=
        UInt8.toNat_ofNat_of_lt' (hlt.trans (by decide))
      have hbyte := Denotes.byte (UInt8.ofNat n.toNat) (by rwa [hb])
      have hn : (UInt8.ofNat n.toNat).toUInt64 = n := by
        apply UInt64.toNat_inj.mp
        rw [UInt8.toNat_toUInt64, hb]
      rwa [hn] at hbyte
    · obtain ⟨hlen, hval⟩ := (eq_littleEndian_iff hlt _).mp rfl
      have hword := Denotes.word hmarker (littleEndian width n.toNat) hlen
      rwa [hval, UInt64.ofNat_toNat] at hword

theorem denotes_encode (n : UInt64) : Denotes (encode n) n := by
  rw [denotes_iff, encode_eq]
  split_ifs with h1 h2 h4
  · exact .inl ⟨h1, rfl⟩
  · exact .inr ⟨0xfd, 2, by decide, h2, rfl⟩
  · exact .inr ⟨0xfe, 4, by decide, h4, rfl⟩
  · exact .inr ⟨0xff, 8, by decide, n.toNat_lt, rfl⟩

theorem Denotes.length_encode_le (h : Denotes l n) : (encode n).length ≤ l.length := by
  rw [encode_eq]
  rcases denotes_iff.mp h with ⟨hlt, rfl⟩ | ⟨marker, width, hmarker, hlt, rfl⟩
  · rw [if_pos hlt]
  · simp only [markers, List.mem_cons, Prod.mk.injEq, List.not_mem_nil, or_false] at hmarker
    rcases hmarker with ⟨-, rfl⟩ | ⟨-, rfl⟩ | ⟨-, rfl⟩ <;>
      split_ifs <;>
      simp

theorem Denotes.eq_of_length_eq (h : Denotes l n) (hother : Denotes other n)
    (hlen : l.length = other.length) : l = other := by
  rcases denotes_iff.mp h with ⟨-, rfl⟩ | ⟨marker, width, hmarker, -, rfl⟩ <;>
    rcases denotes_iff.mp hother with ⟨-, rfl⟩ | ⟨marker', width', hmarker', -, rfl⟩
  · rfl
  · have hwidth' := width_of_mem_markers hmarker'
    simp only [List.length_cons, List.length_nil, length_littleEndian] at hlen
    omega
  · have hwidth := width_of_mem_markers hmarker
    simp only [List.length_cons, List.length_nil, length_littleEndian] at hlen
    omega
  · simp only [List.length_cons, length_littleEndian, Nat.add_right_cancel_iff] at hlen
    subst hlen
    rw [marker_unique hmarker hmarker']

theorem Denotes.isShortest_iff (h : Denotes l n) : IsShortest l n ↔ l = encode n := by
  constructor
  · intro hshortest
    apply h.eq_of_length_eq (denotes_encode n)
    exact le_antisymm (hshortest _ (denotes_encode n)) h.length_encode_le
  · rintro rfl other hother
    exact hother.length_encode_le

end CompactSize

/-! ## Exactness of every kind of value

Every kind of value has an exact codec, however deep its lists are nested. Of the kinds without
transactions all values are read back as they are written, except inputs with a witness.
-/

namespace Kind

open Transaction

variable {kind : Kind} {raw : List UInt8} {position n : Nat}

/-- The lengths of the value's lists and byte strings, each of which a compact size can state. -/
def Sized : (kind : Kind) → kind.Value → Prop
  | script, s => Fits s.bytes
  | input, i => Fits i.script.bytes
  | output, o => Fits o.script.bytes
  | transaction, t => t.Sized
  | list element, l => Fits l ∧ ∀ a ∈ l, element.Sized a
  | u8, _ | u16, _ | u32, _ | u64, _ | i32, _ | i64, _ => True
  | hash, _ | compactSize, _ | header, _ => True

/-- What the bytes of the value say is the value: the witness of an input on its own is left out,
and a transaction has to be a readable one. -/
def Readable : (kind : Kind) → kind.Value → Prop
  | input, i => i.witness = []
  | transaction, t => t.Readable
  | list element, l => ∀ a ∈ l, element.Readable a
  | u8, _ | u16, _ | u32, _ | u64, _ | i32, _ | i64, _ | hash, _ | compactSize, _ | script, _
  | header, _ | output, _ => True

theorem codec_exact (kind : Kind) : kind.codec.Exact fun v => kind.Sized v ∧ kind.Readable v := by
  induction kind with
  | u8 => exact Codec.u8_exact.congr fun _ => and_self_iff.symm
  | u16 => exact Codec.u16_exact.congr fun _ => and_self_iff.symm
  | u32 => exact Codec.u32_exact.congr fun _ => and_self_iff.symm
  | u64 => exact Codec.u64_exact.congr fun _ => and_self_iff.symm
  | i32 => exact Codec.i32_exact.congr fun _ => and_self_iff.symm
  | i64 => exact Codec.i64_exact.congr fun _ => and_self_iff.symm
  | hash => exact Codec.hash_exact.congr fun _ => and_self_iff.symm
  | compactSize => exact Codec.compactSize_exact.congr fun _ => and_self_iff.symm
  | header => exact Codec.header_exact.congr fun _ => and_self_iff.symm
  | script => exact Codec.script_exact.congr fun _ => (and_iff_left trivial).symm
  | output => exact Codec.output_exact.congr fun _ => (and_iff_left trivial).symm
  | input => exact Codec.input_exact
  | transaction => exact Codec.transaction_exact
  | list element ih =>
    apply ih.list.congr
    intro l
    simp only [Sized, Readable]
    rw [and_assoc, ← forall₂_and]

/-- Whatever a value contains is part of its bytes. -/
theorem sized_of_fits_encode (kind : Kind) {v : kind.Value} (h : Fits (kind.codec.encode v)) :
    kind.Sized v := by
  induction kind with
  | u8 | u16 | u32 | u64 | i32 | i64 | hash | compactSize | header => trivial
  | script => exact Codec.fits_of_fits_byteString h
  | input => exact Codec.fits_of_fits_byteString h.of_append.1.of_append.2
  | output => exact Codec.fits_of_fits_byteString h.of_append.2
  | transaction => exact Transaction.sized_of_fits_encode h
  | list element ih =>
    obtain ⟨hlist, helements⟩ := element.codec_exact.fits_of_fits_list h
    exact ⟨hlist, fun a ha => ih (helements a ha)⟩

theorem decodeAt_eq_ok_iff (hraw : Fits raw) {v : kind.Value} :
    kind.codec.decodeAt raw position = .ok (v, n) ↔
      n = (kind.codec.encode v).length ∧ (raw.drop position).take n = kind.codec.encode v ∧
        kind.Readable v := by
  rw [kind.codec_exact.decodeAt_eq_ok_iff]
  constructor
  · rintro ⟨⟨-, hreadable⟩, hn, htake⟩
    exact ⟨hn, htake, hreadable⟩
  · rintro ⟨hn, htake, hreadable⟩
    have hfits : Fits (kind.codec.encode v) := by
      rw [← htake]
      exact hraw.mono (by simp)
    exact ⟨⟨kind.sized_of_fits_encode hfits, hreadable⟩, hn, htake⟩

/-- Neither a transaction nor a list of transactions, at any depth. -/
def Plain : Kind → Prop
  | transaction => False
  | list element => element.Plain
  | u8 | u16 | u32 | u64 | i32 | i64 | hash | compactSize | script | header | input | output => True

/-- The inputs inside a value of a plain kind. -/
def inputs : (kind : Kind) → kind.Value → List Input
  | input, i => [i]
  | list element, l => l.flatMap element.inputs
  | u8, _ | u16, _ | u32, _ | u64, _ | i32, _ | i64, _ | hash, _ | compactSize, _ | script, _
  | header, _ | output, _ | transaction, _ => []

theorem readable_iff_of_plain (hkind : kind.Plain) (v : kind.Value) :
    kind.Readable v ↔ ∀ i ∈ kind.inputs v, i.witness = [] := by
  induction kind with
  | u8 | u16 | u32 | u64 | i32 | i64 | hash | compactSize | script | header | output =>
    simp [Readable, inputs]
  | input => simp [Readable, inputs]
  | transaction => exact hkind.elim
  | list element ih =>
    simp only [Readable, inputs, List.mem_flatMap, ih hkind]
    exact ⟨fun h i ⟨a, ha, hi⟩ => h a ha i hi, fun h a ha i hi => h i ⟨a, ha, hi⟩⟩

/-- A value of a plain kind is read at a position of addressable bytes exactly where its own bytes
stand, if no input in it has a witness. So such a value has one accepted form. Of all the forms of a
compact size, the accepted one is the shortest. -/
theorem decodeAt_iff_encode_of_plain {kind : Kind} (hkind : kind.Plain) :
    (∀ (raw : List UInt8) (position : Nat), Fits raw → ∀ (v : kind.Value) (n : Nat),
      kind.codec.decodeAt raw position = .ok (v, n) ↔
        n = (kind.codec.encode v).length ∧ (raw.drop position).take n = kind.codec.encode v ∧
          ∀ i ∈ kind.inputs v, i.witness = []) ∧
    (∀ v : kind.Value, Fits (kind.codec.encode v) → (∀ i ∈ kind.inputs v, i.witness = []) →
      ∃! bytes, kind.codec.decodeAt bytes 0 = .ok (v, bytes.length)) ∧
    (∀ (l : List UInt8) (m : UInt64), CompactSize.Denotes l m → ∀ before after : List UInt8,
      compactSize.codec.decodeAt (before ++ l ++ after) before.length = .ok (m, l.length) ↔
        CompactSize.IsShortest l m) := by
  refine ⟨?_, ?_, ?_⟩
  · intro raw position hraw v n
    rw [← readable_iff_of_plain hkind]
    exact decodeAt_eq_ok_iff hraw
  · intro v hfits hbare
    refine ⟨kind.codec.encode v, (decodeAt_eq_ok_iff hfits).mpr ⟨rfl, ?_, ?_⟩, ?_⟩
    · exact List.take_length
    · exact (readable_iff_of_plain hkind v).mpr hbare
    · intro bytes hread
      obtain ⟨-, -, htake⟩ := kind.codec_exact.decodeAt_eq_ok_iff.mp hread
      rw [← htake]
      exact List.take_length.symm
  · intro l m hl before after
    rw [hl.isShortest_iff, compactSize.codec_exact.decodeAt_eq_ok_iff, List.append_assoc,
      List.drop_left, List.take_left]
    constructor
    · rintro ⟨-, -, h⟩
      exact h
    · rintro rfl
      exact ⟨⟨trivial, trivial⟩, rfl, rfl⟩

def nested : (list (list input)).Value := [[], [Input.coinbase ⟨[0x51]⟩]]

/-- The nested lists between other bytes, and the number 252 in a form of three bytes. -/
theorem decodeAt_nested :
    (list (list input)).Plain ∧
      Fits ([0xfe] ++ (list (list input)).codec.encode nested ++ [0, 1]) ∧
      (list (list input)).codec.decodeAt
        ([0xfe] ++ (list (list input)).codec.encode nested ++ [0, 1]) 1 = .ok (nested, 45) ∧
      (∃! bytes, (list (list input)).codec.decodeAt bytes 0 = .ok (nested, bytes.length)) ∧
      CompactSize.Denotes [0xfd, 0xfc, 0] 0xfc ∧
      compactSize.codec.decodeAt [0xfd, 0xfc, 0] 0 ≠ .ok (0xfc, 3) := by
  have hkind : (list (list input)).Plain := trivial
  have hfits : Fits ([0xfe] ++ (list (list input)).codec.encode nested ++ [0, 1]) := by decide
  have hbare : ∀ i ∈ (list (list input)).inputs nested, i.witness = [] := by decide
  have hwide : CompactSize.Denotes [0xfd, 0xfc, 0] 0xfc := .word (by decide) [0xfc, 0] rfl
  have hnarrow : CompactSize.Denotes [0xfc] 0xfc := .byte 0xfc (by decide)
  obtain ⟨hiff, hunique, hshortest⟩ := decodeAt_iff_encode_of_plain hkind
  refine ⟨hkind, hfits, (hiff _ 1 hfits nested 45).mpr ⟨by decide, by decide, hbare⟩,
    hunique nested (by decide) hbare, hwide, ?_⟩
  intro hread
  have hle := (hshortest _ _ hwide [] []).mp hread [0xfc] hnarrow
  exact absurd hle (by decide)

end Kind

end BitcoinBlock.Wire
