import BitcoinBlock.Proofs.Transaction.Exact

/-! # Transactions and their bytes

Bytes that a machine can address hold only lists that compact sizes can count. So inside them a
transaction is read exactly where its bytes stand, and only a transaction with outputs and no inputs
is written without ever being read back.
-/
namespace BitcoinBlock.Transaction

open Wire

/-- Every list and byte string of a transaction is part of its bytes, apart from the counts of
empty witnesses. -/
theorem sized_of_fits_encode {t : Transaction} (h : Fits t.encode) : t.Sized := by
  rw [encode_eq] at h
  have hlists : Fits (encodeLists t.inputs t.outputs) := h.of_append.1.of_append.2
  have hparts : Fits (Codec.inputs.encode t.inputs) ∧ Fits (Codec.outputs.encode t.outputs) ∧
      ∀ i ∈ t.inputs, Fits i.witness ∧ ∀ item ∈ i.witness, Fits item := by
    by_cases hany : t.inputs.any Input.hasWitness = true
    · rw [encodeLists, if_pos hany] at hlists
      obtain ⟨hfront, hwitnesses⟩ := hlists.of_append
      refine ⟨hfront.of_append.1.of_append.2, hfront.of_append.2, ?_⟩
      intro i hi
      obtain ⟨hcount, hitems⟩ := Codec.byteString_exact.fits_of_fits_list (hwitnesses.of_flatMap hi)
      exact ⟨hcount, fun item hitem => Codec.fits_of_fits_byteString (hitems item hitem)⟩
    · rw [Bool.not_eq_true] at hany
      rw [encodeLists_of_bare hany] at hlists
      refine ⟨hlists.of_append.1, hlists.of_append.2, ?_⟩
      intro i hi
      rw [any_hasWitness_eq_false.mp hany i hi]
      exact ⟨fits_nil, by simp⟩
  obtain ⟨hinputs, houtputs, hwitness⟩ := hparts
  obtain ⟨hfitsIn, hin⟩ := Codec.input_exact.fits_of_fits_list hinputs
  obtain ⟨hfitsOut, hout⟩ := Codec.output_exact.fits_of_fits_list houtputs
  refine ⟨hfitsIn, hfitsOut, ?_, ?_⟩
  · intro i hi
    have hscript : Fits (Codec.script.encode i.script) := (hin i hi).of_append.1.of_append.2
    exact ⟨Codec.fits_of_fits_byteString hscript, hwitness i hi⟩
  · intro o ho
    exact Codec.fits_of_fits_byteString (hout o ho).of_append.2

/-- A transaction is read at a position of addressable bytes exactly where its own bytes stand, if
it has an input or no outputs. So what was read is written back byte for byte whatever follows it,
what was written is read back with all its witnesses, and a transaction with outputs and no inputs
never reads back as itself. -/
theorem decodeAt_iff_encode :
    (∀ (raw : List UInt8) (position : Nat), Fits raw → ∀ (t : Transaction) (n : Nat),
      Codec.transaction.decodeAt raw position = .ok (t, n) ↔
        n = t.encode.length ∧ (raw.drop position).take n = t.encode ∧ t.Readable) ∧
    (∀ (raw : List UInt8) (position : Nat) (t : Transaction) (n : Nat),
      Codec.transaction.decodeAt raw position = .ok (t, n) →
        raw.drop position = t.encode ++ raw.drop (position + n)) ∧
    (∀ t : Transaction, Fits t.encode → t.Readable →
      ∀ before after : List UInt8, Codec.transaction.decodeAt (before ++ t.encode ++ after)
        before.length = .ok (t, t.encode.length)) ∧
    (∀ t : Transaction, t.inputs = [] → t.outputs ≠ [] →
      ∀ (raw : List UInt8) (position n : Nat),
        Codec.transaction.decodeAt raw position ≠ .ok (t, n)) := by
  refine ⟨?_, ?_, ?_, ?_⟩
  · intro raw position hraw t n
    rw [Codec.transaction_exact.decodeAt_eq_ok_iff]
    constructor
    · rintro ⟨⟨-, hread⟩, rfl, htake⟩
      exact ⟨rfl, htake, hread⟩
    · rintro ⟨rfl, htake, hread⟩
      have hfits : Fits t.encode := by
        rw [← htake]
        exact hraw.mono (by simp)
      exact ⟨⟨sized_of_fits_encode hfits, hread⟩, rfl, htake⟩
  · intro raw position t n h
    obtain ⟨-, -, htake⟩ := Codec.transaction_exact.decodeAt_eq_ok_iff.mp h
    change List.take n (raw.drop position) = t.encode at htake
    rw [← htake, ← List.drop_drop, List.take_append_drop]
  · intro t hfits hread before after
    refine Codec.transaction_exact.decodeAt_eq_ok_iff.mpr
      ⟨⟨sized_of_fits_encode hfits, hread⟩, rfl, ?_⟩
    rw [List.append_assoc, List.drop_left]
    exact List.take_left
  · intro t hin hout raw position n h
    obtain ⟨⟨-, hread⟩, -, -⟩ := Codec.transaction_exact.decodeAt_eq_ok_iff.mp h
    exact hread.elim (fun hne => hne hin) hout

/-- One input with a witness of two items, and one output. -/
def witnessed : Transaction where
  version := -1
  inputs := [⟨Hash.zero, 3, ⟨[0x51]⟩, 0xffffffff, [[], [0xaa, 0xbb]]⟩]
  outputs := [⟨5000000000, ⟨[]⟩⟩]
  lockTime := 7

def payout : Transaction where
  version := 1
  inputs := []
  outputs := [⟨1, ⟨[0x51]⟩⟩]
  lockTime := 0

theorem decodeAt_witnessed_and_payout :
    Fits ([0xfe] ++ witnessed.encode ++ [0, 1]) ∧
      Codec.transaction.decodeAt ([0xfe] ++ witnessed.encode ++ [0, 1]) 1 = .ok (witnessed, 68) ∧
      ∀ n, Codec.transaction.decodeAt payout.encode 0 ≠ .ok (payout, n) := by
  have hfits : Fits ([0xfe] ++ witnessed.encode ++ [0, 1]) := by decide
  obtain ⟨hiff, -, -, hnever⟩ := decodeAt_iff_encode
  refine ⟨hfits, ?_, hnever payout rfl (by decide) payout.encode 0⟩
  exact (hiff _ 1 hfits witnessed 68).mpr ⟨by decide, by decide, by decide⟩

end BitcoinBlock.Transaction
