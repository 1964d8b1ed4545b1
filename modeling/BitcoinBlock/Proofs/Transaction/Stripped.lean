import BitcoinBlock.Proofs.Transaction.RoundTrip
import Mathlib.Data.List.Forall2

/-! # What the id of a transaction is made of

The stripped bytes of a transaction, which its id is the hash of, say everything but the witnesses,
also of transactions that cannot be read back.
-/
namespace BitcoinBlock.Transaction

open Wire

variable {t u : Transaction} {i j : Input}

/-- The inputs differ in their witnesses at most. -/
structure Input.EqUpToWitness (i j : Input) : Prop where
  previousHash : i.previousHash = j.previousHash
  previousIndex : i.previousIndex = j.previousIndex
  script : i.script = j.script
  sequence : i.sequence = j.sequence

/-- The transactions differ in the witnesses of their inputs at most. -/
structure EqUpToWitness (t u : Transaction) : Prop where
  version : t.version = u.version
  inputs : List.Forall₂ Input.EqUpToWitness t.inputs u.inputs
  outputs : t.outputs = u.outputs
  lockTime : t.lockTime = u.lockTime

/-- The transaction with all witnesses left out. -/
def bare (t : Transaction) : Transaction := { t with inputs := t.inputs.map Input.bare }

theorem Input.bare_eq_bare_iff : i.bare = j.bare ↔ EqUpToWitness i j := by
  rw [bare, bare, Input.mk.injEq]
  constructor
  · rintro ⟨hhash, hindex, hscript, hsequence, -⟩
    exact ⟨hhash, hindex, hscript, hsequence⟩
  · rintro ⟨hhash, hindex, hscript, hsequence⟩
    exact ⟨hhash, hindex, hscript, hsequence, rfl⟩

theorem map_bare_eq_map_bare_iff {inputs inputs' : List Input} :
    inputs.map Input.bare = inputs'.map Input.bare ↔
      List.Forall₂ Input.EqUpToWitness inputs inputs' := by
  rw [← List.forall₂_eq_eq_eq, List.forall₂_map_left_iff, List.forall₂_map_right_iff]
  simp only [Input.bare_eq_bare_iff]

theorem encodeStripped_eq_append (t : Transaction) :
    t.encodeStripped = Codec.i32.encode t.version ++
      (Codec.inputs.encode (t.inputs.map Input.bare) ++
        (Codec.outputs.encode t.outputs ++ (Codec.u32.encode t.lockTime ++ []))) := by
  rw [inputs_encode_bare, encodeStripped]
  simp only [List.append_assoc, List.append_nil]

/-- The four parts of the stripped bytes end where the next one begins, so equal bytes are equal
part by part. Reading the whole is no way to this: without inputs, it takes the outputs for a
flag. -/
theorem eq_parts_of_encodeStripped_eq (ht : t.Sized) (hu : u.Sized)
    (h : t.encodeStripped = u.encodeStripped) :
    t.version = u.version ∧ t.inputs.map Input.bare = u.inputs.map Input.bare ∧
      t.outputs = u.outputs ∧ t.lockTime = u.lockTime := by
  rw [encodeStripped_eq_append, encodeStripped_eq_append] at h
  obtain ⟨hversion, h⟩ := Codec.i32_exact.eq_of_append_eq trivial trivial h
  obtain ⟨hinputs, h⟩ := Codec.inputs_exact.eq_of_append_eq
    (SizedLists.readable_bare ht) (SizedLists.readable_bare hu) h
  obtain ⟨houtputs, h⟩ := Codec.outputs_exact.eq_of_append_eq
    ⟨ht.fits_outputs, ht.script⟩ ⟨hu.fits_outputs, hu.script⟩ h
  obtain ⟨hlockTime, -⟩ := Codec.u32_exact.eq_of_append_eq trivial trivial h
  exact ⟨hversion, hinputs, houtputs, hlockTime⟩

theorem encodeStripped_eq_iff (ht : t.Sized) (hu : u.Sized) :
    t.encodeStripped = u.encodeStripped ↔ EqUpToWitness t u := by
  constructor
  · intro h
    obtain ⟨hversion, hinputs, houtputs, hlockTime⟩ := eq_parts_of_encodeStripped_eq ht hu h
    exact ⟨hversion, map_bare_eq_map_bare_iff.mp hinputs, houtputs, hlockTime⟩
  · rintro ⟨hversion, hinputs, houtputs, hlockTime⟩
    rw [encodeStripped_eq_append, encodeStripped_eq_append, hversion, houtputs, hlockTime,
      map_bare_eq_map_bare_iff.mpr hinputs]

theorem length_encodeStripped_lt (t : Transaction) :
    t.encodeStripped.length < t.encodeWitnessed.length := by
  simp only [encodeStripped, encodeWitnessed, witnessMarker, List.length_append, List.length_cons,
    List.length_nil]
  omega

theorem encode_eq_encodeStripped_iff : t.encode = t.encodeStripped ↔ t.hasWitness = false := by
  rw [encode]
  cases t.hasWitness with
  | false => simp
  | true =>
    have hlen := t.length_encodeStripped_lt
    simp only [if_true, Bool.true_eq_false, iff_false]
    intro h
    rw [h] at hlen
    exact lt_irrefl _ hlen

theorem encodeStripped_bare (t : Transaction) : t.bare.encodeStripped = t.encodeStripped := by
  change Codec.i32.encode t.version ++ Codec.inputs.encode (t.inputs.map Input.bare) ++ _ ++ _ = _
  rw [inputs_encode_bare]
  rfl

theorem hasWitness_bare (t : Transaction) : t.bare.hasWitness = false := by
  rw [hasWitness, any_hasWitness_eq_false]
  intro i hi
  obtain ⟨j, -, rfl⟩ := List.mem_map.mp hi
  rfl

theorem encode_bare (t : Transaction) : t.bare.encode = t.encodeStripped := by
  rw [encode_eq_encodeStripped_iff.mpr t.hasWitness_bare, encodeStripped_bare]

theorem sized_bare (h : t.Sized) : t.bare.Sized := by
  obtain ⟨hfits, hbare⟩ := SizedLists.readable_bare h
  refine ⟨hfits, h.fits_outputs, ?_, h.script⟩
  intro i hi
  obtain ⟨hscript, hwitness⟩ := hbare i hi
  refine ⟨hscript, ?_⟩
  rw [hwitness]
  exact ⟨fits_nil, nofun⟩

theorem readable_bare_iff : t.bare.Readable ↔ t.Readable := by
  change t.inputs.map Input.bare ≠ [] ∨ _ ↔ _
  rw [ne_eq, List.map_eq_nil_iff]
  rfl

theorem ofBytes_eq_ok_iff {bytes : List UInt8} :
    ofBytes bytes = .ok t ↔ decode bytes = .ok (t, []) := by
  simp only [ofBytes, bind_eq_ok_iff, Prod.exists]
  constructor
  · rintro ⟨u, rest, hdecode, hu⟩
    split at hu
    next hrest =>
      cases hu
      rw [hdecode, List.isEmpty_iff.mp hrest]
    next => cases hu
  · intro hdecode
    exact ⟨t, [], hdecode, rfl⟩

theorem ofBytes_encodeStripped_iff (h : t.Sized) :
    ofBytes t.encodeStripped = .ok t.bare ↔ t.Readable := by
  rw [ofBytes_eq_ok_iff, decode_eq_ok_iff, encode_bare, List.append_nil, readable_bare_iff]
  constructor
  · rintro ⟨⟨-, hreadable⟩, -⟩
    exact hreadable
  · intro hreadable
    exact ⟨⟨sized_bare h, hreadable⟩, rfl⟩

/-- The stripped bytes are the same for two transactions exactly when these differ in witnesses at
most. They are the whole bytes of a transaction exactly when it has no witness, and are read as the
transaction without its witnesses exactly when this is one that can be read back. -/
theorem encodeStripped_says_all_but_witness :
    (∀ t u : Transaction, t.Sized → u.Sized →
      (t.encodeStripped = u.encodeStripped ↔ EqUpToWitness t u)) ∧
    (∀ t : Transaction, t.encode = t.encodeStripped ↔ t.hasWitness = false) ∧
    ∀ t : Transaction, t.Sized → (ofBytes t.encodeStripped = .ok t.bare ↔ t.Readable) := by
  refine ⟨?_, ?_, ?_⟩
  · intro t u ht hu
    exact encodeStripped_eq_iff ht hu
  · intro t
    exact encode_eq_encodeStripped_iff
  · intro t ht
    exact ofBytes_encodeStripped_iff ht

/-- A transaction with a witness and the same one without, and two transactions without inputs. -/
theorem encodeStripped_of_witnessed_and_payout :
    (witnessed.Sized ∧ witnessed.bare.Sized ∧ payout.Sized ∧
        Sized { payout with outputs := [] }) ∧
      witnessed.encodeStripped = witnessed.bare.encodeStripped ∧
      payout.encodeStripped ≠ encodeStripped { payout with outputs := [] } ∧
      witnessed.encode ≠ witnessed.encodeStripped ∧
      ofBytes witnessed.encodeStripped = .ok witnessed.bare ∧
      ofBytes payout.encodeStripped ≠ .ok payout.bare := by
  have hwitnessed : witnessed.Sized := sized_of_fits_encode (by decide)
  have hpayout : payout.Sized := sized_of_fits_encode (by decide)
  have hempty : Sized { payout with outputs := [] } := sized_of_fits_encode (by decide)
  have hbare : witnessed.bare.Sized := sized_of_fits_encode (by decide)
  obtain ⟨hsame, hwhole, hread⟩ := encodeStripped_says_all_but_witness
  refine ⟨⟨hwitnessed, hbare, hpayout, hempty⟩, ?_, ?_, ?_, ?_, ?_⟩
  · apply (hsame witnessed witnessed.bare hwitnessed hbare).mpr
    exact ⟨rfl, map_bare_eq_map_bare_iff.mp rfl, rfl, rfl⟩
  · intro h
    have hequal := (hsame payout _ hpayout hempty).mp h
    exact absurd hequal.outputs (List.cons_ne_nil _ _)
  · intro h
    cases (hwhole witnessed).mp h
  · exact (hread witnessed hwitnessed).mpr (by decide)
  · intro h
    exact absurd ((hread payout hpayout).mp h) (by decide)

end BitcoinBlock.Transaction
