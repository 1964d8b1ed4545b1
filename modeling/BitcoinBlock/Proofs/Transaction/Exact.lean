import BitcoinBlock.Proofs.Wire.Exact
import BitcoinBlock.Transaction

/-! # Exactness of the transaction codec

The empty input list doubles as the marker of witnesses. So a transaction without inputs reads back
only when it has no outputs either, and all other transactions have exactly one written form.
-/
namespace BitcoinBlock

namespace Wire.Codec

open Transaction

theorem script_exact : script.Exact fun s => Fits s.bytes where
  decode_eq_ok_iff := by
    rintro ⟨bytes⟩ input rest
    simp only [script, Decoder.bind_eq_ok_iff, Decoder.pure_eq_ok_iff,
      byteString_exact.decode_eq_ok_iff, Script.mk.injEq]
    constructor
    · rintro ⟨_, _, ⟨hfits, rfl⟩, rfl, rfl⟩
      exact ⟨hfits, rfl⟩
    · rintro ⟨hfits, rfl⟩
      exact ⟨bytes, rest, ⟨hfits, rfl⟩, rfl, rfl⟩
  length_pos := fun s => byteString_exact.length_pos s.bytes

theorem input_exact : input.Exact fun i => Fits i.script.bytes ∧ i.witness = [] where
  decode_eq_ok_iff := by
    intro i input rest
    simp only [Codec.input, Decoder.bind_eq_ok_iff, Decoder.pure_eq_ok_iff,
      hash_exact.decode_eq_ok_iff, u32_exact.decode_eq_ok_iff, script_exact.decode_eq_ok_iff,
      true_and, List.append_assoc]
    constructor
    · rintro ⟨previousHash, _, rfl, previousIndex, _, rfl, script, _, ⟨hfits, rfl⟩, sequence, _,
        rfl, rfl, rfl⟩
      exact ⟨⟨hfits, rfl⟩, rfl⟩
    · rintro ⟨⟨hfits, hwitness⟩, rfl⟩
      refine ⟨_, _, rfl, _, _, rfl, _, _, ⟨hfits, rfl⟩, _, _, rfl, ?_, rfl⟩
      rw [← hwitness]
  length_pos := fun i => by
    have hhash := hash_exact.length_pos i.previousHash
    simp only [Codec.input, List.length_append]
    omega

theorem output_exact : output.Exact fun o => Fits o.script.bytes where
  decode_eq_ok_iff := by
    intro o input rest
    simp only [output, Decoder.bind_eq_ok_iff, Decoder.pure_eq_ok_iff,
      i64_exact.decode_eq_ok_iff, script_exact.decode_eq_ok_iff, true_and, List.append_assoc]
    constructor
    · rintro ⟨value, _, rfl, script, _, ⟨hfits, rfl⟩, rfl, rfl⟩
      exact ⟨hfits, rfl⟩
    · rintro ⟨hfits, rfl⟩
      exact ⟨_, _, rfl, _, _, ⟨hfits, rfl⟩, rfl, rfl⟩
  length_pos := fun o => by
    have hvalue := i64_exact.length_pos o.value
    simp only [output, List.length_append]
    omega

theorem inputs_exact :
    inputs.Exact fun l => Fits l ∧ ∀ i ∈ l, Fits i.script.bytes ∧ i.witness = [] :=
  input_exact.list

theorem outputs_exact : outputs.Exact fun l => Fits l ∧ ∀ o ∈ l, Fits o.script.bytes :=
  output_exact.list

theorem witness_exact : witness.Exact fun l => Fits l ∧ ∀ item ∈ l, Fits item :=
  byteString_exact.list

end Wire.Codec

namespace Transaction

open Wire

/-- The input without its witness, which is all that the input list on the wire holds. -/
def Input.bare (i : Input) : Input := { i with witness := [] }

/-- The counts of an input, each of which a compact size can state. -/
structure Input.Sized (i : Input) : Prop where
  script : Fits i.script.bytes
  witness : Fits i.witness ∧ ∀ item ∈ i.witness, Fits item

/-- The counts of a transaction's lists and byte strings. -/
structure SizedLists (inputs : List Input) (outputs : List Output) : Prop where
  fits_inputs : Fits inputs
  fits_outputs : Fits outputs
  input : ∀ i ∈ inputs, i.Sized
  script : ∀ o ∈ outputs, Fits o.script.bytes

def Sized (t : Transaction) : Prop := SizedLists t.inputs t.outputs

/-- Without inputs, the bytes of the outputs would be read as a flag and what it announces. -/
def Readable (t : Transaction) : Prop := t.inputs ≠ [] ∨ t.outputs = []

instance (t : Transaction) : Decidable t.Readable := inferInstanceAs (Decidable (_ ∨ _))

def encodeWitnesses (inputs : List Input) : List UInt8 :=
  inputs.flatMap fun i => Codec.witness.encode i.witness

def encodeLists (inputs : List Input) (outputs : List Output) : List UInt8 :=
  if inputs.any Input.hasWitness then
    witnessMarker ++ Codec.inputs.encode inputs ++ Codec.outputs.encode outputs ++
      encodeWitnesses inputs
  else Codec.inputs.encode inputs ++ Codec.outputs.encode outputs

theorem encode_eq (t : Transaction) :
    t.encode = Codec.i32.encode t.version ++ encodeLists t.inputs t.outputs ++
      Codec.u32.encode t.lockTime := by
  rw [encode, encodeLists, hasWitness]
  split
  · simp only [encodeWitnessed, encodeWitnesses, List.append_assoc]
  · simp only [encodeStripped, List.append_assoc]

theorem inputs_encode_bare (inputs : List Input) :
    Codec.inputs.encode (inputs.map Input.bare) = Codec.inputs.encode inputs := by
  simp only [Codec.inputs, Codec.list, Codec.encodeLength, List.length_map, List.flatMap_map]
  rfl

theorem any_hasWitness_eq_false {inputs : List Input} :
    inputs.any Input.hasWitness = false ↔ ∀ i ∈ inputs, i.witness = [] := by
  simp [Input.hasWitness]

variable {bare inputs : List Input} {outputs : List Output} {input rest : List UInt8}

theorem decodeWitnesses_eq_ok_iff :
    decodeWitnesses bare input = .ok (inputs, rest) ↔
      (inputs.map Input.bare = bare.map Input.bare ∧
        ∀ i ∈ inputs, Fits i.witness ∧ ∀ item ∈ i.witness, Fits item) ∧
          input = encodeWitnesses inputs ++ rest := by
  induction bare generalizing inputs input rest with
  | nil =>
    rw [decodeWitnesses, Decoder.pure_eq_ok_iff, List.map_nil, List.map_eq_nil_iff]
    constructor
    · rintro ⟨rfl, rfl⟩
      simp [encodeWitnesses]
    · rintro ⟨⟨rfl, -⟩, rfl⟩
      exact ⟨rfl, rfl⟩
  | cons b others ih =>
    simp only [decodeWitnesses, Decoder.bind_eq_ok_iff, Decoder.pure_eq_ok_iff,
      Codec.witness_exact.decode_eq_ok_iff, ih]
    constructor
    · rintro ⟨witness, _, ⟨hwitness, rfl⟩, tail, _, ⟨⟨hbare, hfits⟩, rfl⟩, rfl, rfl⟩
      refine ⟨⟨?_, List.forall_mem_cons.mpr ⟨hwitness, hfits⟩⟩, ?_⟩
      · rw [List.map_cons, List.map_cons, hbare]
        rfl
      · rw [encodeWitnesses, encodeWitnesses, List.flatMap_cons, List.append_assoc]
    · rintro ⟨⟨hbare, hfits⟩, rfl⟩
      cases inputs with
      | nil => simp at hbare
      | cons i tail =>
        obtain ⟨hi, htail⟩ := List.cons.inj hbare
        obtain ⟨hwitness, hrest⟩ := List.forall_mem_cons.mp hfits
        refine ⟨i.witness, _, ⟨hwitness, ?_⟩, tail, rest, ⟨⟨htail, hrest⟩, rfl⟩, ?_, rfl⟩
        · rw [encodeWitnesses, encodeWitnesses, List.flatMap_cons, List.append_assoc]
        · cases i
          cases b
          simp_all [Input.bare]

theorem map_bare_eq_self {inputs : List Input} (h : ∀ i ∈ inputs, i.witness = []) :
    inputs.map Input.bare = inputs := by
  have hbare : ∀ i ∈ inputs, i.bare = i := by
    intro i hi
    rw [Input.bare, ← h i hi]
  rw [List.map_congr_left hbare, List.map_id'']
  exact fun _ => rfl

theorem SizedLists.readable_bare (h : SizedLists inputs outputs) :
    Fits (inputs.map Input.bare) ∧
      ∀ i ∈ inputs.map Input.bare, Fits i.script.bytes ∧ i.witness = [] := by
  constructor
  · rw [Fits, List.length_map]
    exact h.fits_inputs
  · intro i hi
    obtain ⟨j, hj, rfl⟩ := List.mem_map.mp hi
    exact ⟨(h.input j hj).script, rfl⟩

theorem SizedLists.of_bare (hmap : inputs.map Input.bare = bare)
    (hbare : Fits bare ∧ ∀ i ∈ bare, Fits i.script.bytes ∧ i.witness = [])
    (hwitness : ∀ i ∈ inputs, Fits i.witness ∧ ∀ item ∈ i.witness, Fits item)
    (houtputs : Fits outputs ∧ ∀ o ∈ outputs, Fits o.script.bytes) :
    SizedLists inputs outputs := by
  subst hmap
  refine ⟨?_, houtputs.1, ?_, houtputs.2⟩
  · have hfits := hbare.1
    rwa [Fits, List.length_map] at hfits
  · intro i hi
    have hscript := (hbare.2 i.bare (List.mem_map_of_mem hi)).1
    exact ⟨hscript, hwitness i hi⟩

/-- Behind the marker stand no lists at all, or lists with a witness that is not empty. -/
theorem decodeFlagged_eq_ok_iff :
    decodeFlagged input = .ok ((inputs, outputs), rest) ↔
      (inputs = [] ∧ outputs = [] ∧ input = 0 :: rest) ∨
        (inputs.any Input.hasWitness = true ∧ SizedLists inputs outputs ∧
          input = 1 :: (Codec.inputs.encode inputs ++ Codec.outputs.encode outputs ++
            encodeWitnesses inputs ++ rest)) := by
  simp only [decodeFlagged, Decoder.bind_eq_ok_iff, Decoder.ite_eq_ok_iff, Decoder.throw_ne_ok,
    Decoder.pure_eq_ok_iff, Codec.u8_decode_eq_ok_iff, Codec.inputs_exact.decode_eq_ok_iff,
    Codec.outputs_exact.decode_eq_ok_iff, decodeWitnesses_eq_ok_iff, and_false, or_false, false_or,
    Prod.mk.injEq, List.append_assoc]
  constructor
  · rintro ⟨flag, _, rfl, ⟨rfl, ⟨rfl, rfl⟩, rfl⟩ | ⟨-, bare, _, ⟨⟨hfits, hbare⟩, rfl⟩, outs, _,
      ⟨⟨hfitsOut, houts⟩, rfl⟩, -, ins, _, ⟨⟨hmap, hwitness⟩, rfl⟩, ⟨rfl, hany⟩, ⟨rfl, rfl⟩, rfl⟩⟩
    · exact .inl ⟨rfl, rfl, rfl⟩
    · rw [map_bare_eq_self fun i hi => (hbare i hi).2] at hmap
      have hsized := SizedLists.of_bare hmap ⟨hfits, hbare⟩ hwitness ⟨hfitsOut, houts⟩
      refine .inr ⟨hany, hsized, ?_⟩
      rw [← hmap, inputs_encode_bare]
  · rintro (⟨rfl, rfl, rfl⟩ | ⟨hany, hsized, rfl⟩)
    · exact ⟨0, rest, rfl, .inl ⟨rfl, ⟨rfl, rfl⟩, rfl⟩⟩
    · refine ⟨1, _, rfl, .inr ⟨by decide, inputs.map Input.bare, _, ⟨hsized.readable_bare, ?_⟩,
        outputs, _, ⟨⟨hsized.fits_outputs, hsized.script⟩, rfl⟩, by decide, inputs, rest,
        ⟨⟨?_, ?_⟩, rfl⟩, ⟨rfl, hany⟩, ⟨rfl, rfl⟩, rfl⟩⟩
      · rw [inputs_encode_bare]
      · rw [List.map_map]
        rfl
      · exact fun i hi => (hsized.input i hi).witness

theorem encodeLists_of_witness (h : inputs.any Input.hasWitness = true) :
    encodeLists inputs outputs = Codec.inputs.encode [] ++ (1 :: (Codec.inputs.encode inputs ++
      Codec.outputs.encode outputs ++ encodeWitnesses inputs)) := by
  rw [encodeLists, if_pos h]
  simp only [List.append_assoc]
  rfl

theorem encodeLists_of_bare (h : inputs.any Input.hasWitness = false) :
    encodeLists inputs outputs = Codec.inputs.encode inputs ++ Codec.outputs.encode outputs := by
  rw [encodeLists, h]
  rfl

/-- The lists are read back from their bytes, unless there are outputs and no inputs. -/
theorem decodeLists_eq_ok_iff :
    decodeLists input = .ok ((inputs, outputs), rest) ↔
      (SizedLists inputs outputs ∧ (inputs ≠ [] ∨ outputs = [])) ∧
        input = encodeLists inputs outputs ++ rest := by
  simp only [decodeLists, Decoder.bind_eq_ok_iff, Decoder.ite_eq_ok_iff, Decoder.pure_eq_ok_iff,
    Codec.inputs_exact.decode_eq_ok_iff, Codec.outputs_exact.decode_eq_ok_iff,
    decodeFlagged_eq_ok_iff, List.isEmpty_iff, Prod.mk.injEq]
  constructor
  · rintro ⟨listed, _, ⟨⟨hfits, hlisted⟩, rfl⟩, ⟨rfl, ⟨rfl, rfl, rfl⟩ | ⟨hany, hsized, rfl⟩⟩ |
      ⟨hne, outs, _, ⟨⟨hfitsOut, houts⟩, rfl⟩, ⟨rfl, rfl⟩, rfl⟩⟩
    · exact ⟨⟨⟨fits_nil, fits_nil, by simp, by simp⟩, .inr rfl⟩, rfl⟩
    · refine ⟨⟨hsized, .inl ?_⟩, ?_⟩
      · rintro rfl
        simp at hany
      · rw [encodeLists_of_witness hany]
        simp only [List.append_assoc, List.cons_append]
    · have hnone : ∀ i ∈ listed, i.witness = [] := fun i hi => (hlisted i hi).2
      refine ⟨⟨.of_bare (map_bare_eq_self hnone) ⟨hfits, hlisted⟩ ?_ ⟨hfitsOut, houts⟩,
        .inl hne⟩, ?_⟩
      · intro i hi
        rw [hnone i hi]
        exact ⟨fits_nil, by simp⟩
      · rw [encodeLists_of_bare (any_hasWitness_eq_false.mpr hnone), List.append_assoc]
  · rintro ⟨⟨hsized, hread⟩, rfl⟩
    by_cases hany : inputs.any Input.hasWitness = true
    · refine ⟨[], _, ⟨⟨fits_nil, by simp⟩, ?_⟩, .inl ⟨rfl, .inr ⟨hany, hsized, rfl⟩⟩⟩
      rw [encodeLists_of_witness hany]
      simp only [List.append_assoc, List.cons_append]
    · rw [Bool.not_eq_true] at hany
      have hbare := any_hasWitness_eq_false.mp hany
      rw [encodeLists_of_bare hany]
      by_cases hne : inputs = []
      · subst hne
        rw [hread.resolve_left fun h => h rfl]
        exact ⟨[], 0 :: rest, ⟨⟨fits_nil, by simp⟩, rfl⟩, .inl ⟨rfl, .inl ⟨rfl, rfl, rfl⟩⟩⟩
      · exact ⟨inputs, _, ⟨⟨hsized.fits_inputs, fun i hi => ⟨(hsized.input i hi).script,
          hbare i hi⟩⟩, List.append_assoc _ _ _⟩, .inr ⟨hne, outputs, rest,
          ⟨⟨hsized.fits_outputs, hsized.script⟩, rfl⟩, ⟨rfl, rfl⟩, rfl⟩⟩

theorem decode_eq_ok_iff {t : Transaction} :
    decode input = .ok (t, rest) ↔ (t.Sized ∧ t.Readable) ∧ input = t.encode ++ rest := by
  simp only [decode, Decoder.bind_eq_ok_iff, Decoder.pure_eq_ok_iff,
    Codec.i32_exact.decode_eq_ok_iff, Codec.u32_exact.decode_eq_ok_iff, Prod.exists,
    decodeLists_eq_ok_iff, true_and, encode_eq, List.append_assoc]
  constructor
  · rintro ⟨version, _, rfl, inputs, outputs, _, ⟨⟨hsized, hread⟩, rfl⟩, lockTime, _, rfl, rfl,
      rfl⟩
    exact ⟨⟨hsized, hread⟩, rfl⟩
  · rintro ⟨⟨hsized, hread⟩, rfl⟩
    exact ⟨_, _, rfl, _, _, _, ⟨⟨hsized, hread⟩, rfl⟩, _, _, rfl, rfl, rfl⟩

theorem encode_length_pos (t : Transaction) : 0 < t.encode.length := by
  have hversion := Codec.i32_exact.length_pos t.version
  simp only [encode_eq, List.length_append]
  omega

end Transaction

theorem Wire.Codec.transaction_exact : transaction.Exact fun t => t.Sized ∧ t.Readable where
  decode_eq_ok_iff := Transaction.decode_eq_ok_iff
  length_pos := Transaction.encode_length_pos

end BitcoinBlock
