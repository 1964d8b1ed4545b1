import BitcoinBlock.Proofs.Wire.Decoder
import BitcoinBlock.Proofs.Wire.Kind
import BitcoinBlock.Transaction

/-! # Reading bytes as they come

A decoder that takes its bytes in order knows nothing of what stands behind them. Cut short, they run
out before anything else can be wrong with them. Decoders made of such decoders are of this kind too,
and so are those of everything on the wire but headers, which are measured before they are read.
-/
namespace BitcoinBlock

namespace Wire

/-- What can be wrong with bytes that are read in order. -/
def streamFaults : List Error := [.endOfData, .nonCanonicalCompactSize, .malformedTransaction]

namespace Decoder

variable {α β : Type} {d e : Decoder α} {f : α → Decoder β} {a : α} {b : β}
  {used more : List UInt8}

/-- The decoder finds the value in these bytes alone: it leaves what follows them, and misses what is
cut off them. -/
structure Uses (d : Decoder α) (used : List UInt8) (a : α) : Prop where
  leaves : ∀ rest, d (used ++ rest) = .ok (a, rest)
  misses : ∀ front missing, used = front ++ missing → missing ≠ [] → d front = .error .endOfData

/-- Whatever the decoder reads, it finds in the bytes that it uses, and it has no faults but those
of bytes that are read in order. -/
structure Streams (d : Decoder α) : Prop where
  exists_uses : ∀ {input a rest}, d input = .ok (a, rest) →
    ∃ used, input = used ++ rest ∧ d.Uses used a
  fault_mem : ∀ {input fault}, d input = .error fault → fault ∈ streamFaults

theorem uses_pure (a : α) : (pure a : Decoder α).Uses [] a where
  leaves _ := rfl
  misses := by
    intro front missing h hne
    exact absurd (List.append_eq_nil_iff.mp h.symm).2 hne

theorem Uses.bind (hd : d.Uses used a) (hf : (f a).Uses more b) :
    (d >>= f).Uses (used ++ more) b where
  leaves := by
    intro rest
    rw [bind_apply, List.append_assoc, hd.leaves, ok_bind]
    exact hf.leaves rest
  misses := by
    intro front missing h hne
    rw [bind_apply]
    rcases List.append_eq_append_iff.mp h with ⟨read, rfl, hmore⟩ | ⟨cut, hused, rfl⟩
    · rw [hd.leaves, ok_bind]
      exact hf.misses read missing hmore hne
    · by_cases hcut : cut = []
      · subst hcut
        have hfront := hd.leaves []
        rw [hused, List.append_nil, List.append_nil] at hfront
        rw [hfront, ok_bind]
        exact hf.misses [] _ rfl hne
      · rw [hd.misses front cut hused hcut, error_bind]

theorem streams_pure (a : α) : (pure a : Decoder α).Streams where
  exists_uses := by
    intro input b rest h
    cases h
    exact ⟨[], rfl, uses_pure a⟩
  fault_mem := by
    intro input fault h
    cases h

theorem streams_throw {fault : Error} (h : fault ∈ streamFaults) :
    (throw fault : Decoder α).Streams where
  exists_uses := by
    intro input a rest hread
    cases hread
  fault_mem := by
    intro input other hread
    cases hread
    exact h

theorem Streams.bind (hd : d.Streams) (hf : ∀ a, (f a).Streams) : (d >>= f).Streams where
  exists_uses := by
    intro input b rest h
    obtain ⟨a, middle, ha, hb⟩ := bind_eq_ok_iff.mp h
    obtain ⟨used, rfl, hused⟩ := hd.exists_uses ha
    obtain ⟨more, rfl, hmore⟩ := (hf a).exists_uses hb
    exact ⟨used ++ more, (List.append_assoc used more rest).symm, hused.bind hmore⟩
  fault_mem := by
    intro input fault h
    rcases bind_eq_error_iff.mp h with hread | ⟨p, -, hread⟩
    · exact hd.fault_mem hread
    · exact (hf p.1).fault_mem hread

theorem Streams.ite {c : Prop} [Decidable c] (hd : d.Streams) (he : e.Streams) :
    (if c then d else e).Streams := by
  split
  · exact hd
  · exact he

theorem take_of_length_lt {n : Nat} {input : List UInt8} (h : input.length < n) :
    take n input = .error .endOfData := by
  have hlen : (input.take n).length ≠ n := by
    rw [List.length_take]
    omega
  simp only [take, List.splitAt_eq, if_neg hlen]

theorem uses_take (taken : List UInt8) : (take taken.length).Uses taken taken where
  leaves _ := take_eq_ok_iff.mpr ⟨rfl, rfl⟩
  misses := by
    rintro front missing rfl hne
    apply take_of_length_lt
    rw [List.length_append]
    have hpos := List.length_pos_iff.mpr hne
    omega

theorem streams_take (n : Nat) : (take n).Streams where
  exists_uses := by
    intro input taken rest h
    obtain ⟨rfl, rfl⟩ := take_eq_ok_iff.mp h
    exact ⟨taken, rfl, uses_take taken⟩
  fault_mem := by
    intro input fault h
    simp only [take] at h
    split at h
    · cases h
    · cases h
      decide

theorem Streams.times (hd : d.Streams) (n : Nat) : (d.times n).Streams := by
  induction n with
  | zero => exact streams_pure []
  | succ n ih => exact hd.bind fun a => ih.bind fun rest => streams_pure (a :: rest)

end Decoder

open Decoder

theorem Codec.streams_word {α : Type} (width : Nat) (toNat : α → Nat) (ofNat : Nat → α) :
    (word width toNat ofNat).decode.Streams :=
  (streams_take width).bind fun _ => streams_pure _

namespace CompactSize

theorem streams_decodeWord (width : Nat) (least : UInt64) : (decodeWord width least).Streams := by
  apply (streams_take width).bind
  intro bytes
  exact Streams.ite (streams_throw (by decide)) (streams_pure _)

theorem streams_decode : decode.Streams := by
  apply (Codec.streams_word 1 _ _).bind
  intro marker
  apply Streams.ite (streams_decodeWord 2 _)
  apply Streams.ite (streams_decodeWord 4 _)
  apply Streams.ite (streams_decodeWord 8 _)
  exact streams_pure _

end CompactSize

namespace Codec

variable {α : Type} {c : Codec α}

theorem streams_hash : hash.decode.Streams := by
  apply (streams_take 32).bind
  intro bytes
  split
  · exact streams_pure _
  · exact streams_throw (by decide)

theorem streams_list (h : c.decode.Streams) : (list c).decode.Streams :=
  CompactSize.streams_decode.bind fun count => h.times count.toNat

theorem streams_byteString : byteString.decode.Streams :=
  CompactSize.streams_decode.bind fun count => streams_take count.toNat

theorem streams_script : script.decode.Streams :=
  streams_byteString.bind fun _ => streams_pure _

theorem streams_input : input.decode.Streams := by
  apply streams_hash.bind
  intro previousHash
  apply (streams_word 4 _ _).bind
  intro previousIndex
  apply streams_script.bind
  intro script
  apply (streams_word 4 _ _).bind
  intro sequence
  exact streams_pure _

theorem streams_output : output.decode.Streams := by
  apply (streams_word 8 _ _).bind
  intro value
  apply streams_script.bind
  intro script
  exact streams_pure _

end Codec

end Wire

namespace Transaction

open Wire Wire.Decoder

theorem streams_decodeWitnesses (inputs : List Input) : (decodeWitnesses inputs).Streams := by
  induction inputs with
  | nil => exact streams_pure []
  | cons i rest ih =>
    apply (Codec.streams_list Codec.streams_byteString).bind
    intro witness
    exact ih.bind fun others => streams_pure _

theorem streams_decodeFlagged : decodeFlagged.Streams := by
  apply (Codec.streams_word 1 _ _).bind
  intro flag
  apply Streams.ite (streams_pure _)
  apply (Codec.streams_list Codec.streams_input).bind
  intro bare
  apply (Codec.streams_list Codec.streams_output).bind
  intro outputs
  apply Streams.ite (streams_throw (by decide))
  apply (streams_decodeWitnesses bare).bind
  intro inputs
  exact Streams.ite (streams_pure _) (streams_throw (by decide))

theorem streams_decodeLists : decodeLists.Streams := by
  apply (Codec.streams_list Codec.streams_input).bind
  intro listed
  apply Streams.ite streams_decodeFlagged
  exact (Codec.streams_list Codec.streams_output).bind fun outputs => streams_pure _

theorem streams_decode : decode.Streams := by
  apply (Codec.streams_word 4 _ _).bind
  intro version
  apply streams_decodeLists.bind
  intro (inputs, outputs)
  exact (Codec.streams_word 4 _ _).bind fun lockTime => streams_pure _

end Transaction

/-! ## Values that are cut short

Bytes that stop inside a value have one fault, that they stop. A count, a flag or a witness is not
complained about before all of its bytes are there, so no cut makes a value malformed or leaves a
smaller one. Headers are the exception: a header that is cut short has the wrong size.
-/

namespace Wire

theorem Decoder.Streams.decodeAt_take {α : Type} {c : Codec α} (hc : c.decode.Streams)
    {raw : List UInt8} {position n k : Nat} {a : α} (h : c.decodeAt raw position = .ok (a, n))
    (hlow : position ≤ k) (hhigh : k < position + n) :
    c.decodeAt (raw.take k) position = .error .endOfData := by
  obtain ⟨rest, hread, hn⟩ := Codec.decodeAt_eq_ok_iff.mp h
  obtain ⟨used, hinput, huses⟩ := hc.exists_uses hread
  have hshort : k - position < used.length := by
    rw [hinput, List.length_append] at hn
    omega
  apply Codec.decodeAt_of_error
  rw [List.drop_take, hinput, List.take_append_of_le_length hshort.le]
  apply huses.misses _ (used.drop (k - position)) (List.take_append_drop _ used).symm
  rw [ne_eq, List.drop_eq_nil_iff]
  omega

namespace Kind

/-- Neither a header nor a list of headers, at any depth. -/
def HeaderFree : Kind → Prop
  | header => False
  | list element => element.HeaderFree
  | u8 | u16 | u32 | u64 | i32 | i64 | hash | compactSize | script | input | output
  | transaction => True

theorem streams_of_headerFree {kind : Kind} (hkind : kind.HeaderFree) :
    kind.codec.decode.Streams := by
  induction kind with
  | u8 | u16 | u32 | u64 | i32 | i64 => exact Codec.streams_word _ _ _
  | hash => exact Codec.streams_hash
  | compactSize => exact CompactSize.streams_decode
  | script => exact Codec.streams_script
  | header => exact hkind.elim
  | input => exact Codec.streams_input
  | output => exact Codec.streams_output
  | transaction => exact Transaction.streams_decode
  | list element ih => exact Codec.streams_list (ih hkind)

/-- Wherever bytes stop inside a value that could be read from them, nothing is read and the end of
the data is what is reported. -/
theorem decodeAt_take_eq_endOfData {kind : Kind} (hkind : kind.HeaderFree) {raw : List UInt8}
    {position n : Nat} {v : kind.Value} (h : kind.codec.decodeAt raw position = .ok (v, n)) {k : Nat}
    (hlow : position ≤ k) (hhigh : k < position + n) :
    kind.codec.decodeAt (raw.take k) position = .error .endOfData :=
  (streams_of_headerFree hkind).decodeAt_take h hlow hhigh

/-- Two transactions with witnesses, between other bytes. -/
def enclosed : List UInt8 :=
  [0xfe] ++ (list transaction).codec.encode [.witnessed, .witnessed] ++ [0, 1]

/-- They are cut in front of the first one's flag, inside its witness, and in front of the last byte
of the second one. -/
theorem decodeAt_take_enclosed :
    (list transaction).HeaderFree ∧
      (list transaction).codec.decodeAt enclosed 1 = .ok ([.witnessed, .witnessed], 137) ∧
      ∀ k ∈ [7, 64, 137], (1 ≤ k ∧ k < 1 + 137) ∧
        (list transaction).codec.decodeAt (enclosed.take k) 1 = .error .endOfData := by
  have hkind : (list transaction).HeaderFree := trivial
  have h : (list transaction).codec.decodeAt enclosed 1 = .ok ([.witnessed, .witnessed], 137) := by
    have hreadable : ∀ t ∈ [Transaction.witnessed, .witnessed], t.Readable := by decide
    have hfits : Fits enclosed := by decide +kernel
    exact (decodeAt_eq_ok_iff hfits).mpr ⟨by decide +kernel, by decide +kernel, hreadable⟩
  refine ⟨hkind, h, ?_⟩
  intro k hk
  have hbounds : 1 ≤ k ∧ k < 1 + 137 := by
    revert k
    decide
  exact ⟨hbounds, decodeAt_take_eq_endOfData hkind h hbounds.1 hbounds.2⟩

end Kind

end Wire

end BitcoinBlock
