import BitcoinBlock.Proofs.Block.Reading

/-! # The grammar of blocks

Reading all transactions accepts exactly the byte strings that spell a header and a counted list of
readable transactions, and serialization gives back the bytes that were read.
-/
namespace BitcoinBlock.Block

open Wire

variable {raw : List UInt8} {b : Block} {ts : List Transaction}

/-- Behind a header stand the number and the bytes of transactions that can be read back. -/
structure Spells (raw : List UInt8) (ts : List Transaction) : Prop where
  readable : ∀ t ∈ ts, t.Readable
  bytes : raw = raw.take Header.size ++ CompactSize.encode (UInt64.ofNat ts.length) ++
    ts.flatMap Transaction.encode

/-- The options that leave nothing unread and expect nothing. -/
def ReadOptions.everything (network : Network) : ReadOptions where
  hash := none
  height := none
  allTransactions := true
  limit := 0
  network := network

/-- Reading all transactions leaves no choice but the transactions themselves and the height. -/
theorem read_all_eq_ok_iff (hraw : Header.size < raw.length) {options : ReadOptions}
    (hall : options.allTransactions = true) (hlimit : options.limit = 0) :
    (read raw options).result = .ok b ↔
      ∃ header ts height, (Fits ts ∧ ∀ t ∈ ts, t.Sized ∧ t.Readable) ∧
        raw = Header.encode header ++ CompactSize.encode (UInt64.ofNat ts.length) ++
          ts.flatMap Transaction.encode ∧
        (∀ e, options.hash = some e → e = header.hash) ∧
        settle (encodedHeight? header (ts.map .full)) options.height = .ok height ∧
        b = { header, height, network := options.network, entries := ts.map .full,
              count := some ts.length } := by
  simp only [read_eq_ok_iff hraw, readBody_eq_ok_iff, ReadOptions.bound_of_all hall hlimit]
  constructor
  · rintro ⟨header, _, rfl, hhash, count, data, ts, pending, height, rfl, hbatch, hcount, hheight,
      rfl⟩
    have hlen : count.toNat = ts.length := hcount hall hlimit
    have hpending := Batch.rest_eq_nil_of_length_le (le_refl data.length) (by rw [hbatch])
    have hdata := Batch.flatMap_encode_append_rest data.length data
    have hreadable := Batch.readable_of_mem data.length data
    rw [hbatch] at hpending hdata hreadable
    obtain rfl : pending = [] := hpending
    refine ⟨header, ts, height, ⟨?_, hreadable⟩, ?_, hhash, hheight, ?_⟩
    · rw [Fits, ← hlen]
      exact count.toNat_lt_size
    · rw [← hlen, UInt64.ofNat_toNat, List.append_assoc, ← hdata, List.append_nil]
    · rw [hlen]
  · rintro ⟨header, ts, height, ⟨hfits, hreadable⟩, rfl, hhash, hheight, rfl⟩
    have hlen : (UInt64.ofNat ts.length).toNat = ts.length := UInt64.toNat_ofNat_of_lt' hfits
    refine ⟨header, _, List.append_assoc _ _ _, hhash, UInt64.ofNat ts.length, _, ts, [], height,
      rfl, ?_, fun _ _ => hlen, hheight, ?_⟩
    · apply Batch.read_flatMap_encode hreadable
      exact Codec.transaction_exact.length_le_length_flatMap ts
    · rw [hlen]

theorem read_everything_eq_ok_iff (hraw : Header.size < raw.length) {network : Network} :
    (read raw (.everything network)).result = .ok b ↔
      ∃ header ts, (Fits ts ∧ ∀ t ∈ ts, t.Sized ∧ t.Readable) ∧
        raw = Header.encode header ++ CompactSize.encode (UInt64.ofNat ts.length) ++
          ts.flatMap Transaction.encode ∧
        b = { header, network, entries := ts.map .full, count := some ts.length,
              height := encodedHeight? header (ts.map .full) } := by
  rw [read_all_eq_ok_iff hraw rfl rfl]
  constructor
  · rintro ⟨header, ts, height, hts, hbytes, -, hheight, rfl⟩
    rw [ReadOptions.everything, settle_none] at hheight
    obtain rfl := Except.ok.inj hheight
    exact ⟨header, ts, hts, hbytes, rfl⟩
  · rintro ⟨header, ts, hts, hbytes, rfl⟩
    exact ⟨header, ts, _, hts, hbytes, nofun, settle_none _, rfl⟩

theorem fits_of_fits_flatMap (h : Fits (ts.flatMap Transaction.encode)) :
    Fits ts ∧ ∀ t ∈ ts, t.Sized :=
  ⟨h.mono (Codec.transaction_exact.length_le_length_flatMap ts),
    fun _ ht => Transaction.sized_of_fits_encode (h.of_flatMap ht)⟩

theorem Spells.fits (h : Spells raw ts) (hraw : Fits raw) :
    Fits ts ∧ ∀ t ∈ ts, t.Sized ∧ t.Readable := by
  rw [h.bytes] at hraw
  obtain ⟨hfits, hsized⟩ := fits_of_fits_flatMap hraw.of_append.2
  exact ⟨hfits, fun t ht => ⟨hsized t ht, h.readable t ht⟩⟩

theorem Spells.read_eq_ok (h : Spells raw ts) (hraw : Header.size < raw.length) (hfits : Fits raw)
    (network : Network) :
    ∃ header : Header, header.encode = raw.take Header.size ∧
      (read raw (.everything network)).result = .ok
        { header, network, entries := ts.map .full, count := some ts.length,
          height := encodedHeight? header (ts.map .full) } := by
  obtain ⟨header, hheader⟩ : ∃ header : Header, header.encode = raw.take Header.size :=
    Header.exists_encode_eq (by rw [List.length_take, Nat.min_eq_left hraw.le])
  refine ⟨header, hheader, (read_everything_eq_ok_iff hraw).mpr
    ⟨header, ts, h.fits hfits, ?_, rfl⟩⟩
  rw [hheader]
  exact h.bytes

/-- Addressable bytes beyond a header are a block with all its transactions exactly when they spell
a list of readable ones. The block then holds these transactions in order and nothing unread, its
header and hash are those of the first 80 bytes, and it is serialized to the bytes it was read from,
unless it has no transactions. -/
theorem read_everything_iff_spells {raw : List UInt8} (hraw : Header.size < raw.length)
    (hfits : Fits raw) (network : Network) :
    ((∃ b, (read raw (.everything network)).result = .ok b) ↔ ∃ ts, Spells raw ts) ∧
    ∀ b ts, (read raw (.everything network)).result = .ok b → Spells raw ts →
      b.header.encode = raw.take Header.size ∧
      b.hash = doubleHash (raw.take Header.size) ∧
      b.entries = ts.map .full ∧
      b.count = some ts.length ∧
      b.pending = [] ∧
      (ts ≠ [] → b.serialize = .ok raw) ∧
      (ts = [] → b.serialize = .error .incorrectTransactionCount) := by
  constructor
  · constructor
    · rintro ⟨b, hread⟩
      obtain ⟨header, ts, ⟨-, hts⟩, hbytes, -⟩ := (read_everything_eq_ok_iff hraw).mp hread
      have htake : raw.take Header.size = header.encode := by
        rw [hbytes, List.append_assoc]
        exact List.take_left' header.length_encode
      refine ⟨ts, fun t ht => (hts t ht).2, ?_⟩
      rw [htake]
      exact hbytes
    · rintro ⟨ts, hspells⟩
      obtain ⟨header, -, hread⟩ := hspells.read_eq_ok hraw hfits network
      exact ⟨_, hread⟩
  · intro b ts hread hspells
    obtain ⟨header, hheader, hblock⟩ := hspells.read_eq_ok hraw hfits network
    obtain rfl := Except.ok.inj (hread.symm.trans hblock)
    refine ⟨hheader, congrArg doubleHash hheader, rfl, rfl, rfl, ?_, ?_⟩
    · intro hne
      apply (serialize_eq_ok_iff rfl).mpr
      refine ⟨⟨hne, rfl⟩, ?_⟩
      rw [hheader]
      exact hspells.bytes
    · intro hnil
      rw [serialize_of_full rfl, if_pos (.inl hnil)]

theorem read_everything_pair :
    Header.size < pair.length ∧ Fits pair ∧ Spells pair [.witnessed, .witnessed] ∧
      ∃ b, (read pair (.everything .bitcoin)).result = .ok b ∧
        b.entries = [.full .witnessed, .full .witnessed] ∧ b.serialize = .ok pair := by
  have hraw : Header.size < pair.length := by decide +kernel
  have hfits : Fits pair := by decide +kernel
  have hspells : Spells pair [.witnessed, .witnessed] := ⟨by decide, by decide +kernel⟩
  obtain ⟨hiff, hparts⟩ := read_everything_iff_spells hraw hfits .bitcoin
  obtain ⟨b, hread⟩ := hiff.mpr ⟨_, hspells⟩
  obtain ⟨-, -, hentries, -, -, hserialize, -⟩ := hparts b _ hread hspells
  exact ⟨hraw, hfits, hspells, b, hread, hentries, hserialize (List.cons_ne_nil _ _)⟩

end BitcoinBlock.Block
