import BitcoinBlock.Proofs.Block.Grammar
import BitcoinBlock.Proofs.Block.Mining

/-! # Reading back what was written

A block is read from its serialization as itself when its transactions can be read back and the
height it has is the one that reading settles on. A block made from its parts meets the latter when
its height is stated again; a mined one meets it without, if its coinbase says the height.
-/
namespace BitcoinBlock.Block

open Wire

variable {raw : List UInt8} {b : Block} {ts : List Transaction} {options : ReadOptions}

/-- The counts of the block's list of transactions and of the lists inside them. -/
structure Sized (b : Block) : Prop where
  entries : Fits b.entries
  transaction : ∀ t, .full t ∈ b.entries → t.Sized

/-- Every transaction of the block can be read back. -/
def Readable (b : Block) : Prop := ∀ t, .full t ∈ b.entries → t.Readable

/-- The options that expect all of this block. -/
def ReadOptions.expecting (b : Block) : ReadOptions where
  hash := some b.hash
  height := b.height
  allTransactions := true
  limit := 0
  network := b.network

theorem forall_full_mem_iff {P : Transaction → Prop} (hentries : b.entries = ts.map .full) :
    (∀ t, .full t ∈ b.entries → P t) ↔ ∀ t ∈ ts, P t := by
  rw [hentries]
  simp only [full_mem_map_iff]

theorem readable_iff (hentries : b.entries = ts.map .full) :
    b.Readable ↔ ∀ t ∈ ts, t.Readable := forall_full_mem_iff hentries

theorem sized_iff (hentries : b.entries = ts.map .full) :
    b.Sized ↔ Fits ts ∧ ∀ t ∈ ts, t.Sized := by
  have hlength : b.entries.length = ts.length := by rw [hentries, List.length_map]
  constructor
  · rintro ⟨hfits, hsized⟩
    exact ⟨hfits.mono hlength.ge, (forall_full_mem_iff hentries).mp hsized⟩
  · rintro ⟨hfits, hsized⟩
    exact ⟨hfits.mono hlength.le, (forall_full_mem_iff hentries).mpr hsized⟩

theorem settle_settled {encoded stated height : Option UInt32}
    (h : settle encoded stated = .ok height) : settle encoded height = .ok height := by
  cases encoded with
  | none => rfl
  | some encoded =>
    obtain rfl : some encoded = height := by
      cases stated with
      | none => exact Except.ok.inj h
      | some stated =>
        rw [settle] at h
        split_ifs at h
        exact Except.ok.inj h
    exact if_pos rfl

theorem size_lt_length_of_serialize (hentries : b.entries = ts.map .full)
    (hserialize : b.serialize = .ok raw) : Header.size < raw.length := by
  have hcount := CompactSize.encode_length_pos (UInt64.ofNat ts.length)
  rw [((serialize_eq_ok_iff hentries).mp hserialize).2]
  simp only [List.length_append, Header.length_encode]
  omega

/-- When a block is read back from its serialization, all transactions being asked for. -/
theorem read_serialize_eq_ok_iff (hentries : b.entries = ts.map .full)
    (hserialize : b.serialize = .ok raw) (hsized : b.Sized)
    (hall : options.allTransactions = true) (hlimit : options.limit = 0) :
    (read raw options).result = .ok b ↔
      b.Readable ∧ (b.pending = [] ∧ b.confirmations = none ∧ b.network = options.network) ∧
        (∀ e, options.hash = some e → e = b.hash) ∧
        settle (encodedHeight? b.header b.entries) options.height = .ok b.height := by
  rw [read_all_eq_ok_iff (size_lt_length_of_serialize hentries hserialize) hall hlimit]
  constructor
  · rintro ⟨header, ts, height, ⟨-, hts⟩, -, hhash, hheight, rfl⟩
    refine ⟨?_, ⟨rfl, rfl, rfl⟩, hhash, hheight⟩
    exact (readable_iff rfl).mpr fun t ht => (hts t ht).2
  · rintro ⟨hreadable, ⟨hpending, hconfirmations, hnetwork⟩, hhash, hheight⟩
    obtain ⟨⟨-, hcount⟩, hbytes⟩ := (serialize_eq_ok_iff hentries).mp hserialize
    obtain ⟨hfits, hsized⟩ := (sized_iff hentries).mp hsized
    rw [readable_iff hentries] at hreadable
    rw [hentries] at hheight
    refine ⟨b.header, ts, b.height, ⟨hfits, ?_⟩, hbytes, hhash, hheight, ?_⟩
    · exact fun t ht => ⟨hsized t ht, hreadable t ht⟩
    · rw [← hentries, ← hcount, ← hnetwork, ← hpending, ← hconfirmations]

theorem assemble_eq_ok_iff {header : Header} {height : Option UInt32} {network : Network}
    (hne : ts ≠ []) :
    (assemble header (ts.map .full) height network).result = .ok b ↔
      ∃ settled, settle (encodedHeight? header (ts.map .full)) height = .ok settled ∧
        b = { header, network, entries := ts.map .full, count := some ts.length,
              height := settled } := by
  have hisEmpty : (ts.map Entry.full).isEmpty ≠ true :=
    fun h => hne (List.map_eq_nil_iff.mp (List.isEmpty_iff.mp h))
  simp only [assemble_result, map_eq_ok_iff, if_neg hisEmpty, List.length_map, @eq_comm _ b]

/-- Whatever height was stated, the hash and the height of a block made from its parts are those
that its own bytes are read with. -/
theorem exists_serialize_of_assemble {header : Header} {height : Option UInt32} {network : Network}
    (hne : ts ≠ []) (h : (assemble header (ts.map .full) height network).result = .ok b)
    (hsized : b.Sized) :
    ∃ raw, b.serialize = .ok raw ∧
      ((read raw (.expecting b)).result = .ok b ↔ b.Readable) := by
  obtain ⟨settled, hsettled, hb⟩ := (assemble_eq_ok_iff hne).mp h
  have hentries : b.entries = ts.map .full := congrArg entries hb
  obtain ⟨raw, hserialize⟩ := exists_serialize_eq_ok hentries hne (congrArg count hb)
  refine ⟨raw, hserialize, ?_⟩
  rw [read_serialize_eq_ok_iff hentries hserialize hsized rfl rfl]
  have hhash : ∀ e, some b.hash = some e → e = b.hash :=
    fun e he => (Option.some.inj he).symm
  have hheight : settle (encodedHeight? b.header b.entries) b.height = .ok b.height := by
    rw [hb]
    exact settle_settled hsettled
  exact and_iff_left ⟨⟨congrArg pending hb, congrArg confirmations hb, rfl⟩, hhash, hheight⟩

/-- A mined block is read back from its bytes alone if its coinbase says its height. -/
theorem exists_serialize_of_mine {t : Template} (h : t.mine.result = .ok b) (hsized : b.Sized) :
    ∃ raw, b.serialize = .ok raw ∧
      ((read raw (.everything b.network)).result = .ok b ↔
        b.Readable ∧ 1 < t.version ∧ t.height.toNat < 2 ^ 31) := by
  obtain ⟨merkleRoot, nonce, rfl⟩ := t.exists_block_of_mine h
  have hentries : (t.block merkleRoot nonce).entries = t.allTransactions.map .full := rfl
  obtain ⟨raw, hserialize⟩ := exists_serialize_eq_ok hentries (List.cons_ne_nil _ _) rfl
  refine ⟨raw, hserialize, ?_⟩
  rw [read_serialize_eq_ok_iff hentries hserialize hsized rfl rfl]
  constructor
  · rintro ⟨hreadable, -, -, hsettled⟩
    exact ⟨hreadable, (t.settle_encodedHeight?_none_iff merkleRoot nonce).mp hsettled⟩
  · rintro ⟨hreadable, hsays⟩
    have hsettled := (t.settle_encodedHeight?_none_iff merkleRoot nonce).mpr hsays
    exact ⟨hreadable, ⟨rfl, rfl, rfl⟩, nofun, hsettled⟩

/-- Blocks made from their parts are read back when their own hash and height are expected, and
mined blocks when nothing is, but for two exceptions: a transaction that starts like a flag is
misread, and a height that the coinbase does not say is lost unless it is stated. -/
theorem read_serialize_iff_readable :
    (∀ (header : Header) (ts : List Transaction) (height : Option UInt32) (network : Network)
        (b : Block), ts ≠ [] →
      (assemble header (ts.map .full) height network).result = .ok b → b.Sized →
      ∃ raw, b.serialize = .ok raw ∧
        ((read raw (.expecting b)).result = .ok b ↔ b.Readable)) ∧
    ∀ (t : Template) (b : Block), t.mine.result = .ok b → b.Sized →
      ∃ raw, b.serialize = .ok raw ∧
        ((read raw (.everything b.network)).result = .ok b ↔
          b.Readable ∧ 1 < t.version ∧ t.height.toNat < 2 ^ 31) := by
  constructor
  · intro header ts height network b hne h hsized
    exact exists_serialize_of_assemble hne h hsized
  · intro t b h hsized
    exact exists_serialize_of_mine h hsized

/-- A block whose height is in the script of its first transaction, if that is `witnessed`. -/
def numbered (ts : List Transaction) : Block where
  header := { version := 2 }
  entries := ts.map .full
  count := some ts.length
  height := some 1
  network := .bitcoin

theorem assemble_numbered (others : List Transaction) :
    (assemble { version := 2 } ((.witnessed :: others).map .full) none .bitcoin).result =
      .ok (numbered (.witnessed :: others)) :=
  (assemble_eq_ok_iff (List.cons_ne_nil _ _)).mpr ⟨some 1, rfl, rfl⟩

theorem sized_numbered (hfits : Fits (ts.flatMap Transaction.encode)) : (numbered ts).Sized :=
  (sized_iff rfl).mpr (fits_of_fits_flatMap hfits)

def lucky : Template where
  height := 17

theorem mine_lucky : ∃ b, lucky.mine.result = .ok b ∧ b.Sized ∧ b.Readable := by
  have hroot := Template.root_of_transactions_eq_nil (t := lucky) rfl
  have hcheck : ProofOfWork.check (lucky.header lucky.coinbase.id 0).hash lucky.bits = true := by
    decide +kernel
  obtain ⟨b, hmine⟩ := Template.exists_mine_eq_ok hroot hcheck
  obtain ⟨merkleRoot, nonce, rfl⟩ := Template.exists_block_of_mine hmine
  have hentries : (lucky.block merkleRoot nonce).entries = [lucky.coinbase].map .full := rfl
  refine ⟨_, hmine, (sized_iff hentries).mpr ?_, (readable_iff hentries).mpr (by decide)⟩
  exact fits_of_fits_flatMap (by decide)

theorem read_serialize_numbered_and_lucky :
    ((assemble { version := 2 } ([.witnessed].map .full) none .bitcoin).result =
        .ok (numbered [.witnessed]) ∧
      (numbered [.witnessed]).Sized ∧
      ∃ raw, (numbered [.witnessed]).serialize = .ok raw ∧
        (read raw (.expecting (numbered [.witnessed]))).result = .ok (numbered [.witnessed])) ∧
    ((assemble { version := 2 } ([.witnessed, .payout].map .full) none .bitcoin).result =
        .ok (numbered [.witnessed, .payout]) ∧
      (numbered [.witnessed, .payout]).Sized ∧
      ∃ raw, (numbered [.witnessed, .payout]).serialize = .ok raw ∧
        (read raw (.expecting (numbered [.witnessed, .payout]))).result ≠
          .ok (numbered [.witnessed, .payout])) ∧
    ∃ b, lucky.mine.result = .ok b ∧ b.Sized ∧
      ∃ raw, b.serialize = .ok raw ∧ (read raw (.everything b.network)).result = .ok b := by
  obtain ⟨hassembled, hmined⟩ := read_serialize_iff_readable
  refine ⟨?_, ?_, ?_⟩
  · have hsized : (numbered [.witnessed]).Sized := sized_numbered (by decide)
    obtain ⟨raw, hserialize, hread⟩ :=
      hassembled _ _ _ _ _ (List.cons_ne_nil _ _) (assemble_numbered []) hsized
    have hreadable := (readable_iff (b := numbered [.witnessed]) rfl).mpr (by decide)
    exact ⟨assemble_numbered [], hsized, raw, hserialize, hread.mpr hreadable⟩
  · have hsized : (numbered [.witnessed, .payout]).Sized := sized_numbered (by decide)
    obtain ⟨raw, hserialize, hread⟩ :=
      hassembled _ _ _ _ _ (List.cons_ne_nil _ _) (assemble_numbered [.payout]) hsized
    refine ⟨assemble_numbered [.payout], hsized, raw, hserialize, fun hok => ?_⟩
    have hpayout := (readable_iff rfl).mp (hread.mp hok) .payout (by decide)
    revert hpayout
    decide
  · obtain ⟨b, hmine, hsized, hreadable⟩ := mine_lucky
    obtain ⟨raw, hserialize, hread⟩ := hmined _ _ hmine hsized
    exact ⟨b, hmine, hsized, raw, hserialize, hread.mpr ⟨hreadable, by decide, by decide⟩⟩

end BitcoinBlock.Block
