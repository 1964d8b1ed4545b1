import BitcoinBlock.Block.Basic
import BitcoinBlock.Proofs.Block.Batch
import BitcoinBlock.Proofs.Header
import BitcoinBlock.Proofs.Wire.Exact
import Mathlib.Data.List.Basic
import Mathlib.Tactic.SplitIfs

/-! # Writing, checking and reading blocks

A block whose transactions are all known is written as its header, their number and their bytes.
-/
namespace BitcoinBlock

namespace Block

open Wire

variable {b : Block} {ts : List Transaction} {raw : List UInt8}

theorem transactionsOf_map_full (ts : List Transaction) :
    transactionsOf (ts.map .full) = .ok ts := by
  induction ts with
  | nil => rfl
  | cons t others ih => rw [List.map_cons, transactionsOf, ih, Except.map]

theorem full_mem_map_iff {t : Transaction} : .full t ∈ ts.map Entry.full ↔ t ∈ ts :=
  List.mem_map_of_injective fun _ _ => Entry.full.inj

theorem serialize_of_full (hentries : b.entries = ts.map .full) :
    b.serialize = if ts = [] ∨ b.count ≠ some ts.length then .error .incorrectTransactionCount
      else .ok (b.header.encode ++ CompactSize.encode (UInt64.ofNat ts.length) ++
        ts.flatMap Transaction.encode) := by
  rw [serialize, hentries, transactionsOf_map_full, ok_bind]
  simp only [List.length_map, List.isEmpty_iff, List.map_eq_nil_iff, List.append_assoc]
  rfl

theorem serialize_eq_ok_iff (hentries : b.entries = ts.map .full) :
    b.serialize = .ok raw ↔ (ts ≠ [] ∧ b.count = some ts.length) ∧
      raw = b.header.encode ++ CompactSize.encode (UInt64.ofNat ts.length) ++
        ts.flatMap Transaction.encode := by
  rw [serialize_of_full hentries]
  by_cases h : ts = [] ∨ b.count ≠ some ts.length
  · rw [if_pos h]
    simp only [reduceCtorEq, false_iff]
    exact fun hok => h.elim hok.1.1 fun hne => hne hok.1.2
  · rw [if_neg h, Except.ok.injEq, eq_comm]
    rw [not_or, not_not] at h
    exact ⟨fun hraw => ⟨h, hraw⟩, fun hok => hok.2⟩

theorem exists_serialize_eq_ok (hentries : b.entries = ts.map .full) (hne : ts ≠ [])
    (hcount : b.count = some ts.length) : ∃ raw, b.serialize = .ok raw :=
  ⟨_, (serialize_eq_ok_iff hentries).mpr ⟨⟨hne, hcount⟩, rfl⟩⟩

end Block

/-! ## The Merkle root of a block

Every list of hashes but the empty one has a root. A block is checked by comparing the root of its
ids with the one in its header.
-/

namespace Merkle

theorem root_eq_none_iff {level : List Hash} : root level = none ↔ level = [] := by
  fun_induction root level with
  | case1 => simp
  | case2 top => simp
  | case3 left right rest ih =>
    rw [ih, parents]
    simp

end Merkle

namespace Block

theorem checkMerkleRoot_eq (b : Block) :
    b.checkMerkleRoot =
      if b.count = some b.entries.length then
        (Merkle.root b.ids).elim (.error .incorrectTransactionCount)
          (fun root => .ok (root == b.header.merkleRoot))
      else .error .incorrectTransactionCount := by
  rw [checkMerkleRoot, merkleRoot]
  split_ifs with hcount
  · cases Merkle.root b.ids with
    | none => rfl
    | some root => rfl
  · rfl

end Block

/-! ## Reading

Reading succeeds exactly on a header, a compact size and a batch without a fault, when the counts,
the hash and the heights that have to agree do so.
-/

namespace Block

open Wire

variable {header : Header} {entries : List Entry} {options : ReadOptions} {raw body : List UInt8}
  {b : Block}

/-- The height in the coinbase of a block with these parts. -/
def encodedHeight? (header : Header) (entries : List Entry) : Option UInt32 :=
  coinbaseHeight? { header, entries, count := none, height := none, network := .bitcoin }

/-- Only the first transaction counts. -/
theorem encodedHeight?_append (header : Header) (hne : entries ≠ []) (others : List Entry) :
    encodedHeight? header (entries ++ others) = encodedHeight? header entries := by
  have hhead : (entries ++ others).head? = entries.head? := by
    rw [List.head?_append, List.head?_eq_some_head hne]
    rfl
  simp only [encodedHeight?, coinbaseHeight?, coinbase?, hhead]

/-- The height that is left of an encoded and a stated one. -/
def settle (encoded stated : Option UInt32) : Except Error (Option UInt32) :=
  match encoded, stated with
  | none, stated => .ok stated
  | some encoded, none => .ok (some encoded)
  | some encoded, some stated =>
    if stated = encoded then .ok (some encoded) else .error .heightMismatch

theorem settle_none (encoded : Option UInt32) : settle encoded none = .ok encoded := by
  cases encoded <;> rfl

theorem assemble_result (header : Header) (entries : List Entry) (height : Option UInt32)
    (network : Network) :
    (assemble header entries height network).result =
      (settle (encodedHeight? header entries) height).map fun height =>
        { header, entries, height, network
          count := if entries.isEmpty then none else some entries.length } := by
  have hencoded : ∀ count height network, coinbaseHeight?
      { header, entries, count, height, network } = encodedHeight? header entries :=
    fun _ _ _ => rfl
  simp only [assemble, hencoded]
  cases encodedHeight? header entries with
  | none =>
    cases height with
    | none => rfl
    | some stated => rfl
  | some encoded =>
    cases height with
    | none => rfl
    | some stated =>
      by_cases h : stated = encoded
      · subst h
        simp only [settle, if_true]
        rfl
      · simp only [settle, if_neg h]
        rfl

theorem assemble_nil_result (header : Header) (height : Option UInt32) (network : Network) :
    (assemble header [] height network).result =
      .ok { header, entries := [], count := none, height, network } := by
  have hencoded : encodedHeight? header [] = none := by
    rw [encodedHeight?, coinbaseHeight?]
    split <;> rfl
  rw [assemble_result, hencoded]
  rfl

theorem parts_of_assemble {height : Option UInt32} {network : Network} (hne : entries ≠ [])
    (h : (assemble header entries height network).result = .ok b) :
    b.header = header ∧ b.entries = entries ∧ b.count = some b.entries.length := by
  rw [assemble_result, map_eq_ok_iff] at h
  obtain ⟨settled, -, rfl⟩ := h
  exact ⟨rfl, rfl, if_neg (by simpa using hne)⟩

theorem checkCount_result_eq_ok_iff {found stated : Nat} {u : Unit} :
    (checkCount options found stated).result = .ok u ↔
      (options.allTransactions = true → options.limit = 0 → stated = found) := by
  rw [checkCount]
  split_ifs with h
  · simp only [Logged.result_bind, Logged.result_log, Logged.result_fail, ok_bind, reduceCtorEq,
      false_iff]
    intro hagree
    exact h.2.2 (hagree h.1 h.2.1)
  · simp only [Logged.result_pure, true_iff]
    intro hall hlimit
    by_contra hne
    exact h ⟨hall, hlimit, hne⟩

theorem checkHash_result_eq_ok_iff {expected : Option Hash} {actual : Hash} {u : Unit} :
    (checkHash expected actual).result = .ok u ↔ ∀ e, expected = some e → e = actual := by
  cases expected with
  | none => simp [checkHash]
  | some e =>
    by_cases h : e = actual
    · simp [checkHash, h]
    · simp [checkHash, h, ok_bind]

theorem readBody_eq_ok_iff :
    (readBody header body options).result = .ok b ↔
      ∃ count data ts pending height,
        body = CompactSize.encode count ++ data ∧
        Batch.read (options.bound data.length) data = ⟨ts, pending, none⟩ ∧
        (options.allTransactions = true → options.limit = 0 → count.toNat = ts.length) ∧
        settle (encodedHeight? header (ts.map .full)) options.height = .ok height ∧
        b = { header, pending, height, entries := ts.map .full, count := some count.toNat,
              network := options.network } := by
  simp only [readBody, Logged.result_bind, Logged.result_ofExcept, Logged.result_log,
    Logged.result_pure, ok_bind, bind_eq_ok_iff, Prod.exists, CompactSize.decode_eq_ok_iff,
    decodeFront_eq_outcome, Batch.outcome_eq_ok_iff, checkCount_result_eq_ok_iff, assemble_result,
    map_eq_ok_iff, Except.ok.injEq]
  constructor
  · rintro ⟨count, data, hbody, ts, pending, hbatch, -, hcount, _, ⟨height, hheight, rfl⟩, rfl⟩
    exact ⟨count, data, ts, pending, height, hbody, hbatch, hcount, hheight, rfl⟩
  · rintro ⟨count, data, ts, pending, height, hbody, hbatch, hcount, hheight, rfl⟩
    exact ⟨count, data, hbody, ts, pending, hbatch, (), hcount, _, ⟨height, hheight, rfl⟩, rfl⟩

theorem read_append_result (header : Header) (body : List UInt8) (options : ReadOptions) :
    (read (header.encode ++ body) options).result =
      (checkHash options.hash header.hash).result >>= fun _ =>
        if body.isEmpty then (assemble header [] options.height options.network).result
        else (readBody header body options).result := by
  have hheader : Header.decode (header.encode ++ body) = .ok (header, body) :=
    Header.decode_eq_ok_iff.mpr rfl
  simp only [read, Logged.result_bind, Logged.result_ofExcept, hheader, ok_bind]
  split <;> rfl

theorem read_eq_ok_iff (hraw : Header.size < raw.length) :
    (read raw options).result = .ok b ↔
      ∃ header body, raw = Header.encode header ++ body ∧
        (∀ e, options.hash = some e → e = header.hash) ∧
        (readBody header body options).result = .ok b := by
  simp only [read, Logged.result_bind, Logged.result_ofExcept, bind_eq_ok_iff, Prod.exists,
    Header.decode_eq_ok_iff, checkHash_result_eq_ok_iff]
  have hbody : ∀ header body, raw = Header.encode header ++ body → body.isEmpty ≠ true := by
    rintro header body rfl hempty
    rw [List.isEmpty_iff.mp hempty, List.append_nil, Header.length_encode] at hraw
    exact lt_irrefl _ hraw
  constructor
  · rintro ⟨header, body, hsplit, -, hhash, hread⟩
    rw [if_neg (hbody header body hsplit)] at hread
    exact ⟨header, body, hsplit, hhash, hread⟩
  · rintro ⟨header, body, hsplit, hhash, hread⟩
    refine ⟨header, body, hsplit, (), hhash, ?_⟩
    rwa [if_neg (hbody header body hsplit)]

/-- A header and a transaction with a witness, twice. -/
def pair : List UInt8 :=
  Header.encode {} ++ (Codec.list Codec.transaction).encode [.witnessed, .witnessed]

/-- What lazy reading makes of it, with one byte more behind it. -/
def opened : Block where
  header := {}
  entries := [.full .witnessed]
  pending := Transaction.witnessed.encode ++ [0xff]
  count := some 2
  height := none
  network := .bitcoin

end Block

end BitcoinBlock
