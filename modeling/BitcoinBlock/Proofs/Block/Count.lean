import BitcoinBlock.Proofs.Block.Conservation
import BitcoinBlock.Proofs.Block.Grammar
import BitcoinBlock.Proofs.Block.Lazy

/-! # The stated count

Only reading all transactions at once compares the stated count with the transactions. A block of
which nothing is pending is what reading all at once gives, if the count is right; a wrong count
stays with the block and keeps it from being serialized.
-/
namespace BitcoinBlock.Block

open Wire

variable {header : Header} {options : ReadOptions} {raw data pending : List UInt8} {b : Block}
  {ts : List Transaction} {count : UInt64}

/-- What reading with these options makes of the bytes, and any steps after it: the bytes are
accounted for, and the entries can be read again in the same order, with the same height. -/
structure ReadFrom (options : ReadOptions) (raw : List UInt8) (b : Block) : Prop where
  accounts : b.Accounts raw
  readable : ∀ t, .full t ∈ b.entries → t.Sized ∧ t.Readable
  pending_eq_nil : b.entries = [] → b.pending = []
  hash : ∀ e, options.hash = some e → e = b.header.hash
  height : settle (encodedHeight? b.header b.entries) options.height = .ok b.height
  confirmations : b.confirmations = none
  network : b.network = options.network

theorem eq_nil_of_read_bound
    (h : Batch.read (options.bound data.length) data = ⟨[], pending, none⟩) : pending = [] := by
  by_cases hdata : data = []
  · rw [hdata, Batch.read_nil] at h
    exact (congrArg Batch.rest h).symm
  · obtain ⟨n, hn⟩ := options.exists_bound_eq_succ hdata
    rw [hn] at h
    exact Batch.eq_nil_of_read_succ_eq h

theorem readFrom_of_read (hraw : Header.size < raw.length)
    (hread : (read raw options).result = .ok b) : b.ReadFrom options raw := by
  have haccounts := accounts_of_read hraw hread
  obtain ⟨header, body, -, hhash, hbody⟩ := (read_eq_ok_iff hraw).mp hread
  obtain ⟨count, data, ts, pending, height, -, hbatch, -, hheight, rfl⟩ :=
    readBody_eq_ok_iff.mp hbody
  refine ⟨haccounts, ?_, ?_, hhash, hheight, rfl, rfl⟩
  · intro t ht
    have hreadable := Batch.readable_of_mem (options.bound data.length) data
    rw [hbatch] at hreadable
    exact hreadable t (full_mem_map_iff.mp ht)
  · intro hnil
    obtain rfl : ts = [] := List.map_eq_nil_iff.mp hnil
    exact eq_nil_of_read_bound hbatch

theorem ReadFrom.encodedHeight?_append (h : b.ReadFrom options raw) (n : Nat) :
    encodedHeight? b.header (b.entries ++ (Batch.read n b.pending).transactions.map .full) =
      encodedHeight? b.header b.entries := by
  by_cases hentries : b.entries = []
  · rw [h.pending_eq_nil hentries, Batch.read_nil]
    exact congrArg _ (List.append_nil _)
  · exact Block.encodedHeight?_append b.header hentries _

theorem ReadFrom.parseTransactions (h : b.ReadFrom options raw) (limit : Nat) :
    (b.parseTransactions limit).1.ReadFrom options raw := by
  let n := if limit = 0 then b.pending.length else limit
  refine ⟨h.accounts.parseTransactions limit, ?_, ?_, h.hash, ?_, h.confirmations, h.network⟩
  · intro t ht
    rcases List.mem_append.mp ht with hfront | hback
    · exact h.readable t hfront
    · exact Batch.readable_of_mem n b.pending t (full_mem_map_iff.mp hback)
  · intro hnil
    have hpending := h.pending_eq_nil (List.append_eq_nil_iff.mp hnil).1
    change (Batch.read n b.pending).rest = []
    rw [hpending, Batch.read_nil]
  · exact (congrArg (settle · options.height) (h.encodedHeight?_append n)).trans h.height

theorem ReadFrom.afterSteps (h : b.ReadFrom options raw) (limits : List Nat) :
    (b.afterSteps limits).ReadFrom options raw := by
  induction limits generalizing b with
  | nil => exact h
  | cons limit rest ih => exact ih (h.parseTransactions limit)

theorem checkCount_result_of_ne {found stated : Nat} (hall : options.allTransactions = true)
    (hlimit : options.limit = 0) (hne : stated ≠ found) :
    (checkCount options found stated).result = .error .transactionCountMismatch := by
  rw [checkCount, if_pos ⟨hall, hlimit, hne⟩]
  rfl

theorem readBody_of_count_ne (hall : options.allTransactions = true) (hlimit : options.limit = 0)
    (hts : ∀ t ∈ ts, t.Sized ∧ t.Readable) (hne : count.toNat ≠ ts.length) :
    (readBody header (CompactSize.encode count ++ ts.flatMap Transaction.encode) options).result =
      .error .transactionCountMismatch := by
  have hcount : CompactSize.decode (CompactSize.encode count ++ ts.flatMap Transaction.encode) =
      .ok (count, ts.flatMap Transaction.encode) := CompactSize.decode_eq_ok_iff.mpr rfl
  have hfront : decodeFront options (ts.flatMap Transaction.encode) = .ok (ts, []) := by
    rw [decodeFront_eq_outcome, Batch.outcome_eq_ok_iff, ReadOptions.bound_of_all hall hlimit]
    apply Batch.read_flatMap_encode hts
    exact Codec.transaction_exact.length_le_length_flatMap ts
  simp only [readBody, Logged.result_bind, Logged.result_ofExcept, Logged.result_log, hcount,
    hfront, ok_bind, checkCount_result_of_ne hall hlimit hne, error_bind]

theorem read_of_append {body : List UInt8} (hbody : body ≠ [])
    (hhash : ∀ e, options.hash = some e → e = header.hash) :
    (read (header.encode ++ body) options).result = (readBody header body options).result := by
  have hcheck : (checkHash options.hash header.hash).result = .ok () :=
    checkHash_result_eq_ok_iff.mpr hhash
  rw [read_append_result, hcheck, ok_bind, if_neg (by simpa using hbody)]

/-- With nothing pending, the count is all that reading everything at once adds to the block. -/
theorem ReadFrom.read_eager_zero (h : b.ReadFrom options raw) (hraw : Header.size < raw.length)
    (hpending : b.pending = []) :
    (read raw (options.eager 0)).result =
      if b.count = some b.entries.length then .ok b else .error .transactionCountMismatch := by
  obtain ⟨count, ts, hcount, hlt, hentries, hbytes⟩ := h.accounts
  have hts : ∀ t ∈ ts, t.Sized ∧ t.Readable := by
    intro t ht
    apply h.readable t
    rw [hentries]
    exact full_mem_map_iff.mpr ht
  have hhash : ∀ e, (options.eager 0).hash = some e → e = b.header.hash := h.hash
  have hheight := h.height
  rw [hpending, List.append_nil] at hbytes
  rw [hentries] at hheight
  rw [hcount, hentries, List.length_map]
  split_ifs with hagree
  · obtain rfl : count = ts.length := Option.some.inj hagree
    refine (read_all_eq_ok_iff hraw rfl rfl).mpr
      ⟨b.header, ts, b.height, ⟨hlt, hts⟩, hbytes, hhash, hheight, ?_⟩
    rw [← hcount, ← hentries, ← hpending, ReadOptions.eager, ← h.network, ← h.confirmations]
  · have hbody : CompactSize.encode (UInt64.ofNat count) ++ ts.flatMap Transaction.encode ≠ [] := by
      have hpos := CompactSize.encode_length_pos (UInt64.ofNat count)
      exact List.append_ne_nil_of_left_ne_nil (List.length_pos_iff.mp hpos) _
    rw [hbytes, List.append_assoc, read_of_append hbody hhash]
    apply readBody_of_count_ne rfl rfl hts
    rw [UInt64.toNat_ofNat_of_lt' hlt]
    exact fun hcount => hagree (congrArg some hcount)

/-- A wrong count is not lost: the block can neither be serialized nor give a Merkle root. -/
theorem serialize_and_merkleRoot_of_count_ne (h : b.count ≠ some b.entries.length) :
    b.serialize = .error .incorrectTransactionCount ∧
      b.merkleRoot = .error .incorrectTransactionCount := by
  rw [serialize, if_pos (.inr h), merkleRoot, if_neg h]
  exact ⟨rfl, rfl⟩

/-- Where nothing is pending, reading everything at once gives the same block if the count is right
and nothing but the fault in the count if it is wrong. So the count is right if everything was read
at once, and a wrong one stays with the block and keeps it from being serialized. -/
theorem count_of_pending_eq_nil {raw : List UInt8} (hraw : Header.size < raw.length)
    {options : ReadOptions} {b : Block} (hread : (read raw options).result = .ok b)
    (limits : List Nat) (hpending : (b.afterSteps limits).pending = []) :
    (options.allTransactions = true → options.limit = 0 →
      (b.afterSteps limits).count = some (b.afterSteps limits).entries.length) ∧
    ((b.afterSteps limits).count = some (b.afterSteps limits).entries.length ↔
      (read raw (options.eager 0)).result = .ok (b.afterSteps limits)) ∧
    ((b.afterSteps limits).count ≠ some (b.afterSteps limits).entries.length →
      (read raw (options.eager 0)).result = .error .transactionCountMismatch ∧
      (b.afterSteps limits).serialize = .error .incorrectTransactionCount ∧
      (b.afterSteps limits).merkleRoot = .error .incorrectTransactionCount) := by
  have heager := ((readFrom_of_read hraw hread).afterSteps limits).read_eager_zero hraw hpending
  by_cases hcount : (b.afterSteps limits).count = some (b.afterSteps limits).entries.length
  · rw [if_pos hcount] at heager
    exact ⟨fun _ _ => hcount, iff_of_true hcount heager, fun hne => absurd hcount hne⟩
  · rw [if_neg hcount] at heager
    refine ⟨?_, ?_, ?_⟩
    · intro hall hlimit
      have hsame : options.eager 0 = options := by
        rw [ReadOptions.eager, ← hall, ← hlimit]
      rw [hsame, hread] at heager
      cases heager
    · apply iff_of_false hcount
      rw [heager]
      nofun
    · intro hne
      exact ⟨heager, serialize_and_merkleRoot_of_count_ne hne⟩

/-- A header, a count of one more than there are transactions, and the transactions. -/
def overstated (ts : List Transaction) : List UInt8 :=
  Header.encode {} ++ CompactSize.encode (UInt64.ofNat (ts.length + 1)) ++
    ts.flatMap Transaction.encode

def miscounted (ts : List Transaction) : Block where
  header := {}
  entries := ts.map .full
  count := some (ts.length + 1)
  height := none
  network := .bitcoin

/-- Two transactions and a count of two, read in two steps or at once, and one transaction with the
same count. -/
theorem count_of_pending_eq_nil_pair_and_overstated :
    (Header.size < pair.length ∧
      (read pair {}).result = .ok { opened with pending := Transaction.witnessed.encode } ∧
      (Block.afterSteps { opened with pending := Transaction.witnessed.encode } [0]).pending = [] ∧
      (read pair (ReadOptions.eager {} 0)).result =
        .ok { opened with entries := [.full .witnessed, .full .witnessed], pending := [] } ∧
      Block.count { opened with entries := [.full .witnessed, .full .witnessed], pending := [] } =
        some 2) ∧
    (Header.size < (overstated [.witnessed]).length ∧
      (read (overstated [.witnessed]) {}).result = .ok (miscounted [.witnessed]) ∧
      (miscounted [.witnessed]).pending = [] ∧
      (read (overstated [.witnessed]) (ReadOptions.eager {} 0)).result =
        .error .transactionCountMismatch ∧
      (miscounted [.witnessed]).serialize = .error .incorrectTransactionCount ∧
      (miscounted [.witnessed]).merkleRoot = .error .incorrectTransactionCount) := by
  constructor
  · have hraw : Header.size < pair.length := by decide +kernel
    have hread : (read pair {}).result =
        .ok { opened with pending := Transaction.witnessed.encode } := rfl
    obtain ⟨-, hiff, -⟩ := count_of_pending_eq_nil hraw hread [0] rfl
    have heager := hiff.mp rfl
    obtain ⟨hall, -⟩ := count_of_pending_eq_nil hraw heager [] rfl
    exact ⟨hraw, hread, rfl, heager, hall rfl rfl⟩
  · have hraw : Header.size < (overstated [.witnessed]).length := by decide +kernel
    have hread : (read (overstated [.witnessed]) {}).result = .ok (miscounted [.witnessed]) := rfl
    obtain ⟨-, -, hwrong⟩ := count_of_pending_eq_nil hraw hread [] rfl
    have hne : (miscounted [.witnessed]).count ≠
        some (miscounted [.witnessed]).entries.length := by decide
    exact ⟨hraw, hread, rfl, hwrong hne⟩

/-- A block with one transaction and a count of two is read lazily and up to a limit of two, and a
block with two transactions and a count of three is read in two steps. -/
theorem overstated_count_is_read :
    Header.size < (overstated [.witnessed]).length ∧
      (read (overstated [.witnessed]) {}).result = .ok (miscounted [.witnessed]) ∧
      (read (overstated [.witnessed]) (ReadOptions.eager {} 2)).result =
        .ok (miscounted [.witnessed]) ∧
      (miscounted [.witnessed]).pending = [] ∧
      (miscounted [.witnessed]).count ≠ some (miscounted [.witnessed]).entries.length ∧
    (∃ first, (read (overstated [.witnessed, .witnessed]) {}).result = .ok first ∧
      first.ContinuesTo 0 (miscounted [.witnessed, .witnessed])) ∧
      (miscounted [.witnessed, .witnessed]).pending = [] ∧
      (miscounted [.witnessed, .witnessed]).count ≠
        some (miscounted [.witnessed, .witnessed]).entries.length := by
  have hraw : Header.size < (overstated [.witnessed]).length := by decide +kernel
  refine ⟨hraw, rfl, rfl, rfl, by decide, ⟨_, rfl, ⟨1, rfl⟩, rfl⟩, rfl, by decide⟩

end BitcoinBlock.Block
