import BitcoinBlock.Proofs.Block.Reading

/-! # Conservation of bytes

However a block is read, and in however many steps, its header, its count, its transactions and its
pending bytes make up the bytes it came from. A step that meets a fault keeps what it read before.
-/
namespace BitcoinBlock.Block

open Wire

variable {raw : List UInt8} {b : Block}

/-- The bytes are those of the header, the stated count, the known transactions and the pending
data, in this order. -/
def Accounts (b : Block) (raw : List UInt8) : Prop :=
  ∃ (count : Nat) (ts : List Transaction),
    b.count = some count ∧ count < UInt64.size ∧ b.entries = ts.map .full ∧
    raw = b.header.encode ++ CompactSize.encode (UInt64.ofNat count) ++
      ts.flatMap Transaction.encode ++ b.pending

/-- What further reading leaves alone. -/
structure SameFrame (b next : Block) : Prop where
  header : next.header = b.header
  hash : next.hash = b.hash
  count : next.count = b.count
  height : next.height = b.height
  confirmations : next.confirmations = b.confirmations
  network : next.network = b.network

/-- The block behind a run of steps with these limits, some of which may have failed. -/
def afterSteps (b : Block) (limits : List Nat) : Block :=
  limits.foldl (fun b limit => (b.parseTransactions limit).1) b

theorem SameFrame.refl (b : Block) : SameFrame b b := ⟨rfl, rfl, rfl, rfl, rfl, rfl⟩

theorem SameFrame.trans {b c d : Block} (hc : SameFrame b c) (hd : SameFrame c d) :
    SameFrame b d where
  header := hd.header.trans hc.header
  hash := hd.hash.trans hc.hash
  count := hd.count.trans hc.count
  height := hd.height.trans hc.height
  confirmations := hd.confirmations.trans hc.confirmations
  network := hd.network.trans hc.network

theorem sameFrame_parseTransactions (limit : Nat) (b : Block) :
    SameFrame b (b.parseTransactions limit).1 := ⟨rfl, rfl, rfl, rfl, rfl, rfl⟩

theorem accounts_of_read (hraw : Header.size < raw.length) {options : ReadOptions}
    (hread : (read raw options).result = .ok b) : b.Accounts raw := by
  obtain ⟨header, body, rfl, -, hbody⟩ := (read_eq_ok_iff hraw).mp hread
  obtain ⟨count, data, ts, pending, height, rfl, hbatch, -, -, rfl⟩ := readBody_eq_ok_iff.mp hbody
  have hdata := Batch.flatMap_encode_append_rest (options.bound data.length) data
  rw [hbatch] at hdata
  refine ⟨count.toNat, ts, rfl, count.toNat_lt_size, rfl, ?_⟩
  rw [UInt64.ofNat_toNat, ← hdata]
  simp only [List.append_assoc]

theorem Accounts.parseTransactions (h : b.Accounts raw) (limit : Nat) :
    (b.parseTransactions limit).1.Accounts raw := by
  obtain ⟨count, ts, hcount, hlt, hentries, hbytes⟩ := h
  let n := if limit = 0 then b.pending.length else limit
  have hdata := Batch.flatMap_encode_append_rest n b.pending
  refine ⟨count, ts ++ (Batch.read n b.pending).transactions, hcount, hlt, ?_, ?_⟩
  · rw [List.map_append, ← hentries]
    rfl
  · rw [List.flatMap_append, ← List.append_assoc, List.append_assoc _ _ (Block.pending _)]
    change raw = _ ++ (_ ++ (Batch.read n b.pending).rest)
    rw [hdata]
    exact hbytes

theorem Accounts.afterSteps (h : b.Accounts raw) (limits : List Nat) :
    (b.afterSteps limits).Accounts raw ∧ SameFrame b (b.afterSteps limits) := by
  induction limits generalizing b with
  | nil => exact ⟨h, .refl b⟩
  | cons limit rest ih =>
    obtain ⟨haccounts, hframe⟩ := ih (h.parseTransactions limit)
    exact ⟨haccounts, (sameFrame_parseTransactions limit b).trans hframe⟩

theorem Accounts.serialize_append_pending (h : b.Accounts raw) {s : List UInt8}
    (hs : b.serialize = .ok s) : s ++ b.pending = raw := by
  obtain ⟨count, ts, hcount, -, hentries, hbytes⟩ := h
  obtain ⟨⟨-, hlen⟩, rfl⟩ := (serialize_eq_ok_iff hentries).mp hs
  obtain rfl : count = ts.length := Option.some.inj (hcount.symm.trans hlen)
  exact hbytes.symm

/-- No byte is lost or doubled by any run of steps on a block that was read, and nothing but the
entries and the pending data changes. Where the block can be serialized, the pending data is what
the serialization lacks. -/
theorem steps_conserve_bytes {raw : List UInt8} (hraw : Header.size < raw.length)
    {options : ReadOptions} {b : Block} (hread : (read raw options).result = .ok b)
    (limits : List Nat) :
    (b.afterSteps limits).Accounts raw ∧ SameFrame b (b.afterSteps limits) ∧
      ∀ s, (b.afterSteps limits).serialize = .ok s → s ++ (b.afterSteps limits).pending = raw := by
  obtain ⟨haccounts, hframe⟩ := (accounts_of_read hraw hread).afterSteps limits
  exact ⟨haccounts, hframe, fun _ hs => haccounts.serialize_append_pending hs⟩

/-- The last step meets a fault, and the byte that it cannot read stays behind. -/
theorem steps_conserve_bytes_of_opened :
    Header.size < (pair ++ [0xff]).length ∧ (read (pair ++ [0xff]) {}).result = .ok opened ∧
      (opened.afterSteps [1, 0]).Accounts (pair ++ [0xff]) ∧
      SameFrame opened (opened.afterSteps [1, 0]) ∧
      pair ++ (opened.afterSteps [1, 0]).pending = pair ++ [0xff] ∧
      ((opened.afterSteps [1]).parseTransactions 0).2.result = .error .endOfData := by
  have hraw : Header.size < (pair ++ [0xff]).length := by decide +kernel
  have hread : (read (pair ++ [0xff]) {}).result = .ok opened := rfl
  obtain ⟨haccounts, hframe, hserialize⟩ := steps_conserve_bytes hraw hread [1, 0]
  exact ⟨hraw, hread, haccounts, hframe, hserialize pair rfl, rfl⟩

end BitcoinBlock.Block
