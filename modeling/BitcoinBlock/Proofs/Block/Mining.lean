import BitcoinBlock.Block.Template
import BitcoinBlock.Proofs.Block.Reading
import BitcoinBlock.Proofs.Script

/-! # Mining

Mining a template gives a block that passes every check: its hash is below the target, its header
commits to its transactions, and its height is the template's. It fails only when no nonce makes
such a block.
-/
namespace BitcoinBlock.Block

variable {passes : UInt32 → Bool} {nonce : UInt32}

theorem findNonce_passes {n : Nat} {start : UInt32} (h : findNonce passes n start = some nonce) :
    passes nonce = true := by
  induction n generalizing start with
  | zero => cases h
  | succ n ih =>
    rw [findNonce] at h
    split_ifs at h with hstart
    · obtain rfl := Option.some.inj h
      exact hstart
    · exact ih h

theorem add_one_add_ofNat (start : UInt32) (k : Nat) :
    start + 1 + UInt32.ofNat k = start + UInt32.ofNat (k + 1) := by
  rw [UInt32.ofNat_add, UInt32.add_assoc, UInt32.add_comm 1]
  rfl

theorem findNonce_eq_none_iff {n : Nat} {start : UInt32} :
    findNonce passes n start = none ↔ ∀ k < n, passes (start + UInt32.ofNat k) = false := by
  induction n generalizing start with
  | zero => simp [findNonce]
  | succ n ih =>
    rw [findNonce, Nat.forall_lt_succ_left]
    split_ifs with hstart
    · simp [hstart]
    · simp [hstart, ih, add_one_add_ofNat]

/-- A search through all nonces misses none. -/
theorem findNonce_all_eq_none_iff :
    findNonce passes UInt32.size 0 = none ↔ ∀ nonce, passes nonce = false := by
  rw [findNonce_eq_none_iff]
  constructor
  · intro h nonce
    have hnonce := h nonce.toNat nonce.toNat_lt
    rwa [UInt32.ofNat_toNat, UInt32.zero_add] at hnonce
  · exact fun h k _ => h _

theorem ids_of_full {b : Block} {ts : List Transaction} (hentries : b.entries = ts.map .full) :
    b.ids = ts.map Transaction.id := by
  rw [ids, hentries, List.map_map]
  rfl

theorem checkMerkleRoot_eq_ok_true_iff {b : Block} :
    b.checkMerkleRoot = .ok true ↔
      b.count = some b.entries.length ∧ Merkle.root b.ids = some b.header.merkleRoot := by
  rw [checkMerkleRoot_eq]
  split_ifs with hcount
  · cases Merkle.root b.ids with
    | none => simp
    | some root => simp [hcount]
  · simp [hcount]

namespace Template

variable {t : Template} {b : Block} {merkleRoot : Hash}

def block (t : Template) (merkleRoot : Hash) (nonce : UInt32) : Block where
  header := t.header merkleRoot nonce
  entries := t.allTransactions.map .full
  count := some t.allTransactions.length
  height := some t.height
  network := t.network

theorem check_of_nonce? (h : t.nonce? merkleRoot = some nonce) :
    ProofOfWork.check (t.header merkleRoot nonce).hash t.bits = true := by
  rw [nonce?] at h
  split_ifs at h
  have hpasses := findNonce_passes h
  exact hpasses

/-- The coinbase of a template says its height, if the version allows it to and the height is one
that scripts can say. -/
theorem encodedHeight?_header (t : Template) (merkleRoot : Hash) (nonce : UInt32) :
    encodedHeight? (t.header merkleRoot nonce) (t.allTransactions.map .full) =
      if 1 < t.version ∧ t.height.toNat < 2 ^ 31 then some t.height else none := by
  change (if t.version ≤ 1 then none
    else ((Script.ofHeight t.height).append t.coinbaseData).height?) = _
  rw [Script.height?_ofHeight_append]
  by_cases hversion : t.version ≤ 1
  · rw [if_pos hversion, if_neg]
    exact fun h => UInt32.not_le.mpr h.1 hversion
  · simp only [if_neg hversion, UInt32.not_le.mp hversion, true_and]

theorem settle_encodedHeight? (t : Template) (merkleRoot : Hash) (nonce : UInt32) :
    settle (encodedHeight? (t.header merkleRoot nonce) (t.allTransactions.map .full))
      (some t.height) = .ok (some t.height) := by
  rw [encodedHeight?_header]
  split_ifs
  · exact if_pos rfl
  · rfl

theorem settle_encodedHeight?_none_iff (t : Template) (merkleRoot : Hash) (nonce : UInt32) :
    settle (encodedHeight? (t.header merkleRoot nonce) (t.allTransactions.map .full)) none =
      .ok (some t.height) ↔ 1 < t.version ∧ t.height.toNat < 2 ^ 31 := by
  rw [settle_none, encodedHeight?_header]
  split_ifs with hsays
  · exact iff_of_true rfl hsays
  · exact iff_of_false nofun hsays

/-- The coinbase is there to be hashed. -/
theorem exists_root (t : Template) :
    ∃ merkleRoot, Merkle.root (t.allTransactions.map Transaction.id) = some merkleRoot := by
  cases hroot : Merkle.root (t.allTransactions.map Transaction.id) with
  | none =>
    rw [Merkle.root_eq_none_iff] at hroot
    cases hroot
  | some merkleRoot => exact ⟨merkleRoot, rfl⟩

theorem root_of_transactions_eq_nil (h : t.transactions = []) :
    Merkle.root (t.allTransactions.map Transaction.id) = some t.coinbase.id := by
  rw [allTransactions, h, List.map_cons, List.map_nil, Merkle.root]

theorem mine_result
    (hroot : Merkle.root (t.allTransactions.map Transaction.id) = some merkleRoot) :
    t.mine.result = (t.nonce? merkleRoot).elim (.error .nonceExhausted)
      fun nonce => .ok (t.block merkleRoot nonce) := by
  rw [mine, hroot]
  cases hnonce : t.nonce? merkleRoot with
  | none => simp only [hnonce, Logged.result_fail, Option.elim_none]
  | some nonce =>
    simp only [hnonce, Logged.result_bind, Logged.result_log, ok_bind, assemble_result,
      settle_encodedHeight?, Option.elim_some, List.length_map]
    rfl

theorem mine_eq_ok_iff
    (hroot : Merkle.root (t.allTransactions.map Transaction.id) = some merkleRoot) :
    t.mine.result = .ok b ↔
      ∃ nonce, t.nonce? merkleRoot = some nonce ∧ b = t.block merkleRoot nonce := by
  rw [mine_result hroot]
  cases t.nonce? merkleRoot with
  | none => simp
  | some nonce => simp [eq_comm]

theorem exists_block_of_mine (h : t.mine.result = .ok b) :
    ∃ merkleRoot nonce, b = t.block merkleRoot nonce := by
  obtain ⟨merkleRoot, hroot⟩ := t.exists_root
  obtain ⟨nonce, -, hblock⟩ := (mine_eq_ok_iff hroot).mp h
  exact ⟨merkleRoot, nonce, hblock⟩

/-- A block that its template asks for and that stands up to every check. -/
structure Valid (t : Template) (b : Block) : Prop where
  proofOfWork : b.checkProofOfWork = true
  merkleRoot : b.checkMerkleRoot = .ok true
  height : b.height = some t.height
  count : b.count = some (1 + t.transactions.length)
  entries : b.entries = (t.coinbase :: t.transactions).map .full
  coinbase : t.coinbase.isCoinbase = true
  coinbaseScript : t.coinbase.inputs.map (fun input => input.script.bytes) =
    [(Script.ofHeight t.height).bytes ++ t.coinbaseData]
  version : b.header.version = t.version
  previous : b.header.previous = t.previous
  timestamp : b.header.timestamp = t.timestamp
  bits : b.header.bits = t.bits
  network : b.network = t.network
  serialize : ∃ raw, b.serialize = .ok raw

theorem valid_block (hroot : Merkle.root (t.allTransactions.map Transaction.id) = some merkleRoot)
    (hnonce : t.nonce? merkleRoot = some nonce) : t.Valid (t.block merkleRoot nonce) where
  proofOfWork := check_of_nonce? hnonce
  merkleRoot := by
    rw [checkMerkleRoot_eq_ok_true_iff, ids_of_full rfl, hroot]
    exact ⟨congrArg some (List.length_map _).symm, rfl⟩
  height := rfl
  count := congrArg some (Nat.add_comm _ _)
  entries := rfl
  coinbase := rfl
  coinbaseScript := rfl
  version := rfl
  previous := rfl
  timestamp := rfl
  bits := rfl
  network := rfl
  serialize := exists_serialize_eq_ok rfl (List.cons_ne_nil _ _) rfl

/-- The header of a valid block is determined up to its nonce. -/
theorem Valid.header_eq (h : t.Valid b)
    (hroot : Merkle.root (t.allTransactions.map Transaction.id) = some merkleRoot) :
    b.header = t.header merkleRoot b.header.nonce := by
  have hcheck := (checkMerkleRoot_eq_ok_true_iff.mp h.merkleRoot).2
  rw [ids_of_full h.entries] at hcheck
  obtain rfl : merkleRoot = b.header.merkleRoot := Option.some.inj (hroot.symm.trans hcheck)
  rw [header, ← h.version, ← h.previous, ← h.timestamp, ← h.bits]

theorem check_eq_false_of_nonce? (h : t.nonce? merkleRoot = none) (nonce : UInt32) :
    ProofOfWork.check (t.header merkleRoot nonce).hash t.bits = false := by
  rw [nonce?] at h
  split_ifs at h with htarget
  · rw [← Bool.not_eq_true, ProofOfWork.check_iff, htarget]
    exact BitVec.not_lt_zero
  · exact findNonce_all_eq_none_iff.mp h nonce

theorem exists_mine_eq_ok
    (hroot : Merkle.root (t.allTransactions.map Transaction.id) = some merkleRoot)
    (hcheck : ProofOfWork.check (t.header merkleRoot nonce).hash t.bits = true) :
    ∃ b, t.mine.result = .ok b := by
  rw [mine_result hroot]
  cases hnonce : t.nonce? merkleRoot with
  | none =>
    rw [check_eq_false_of_nonce? hnonce] at hcheck
    cases hcheck
  | some found => exact ⟨_, rfl⟩

theorem not_valid_of_nonce?
    (hroot : Merkle.root (t.allTransactions.map Transaction.id) = some merkleRoot)
    (hnonce : t.nonce? merkleRoot = none) (b : Block) : ¬t.Valid b := by
  intro h
  have hcheck := h.proofOfWork
  rw [checkProofOfWork, hash, h.bits, h.header_eq hroot, check_eq_false_of_nonce? hnonce] at hcheck
  cases hcheck

/-- Mining fails only by running out of nonces, which it does only when there is no valid block.
Otherwise its block is valid. -/
theorem mine_nonceExhausted_or_valid (t : Template) :
    (t.mine.result = .error .nonceExhausted ∧ ¬∃ b, t.Valid b) ∨
      ∃ b, t.mine.result = .ok b ∧ t.Valid b := by
  obtain ⟨merkleRoot, hroot⟩ := t.exists_root
  rw [mine_result hroot]
  cases hnonce : t.nonce? merkleRoot with
  | none =>
    left
    exact ⟨rfl, not_exists.mpr (not_valid_of_nonce? hroot hnonce)⟩
  | some nonce =>
    right
    exact ⟨_, rfl, valid_block hroot hnonce⟩

end Template

end BitcoinBlock.Block
