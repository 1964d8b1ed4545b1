import BitcoinBlock.Proofs.Block.Mining
import BitcoinBlock.Proofs.CompactBits.Rounding
import Mathlib.Order.Bounds.Defs

/-! # The least nonce

Nonces are tried from zero upwards and none is left out, so mining stops at the least one that meets
the target, or fails when all have been tried. The bits that stand for a target never make it easier.
-/
namespace BitcoinBlock

/-- Only the target zero is refused. The bits of any other denote a target that is not above it. -/
theorem CompactBits.ofTarget_cases (target : Target) :
    (target = 0 ∧ ofTarget target = .error .unencodableTarget) ∨
      (target ≠ 0 ∧ ∃ bits, ofTarget target = .ok bits ∧ CompactBits.target bits ≤ target) := by
  by_cases hzero : target = 0
  · exact .inl ⟨hzero, if_pos hzero⟩
  · obtain ⟨bits, rounded, s, hencode, hdecode, -, hrounded⟩ := exists_rounded target
    refine .inr ⟨hzero, bits, ?_, ?_⟩
    · rw [ofTarget, if_neg hzero, hencode, Option.elim_some]
    · rw [CompactBits.target]
      split_ifs
      · exact Nat.zero_le _
      · rw [hdecode, Option.getD_some, BitVec.le_def, hrounded]
        exact Nat.div_mul_le_self _ _

namespace Block

variable {passes : UInt32 → Bool} {nonce : UInt32}

theorem findNonce_passed {n : Nat} {start : UInt32} (h : findNonce passes n start = some nonce) :
    ∃ k < n, nonce = start + UInt32.ofNat k ∧
      ∀ j < k, passes (start + UInt32.ofNat j) = false := by
  induction n generalizing start with
  | zero => cases h
  | succ n ih =>
    rw [findNonce] at h
    split_ifs at h with hstart
    · obtain rfl := Option.some.inj h
      refine ⟨0, Nat.succ_pos n, (UInt32.add_zero start).symm, fun j hj => ?_⟩
      exact absurd hj (Nat.not_lt_zero j)
    · obtain ⟨k, hk, rfl, hpassed⟩ := ih h
      refine ⟨k + 1, Nat.succ_lt_succ hk, add_one_add_ofNat start k, ?_⟩
      rw [Nat.forall_lt_succ_left]
      refine ⟨by simpa using hstart, fun j hj => ?_⟩
      rw [← add_one_add_ofNat]
      exact hpassed j hj

theorem findNonce_all_least (h : findNonce passes UInt32.size 0 = some nonce) :
    IsLeast {nonce | passes nonce = true} nonce := by
  refine ⟨findNonce_passes h, fun other hother => ?_⟩
  obtain ⟨k, hk, rfl, hpassed⟩ := findNonce_passed h
  rw [UInt32.zero_add, UInt32.le_iff_toNat_le, UInt32.toNat_ofNat_of_lt' hk]
  by_contra hlt
  have hother' := hpassed other.toNat (Nat.lt_of_not_le hlt)
  rw [UInt32.zero_add, UInt32.ofNat_toNat] at hother'
  exact absurd hother (by simp [hother'])

namespace Template

variable {t : Template} {b : Block} {merkleRoot : Hash}

/-- The nonces with which the header meets the target. -/
def passing (t : Template) (merkleRoot : Hash) : Set UInt32 :=
  {nonce | ProofOfWork.check (t.header merkleRoot nonce).hash t.bits = true}

theorem isLeast_of_nonce? (h : t.nonce? merkleRoot = some nonce) :
    IsLeast (t.passing merkleRoot) nonce := by
  rw [nonce?] at h
  split_ifs at h
  exact findNonce_all_least h

theorem nonce?_eq_none_iff :
    t.nonce? merkleRoot = none ↔
      CompactBits.target t.bits = 0 ∨ t.passing merkleRoot = ∅ := by
  rw [Set.eq_empty_iff_forall_notMem]
  constructor
  · intro h
    refine .inr fun nonce hpasses => ?_
    rw [passing, Set.mem_ofPred_eq, check_eq_false_of_nonce? h] at hpasses
    cases hpasses
  · rintro (hzero | hempty)
    · rw [nonce?, if_pos hzero]
    · cases hnonce : t.nonce? merkleRoot with
      | none => rfl
      | some nonce => exact absurd (check_of_nonce? hnonce) (hempty nonce)

theorem withTarget_cases (t : Template) (target : Target) :
    (target = 0 ∧ t.withTarget target = .error .unencodableTarget) ∨
      (target ≠ 0 ∧ ∃ bits, t.withTarget target = .ok { t with bits } ∧
        CompactBits.target bits ≤ target) := by
  rcases CompactBits.ofTarget_cases target with ⟨hzero, hrefused⟩ | ⟨hne, bits, hbits, hle⟩
  · refine .inl ⟨hzero, ?_⟩
    rw [withTarget, hrefused]
    rfl
  · refine .inr ⟨hne, bits, ?_, hle⟩
    rw [withTarget, hbits]
    rfl

/-- If the bits of a template denote a target that is not above another one, the hash of a block
mined from it is below that one. -/
theorem toWord_hash_lt_of_mine {target : Target} (hle : CompactBits.target t.bits ≤ target)
    (h : t.mine.result = .ok b) : b.hash.toWord < target := by
  obtain ⟨merkleRoot, hroot⟩ := t.exists_root
  obtain ⟨nonce, hnonce, rfl⟩ := (mine_eq_ok_iff hroot).mp h
  have hcheck := ProofOfWork.check_iff.mp (check_of_nonce? hnonce)
  rw [BitVec.lt_def] at hcheck
  exact BitVec.lt_def.mpr (hcheck.trans_le (BitVec.le_def.mp hle))

/-- A mined block has the template's header with the least nonce that passes. Mining fails only by
running out of nonces, and exactly when the target is zero or no nonce passes. If the bits were set
to stand for a target, which only the target zero prevents, the hash of the block is below that
target. -/
theorem mine_least_nonce (t : Template) :
    (∃ merkleRoot, Merkle.root (t.allTransactions.map Transaction.id) = some merkleRoot ∧
      (∀ b, t.mine.result = .ok b →
        b.header = t.header merkleRoot b.header.nonce ∧
          IsLeast (t.passing merkleRoot) b.header.nonce) ∧
      ∀ e, t.mine.result = .error e ↔
        e = .nonceExhausted ∧ (CompactBits.target t.bits = 0 ∨ t.passing merkleRoot = ∅)) ∧
    ∀ target : Target,
      (∀ e, t.withTarget target = .error e ↔ target = 0 ∧ e = .unencodableTarget) ∧
      ∀ (aimed u : Template) (b : Block), t.withTarget target = .ok aimed →
        u.bits = aimed.bits → u.mine.result = .ok b → b.hash.toWord < target := by
  constructor
  · obtain ⟨merkleRoot, hroot⟩ := t.exists_root
    refine ⟨merkleRoot, hroot, ?_, ?_⟩
    · intro b h
      obtain ⟨nonce, hnonce, rfl⟩ := (mine_eq_ok_iff hroot).mp h
      exact ⟨rfl, isLeast_of_nonce? hnonce⟩
    · intro e
      rw [← nonce?_eq_none_iff, mine_result hroot]
      cases t.nonce? merkleRoot with
      | none => simp [eq_comm]
      | some nonce => simp
  · intro target
    rcases t.withTarget_cases target with ⟨hzero, hrefused⟩ | ⟨hne, bits, hbits, hle⟩
    · rw [hrefused]
      refine ⟨fun e => ?_, ?_⟩
      · rw [Except.error.injEq, eq_comm]
        exact (and_iff_right hzero).symm
      · intro aimed u b haimed
        cases haimed
    · rw [hbits]
      refine ⟨fun e => ?_, ?_⟩
      · simp only [reduceCtorEq, hne, false_and]
      · intro aimed u b haimed hu h
        obtain rfl := Except.ok.inj haimed
        have hbound : CompactBits.target u.bits ≤ target := by rwa [hu]
        exact toWord_hash_lt_of_mine hbound h

/-- Half of the default target. Its lowest digit is one too many for bits. -/
def halved : Target := (0x7fffff : Target) <<< 231

/-- The third nonce is the first to meet the target. -/
def patient : Template where
  height := 1
  bits := 0x203fffff

theorem mine_least_nonce_patient :
    ({ height := 1 } : Template).withTarget halved = .ok patient ∧
      (∃ b, patient.mine.result = .ok b ∧ b.header.nonce = 2 ∧ b.hash.toWord < halved) ∧
      ({ patient with bits := 0 } : Template).mine.result = .error .nonceExhausted := by
  have haimed : ({ height := 1 } : Template).withTarget halved = .ok patient := by
    have hbits : CompactBits.ofTarget halved = .ok 0x203fffff := by decide
    rw [withTarget, hbits]
    rfl
  have hroot := root_of_transactions_eq_nil (t := patient) rfl
  have hpasses : ∀ nonce : Fin 3, ProofOfWork.check
      (patient.header patient.coinbase.id (UInt32.ofNat nonce)).hash patient.bits =
        decide (nonce = 2) := by
    decide +kernel
  refine ⟨haimed, ?_, ?_⟩
  · obtain ⟨b, hmine⟩ := exists_mine_eq_ok hroot (hpasses 2)
    obtain ⟨⟨merkleRoot, hmerkleRoot, hleast, -⟩, -⟩ := mine_least_nonce patient
    obtain rfl : patient.coinbase.id = merkleRoot := Option.some.inj (hroot.symm.trans hmerkleRoot)
    obtain ⟨-, hmem, hlower⟩ := hleast b hmine
    have hle : b.header.nonce.toNat ≤ 2 := UInt32.le_iff_toNat_le.mp (hlower (hpasses 2))
    have htwo := hpasses ⟨b.header.nonce.toNat, Nat.lt_succ_of_le hle⟩
    rw [UInt32.ofNat_toNat] at htwo
    have hnonce := Fin.ext_iff.mp (of_decide_eq_true (htwo.symm.trans hmem))
    obtain ⟨-, htarget⟩ := mine_least_nonce { height := 1 }
    refine ⟨b, hmine, ?_, (htarget halved).2 patient patient b haimed rfl hmine⟩
    exact UInt32.toNat_inj.mp hnonce
  · obtain ⟨⟨merkleRoot, -, -, hexhausted⟩, -⟩ := mine_least_nonce { patient with bits := 0 }
    exact (hexhausted _).mpr ⟨rfl, .inl rfl⟩

end Template

end Block

end BitcoinBlock
