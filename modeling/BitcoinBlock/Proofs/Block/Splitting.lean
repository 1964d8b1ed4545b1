import BitcoinBlock.Proofs.Block.Conservation
import Mathlib.Algebra.Order.BigOperators.Group.List
import Mathlib.Algebra.Order.Ring.Nat

/-! # Reading in several steps

How reading is cut into steps makes no difference. Steps with limits leave the block that one step
with the sum of the limits leaves, and come to the same count or the same fault. A step that meets a
fault stops right in front of it, so every step after it meets it again and does nothing else.
-/
namespace BitcoinBlock.Block

variable {b : Block} {limit m n : Nat} {limits counts : List Nat} {e : Error} {data : List UInt8}
  {s : Block × Logged Nat}

namespace Batch

theorem result_eq_ok_iff {batch : Batch} :
    batch.result = .ok n ↔ batch.fault = none ∧ batch.transactions.length = n := by
  rcases batch with ⟨ts, rest, _ | e⟩ <;> simp [result]

theorem result_eq_error_iff {batch : Batch} :
    batch.result = .error e ↔ batch.fault = some e := by
  rcases batch with ⟨ts, rest, _ | e⟩ <;> simp [result]

/-- A batch never holds more than its limit, and less only at the end of the data. -/
theorem length_read_le (h : (read m data).fault = none) :
    (read m data).transactions.length ≤ m ∧
      ((read m data).transactions.length < m → (read m data).rest = []) := by
  fun_induction read m data with
  | case1 data => exact ⟨le_rfl, fun hlt => absurd hlt (lt_irrefl 0)⟩
  | case2 m data hempty => exact ⟨Nat.zero_le _, fun _ => List.isEmpty_iff.mp hempty⟩
  | case3 m data hne t rest hdecode ih =>
    obtain ⟨hle, hend⟩ := ih h
    exact ⟨Nat.succ_le_succ hle, fun hlt => hend (Nat.lt_of_succ_lt_succ hlt)⟩
  | case4 m data hne e hdecode => cases h

theorem read_rest_of_fault (h : (read m data).fault = some e) (n : Nat) :
    read (n + 1) (read m data).rest = ⟨[], (read m data).rest, some e⟩ := by
  fun_induction read m data with
  | case1 data => cases h
  | case2 m data hempty => cases h
  | case3 m data hne t rest hdecode ih => exact ih h
  | case4 m data hne other hdecode =>
    cases h
    exact read_succ_of_error (by simpa using hne) hdecode

theorem result_andThen (first : Batch) (next : List UInt8 → Batch) :
    (first.andThen next).result =
      first.result >>= fun count => (next first.rest).result.map (count + ·) := by
  rcases first with ⟨front, rest, _ | e⟩
  · rw [andThen]
    cases hfault : (next rest).fault with
    | none => simp [result, hfault, ok_bind, Except.map]
    | some e => simp [result, hfault, ok_bind, Except.map]
  · rfl

end Batch

def stepBy (b : Block) (batch : Batch) : Block × Logged Nat :=
  ({ b with entries := b.entries ++ batch.transactions.map .full, pending := batch.rest },
    ⟨batch.result, [.parsed b.hash batch.transactions.length batch.rest.length]⟩)

/-- A step that takes a limit of zero at its word. -/
def upTo (n : Nat) (b : Block) : Block × Logged Nat := b.stepBy (Batch.read n b.pending)

/-- A step that meets the fault at once. -/
def halted (b : Block) (e : Error) : Block × Logged Nat :=
  (b, ⟨.error e, [.parsed b.hash 0 b.pending.length]⟩)

/-- The steps with these limits, each on the block that the one before it leaves. -/
def steps (b : Block) : List Nat → List (Block × Logged Nat)
  | [] => []
  | limit :: rest => b.parseTransactions limit :: (b.parseTransactions limit).1.steps rest

theorem parseTransactions_of_pos (h : 0 < limit) : b.parseTransactions limit = b.upTo limit := by
  rw [parseTransactions, if_neg h.ne']
  rfl

theorem parseTransactions_zero (h : b.pending.length ≤ n) : b.parseTransactions 0 = b.upTo n := by
  rw [upTo, ← Batch.read_eq_of_length_le le_rfl h]
  rfl

theorem stepBy_nil (b : Block) (fault : Option Error) :
    (b.stepBy ⟨[], b.pending, fault⟩).1 = b := by
  rw [stepBy, List.map_nil, List.append_nil]

@[simp] theorem upTo_zero (b : Block) : (b.upTo 0).1 = b := b.stepBy_nil none

theorem upTo_succ_of_error (h : (b.upTo m).2.result = .error e) (n : Nat) :
    (b.upTo m).1.upTo (n + 1) = (b.upTo m).1.halted e := by
  have hagain := Batch.read_rest_of_fault (Batch.result_eq_error_iff.mp h) n
  have hblock := (b.upTo m).1.stepBy_nil (some e)
  rw [upTo]
  change stepBy _ (Batch.read (n + 1) (Batch.read m b.pending).rest) = _
  rw [hagain]
  exact Prod.ext hblock rfl

/-- Two steps leave what one with both limits together does, whether the first one fails or not. -/
theorem upTo_add (m n : Nat) (b : Block) : (b.upTo (m + n)).1 = ((b.upTo m).1.upTo n).1 := by
  cases hresult : (b.upTo m).2.result with
  | ok count =>
    have hfault := (Batch.result_eq_ok_iff.mp hresult).1
    rw [upTo, Batch.read_add, Batch.andThen, hfault]
    simp only [stepBy, List.map_append, ← List.append_assoc]
    rfl
  | error e =>
    have hfault := Batch.result_eq_error_iff.mp hresult
    have hsame : b.upTo (m + n) = b.upTo m := by
      rw [upTo, Batch.read_add, Batch.andThen, hfault]
      rfl
    cases n with
    | zero => rw [hsame, upTo_zero]
    | succ n => rw [hsame, upTo_succ_of_error hresult, halted]

theorem result_upTo_add (m n : Nat) (b : Block) :
    (b.upTo (m + n)).2.result = (b.upTo m).2.result >>= fun count =>
      ((b.upTo m).1.upTo n).2.result.map (count + ·) := by
  change (Batch.read (m + n) b.pending).result = _
  rw [Batch.read_add, Batch.result_andThen]
  rfl

theorem afterSteps_eq_upTo (hpos : ∀ limit ∈ limits, 0 < limit) :
    b.afterSteps limits = (b.upTo limits.sum).1 := by
  induction limits generalizing b with
  | nil => exact (upTo_zero b).symm
  | cons limit rest ih =>
    obtain ⟨hlimit, hrest⟩ := List.forall_mem_cons.mp hpos
    rw [List.sum_cons, upTo_add, ← parseTransactions_of_pos hlimit]
    exact ih hrest

theorem upTo_sum_of_counts (hpos : ∀ limit ∈ limits, 0 < limit)
    (h : (b.steps limits).map (·.2.result) = counts.map .ok) :
    (b.upTo limits.sum).2.result = .ok counts.sum := by
  induction limits generalizing b counts with
  | nil =>
    rw [List.map_eq_nil_iff.mp h.symm]
    rfl
  | cons limit rest ih =>
    obtain ⟨hlimit, hrest⟩ := List.forall_mem_cons.mp hpos
    rw [steps, List.map_cons] at h
    obtain ⟨count, counts, rfl, hcount, hcounts⟩ := List.map_eq_cons_iff.mp h.symm
    have hlater := ih hrest hcounts.symm
    rw [parseTransactions_of_pos hlimit] at hcount hlater
    rw [List.sum_cons, List.sum_cons, result_upTo_add, ← hcount, ok_bind, hlater]
    rfl

theorem eq_halted_of_mem_steps (hpos : ∀ limit ∈ limits, 0 < limit)
    (h : (b.upTo m).2.result = .error e) (hs : s ∈ (b.upTo m).1.steps limits) :
    s = (b.upTo m).1.halted e := by
  induction limits with
  | nil => cases hs
  | cons limit rest ih =>
    obtain ⟨hlimit, hrest⟩ := List.forall_mem_cons.mp hpos
    have hagain := upTo_succ_of_error h (limit - 1)
    rw [Nat.sub_add_cancel hlimit] at hagain
    rw [steps, List.mem_cons, parseTransactions_of_pos hlimit, hagain] at hs
    rcases hs with rfl | hlater
    · rfl
    · exact ih hrest hlater

theorem upTo_sum_of_error (hpos : ∀ limit ∈ limits, 0 < limit) (hs : s ∈ b.steps limits)
    (h : s.2.result = .error e) : (b.upTo limits.sum).2.result = .error e := by
  induction limits generalizing b with
  | nil => cases hs
  | cons limit rest ih =>
    obtain ⟨hlimit, hrest⟩ := List.forall_mem_cons.mp hpos
    rw [List.sum_cons, result_upTo_add]
    rw [steps, List.mem_cons, parseTransactions_of_pos hlimit] at hs
    rcases hs with rfl | hlater
    · rw [h, error_bind]
    · have herror := ih hrest hlater
      cases hfirst : (b.upTo limit).2.result with
      | ok count => rw [ok_bind, herror]; rfl
      | error other =>
        rw [eq_halted_of_mem_steps hrest hfirst hlater] at h
        exact h

theorem forall₂_steps (hpos : ∀ limit ∈ limits, 0 < limit) :
    List.Forall₂ (fun limit s => ∀ count, s.2.result = .ok count →
      count ≤ limit ∧ (count < limit → s.1.pending = [])) limits (b.steps limits) := by
  induction limits generalizing b with
  | nil => exact .nil
  | cons limit rest ih =>
    obtain ⟨hlimit, hrest⟩ := List.forall_mem_cons.mp hpos
    apply List.Forall₂.cons _ (ih hrest)
    intro count hcount
    rw [parseTransactions_of_pos hlimit] at hcount ⊢
    obtain ⟨hfault, rfl⟩ := Batch.result_eq_ok_iff.mp hcount
    exact Batch.length_read_le hfault

theorem pairwise_steps (hpos : ∀ limit ∈ limits, 0 < limit) :
    (b.steps limits).Pairwise fun s later => ∀ e, s.2.result = .error e → later = s.1.halted e := by
  induction limits generalizing b with
  | nil => exact .nil
  | cons limit rest ih =>
    obtain ⟨hlimit, hrest⟩ := List.forall_mem_cons.mp hpos
    rw [steps, parseTransactions_of_pos hlimit]
    apply List.Pairwise.cons _ (ih hrest)
    intro later hlater e herror
    exact eq_halted_of_mem_steps hrest herror hlater

/-- Cutting the reading into steps changes nothing. They leave the block that one step with all
limits together leaves, whether some of them fail or not. Their counts add up to its count, and a
count stays below its limit only at the end of the data. A fault is that of the one step, and every
step after it fails in the same way and changes nothing. One step without a limit is one with a
limit that the pending bytes cannot exhaust. -/
theorem steps_eq_one_step (b : Block) {limits : List Nat} (hne : limits ≠ [])
    (hpos : ∀ limit ∈ limits, 0 < limit) :
    b.afterSteps limits = (b.parseTransactions limits.sum).1 ∧
    (∀ counts : List Nat, (b.steps limits).map (·.2.result) = counts.map .ok →
      (b.parseTransactions limits.sum).2.result = .ok counts.sum) ∧
    List.Forall₂ (fun limit s => ∀ count, s.2.result = .ok count →
      count ≤ limit ∧ (count < limit → s.1.pending = [])) limits (b.steps limits) ∧
    (∀ s ∈ b.steps limits, ∀ e, s.2.result = .error e →
      (b.parseTransactions limits.sum).2.result = .error e) ∧
    ((b.steps limits).Pairwise fun s later =>
      ∀ e, s.2.result = .error e → later = s.1.halted e) ∧
    ∀ limit, b.pending.length + 1 ≤ limit → b.parseTransactions 0 = b.parseTransactions limit := by
  rw [parseTransactions_of_pos (List.sum_pos limits hpos hne)]
  refine ⟨afterSteps_eq_upTo hpos, ?_, forall₂_steps hpos, ?_, pairwise_steps hpos, ?_⟩
  · exact fun counts hcounts => upTo_sum_of_counts hpos hcounts
  · exact fun s hs e herror => upTo_sum_of_error hpos hs herror
  · intro limit hlimit
    have hpositive : 0 < limit := Nat.lt_of_lt_of_le (Nat.succ_pos _) hlimit
    rw [parseTransactions_zero (Nat.le_of_succ_le hlimit), parseTransactions_of_pos hpositive]

/-- Three steps of which the second and third meet the byte behind the transaction, and two steps of
which the second finds nothing left. -/
theorem steps_eq_one_step_of_opened :
    (opened.afterSteps [1, 1, 1] = (opened.parseTransactions 3).1 ∧
      (opened.afterSteps [1, 1, 1]).pending = [0xff] ∧
      (opened.steps [1, 1, 1]).map (·.2.result) =
        [.ok 1, .error .endOfData, .error .endOfData] ∧
      (opened.parseTransactions 3).2.result = .error .endOfData) ∧
    (Block.steps { opened with pending := Transaction.witnessed.encode } [1, 1]).map (·.2.result) =
        [.ok 1, .ok 0] ∧
      (Block.parseTransactions 2 { opened with pending := Transaction.witnessed.encode }).2.result =
        .ok 1 := by
  constructor
  · obtain ⟨hblock, -, -, herror, -, -⟩ :=
      steps_eq_one_step opened (List.cons_ne_nil 1 [1, 1]) (by simp)
    have hsecond := herror ((opened.parseTransactions 1).1.parseTransactions 1) (by simp [steps])
    exact ⟨hblock, rfl, rfl, hsecond .endOfData rfl⟩
  · obtain ⟨-, hcounts, -, -, -, -⟩ := steps_eq_one_step
      { opened with pending := Transaction.witnessed.encode } (List.cons_ne_nil 1 [1]) (by simp)
    exact ⟨rfl, hcounts [1, 0] rfl⟩

end BitcoinBlock.Block
