import BitcoinBlock.Proofs.Block.LeastNonce

/-! # Building a template

A build keeps the height, and its transactions stand in the order in which they were added. Only the
target zero stops it. What it says last about the target decides how hard mining is, whatever else
follows.
-/
namespace BitcoinBlock.Block.Template

variable {t u built : Template} {b : Block} {step : Step} {steps front back : List Step} {e : Error}

theorem foldl_addTransaction (t : Template) (ts : List Transaction) :
    ts.foldl addTransaction t = { t with transactions := t.transactions ++ ts } := by
  induction ts generalizing t with
  | nil => rw [List.foldl_nil, List.append_nil]
  | cons transaction rest ih =>
    rw [List.foldl_cons, ih, addTransaction, List.append_assoc]
    rfl

theorem build_cons (t : Template) (step : Step) (steps : List Step) :
    t.build (step :: steps) = t.apply step >>= fun next => next.build steps := rfl

theorem build_append (t : Template) (front back : List Step) :
    t.build (front ++ back) = t.build front >>= fun next => next.build back :=
  List.foldlM_append

theorem build_transactions (t : Template) (ts : List Transaction) :
    t.build (ts.map .transaction) = .ok { t with transactions := t.transactions ++ ts } := by
  rw [← foldl_addTransaction]
  induction ts generalizing t with
  | nil => rfl
  | cons transaction rest ih =>
    rw [List.map_cons, build_cons, apply, ok_bind, ih, List.foldl_cons]

theorem apply_eq_error_iff :
    t.apply step = .error e ↔ step = .target 0 ∧ e = .unencodableTarget := by
  cases step with
  | target target =>
    rw [apply, Step.target.injEq]
    rcases t.withTarget_cases target with ⟨hzero, hrefused⟩ | ⟨hne, bits, hbits, -⟩
    · rw [hrefused, Except.error.injEq, eq_comm, and_iff_right hzero]
    · simp only [hbits, reduceCtorEq, hne, false_and]
  | _ => simp only [apply, reduceCtorEq, false_and]

theorem build_eq_error_iff :
    t.build steps = .error e ↔ .target 0 ∈ steps ∧ e = .unencodableTarget := by
  induction steps generalizing t with
  | nil => exact iff_of_false nofun fun h => List.not_mem_nil h.1
  | cons step rest ih =>
    rw [build_cons, bind_eq_error_iff, apply_eq_error_iff, List.mem_cons, or_and_right,
      eq_comm (a := step)]
    cases happly : t.apply step with
    | ok next => simp only [Except.ok.injEq, exists_eq_left', ih]
    | error _ =>
      obtain ⟨rfl, rfl⟩ := apply_eq_error_iff.mp happly
      simp only [reduceCtorEq, false_and, exists_false, or_false, true_and, iff_self_or]
      exact And.right

namespace Step

def transaction? : Step → Option Transaction
  | .transaction added => some added
  | _ => none

def SetsBits : Step → Prop
  | .bits _ | .target _ => True
  | _ => False

end Step

/-- What is left of a template after some steps, and what they add to it. -/
structure Extends (t : Template) (steps : List Step) (built : Template) : Prop where
  height : built.height = t.height
  transactions : built.transactions = t.transactions ++ steps.filterMap Step.transaction?
  bits : (∀ step ∈ steps, ¬step.SetsBits) → built.bits = t.bits

theorem Extends.refl (t : Template) : t.Extends [] t :=
  ⟨rfl, (List.append_nil _).symm, fun _ => rfl⟩

theorem Extends.trans (h : t.Extends front u) (h' : u.Extends back built) :
    t.Extends (front ++ back) built where
  height := h'.height.trans h.height
  transactions := by
    rw [h'.transactions, h.transactions, List.filterMap_append, List.append_assoc]
  bits hkept := by
    rw [List.forall_mem_append] at hkept
    rw [h'.bits hkept.2, h.bits hkept.1]

theorem extends_of_apply (h : t.apply step = .ok built) : t.Extends [step] built := by
  have hkept (hsets : step.SetsBits) : ¬∀ other ∈ [step], ¬other.SetsBits :=
    fun hnone => hnone step List.mem_cons_self hsets
  cases step with
  | transaction transaction =>
    cases h
    exact ⟨rfl, rfl, fun _ => rfl⟩
  | bits bits =>
    cases h
    exact ⟨rfl, (List.append_nil _).symm, fun hnone => absurd hnone (hkept trivial)⟩
  | target target =>
    rw [apply, withTarget, bind_eq_ok_iff] at h
    obtain ⟨bits, -, hbits⟩ := h
    cases hbits
    exact ⟨rfl, (List.append_nil _).symm, fun hnone => absurd hnone (hkept trivial)⟩
  | _ =>
    cases h
    exact ⟨rfl, (List.append_nil _).symm, fun _ => rfl⟩

theorem extends_of_build (h : t.build steps = .ok built) : t.Extends steps built := by
  induction steps generalizing t with
  | nil =>
    cases h
    exact Extends.refl _
  | cons step rest ih =>
    rw [build_cons, bind_eq_ok_iff] at h
    obtain ⟨next, hnext, hrest⟩ := h
    exact (extends_of_apply hnext).trans (ih hrest)

/-- A block that was built and mined has the height of the first template, and behind its coinbase
the transactions in the order in which they were added. -/
theorem entries_of_mine_build (h : t.build steps = .ok built) (hmine : built.mine.result = .ok b) :
    b.height = some t.height ∧
      b.entries =
        (built.coinbase :: (t.transactions ++ steps.filterMap Step.transaction?)).map .full := by
  obtain ⟨merkleRoot, nonce, rfl⟩ := exists_block_of_mine hmine
  have hbuilt := extends_of_build h
  refine ⟨congrArg some hbuilt.height, ?_⟩
  rw [← hbuilt.transactions]
  rfl

/-- After a target was asked for, steps that leave the bits alone change nothing about how hard
mining is. -/
theorem toWord_hash_lt_of_mine_build {target : Target}
    (h : t.build (front ++ .target target :: back) = .ok built)
    (hback : ∀ step ∈ back, ¬step.SetsBits) (hmine : built.mine.result = .ok b) :
    b.hash.toWord < target := by
  rw [build_append, bind_eq_ok_iff] at h
  obtain ⟨next, -, h⟩ := h
  rw [build_cons, bind_eq_ok_iff] at h
  obtain ⟨aimed, haimed, hrest⟩ := h
  rw [apply] at haimed
  rcases next.withTarget_cases target with ⟨-, hrefused⟩ | ⟨-, bits, hbits, hle⟩
  · rw [hrefused] at haimed
    cases haimed
  · rw [hbits] at haimed
    cases haimed
    have hkept : built.bits = bits := (extends_of_build hrest).bits hback
    rw [← hkept] at hle
    exact toWord_hash_lt_of_mine hle hmine

end BitcoinBlock.Block.Template
