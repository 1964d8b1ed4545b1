import BitcoinBlock.Proofs.Text.Hex
import BitcoinBlock.Text
import Mathlib.Data.List.Basic
import Mathlib.Data.List.Induction
import Mathlib.Data.Nat.Digits.Defs

/-! # Digits and the number they denote

Digits are read from the left up to a bound. The number read so far never falls, so it passes the
bound at some digit exactly if a front of the digits denotes too much, and else it ends as the number
that all of them denote.
-/
namespace BitcoinBlock.Text.Numeral

/-- Digits of a radix up to sixteen, the highest first, and the number they denote. Letters may be
of either case. -/
def Denotes (radix : Nat) (text : List Char) (n : Nat) : Prop :=
  ∃ digits : List Nat, (∀ d ∈ digits, d < radix) ∧
    text.map Char.toLower = digits.map Nat.digitChar ∧ n = Nat.ofDigits radix digits.reverse

/-- Some front of a text stands for the bound or more. -/
def Exceeds (stands : List Char → Nat → Prop) (bound : Nat) (text : List Char) : Prop :=
  ∃ front n, front <+: text ∧ stands front n ∧ bound ≤ n

variable {radix bound n : Nat} {text digits : List Char} {c : Char}

theorem digit?_eq_some_iff (hradix : radix ≤ 16) {d : Nat} :
    digit? radix c = some d ↔ d < radix ∧ c.toLower = d.digitChar := by
  rw [digit?, Option.filter_eq_some_iff, Hex.value?_eq_some_iff, decide_eq_true_iff]
  constructor
  · rintro ⟨⟨-, hc⟩, hd⟩
    exact ⟨hd, hc⟩
  · rintro ⟨hd, hc⟩
    exact ⟨⟨by omega, hc⟩, hd⟩

theorem digit?_plus : digit? radix '+' = none := by
  have hplus : Hex.value? '+' = none := by decide
  rw [digit?, hplus, Option.filter_none]

theorem denotes_nil : Denotes radix [] n ↔ n = 0 := by
  constructor
  · rintro ⟨digits, -, htext, rfl⟩
    rw [List.map_eq_nil_iff.mp htext.symm]
    rfl
  · rintro rfl
    exact ⟨[], List.forall_mem_nil _, rfl, rfl⟩

theorem denotes_concat (hradix : radix ≤ 16) :
    Denotes radix (text ++ [c]) n ↔
      ∃ m d, Denotes radix text m ∧ digit? radix c = some d ∧ n = m * radix + d := by
  have hvalue (ds : List Nat) (d : Nat) :
      Nat.ofDigits radix (ds ++ [d]).reverse = Nat.ofDigits radix ds.reverse * radix + d := by
    rw [List.reverse_concat, Nat.ofDigits_cons, Nat.mul_comm, Nat.add_comm]
  simp only [digit?_eq_some_iff hradix]
  constructor
  · rintro ⟨digits, hlt, htext, rfl⟩
    obtain rfl | ⟨ds, d, rfl⟩ := List.eq_nil_or_concat' digits
    · simp at htext
    · rw [List.map_append, List.map_append] at htext
      obtain ⟨hinit, hlast⟩ := List.append_inj' htext rfl
      refine ⟨_, d, ⟨ds, fun e he => hlt e (List.mem_append_left _ he), hinit, rfl⟩, ⟨?_, ?_⟩,
        hvalue ds d⟩
      · exact hlt d (List.mem_append_right _ (List.mem_singleton_self d))
      · exact List.head_eq_of_cons_eq hlast
  · rintro ⟨_, d, ⟨ds, hlt, hinit, rfl⟩, ⟨hd, hc⟩, rfl⟩
    refine ⟨ds ++ [d], ?_, ?_, (hvalue ds d).symm⟩
    · intro e he
      rcases List.mem_append.mp he with he | he
      · exact hlt e he
      · rwa [List.mem_singleton.mp he]
    · rw [List.map_append, List.map_append, hinit, List.map_singleton, List.map_singleton, hc]

theorem Denotes.plus_notMem (hradix : radix ≤ 16) (h : Denotes radix text n) : '+' ∉ text := by
  obtain ⟨digits, hlt, htext, -⟩ := h
  intro hplus
  have hmem : Char.toLower '+' ∈ digits.map Nat.digitChar := htext ▸ List.mem_map_of_mem hplus
  obtain ⟨d, hd, hchar⟩ := List.mem_map.mp hmem
  have hdigit : digit? radix '+' = some d := (digit?_eq_some_iff hradix).mpr ⟨hlt d hd, hchar.symm⟩
  rw [digit?_plus] at hdigit
  cases hdigit

theorem Denotes.ne_nil (h : Denotes radix text n) (hn : 0 < n) : text ≠ [] := by
  rintro rfl
  rw [denotes_nil.mp h] at hn
  exact Nat.lt_irrefl 0 hn

theorem Denotes.lt_pow (hradix : radix ≤ 16) (h : Denotes radix text n) :
    n < radix ^ text.length := by
  induction text using List.reverseRecOn generalizing n with
  | nil =>
    rw [denotes_nil.mp h]
    exact Nat.one_pos
  | append_singleton text c ih =>
    obtain ⟨m, d, hm, hd, rfl⟩ := (denotes_concat hradix).mp h
    have hlt : d < radix := ((digit?_eq_some_iff hradix).mp hd).1
    rw [List.length_append, List.length_singleton, Nat.pow_succ]
    calc m * radix + d < (m + 1) * radix := by rw [Nat.add_mul]; omega
      _ ≤ radix ^ text.length * radix := Nat.mul_le_mul_right radix (ih hm)

theorem extend_append (n : Nat) (front back : List Char) :
    extend radix bound n (front ++ back) =
      extend radix bound n front >>= fun m => extend radix bound m back := by
  induction front generalizing n with
  | nil => rfl
  | cons c front ih =>
    rw [List.cons_append, extend, extend]
    cases digit? radix c with
    | none => rfl
    | some d =>
      simp only [ih]
      split_ifs <;> rfl

theorem extend_singleton_eq_ok_iff {m : Nat} :
    extend radix bound m [c] = .ok n ↔
      ∃ d, digit? radix c = some d ∧ n = m * radix + d ∧ n < bound := by
  rw [extend]
  cases digit? radix c with
  | none => simp
  | some d =>
    simp only [extend, Option.some.injEq, exists_eq_left']
    split_ifs with hlt
    · rw [Except.ok.injEq]
      omega
    · simp only [false_iff]
      omega

theorem extend_singleton_eq_tooLarge_iff {m : Nat} :
    extend radix bound m [c] = .error .tooLarge ↔
      ∃ d, digit? radix c = some d ∧ bound ≤ m * radix + d := by
  rw [extend]
  cases digit? radix c with
  | none => simp
  | some d =>
    simp only [extend, Option.some.injEq, exists_eq_left']
    split_ifs with hlt
    · simpa using hlt
    · simpa using hlt

/-- With each digit the number grows or stays, so below the bound no front of it is refused. -/
theorem extend_eq_ok_iff (hpos : 0 < radix) (hradix : radix ≤ 16) (hbound : 0 < bound) :
    extend radix bound 0 text = .ok n ↔ Denotes radix text n ∧ n < bound := by
  induction text using List.reverseRecOn generalizing n with
  | nil =>
    rw [denotes_nil, extend, Except.ok.injEq]
    omega
  | append_singleton text c ih =>
    simp only [extend_append, bind_eq_ok_iff, denotes_concat hradix, ih, extend_singleton_eq_ok_iff]
    constructor
    · rintro ⟨m, ⟨hm, -⟩, d, hd, hn, hlt⟩
      exact ⟨⟨m, d, hm, hd, hn⟩, hlt⟩
    · rintro ⟨⟨m, d, hm, hd, hn⟩, hlt⟩
      have hle : m ≤ m * radix := Nat.le_mul_of_pos_right m hpos
      exact ⟨m, ⟨hm, by omega⟩, d, hd, hn, hlt⟩

/-- Reading ends where the number passes the bound, whatever stands behind. -/
theorem extend_eq_tooLarge_iff (hpos : 0 < radix) (hradix : radix ≤ 16) (hbound : 0 < bound) :
    extend radix bound 0 text = .error .tooLarge ↔ Exceeds (Denotes radix) bound text := by
  induction text using List.reverseRecOn with
  | nil =>
    simp only [extend, reduceCtorEq, false_iff]
    rintro ⟨front, n, hfront, hn, hle⟩
    rw [List.prefix_nil.mp hfront, denotes_nil] at hn
    omega
  | append_singleton text c ih =>
    simp only [extend_append, bind_eq_error_iff, ih, extend_eq_ok_iff hpos hradix hbound,
      extend_singleton_eq_tooLarge_iff]
    constructor
    · rintro (⟨front, n, hfront, hn, hle⟩ | ⟨m, ⟨hm, -⟩, d, hd, hle⟩)
      · exact ⟨front, n, hfront.trans (List.prefix_append text [c]), hn, hle⟩
      · exact ⟨text ++ [c], _, List.prefix_rfl, (denotes_concat hradix).mpr ⟨m, d, hm, hd, rfl⟩, hle⟩
    · rintro ⟨front, n, hfront, hn, hle⟩
      rcases List.prefix_concat_iff.mp hfront with rfl | hfront
      · obtain ⟨m, d, hm, hd, rfl⟩ := (denotes_concat hradix).mp hn
        by_cases hlt : m < bound
        · exact .inr ⟨m, ⟨hm, hlt⟩, d, hd, hle⟩
        · exact .inl ⟨text, m, List.prefix_rfl, hm, Nat.le_of_not_lt hlt⟩
      · exact .inl ⟨front, n, hfront, hn, hle⟩

theorem extend_ne_empty : extend radix bound n text ≠ .error .empty := by
  induction text generalizing n with
  | nil => simp [extend]
  | cons c text ih =>
    rw [extend]
    cases digit? radix c with
    | none => simp
    | some d =>
      simp only
      split_ifs
      · exact ih
      · simp

end BitcoinBlock.Text.Numeral
