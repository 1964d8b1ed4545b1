import BitcoinBlock.Hash
import Mathlib.Algebra.Order.Floor.Div
import Mathlib.Algebra.Order.Ring.Nat
import Mathlib.Data.List.OfFn
import Mathlib.Logic.Function.Iterate
import Mathlib.Order.Bounds.Basic

/-! # The tree under a Merkle root

Seen from its top, a Merkle root is a tree in which every node joins two nodes of the height below.
The levels that are hashed from the bottom up are the heights of this tree, and the root is the node
at the least height that has one node only.
-/
namespace BitcoinBlock.Merkle

variable {n height : Nat} {level : List Hash}

/-- The number of nodes at a height above `n` ids. -/
def width (n height : Nat) : Nat := n ⌈/⌉ 2 ^ height

theorem width_zero (n : Nat) : width n 0 = n := by
  rw [width, pow_zero, ceilDiv_one]

theorem width_succ (n height : Nat) : width n (height + 1) = (width n height + 1) / 2 := by
  have hpos : 0 < 2 ^ height := Nat.two_pow_pos height
  have hsplit : n + 2 ^ height * 2 - 1 = n + 2 ^ height - 1 + 2 ^ height := by omega
  rw [width, width, Nat.ceilDiv_eq_add_pred_div, Nat.ceilDiv_eq_add_pred_div, pow_succ, hsplit,
    ← Nat.div_div_eq_div_mul, Nat.add_div_right _ hpos]

theorem width_pos (hn : 0 < n) (height : Nat) : 0 < width n height := by
  induction height with
  | zero => rwa [width_zero]
  | succ height ih =>
    rw [width_succ]
    omega

theorem lt_width_succ_iff {i : Nat} : i < width n (height + 1) ↔ 2 * i < width n height := by
  rw [width_succ]
  omega

/-- The place of the left one of the two nodes that a node joins. -/
def leftOf (position : Fin (width n (height + 1))) : Fin (width n height) :=
  ⟨2 * position, lt_width_succ_iff.mp position.isLt⟩

/-- The place of the right one. Behind the last node of an odd width there is none, and the last one
is joined with itself. -/
def rightOf (position : Fin (width n (height + 1))) : Fin (width n height) :=
  ⟨min (2 * position + 1) (width n height - 1), by
    have hleft := lt_width_succ_iff.mp position.isLt
    omega⟩

/-- The node at a height and a place. -/
def node (ids : List Hash) : (height : Nat) → Fin (width ids.length height) → Hash
  | 0, position => ids.get (position.cast (width_zero _))
  | height + 1, position =>
    join (node ids height (leftOf position)) (node ids height (rightOf position))

/-- What is left of the ids after so many rounds of hashing. -/
def levelAt (ids : List Hash) (rounds : Nat) : List Hash := parents^[rounds] ids

theorem levelAt_zero (ids : List Hash) : levelAt ids 0 = ids := rfl

theorem levelAt_succ (ids : List Hash) (rounds : Nat) :
    levelAt ids (rounds + 1) = parents (levelAt ids rounds) :=
  Function.iterate_succ_apply' parents rounds ids

theorem getElem_parents {i : Nat} (hi : i < (parents level).length)
    (hleft : 2 * i < level.length) (hright : min (2 * i + 1) (level.length - 1) < level.length) :
    (parents level)[i] = join level[2 * i] level[min (2 * i + 1) (level.length - 1)] := by
  fun_induction parents level generalizing i with
  | case1 => cases hi
  | case2 last =>
    obtain rfl : i = 0 := Nat.lt_one_iff.mp hi
    rfl
  | case3 left right rest ih =>
    cases i with
    | zero => rfl
    | succ i =>
      simp only [List.length_cons] at hi hleft hright
      have hright' : min (2 * i + 2 + 1) (rest.length + 1 + 1 - 1) =
          min (2 * i + 1) (rest.length - 1) + 1 + 1 := by omega
      simp only [List.length_cons, hright', Nat.mul_succ, List.getElem_cons_succ]
      rw [ih (by omega) (by omega) (by omega)]

theorem parents_ofFn (nodes : Fin (width n height) → Hash) :
    parents (List.ofFn nodes) =
      List.ofFn fun position : Fin (width n (height + 1)) =>
        join (nodes (leftOf position)) (nodes (rightOf position)) := by
  apply List.ext_getElem
  · rw [length_parents, List.length_ofFn, List.length_ofFn, width_succ]
  · intro i hi hi'
    rw [List.length_ofFn, lt_width_succ_iff] at hi'
    rw [getElem_parents hi (by rwa [List.length_ofFn]) (by rw [List.length_ofFn]; omega)]
    simp only [List.getElem_ofFn, List.length_ofFn]
    rfl

theorem levelAt_eq_ofFn (ids : List Hash) (height : Nat) :
    levelAt ids height = List.ofFn (node ids height) := by
  induction height with
  | zero =>
    apply List.ext_getElem
    · rw [levelAt_zero, List.length_ofFn, width_zero]
    · intro i hi hi'
      rw [List.getElem_ofFn]
      rfl
  | succ height ih =>
    rw [levelAt_succ, ih, parents_ofFn]
    rfl

theorem length_levelAt (ids : List Hash) (height : Nat) :
    (levelAt ids height).length = width ids.length height := by
  rw [levelAt_eq_ofFn, List.length_ofFn]

/-- Hashing ends: after some rounds at most one hash is left for the first time, and it is the
root. -/
theorem exists_root_eq_head? (level : List Hash) :
    ∃ rounds, IsLeast {r | (levelAt level r).length ≤ 1} rounds ∧
      root level = (levelAt level rounds).head? := by
  fun_induction root level with
  | case1 => exact ⟨0, ⟨Nat.zero_le 1, fun r _ => Nat.zero_le r⟩, rfl⟩
  | case2 top => exact ⟨0, ⟨Nat.le_refl 1, fun r _ => Nat.zero_le r⟩, rfl⟩
  | case3 left right rest ih =>
    obtain ⟨rounds, ⟨hends, hleast⟩, hroot⟩ := ih
    refine ⟨rounds + 1, ⟨hends, ?_⟩, hroot⟩
    intro r hr
    cases r with
    | zero =>
      change rest.length + 1 + 1 ≤ 1 at hr
      omega
    | succ r => exact Nat.succ_le_succ (hleast hr)

/-- The loop over whole levels finds the top of the tree, at the least height that is one node wide.
Without ids there is no root. The loop ends on every list: there is a first round after which at
most one hash is left, and that hash is the root. -/
theorem root_eq_top_node :
    (∀ ids : List Hash, ids ≠ [] → ∃ height, ∃ top : Fin (width ids.length height),
      IsLeast {h | width ids.length h = 1} height ∧ top.val = 0 ∧
        root ids = some (node ids height top)) ∧
    root [] = none ∧
    ∀ ids : List Hash, ∃ rounds, IsLeast {r | (levelAt ids r).length ≤ 1} rounds ∧
      root ids = (levelAt ids rounds).head? := by
  refine ⟨?_, by rw [root], exists_root_eq_head?⟩
  intro ids hids
  obtain ⟨height, hleast, hroot⟩ := exists_root_eq_head? ids
  have hpos : ∀ h, 0 < width ids.length h := width_pos (List.length_pos_of_ne_nil hids)
  have hone : {r | (levelAt ids r).length ≤ 1} = {h | width ids.length h = 1} := by
    ext h
    have hh := hpos h
    change (levelAt ids h).length ≤ 1 ↔ width ids.length h = 1
    rw [length_levelAt]
    omega
  refine ⟨height, ⟨0, hpos height⟩, hone ▸ hleast, rfl, ?_⟩
  rw [hroot, levelAt_eq_ofFn, List.head?_eq_getElem?, List.getElem?_ofFn, dif_pos (hpos height)]

/-- Five hashes: at two heights the last node is joined with itself. -/
def quintet : List Hash :=
  [Hash.zero, doubleHash [], doubleHash [0], doubleHash [1], doubleHash [2]]

theorem root_quintet :
    quintet ≠ [] ∧ ∃ top, IsLeast {h | width quintet.length h = 1} 3 ∧
      root quintet = some (node quintet 3 top) := by
  have hne : quintet ≠ [] := List.cons_ne_nil _ _
  obtain ⟨height, top, hleast, -, hroot⟩ := root_eq_top_node.1 quintet hne
  have hthree : IsLeast {h | width quintet.length h = 1} 3 := by
    refine ⟨by decide, fun h hh => ?_⟩
    rcases h with _ | _ | _ | h
    · cases hh
    · cases hh
    · cases hh
    · exact Nat.le_add_left 3 h
  obtain rfl : height = 3 := hleast.unique hthree
  exact ⟨hne, top, hleast, hroot⟩

end BitcoinBlock.Merkle
