import BitcoinBlock.Proofs.Block.Reading
import Mathlib.Algebra.Group.Nat.Even
import Mathlib.Data.List.DropRight
import Mathlib.Tactic.Positivity
import Mathlib.Tactic.Ring

/-! # Lists that share a Merkle root

An odd level pairs its last hash with itself. A list that spells out this repetition, for all the
ids below that hash, has the root of the list that does not, so no check of the root tells blocks
with these lists apart.
-/
namespace BitcoinBlock.Merkle

open Block

variable {front tail level : List Hash}

theorem root_parents (hlevel : 1 < level.length) : root (parents level) = root level := by
  rcases level with _ | ⟨left, _ | ⟨right, rest⟩⟩
  · cases hlevel
  · exact absurd hlevel (Nat.lt_irrefl 1)
  · rw [root.eq_3]

theorem parents_append (hfront : Even front.length) (back : List Hash) :
    parents (front ++ back) = parents front ++ parents back := by
  fun_induction parents front with
  | case1 => rfl
  | case2 last => exact absurd hfront Nat.not_even_one
  | case3 left right rest ih =>
    have hrest : Even rest.length := by
      rwa [List.length_cons, List.length_cons, Nat.even_add_one, Nat.even_add_one, not_not]
        at hfront
    rw [List.cons_append, List.cons_append, parents, ih hrest, List.cons_append]

theorem root_append (hpos : 0 < front.length) (hfront : Even front.length) (back : List Hash) :
    root (front ++ back) = root (parents front ++ parents back) := by
  have hlong : 1 < (front ++ back).length := by
    obtain ⟨half, hhalf⟩ := hfront
    rw [List.length_append]
    omega
  rw [← parents_append hfront, root_parents hlong]

/-- A repeated end rises through even levels, half as long on each, to the last hash of an odd one.
There the repetition is what that level pairs its last hash with anyway. -/
theorem root_repeat_end {j k : Nat} (hfront : front.length = 2 ^ (k + 1) * (j + 1))
    (htail : tail.length = 2 ^ k) : root (front ++ tail ++ tail) = root (front ++ tail) := by
  have hpow (e : Nat) : 2 ^ (e + 1) = 2 * 2 ^ e := pow_succ' 2 e
  induction k generalizing front tail with
  | zero =>
    obtain ⟨last, rfl⟩ := List.length_eq_one_iff.mp htail
    rw [zero_add, pow_one] at hfront
    have heven : Even front.length := hfront ▸ even_two_mul _
    have hpos : 0 < front.length := by omega
    rw [List.append_assoc, root_append hpos heven, root_append hpos heven]
    rfl
  | succ k ih =>
    rw [hpow, Nat.mul_assoc] at hfront
    rw [hpow] at htail
    have hfrontEven : Even front.length := hfront ▸ even_two_mul _
    have htailEven : Even tail.length := htail ▸ even_two_mul _
    have hpos : 0 < front.length := by
      rw [hfront]
      positivity
    have hfront' : (parents front).length = 2 ^ (k + 1) * (j + 1) := by
      rw [length_parents, hfront]
      omega
    have htail' : (parents tail).length = 2 ^ k := by
      rw [length_parents, htail]
      omega
    rw [List.append_assoc, root_append hpos hfrontEven, root_append hpos hfrontEven,
      parents_append htailEven, ← List.append_assoc]
    exact ih hfront' htail'

/-- The last `2 ^ k` ids of a list can be repeated if halving its length `k` times gives an odd
number, and not the number one. -/
theorem root_append_rtake {k m : Nat} {ids : List Hash} (hlength : ids.length = m * 2 ^ k)
    (hodd : Odd m) (hm : 3 ≤ m) : root (ids ++ ids.rtake (2 ^ k)) = root ids := by
  obtain ⟨j, rfl⟩ : ∃ j, m = 2 * (j + 1) + 1 := by
    obtain ⟨half, rfl⟩ := hodd
    exact ⟨half - 1, by omega⟩
  have hsplit : ids.rdrop (2 ^ k) ++ ids.rtake (2 ^ k) = ids := List.take_append_drop _ ids
  have hcut : ids.length - 2 ^ k = 2 ^ (k + 1) * (j + 1) := by
    rw [hlength, Nat.add_mul, Nat.one_mul, Nat.add_sub_cancel, pow_succ]
    ring
  have hle : 2 ^ k ≤ ids.length := by
    rw [hlength]
    exact Nat.le_mul_of_pos_left _ (by omega)
  have hfront : (ids.rdrop (2 ^ k)).length = 2 ^ (k + 1) * (j + 1) := by
    rw [List.rdrop, List.length_take, min_eq_left (Nat.sub_le _ _), hcut]
  have htail : (ids.rtake (2 ^ k)).length = 2 ^ k := by
    rw [List.rtake, List.length_drop, Nat.sub_sub_self hle]
  have hrepeat := root_repeat_end hfront htail
  rwa [hsplit] at hrepeat

/-- Where halving the number of ids `k` times gives an odd number of three or more, the last `2 ^ k`
ids can be repeated without a change of the root. Then no check of the root tells a block with these
ids from one with the same header and the longer list, if both state their number of transactions or
neither does. Blocks that are put together from header and entries do state it. -/
theorem same_root_of_repeated_end {k m : Nat} {ids : List Hash} (hlength : ids.length = m * 2 ^ k)
    (hodd : Odd m) (hm : 3 ≤ m) :
    root (ids ++ ids.rtake (2 ^ k)) = root ids ∧
    (∀ b b' : Block, b.header = b'.header → b.ids = ids → b'.ids = ids ++ ids.rtake (2 ^ k) →
      (b.count = some b.entries.length ↔ b'.count = some b'.entries.length) →
        b.checkMerkleRoot = b'.checkMerkleRoot) ∧
    ∀ header entries entries' height height' network network' b b',
      entries.map Entry.id = ids → entries'.map Entry.id = ids ++ ids.rtake (2 ^ k) →
      (assemble header entries height network).result = .ok b →
      (assemble header entries' height' network').result = .ok b' →
        b.checkMerkleRoot = b'.checkMerkleRoot := by
  have hroot := root_append_rtake hlength hodd hm
  have hsame : ∀ b b' : Block, b.header = b'.header → b.ids = ids →
      b'.ids = ids ++ ids.rtake (2 ^ k) →
      (b.count = some b.entries.length ↔ b'.count = some b'.entries.length) →
        b.checkMerkleRoot = b'.checkMerkleRoot := by
    intro b b' hheader hids hids' hcount
    rw [checkMerkleRoot_eq, checkMerkleRoot_eq, hids, hids', hroot, hheader,
      if_congr hcount rfl rfl]
  refine ⟨hroot, hsame, ?_⟩
  intro header entries entries' height height' network network' b b' hids hids' h h'
  have hne : ids ≠ [] := by
    rintro rfl
    have hpos : 0 < m * 2 ^ k := by positivity
    exact absurd hlength hpos.ne
  have hentries : entries ≠ [] := by
    rintro rfl
    exact hne hids.symm
  have hentries' : entries' ≠ [] := by
    rintro rfl
    exact hne (List.append_eq_nil_iff.mp hids'.symm).1
  obtain ⟨hheader, rfl, hcount⟩ := parts_of_assemble hentries h
  obtain ⟨hheader', rfl, hcount'⟩ := parts_of_assemble hentries' h'
  exact hsame b b' (hheader.trans hheader'.symm) hids hids' (iff_of_true hcount hcount')

/-- Six hashes, so that the level above them is odd. -/
def sextet : List Hash :=
  [Hash.zero, doubleHash [], doubleHash [0], doubleHash [1], doubleHash [2], doubleHash [3]]

def octet : List Hash := sextet ++ sextet.rtake (2 ^ 1)

/-- A block that knows its transactions by their ids only. -/
def blockOf (ids : List Hash) (count : Option Nat) : Block where
  header := {}
  entries := ids.map .bare
  count := count
  height := none
  network := .bitcoin

theorem map_id_bare (ids : List Hash) : (ids.map Entry.bare).map Entry.id = ids := by
  rw [List.map_map]
  exact List.map_id ids

theorem same_root_sextet :
    sextet.length = 3 * 2 ^ 1 ∧ Odd 3 ∧ root octet = root sextet ∧
      (blockOf sextet none).checkMerkleRoot = (blockOf octet none).checkMerkleRoot ∧
      (assemble {} (sextet.map .bare) none .bitcoin).result = .ok (blockOf sextet (some 6)) ∧
      (assemble {} (octet.map .bare) none .bitcoin).result = .ok (blockOf octet (some 8)) ∧
      (blockOf sextet (some 6)).checkMerkleRoot = (blockOf octet (some 8)).checkMerkleRoot := by
  have hlength : sextet.length = 3 * 2 ^ 1 := rfl
  have hodd : Odd 3 := by decide
  obtain ⟨hroot, hsame, hassembled⟩ := same_root_of_repeated_end hlength hodd (Nat.le_refl 3)
  have hsextet := map_id_bare sextet
  have hoctet := map_id_bare octet
  have hshort : (assemble {} (sextet.map .bare) none .bitcoin).result =
      .ok (blockOf sextet (some 6)) := rfl
  have hlong : (assemble {} (octet.map .bare) none .bitcoin).result =
      .ok (blockOf octet (some 8)) := rfl
  refine ⟨hlength, hodd, hroot, ?_, hshort, hlong, ?_⟩
  · exact hsame _ _ rfl hsextet hoctet (iff_of_false nofun nofun)
  · exact hassembled _ _ _ _ _ _ _ _ _ hsextet hoctet hshort hlong

end BitcoinBlock.Merkle
