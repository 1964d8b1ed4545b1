import BitcoinBlock.Hash

/-! # What a Merkle root commits to

Lists of one length with the same root are the same list, unless the computations of the two roots
hash different strings to the same digest at the same place.
-/
namespace BitcoinBlock.Merkle

variable {level level' : List Hash} {left left' right right' : Hash} {rest rest' : List Hash}
  {height position : Nat}

/-- The strings that are hashed to make the level above. -/
def messages : List Hash → List (List UInt8)
  | [] => []
  | [last] => [last.bytes ++ last.bytes]
  | left :: right :: rest => (left.bytes ++ right.bytes) :: messages rest

theorem map_messages : ∀ level : List Hash, (messages level).map doubleHash = parents level
  | [] => rfl
  | [_] => rfl
  | _ :: _ :: rest => by
    rw [messages, List.map_cons, map_messages rest]
    rfl

theorem length_of_mem_messages : ∀ message ∈ messages level, message.length = 64 := by
  fun_induction messages level with
  | case1 => simp
  | case2 last => simp
  | case3 left right rest ih => simpa using ih

/-- Two hashes of 32 bytes can be told from the string that they make. -/
theorem eq_of_append_eq (h : left.bytes ++ right.bytes = left'.bytes ++ right'.bytes) :
    left = left' ∧ right = right' := by
  have hlen : left.bytes.length = left'.bytes.length := by
    rw [left.length_bytes, left'.length_bytes]
  obtain ⟨hleft, hright⟩ := List.append_inj h hlen
  exact ⟨Hash.ext hleft, Hash.ext hright⟩

/-- The repeated hash at the end of an odd level is no ambiguity between levels of one length. -/
theorem eq_of_messages_eq (hlen : level.length = level'.length)
    (h : messages level = messages level') : level = level' := by
  fun_induction messages level generalizing level' with
  | case1 => exact (List.eq_nil_of_length_eq_zero hlen.symm).symm
  | case2 last =>
    obtain ⟨last', rfl⟩ := List.length_eq_one_iff.mp hlen.symm
    rw [(eq_of_append_eq (List.cons.inj h).1).1]
  | case3 left right rest ih =>
    obtain _ | ⟨left', _ | ⟨right', rest'⟩⟩ := level'
    · cases hlen
    · cases hlen
    · obtain ⟨hfirst, hothers⟩ := List.cons.inj h
      obtain ⟨rfl, rfl⟩ := eq_of_append_eq hfirst
      rw [ih (Nat.succ.inj (Nat.succ.inj hlen)) hothers]

/-- All strings that are hashed on the way to the root, level by level, the lowest first. -/
def hashed : List Hash → List (List (List UInt8))
  | [] => []
  | [_] => []
  | left :: right :: rest =>
    messages (left :: right :: rest) ::
      hashed ((messages (left :: right :: rest)).map doubleHash)
termination_by level => level.length
decreasing_by
  rw [map_messages, length_parents, List.length_cons, List.length_cons]
  omega

theorem hashed_cons_cons (left right : Hash) (rest : List Hash) :
    hashed (left :: right :: rest) =
      messages (left :: right :: rest) :: hashed (parents (left :: right :: rest)) := by
  rw [hashed, map_messages]

theorem exists_root_eq_doubleHash (hlevel : 1 < level.length) :
    ∃ top, (hashed level).getLast? = some [top] ∧ root level = some (doubleHash top) := by
  fun_induction root level with
  | case1 => cases hlevel
  | case2 top => exact absurd hlevel (Nat.lt_irrefl 1)
  | case3 left right rest ih =>
    rw [hashed_cons_cons, List.getLast?_cons]
    cases rest with
    | nil =>
      refine ⟨left.bytes ++ right.bytes, ?_, ?_⟩
      · simp only [parents, hashed, messages, List.getLast?_nil, Option.getD_none]
      · rw [parents, parents, root, join, step]
    | cons third rest =>
      have hparents : 1 < (parents (left :: right :: third :: rest)).length := by
        rw [length_parents]
        simp only [List.length_cons]
        omega
      obtain ⟨top, htop, hroot⟩ := ih hparents
      rw [htop]
      exact ⟨top, rfl, hroot⟩

/-- The string that is hashed at this height and position, if there is one. -/
def hashedAt (level : List Hash) (height position : Nat) : Option (List UInt8) :=
  (hashed level)[height]?.bind (·[position]?)

/-- The computations of the two roots hash different strings of 64 bytes to the same digest, at this
height and position in both. -/
def Collide (level level' : List Hash) (height position : Nat) : Prop :=
  ∃ message message' : List UInt8,
    hashedAt level height position = some message ∧
    hashedAt level' height position = some message' ∧
    message.length = 64 ∧ message'.length = 64 ∧
    message ≠ message' ∧ doubleHash message = doubleHash message'

theorem Collide.succ
    (h : Collide (parents (left :: right :: rest)) (parents (left' :: right' :: rest'))
      height position) :
    Collide (left :: right :: rest) (left' :: right' :: rest') (height + 1) position := by
  simp only [Collide, hashedAt, hashed_cons_cons, List.getElem?_cons_succ]
  exact h

theorem exists_getElem?_ne_of_map_eq {α β : Type} {f : α → β} {l l' : List α}
    (hmap : l.map f = l'.map f) (hne : l ≠ l') :
    ∃ (i : Nat) (a a' : α), l[i]? = some a ∧ l'[i]? = some a' ∧ a ≠ a' ∧ f a = f a' := by
  obtain ⟨i, hi⟩ : ∃ i, l[i]? ≠ l'[i]? :=
    Classical.not_forall.mp fun h => hne (List.ext_getElem? h)
  have himage : l[i]?.map f = l'[i]?.map f := by
    rw [← List.getElem?_map, ← List.getElem?_map, hmap]
  cases ha : l[i]? with
  | none =>
    rw [ha, Option.map_none, eq_comm, Option.map_eq_none_iff] at himage
    exact absurd (ha.trans himage.symm) hi
  | some a =>
    rw [ha, Option.map_some, eq_comm] at himage
    obtain ⟨a', ha', hf⟩ := Option.map_eq_some_iff.mp himage
    refine ⟨i, a, a', ha, ha', ?_, hf.symm⟩
    rintro rfl
    exact hi (ha.trans ha'.symm)

/-- Levels with the same level above that are made of different strings collide on the way to it. -/
theorem exists_collide_zero
    (hparents : parents (left :: right :: rest) = parents (left' :: right' :: rest'))
    (hne : messages (left :: right :: rest) ≠ messages (left' :: right' :: rest')) :
    ∃ position, Collide (left :: right :: rest) (left' :: right' :: rest') 0 position := by
  rw [← map_messages, ← map_messages] at hparents
  obtain ⟨position, message, message', hmessage, hmessage', hdiffer, hdigest⟩ :=
    exists_getElem?_ne_of_map_eq hparents hne
  refine ⟨position, message, message', ?_, ?_, ?_, ?_, hdiffer, hdigest⟩
  · rw [hashedAt, hashed_cons_cons]
    exact hmessage
  · rw [hashedAt, hashed_cons_cons]
    exact hmessage'
  · exact length_of_mem_messages message (List.mem_of_getElem? hmessage)
  · exact length_of_mem_messages message' (List.mem_of_getElem? hmessage')

/-- A root commits to every list of hashes of one length: two such lists with the same root are
equal, or their computations hash different strings to the same digest at the same place. -/
theorem eq_or_collide_of_root_eq (hlen : level.length = level'.length)
    (hroot : root level = root level') :
    level = level' ∨ ∃ height position, Collide level level' height position := by
  fun_induction root level generalizing level' with
  | case1 =>
    left
    exact (List.eq_nil_of_length_eq_zero hlen.symm).symm
  | case2 top =>
    obtain ⟨top', rfl⟩ := List.length_eq_one_iff.mp hlen.symm
    left
    rw [root, Option.some.injEq] at hroot
    rw [hroot]
  | case3 left right rest ih =>
    obtain _ | ⟨left', _ | ⟨right', rest'⟩⟩ := level'
    · cases hlen
    · cases hlen
    · rw [root.eq_3 left'] at hroot
      have hlen' : (parents (left :: right :: rest)).length =
          (parents (left' :: right' :: rest')).length := by
        rw [length_parents, length_parents, hlen]
      rcases ih hlen' hroot with hparents | ⟨height, position, hcollide⟩
      · by_cases hmessages :
            messages (left :: right :: rest) = messages (left' :: right' :: rest')
        · left
          exact eq_of_messages_eq hlen hmessages
        · right
          exact ⟨0, exists_collide_zero hparents hmessages⟩
      · right
        exact ⟨height + 1, position, hcollide.succ⟩

/-- Three hashes, the last of which is paired with itself. -/
def trio : List Hash := [Hash.zero, doubleHash [], doubleHash [0]]

def duo : List Hash :=
  [join Hash.zero (doubleHash []), join (doubleHash [0]) (doubleHash [0])]

theorem eq_or_collide_trio :
    (parents trio).length = duo.length ∧ root (parents trio) = root duo ∧
      (parents trio = duo ∨ ∃ height position, Collide (parents trio) duo height position) :=
  ⟨rfl, rfl, eq_or_collide_of_root_eq rfl rfl⟩

end BitcoinBlock.Merkle
