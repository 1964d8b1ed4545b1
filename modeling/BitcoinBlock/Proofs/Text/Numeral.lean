import BitcoinBlock.Proofs.Text.Numeral.Digits

/-! # The grammar of numbers

A number is written with one digit or more, and a plus sign may stand before them. The digits are
hexadecimal behind a marker and decimal without one. A text is read exactly if it is so written and
the number fits into a word, however many zeros stand in front.
-/
namespace BitcoinBlock.Text.Numeral

/-- One digit or more, behind a plus sign or alone. -/
inductive SpellsIn (radix : Nat) : List Char → Nat → Prop
  | alone {digits : List Char} {n : Nat} (hne : digits ≠ []) (hdigits : Denotes radix digits n) :
      SpellsIn radix digits n
  | signed {digits : List Char} {n : Nat} (hne : digits ≠ []) (hdigits : Denotes radix digits n) :
      SpellsIn radix ('+' :: digits) n

/-- What tells hexadecimal digits from decimal ones. -/
def markers : List (List Char) := [['0', 'x'], ['0', 'X']]

/-- The texts of a number, in base 16 behind a marker and in base 10 without one. -/
inductive Spells : List Char → Nat → Prop
  | hexadecimal {marker body : List Char} {n : Nat} (hmarker : marker ∈ markers)
      (hbody : SpellsIn 16 body n) : Spells (marker ++ body) n
  | decimal {text : List Char} {n : Nat} (hnone : ∀ marker ∈ markers, ¬marker <+: text)
      (htext : SpellsIn 10 text n) : Spells text n

variable {radix bound n : Nat} {text digits marker body : List Char}

theorem SpellsIn.ne_nil (h : SpellsIn radix text n) : text ≠ [] := by
  cases h with
  | alone hne _ => exact hne
  | signed _ _ => exact List.cons_ne_nil _ _

theorem SpellsIn.lt_pow (hpos : 0 < radix) (hradix : radix ≤ 16) (h : SpellsIn radix text n) :
    n < radix ^ text.length := by
  cases h with
  | alone _ hdigits => exact hdigits.lt_pow hradix
  | signed _ hdigits =>
    exact (hdigits.lt_pow hradix).trans_le (Nat.pow_le_pow_right hpos (Nat.le_succ _))

def dropSign : List Char → List Char
  | '+' :: digits => digits
  | text => text

theorem dropSign_of_head?_ne (hplus : text.head? ≠ some '+') : dropSign text = text := by
  unfold dropSign
  split
  · exact absurd rfl hplus
  · rfl

theorem Denotes.dropSign_append (hradix : radix ≤ 16) (h : Denotes radix digits n)
    (hne : digits ≠ []) (rest : List Char) : dropSign (digits ++ rest) = digits ++ rest := by
  apply dropSign_of_head?_ne
  rw [List.head?_append_of_ne_nil digits hne]
  intro hplus
  exact h.plus_notMem hradix (List.mem_of_mem_head? hplus)

theorem eq_or_eq_cons_dropSign (text : List Char) :
    text = dropSign text ∨ text = '+' :: dropSign text := by
  unfold dropSign
  split
  · exact .inr rfl
  · exact .inl rfl

theorem spellsIn_iff (hradix : radix ≤ 16) :
    SpellsIn radix text n ↔ dropSign text ≠ [] ∧ Denotes radix (dropSign text) n := by
  constructor
  · intro h
    cases h with
    | alone hne hdigits =>
      have hdrop := hdigits.dropSign_append hradix hne []
      rw [List.append_nil] at hdrop
      rw [hdrop]
      exact ⟨hne, hdigits⟩
    | signed hne hdigits => exact ⟨hne, hdigits⟩
  · rintro ⟨hne, hdigits⟩
    rcases eq_or_eq_cons_dropSign text with htext | htext
    · exact htext ▸ .alone hne hdigits
    · exact htext ▸ .signed hne hdigits

theorem unsigned_eq : unsigned radix bound text =
    if dropSign text = [] then .error (if text = [] then .empty else .invalidDigit)
    else extend radix bound 0 (dropSign text) := by
  by_cases hplus : text.head? = some '+'
  · obtain ⟨digits, rfl⟩ := List.head?_eq_some_iff.mp hplus
    cases digits with
    | nil => rfl
    | cons c digits => rfl
  · rw [dropSign_of_head?_ne hplus]
    unfold unsigned
    split
    · rfl
    · exact absurd rfl hplus
    · exact absurd rfl hplus
    next hne _ _ => rw [if_neg hne]

theorem unsigned_eq_ok_iff (hpos : 0 < radix) (hradix : radix ≤ 16) (hbound : 0 < bound) :
    unsigned radix bound text = .ok n ↔ SpellsIn radix text n ∧ n < bound := by
  rw [unsigned_eq, spellsIn_iff hradix]
  split_ifs with hnil
  · simp [hnil]
  · simp [hnil, extend_eq_ok_iff hpos hradix hbound]

theorem unsigned_eq_empty_iff : unsigned radix bound text = .error .empty ↔ text = [] := by
  rw [unsigned_eq]
  split_ifs with hdigits hnil
  · simp [hnil]
  · simp [hnil]
  · simp only [extend_ne_empty, false_iff]
    rintro rfl
    exact hdigits rfl

theorem exceeds_spellsIn_iff (hradix : radix ≤ 16) (hbound : 0 < bound) :
    Exceeds (SpellsIn radix) bound text ↔ Exceeds (Denotes radix) bound (dropSign text) := by
  constructor
  · rintro ⟨front, n, ⟨rest, rfl⟩, hn, hle⟩
    cases hn with
    | alone hne hdigits =>
      rw [hdigits.dropSign_append hradix hne]
      exact ⟨front, n, List.prefix_append front rest, hdigits, hle⟩
    | signed _ hdigits => exact ⟨_, n, List.prefix_append _ rest, hdigits, hle⟩
  · rintro ⟨front, n, hfront, hn, hle⟩
    have hne : front ≠ [] := hn.ne_nil (hbound.trans_le hle)
    rcases eq_or_eq_cons_dropSign text with htext | htext
    · exact ⟨front, n, htext ▸ hfront, .alone hne hn, hle⟩
    · exact ⟨'+' :: front, n, htext ▸ (List.prefix_cons_inj '+').mpr hfront, .signed hne hn, hle⟩

theorem unsigned_eq_tooLarge_iff (hpos : 0 < radix) (hradix : radix ≤ 16) (hbound : 0 < bound) :
    unsigned radix bound text = .error .tooLarge ↔ Exceeds (SpellsIn radix) bound text := by
  rw [exceeds_spellsIn_iff hradix hbound, ← extend_eq_tooLarge_iff hpos hradix hbound, unsigned_eq]
  split_ifs with hdigits hnil
  · simp [hdigits, extend]
  · simp [hdigits, extend]
  · rfl

theorem length_of_mem_markers (hmarker : marker ∈ markers) : marker.length = 2 := by
  revert marker
  decide

theorem Spells.lt_pow (h : Spells text n) : n < 16 ^ text.length := by
  cases h with
  | hexadecimal _ hbody =>
    rw [List.length_append]
    exact (hbody.lt_pow (by decide) (by decide)).trans_le
      (Nat.pow_le_pow_right (by decide) (Nat.le_add_left _ _))
  | decimal _ htext =>
    exact (htext.lt_pow (by decide) (by decide)).trans_le (Nat.pow_le_pow_left (by decide) _)

theorem spells_marked_iff (hmarker : marker ∈ markers) :
    Spells (marker ++ body) n ↔ SpellsIn 16 body n := by
  constructor
  · intro h
    generalize htext : marker ++ body = text at h
    cases h with
    | hexadecimal hother hbody =>
      have hlen := (length_of_mem_markers hmarker).trans (length_of_mem_markers hother).symm
      rwa [(List.append_inj htext hlen).2]
    | decimal hnone _ => exact absurd (htext ▸ List.prefix_append marker body) (hnone _ hmarker)
  · exact .hexadecimal hmarker

theorem spells_unmarked_iff (hnone : ∀ marker ∈ markers, ¬marker <+: text) :
    Spells text n ↔ SpellsIn 10 text n := by
  constructor
  · intro h
    cases h with
    | hexadecimal hmarker _ => exact absurd (List.prefix_append _ _) (hnone _ hmarker)
    | decimal _ htext => exact htext
  · exact .decimal hnone

theorem word_marked (hmarker : marker ∈ markers) (body : List Char) :
    word (marker ++ body) = UInt32.ofNat <$> unsigned 16 UInt32.size body := by
  rcases List.mem_pair.mp hmarker with rfl | rfl
  · rfl
  · rfl

theorem word_unmarked (hnone : ∀ marker ∈ markers, ¬marker <+: text) :
    word text = UInt32.ofNat <$> unsigned 10 UInt32.size text := by
  unfold word
  split
  next digits => exact absurd (List.prefix_append _ digits) (hnone ['0', 'x'] (by decide))
  next digits => exact absurd (List.prefix_append _ digits) (hnone ['0', 'X'] (by decide))
  next => rfl

theorem exceeds_marked_iff (hmarker : marker ∈ markers) :
    Exceeds Spells UInt32.size (marker ++ body) ↔ Exceeds (SpellsIn 16) UInt32.size body := by
  constructor
  · rintro ⟨front, n, hfront, hn, hle⟩
    rcases List.prefix_or_prefix_of_prefix hfront (List.prefix_append marker body) with
      hshort | ⟨rest, rfl⟩
    · have hlen : front.length ≤ 2 := length_of_mem_markers hmarker ▸ hshort.length_le
      have hlt : n < 16 ^ 2 := hn.lt_pow.trans_le (Nat.pow_le_pow_right (by decide) hlen)
      have hsize : 16 ^ 2 ≤ UInt32.size := by decide
      omega
    · exact ⟨rest, n, (List.prefix_append_right_inj marker).mp hfront,
        (spells_marked_iff hmarker).mp hn, hle⟩
  · rintro ⟨front, n, hfront, hn, hle⟩
    exact ⟨marker ++ front, n, (List.prefix_append_right_inj marker).mpr hfront,
      .hexadecimal hmarker hn, hle⟩

theorem exceeds_unmarked_iff (hnone : ∀ marker ∈ markers, ¬marker <+: text) :
    Exceeds Spells bound text ↔ Exceeds (SpellsIn 10) bound text := by
  have hspells {front : List Char} (hfront : front <+: text) (n : Nat) :
      Spells front n ↔ SpellsIn 10 front n :=
    spells_unmarked_iff fun marker hmarker hstart => hnone marker hmarker (hstart.trans hfront)
  constructor
  · rintro ⟨front, n, hfront, hn, hle⟩
    exact ⟨front, n, hfront, (hspells hfront n).mp hn, hle⟩
  · rintro ⟨front, n, hfront, hn, hle⟩
    exact ⟨front, n, hfront, (hspells hfront n).mpr hn, hle⟩

/-- Nothing of a number below the bound is lost in the word. -/
theorem map_unsigned_eq_ok_iff (hpos : 0 < radix) (hradix : radix ≤ 16) {n : UInt32} :
    UInt32.ofNat <$> unsigned radix UInt32.size text = .ok n ↔ SpellsIn radix text n.toNat := by
  have hsize : 0 < UInt32.size := by decide
  change (unsigned radix UInt32.size text).map UInt32.ofNat = _ ↔ _
  simp only [map_eq_ok_iff, unsigned_eq_ok_iff hpos hradix hsize]
  constructor
  · rintro ⟨m, ⟨hm, hlt⟩, rfl⟩
    rwa [UInt32.toNat_ofNat_of_lt' hlt]
  · intro h
    exact ⟨n.toNat, ⟨h, n.toNat_lt⟩, UInt32.ofNat_toNat⟩

theorem map_unsigned_eq_error_iff {fault : Fault} :
    UInt32.ofNat <$> unsigned radix UInt32.size text = .error fault ↔
      unsigned radix UInt32.size text = .error fault := by
  change (unsigned radix UInt32.size text).map UInt32.ofNat = _ ↔ _
  exact map_eq_error_iff

theorem marked_or_unmarked (text : List Char) :
    (∃ marker ∈ markers, ∃ body, text = marker ++ body) ∨ ∀ marker ∈ markers, ¬marker <+: text := by
  by_cases hmarked : ∃ marker ∈ markers, marker <+: text
  · obtain ⟨marker, hmarker, body, rfl⟩ := hmarked
    exact .inl ⟨marker, hmarker, body, rfl⟩
  · exact .inr fun marker hmarker hstart => hmarked ⟨marker, hmarker, hstart⟩

theorem word_eq_ok_iff {n : UInt32} : word text = .ok n ↔ Spells text n.toNat := by
  rcases marked_or_unmarked text with ⟨marker, hmarker, body, rfl⟩ | hnone
  · rw [word_marked hmarker, spells_marked_iff hmarker,
      map_unsigned_eq_ok_iff (by decide) (by decide)]
  · rw [word_unmarked hnone, spells_unmarked_iff hnone,
      map_unsigned_eq_ok_iff (by decide) (by decide)]

theorem word_eq_tooLarge_iff : word text = .error .tooLarge ↔ Exceeds Spells UInt32.size text := by
  rcases marked_or_unmarked text with ⟨marker, hmarker, body, rfl⟩ | hnone
  · rw [word_marked hmarker, exceeds_marked_iff hmarker, map_unsigned_eq_error_iff,
      unsigned_eq_tooLarge_iff (by decide) (by decide) (by decide)]
  · rw [word_unmarked hnone, exceeds_unmarked_iff hnone, map_unsigned_eq_error_iff,
      unsigned_eq_tooLarge_iff (by decide) (by decide) (by decide)]

theorem word_eq_empty_iff : word text = .error .empty ↔ text = [] ∨ text ∈ markers := by
  rcases marked_or_unmarked text with ⟨marker, hmarker, body, rfl⟩ | hnone
  · rw [word_marked hmarker, map_unsigned_eq_error_iff, unsigned_eq_empty_iff]
    have hlen := length_of_mem_markers hmarker
    constructor
    · rintro rfl
      rw [List.append_nil]
      exact .inr hmarker
    · rintro (hnil | hmem)
      · exact (List.append_eq_nil_iff.mp hnil).2
      · have hlong := length_of_mem_markers hmem
        rw [List.length_append] at hlong
        exact List.length_eq_zero_iff.mp (by omega)
  · rw [word_unmarked hnone, map_unsigned_eq_error_iff, unsigned_eq_empty_iff]
    have hmem : text ∉ markers := fun hmem => hnone text hmem List.prefix_rfl
    simp only [hmem, or_false]

/-- A text is read as a word exactly if it is a number that fits, and every other text is refused.
It is too large if some front of it is a number that does not fit, and empty if nothing stands in it
or behind its marker. -/
theorem word_reads_numbers (text : List Char) :
    (∀ n : UInt32, word text = .ok n ↔ Spells text n.toNat) ∧
    ((∃ fault, word text = .error fault) ↔ ¬∃ n, Spells text n ∧ n < 2 ^ 32) ∧
    (word text = .error .tooLarge ↔ Exceeds Spells (2 ^ 32) text) ∧
    (word text = .error .empty ↔ text = [] ∨ text ∈ markers) := by
  refine ⟨fun n => word_eq_ok_iff, ?_, word_eq_tooLarge_iff, word_eq_empty_iff⟩
  have hrefused : (∃ fault, word text = .error fault) ↔ ∀ n, word text ≠ .ok n := by
    cases word text with
    | error fault => simp
    | ok n => simp
  rw [hrefused]
  constructor
  · rintro hnone ⟨n, hn, hlt⟩
    refine hnone (UInt32.ofNat n) (word_eq_ok_iff.mpr ?_)
    rwa [UInt32.toNat_ofNat_of_lt' hlt]
  · intro hnone n hread
    exact hnone ⟨n.toNat, word_eq_ok_iff.mp hread, n.toNat_lt⟩

/-- The sign stands behind the marker. -/
example : word "0x+00000001d00ffff".toList = .ok 0x1d00ffff ∧
    word "+0x1d00ffff".toList = .error .invalidDigit := ⟨rfl, rfl⟩

end BitcoinBlock.Text.Numeral
