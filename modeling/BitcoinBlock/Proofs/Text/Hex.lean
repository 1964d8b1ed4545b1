import BitcoinBlock.Proofs.Wire.Decoder
import BitcoinBlock.Text
import Mathlib.Tactic.SplitIfs

/-! # The order and the reading of hexadecimal texts

The sixteen digits stand in the order of their values, so bytes are ordered like their texts.
-/
namespace BitcoinBlock.Text

namespace Hex

theorem digitChar_lt_iff : ∀ n < 16, ∀ m < 16, n.digitChar < m.digitChar ↔ n < m := by
  decide

theorem digitChar_inj : ∀ n < 16, ∀ m < 16, n.digitChar = m.digitChar ↔ n = m := by
  decide

theorem digits_append_lt_iff (a b : UInt8) (s t : List Char) :
    digits a ++ s < digits b ++ t ↔ a < b ∨ a = b ∧ s < t := by
  have ha := a.toNat_lt
  have hb := b.toNat_lt
  have hhigh : a.toNat / 16 < 16 ∧ b.toNat / 16 < 16 := by omega
  have hlow : a.toNat % 16 < 16 ∧ b.toNat % 16 < 16 := by omega
  simp only [digits, List.cons_append, List.nil_append, List.cons_lt_cons_iff,
    digitChar_lt_iff _ hhigh.1 _ hhigh.2, digitChar_inj _ hhigh.1 _ hhigh.2,
    digitChar_lt_iff _ hlow.1 _ hlow.2, digitChar_inj _ hlow.1 _ hlow.2]
  rw [UInt8.lt_iff_toNat_lt, ← UInt8.toNat_inj]
  by_cases h : s < t
  · simp only [h, and_true]
    omega
  · simp only [h, and_false, or_false]
    omega

theorem flatMap_digits_lt_iff (l m : List UInt8) : l.flatMap digits < m.flatMap digits ↔ l < m := by
  induction l generalizing m with
  | nil =>
    cases m with
    | nil => simp
    | cons b m => simp [digits]
  | cons a l ih =>
    cases m with
    | nil => simp
    | cons b m =>
      rw [List.flatMap_cons, List.flatMap_cons, digits_append_lt_iff, ih, List.cons_lt_cons_iff]

theorem encode_lt_encode_iff (l m : List UInt8) : encode l < encode m ↔ l < m := by
  rw [String.lt_iff, encode, encode, String.toList_ofList, String.toList_ofList,
    flatMap_digits_lt_iff]

end Hex

/-! ## Reading

A text is read as some bytes exactly if it is the text of these bytes, save that its letters may be
of either case. Every other text is refused, whatever stands in it.
-/

/-- Two texts that differ in the case of letters at most. -/
def SameButCase (s t : List Char) : Prop := s.map Char.toLower = t.map Char.toLower

namespace Hex

theorem toNat_toLower (c : Char) :
    c.toLower.toNat = if 65 ≤ c.toNat ∧ c.toNat ≤ 90 then c.toNat + 32 else c.toNat := by
  have hlower : 'A'.val ≤ c.val ↔ 65 ≤ c.toNat := UInt32.le_iff_toNat_le
  have hupper : c.val ≤ 'Z'.val ↔ c.toNat ≤ 90 := UInt32.le_iff_toNat_le
  have hval : c.val.toNat = c.toNat := rfl
  delta Char.toLower
  simp only [ge_iff_le, hlower, hupper]
  split_ifs with hletter
  · change (c.val + 32).toNat = c.toNat + 32
    rw [UInt32.toNat_add, hval]
    change (c.toNat + 32) % 2 ^ 32 = _
    omega
  · rfl

theorem toNat_digitChar : ∀ n < 16, n.digitChar.toNat = if n < 10 then 48 + n else 87 + n := by
  decide

theorem toLower_digitChar : ∀ n < 16, n.digitChar.toLower = n.digitChar := by
  decide

theorem value?_eq_some_iff {c : Char} {n : Nat} :
    value? c = some n ↔ n < 16 ∧ c.toLower = n.digitChar := by
  have hle (a b : Char) : a ≤ b ↔ a.toNat ≤ b.toNat := UInt32.le_iff_toNat_le
  have hnat : n < 16 ∧ c.toLower = n.digitChar ↔
      n < 16 ∧ (if 65 ≤ c.toNat ∧ c.toNat ≤ 90 then c.toNat + 32 else c.toNat) =
        if n < 10 then 48 + n else 87 + n := by
    refine and_congr_right fun hn => ?_
    rw [← Char.toNat_inj, toNat_toLower, toNat_digitChar n hn]
  rw [hnat, value?]
  simp only [hle]
  change (if 48 ≤ c.toNat ∧ c.toNat ≤ 57 then some (c.toNat - 48)
    else if 97 ≤ c.toNat ∧ c.toNat ≤ 102 then some (c.toNat - 97 + 10)
    else if 65 ≤ c.toNat ∧ c.toNat ≤ 70 then some (c.toNat - 65 + 10) else none) = some n ↔ _
  split_ifs <;> simp only [Option.some.injEq, false_iff] <;> omega

theorem digitAt_eq_ok_iff {position : Nat} {c : Char} {n : Nat} :
    digitAt position c = .ok n ↔ value? c = some n := by
  rw [digitAt]
  split <;> simp_all

theorem length_flatMap_digits (bytes : List UInt8) :
    (bytes.flatMap digits).length = 2 * bytes.length := by
  induction bytes with
  | nil => rfl
  | cons b rest ih =>
    rw [List.flatMap_cons, List.length_append, ih, List.length_cons, digits]
    simp only [List.length_cons, List.length_nil]
    omega

theorem map_toLower_digits (b : UInt8) : (digits b).map Char.toLower = digits b := by
  have hb := b.toNat_lt
  rw [digits, List.map_cons, List.map_cons, List.map_nil, toLower_digitChar _ (by omega),
    toLower_digitChar _ (by omega)]

theorem map_toLower_flatMap_digits (bytes : List UInt8) :
    (bytes.flatMap digits).map Char.toLower = bytes.flatMap digits := by
  rw [List.map_flatMap]
  simp only [map_toLower_digits]

/-- Writing uses lower-case digits, so only the other text has to be brought to lower case. -/
theorem sameButCase_encode_iff {text : List Char} {bytes : List UInt8} :
    SameButCase text (encode bytes).toList ↔ text.map Char.toLower = bytes.flatMap digits := by
  rw [SameButCase, encode, String.toList_ofList, map_toLower_flatMap_digits]

/-- Two characters are the digits of a byte, in either case, if they have the values of its
halves. -/
theorem toLower_eq_digits_iff {high low : Char} {b : UInt8} :
    [high.toLower, low.toLower] = digits b ↔
      value? high = some (b.toNat / 16) ∧ value? low = some (b.toNat % 16) := by
  have hb := b.toNat_lt
  have hhigh : b.toNat / 16 < 16 := by omega
  have hlow : b.toNat % 16 < 16 := by omega
  simp only [digits, List.cons.injEq, and_true, value?_eq_some_iff, hhigh, hlow, true_and]

variable {position : Nat} {done bytes : List UInt8}

theorem decodeFrom_cons_cons_eq_ok_iff {high low : Char} {rest : List Char} :
    decodeFrom position done (high :: low :: rest) = .ok bytes ↔
      ∃ b, [high.toLower, low.toLower] = digits b ∧
        decodeFrom (position + 2) (b :: done) rest = .ok bytes := by
  simp only [decodeFrom, bind_eq_ok_iff, digitAt_eq_ok_iff, toLower_eq_digits_iff]
  constructor
  · rintro ⟨h, hhigh, l, hlow, hrest⟩
    have hh : h < 16 := (value?_eq_some_iff.mp hhigh).1
    have hl : l < 16 := (value?_eq_some_iff.mp hlow).1
    have hb : (UInt8.ofNat (16 * h + l)).toNat = 16 * h + l := by
      rw [UInt8.toNat_ofNat']
      omega
    refine ⟨_, ⟨?_, ?_⟩, hrest⟩
    · rw [hhigh, hb, show (16 * h + l) / 16 = h by omega]
    · rw [hlow, hb, show (16 * h + l) % 16 = l by omega]
  · rintro ⟨b, ⟨hhigh, hlow⟩, hrest⟩
    refine ⟨_, hhigh, _, hlow, ?_⟩
    rwa [Nat.div_add_mod, UInt8.ofNat_toNat]

theorem decodeFrom_eq_ok_iff {text : List Char} :
    decodeFrom position done text = .ok bytes ↔
      ∃ more : List UInt8, text.map Char.toLower = more.flatMap digits ∧
        bytes = done.reverse ++ more := by
  induction position, done, text using decodeFrom.induct generalizing bytes with
  | case1 position done =>
    rw [decodeFrom, Except.ok.injEq]
    constructor
    · rintro rfl
      exact ⟨[], rfl, (List.append_nil _).symm⟩
    · rintro ⟨more, hmore, rfl⟩
      cases more with
      | nil => exact (List.append_nil _).symm
      | cons b more => simp [digits] at hmore
  | case2 position done c =>
    simp only [decodeFrom, bind_eq_ok_iff, reduceCtorEq, and_false, exists_false, false_iff]
    rintro ⟨more, hmore, -⟩
    cases more with
    | nil => simp at hmore
    | cons b more => simp [digits] at hmore
  | case3 position done high low rest ih =>
    have hsplit : (high :: low :: rest).map Char.toLower =
        [high.toLower, low.toLower] ++ rest.map Char.toLower := rfl
    have ih (b : UInt8) : decodeFrom (position + 2) (b :: done) rest = .ok bytes ↔
        ∃ more : List UInt8, rest.map Char.toLower = more.flatMap digits ∧
          bytes = (b :: done).reverse ++ more := by
      have hb := @ih (b.toNat / 16) (b.toNat % 16) bytes
      rwa [Nat.div_add_mod, UInt8.ofNat_toNat] at hb
    simp only [decodeFrom_cons_cons_eq_ok_iff, ih, hsplit, List.reverse_cons, List.append_assoc]
    constructor
    · rintro ⟨b, hb, more, hmore, rfl⟩
      refine ⟨b :: more, ?_, rfl⟩
      rw [hb, hmore, List.flatMap_cons]
    · rintro ⟨more, hmore, rfl⟩
      cases more with
      | nil => simp at hmore
      | cons b more =>
        obtain ⟨hb, hmore⟩ := List.append_inj hmore rfl
        exact ⟨b, hb, more, hmore, rfl⟩

theorem exists_value?_of_mem {text : List Char} (h : SameButCase text (encode bytes).toList)
    {c : Char} (hc : c ∈ text) : ∃ n, value? c = some n := by
  rw [sameButCase_encode_iff] at h
  have hmem : c.toLower ∈ bytes.flatMap digits := h ▸ List.mem_map_of_mem hc
  obtain ⟨b, -, hb⟩ := List.mem_flatMap.mp hmem
  have hlt := b.toNat_lt
  rw [digits, List.mem_cons, List.mem_singleton] at hb
  rcases hb with hhigh | hlow
  · exact ⟨_, value?_eq_some_iff.mpr ⟨by omega, hhigh⟩⟩
  · exact ⟨_, value?_eq_some_iff.mpr ⟨by omega, hlow⟩⟩

/-- Digits stand between the controls and the end of ASCII. -/
theorem toNat_bounds_of_value? {c : Char} {n : Nat} (h : value? c = some n) :
    48 ≤ c.toNat ∧ c.toNat < 128 := by
  obtain ⟨hn, hc⟩ := value?_eq_some_iff.mp h
  have hnat := congrArg Char.toNat hc
  rw [toNat_toLower, toNat_digitChar n hn] at hnat
  split_ifs at hnat <;> omega

theorem byteCount_of_ascii {text : List Char} (h : ∀ c ∈ text, c.toNat < 128) :
    byteCount text = text.length := by
  have hfold : ∀ n, text.foldl (fun n c => n + c.utf8Size) n = n + text.length := by
    induction text with
    | nil => exact fun n => rfl
    | cons c text ih =>
      intro n
      have hc : c.utf8Size = 1 := Char.utf8Size_eq_one_iff.mpr
        (UInt32.le_iff_toNat_le.mpr (Nat.le_of_lt_succ (h c List.mem_cons_self)))
      rw [List.foldl_cons, ih fun c hc => h c (List.mem_cons_of_mem _ hc), hc, List.length_cons]
      omega
  rw [byteCount, hfold, Nat.zero_add]

theorem decode_eq_ok_iff {text : List Char} :
    decode text = .ok bytes ↔ SameButCase text (encode bytes).toList := by
  have hread : decodeFrom 0 [] text = .ok bytes ↔ SameButCase text (encode bytes).toList := by
    simp [decodeFrom_eq_ok_iff, sameButCase_encode_iff]
  rw [decode]
  split_ifs with hodd
  · simp only [false_iff]
    intro h
    have hlen : text.length = 2 * bytes.length := by
      rw [← length_flatMap_digits, ← sameButCase_encode_iff.mp h, List.length_map]
    rw [byteCount_of_ascii, hlen] at hodd
    · omega
    · intro c hc
      obtain ⟨n, hn⟩ := exists_value?_of_mem h hc
      exact (toNat_bounds_of_value? hn).2
  · exact hread

/-- What stands behind all leading `0x` of a text. -/
def Unmarked (text body : List Char) : Prop :=
  (∃ n, text = (List.replicate n ['0', 'x']).flatten ++ body) ∧ ¬['0', 'x'] <+: body

theorem dropMarkers_of_not_isPrefix {text : List Char} (h : ¬['0', 'x'] <+: text) :
    dropMarkers text = text := by
  rw [dropMarkers]
  rintro rest rfl
  exact h (List.prefix_append ['0', 'x'] rest)

theorem dropMarkers_replicate_append (n : Nat) (text : List Char) :
    dropMarkers ((List.replicate n ['0', 'x']).flatten ++ text) = dropMarkers text := by
  induction n with
  | zero => rfl
  | succ n ih =>
    rw [List.replicate_succ, List.flatten_cons, List.append_assoc]
    exact ih

theorem unmarked_dropMarkers (text : List Char) : Unmarked text (dropMarkers text) := by
  induction text using dropMarkers.induct with
  | case1 rest ih =>
    obtain ⟨⟨n, hn⟩, hnone⟩ := ih
    refine ⟨⟨n + 1, ?_⟩, hnone⟩
    rw [List.replicate_succ, List.flatten_cons, List.append_assoc, dropMarkers, ← hn]
    rfl
  | case2 text hnone =>
    have hnone : ¬['0', 'x'] <+: text := by
      rintro ⟨rest, rfl⟩
      exact hnone rest rfl
    rw [dropMarkers_of_not_isPrefix hnone]
    exact ⟨⟨0, rfl⟩, hnone⟩

theorem dropMarkers_eq_iff {text body : List Char} :
    dropMarkers text = body ↔ Unmarked text body := by
  constructor
  · rintro rfl
    exact unmarked_dropMarkers text
  · rintro ⟨⟨n, rfl⟩, hnone⟩
    rw [dropMarkers_replicate_append, dropMarkers_of_not_isPrefix hnone]

end Hex

end BitcoinBlock.Text
