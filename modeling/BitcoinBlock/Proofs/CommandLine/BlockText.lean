import BitcoinBlock.CommandLine.Run
import BitcoinBlock.Proofs.CommandLine.Arguments
import BitcoinBlock.Proofs.Text.Hex
import BitcoinBlock.Text

/-! # Blocks given as text

Trimming takes off white space at both ends and nothing else, and it finds a text without white
space wherever such a text stands alone.
-/
namespace BitcoinBlock

namespace Text

variable {front core back : List Char}

theorem trimLeft_append (hfront : ∀ c ∈ front, isBlank c = true) (text : List Char) :
    trimLeft (front ++ text) = trimLeft text :=
  List.dropWhile_append_of_pos hfront

theorem trimLeft_cons {c : Char} (hc : isBlank c = false) (text : List Char) :
    trimLeft (c :: text) = c :: text := by
  rw [trimLeft, List.dropWhile_cons_of_neg]
  simp [hc]

theorem trimLeft_eq_self (hcore : ∀ c ∈ core, isBlank c = false) : trimLeft core = core := by
  cases core with
  | nil => rfl
  | cons c core => exact trimLeft_cons (hcore c List.mem_cons_self) core

theorem trimRight_append (hcore : ∀ c ∈ core, isBlank c = false)
    (hback : ∀ c ∈ back, isBlank c = true) : trimRight (core ++ back) = core := by
  rw [trimRight, List.reverse_append, trimLeft_append, trimLeft_eq_self, List.reverse_reverse]
  · simpa using hcore
  · simpa using hback

theorem trim_append_append (hfront : ∀ c ∈ front, isBlank c = true)
    (hcore : ∀ c ∈ core, isBlank c = false) (hback : ∀ c ∈ back, isBlank c = true) :
    trim (front ++ core ++ back) = core := by
  rw [trim, List.append_assoc, trimLeft_append hfront]
  cases core with
  | nil =>
    rw [List.nil_append, ← List.append_nil back, trimLeft_append hback]
    rfl
  | cons c core =>
    rw [List.cons_append, trimLeft_cons (hcore c List.mem_cons_self), ← List.cons_append,
      trimRight_append hcore hback]

theorem trim_eq_self (hcore : ∀ c ∈ core, isBlank c = false) : trim core = core := by
  rw [trim, trimLeft_eq_self hcore]
  simpa using trimRight_append hcore (List.forall_mem_nil _)

theorem exists_append_trimLeft (text : List Char) :
    ∃ front, (∀ c ∈ front, isBlank c = true) ∧ text = front ++ trimLeft text :=
  ⟨text.takeWhile isBlank, List.all_eq_true.mp List.all_takeWhile,
    List.takeWhile_append_dropWhile.symm⟩

theorem exists_append_trimRight (text : List Char) :
    ∃ back, (∀ c ∈ back, isBlank c = true) ∧ text = trimRight text ++ back := by
  obtain ⟨back, hback, hsplit⟩ := exists_append_trimLeft text.reverse
  refine ⟨back.reverse, by simpa using hback, ?_⟩
  rw [trimRight, ← List.reverse_append, ← hsplit, List.reverse_reverse]

theorem exists_append_trim (text : List Char) :
    ∃ front back, (∀ c ∈ front, isBlank c = true) ∧ (∀ c ∈ back, isBlank c = true) ∧
      text = front ++ trim text ++ back := by
  obtain ⟨front, hfront, hleft⟩ := exists_append_trimLeft text
  obtain ⟨back, hback, hright⟩ := exists_append_trimRight (trimLeft text)
  refine ⟨front, back, hfront, hback, ?_⟩
  rw [trim, List.append_assoc, ← hright, ← hleft]

end Text

/-! ## Hexadecimal text

A block may be given in hexadecimal, and a block file holds such a text or the bytes themselves. The
file is taken for a text whenever it is one, so the bytes that are misread are exactly those that
happen to be such a text.
-/

namespace CommandLine

open Text Text.Hex

variable {bytes : List UInt8} {text : String}

/-- A text of the bytes in hexadecimal: digits of either case, at most one `0x` in front of them,
and white space around. -/
def Spells (bytes : List UInt8) (text : List Char) : Prop :=
  ∃ front marker body back, text = front ++ (marker ++ body) ++ back ∧
    (∀ c ∈ front, isBlank c = true) ∧ (∀ c ∈ back, isBlank c = true) ∧
    (marker = [] ∨ marker = ['0', 'x']) ∧ SameButCase body (encode bytes).toList

theorem isBlank_of_value? {c : Char} {n : Nat} (h : value? c = some n) : isBlank c = false := by
  have hc := toNat_bounds_of_value? h
  simp only [isBlank, blankRanges, List.any_cons, List.any_nil, Bool.or_false, Bool.or_eq_false_iff,
    Bool.and_eq_false_iff, decide_eq_false_iff_not]
  omega

section Body

variable {body : List Char}

theorem isBlank_of_mem_body (h : SameButCase body (encode bytes).toList) {c : Char}
    (hc : c ∈ body) : isBlank c = false := by
  obtain ⟨n, hn⟩ := exists_value?_of_mem h hc
  exact isBlank_of_value? hn

/-- The marker is no pair of digits. -/
theorem not_isPrefix_body (h : SameButCase body (encode bytes).toList) :
    ¬['0', 'x'] <+: body := by
  rintro ⟨rest, rfl⟩
  have hx : 'x' ∈ ['0', 'x'] ++ rest := List.mem_cons_of_mem _ List.mem_cons_self
  obtain ⟨n, hn⟩ := exists_value?_of_mem h hx
  have hnone : value? 'x' = none := by decide
  rw [hnone] at hn
  cases hn

theorem dropMarker_of_not_isPrefix (h : ¬['0', 'x'] <+: body) : dropMarker body = body := by
  rw [dropMarker]
  rintro rest rfl
  exact h (List.prefix_append ['0', 'x'] rest)

theorem dropMarker_cases (text : List Char) :
    ∃ marker, (marker = [] ∨ marker = ['0', 'x']) ∧ text = marker ++ dropMarker text := by
  by_cases h : ['0', 'x'] <+: text
  · obtain ⟨rest, rfl⟩ := h
    exact ⟨['0', 'x'], .inr rfl, rfl⟩
  · exact ⟨[], .inl rfl, (dropMarker_of_not_isPrefix h).symm⟩

end Body

theorem decodeHex_eq_ok_iff : decodeHex text = .ok bytes ↔ Spells bytes text.toList := by
  rw [decodeHex, decode_eq_ok_iff]
  constructor
  · intro hbody
    obtain ⟨front, back, hfront, hback, htext⟩ := exists_append_trim text.toList
    obtain ⟨marker, hmarker, htrim⟩ := dropMarker_cases (trim text.toList)
    exact ⟨front, marker, _, back, by rwa [← htrim], hfront, hback, hmarker, hbody⟩
  · rintro ⟨front, marker, body, back, htext, hfront, hback, hmarker, hbody⟩
    have hzero : isBlank '0' = false := by decide
    have hx : isBlank 'x' = false := by decide
    have hcore : ∀ c ∈ marker ++ body, isBlank c = false := by
      intro c hc
      rcases List.mem_append.mp hc with hc | hc
      · rcases hmarker with rfl | rfl
        · cases hc
        · rw [List.mem_cons, List.mem_singleton] at hc
          rcases hc with rfl | rfl
          · exact hzero
          · exact hx
      · exact isBlank_of_mem_body hbody hc
    rw [htext, trim_append_append hfront hcore hback]
    rcases hmarker with rfl | rfl
    · rwa [List.nil_append, dropMarker_of_not_isPrefix (not_isPrefix_body hbody)]
    · exact hbody

theorem Spells.two_mul_length_le {text : List Char} (h : Spells bytes text) :
    2 * bytes.length ≤ text.length := by
  obtain ⟨front, marker, body, back, rfl, -, -, -, hbody⟩ := h
  have hlen : body.length = 2 * bytes.length := by
    rw [← length_flatMap_digits, ← sameButCase_encode_iff.mp hbody, List.length_map]
  simp only [List.length_append]
  omega

theorem Spells.isValue (h : Spells bytes text.toList) : isValue text = true := by
  apply isValue_of_head?_ne
  intro hhead
  obtain ⟨front, marker, body, back, htext, hfront, hback, hmarker, hbody⟩ := h
  have hblank : isBlank '-' = false := by decide
  have hdigit : value? '-' = none := by decide
  have hmem := List.mem_of_mem_head? hhead
  rw [htext, List.mem_append, List.mem_append, List.mem_append] at hmem
  rcases hmem with (hmem | hmem | hmem) | hmem
  · rw [hfront _ hmem] at hblank
    cases hblank
  · rcases hmarker with rfl | rfl
    · cases hmem
    · simp at hmem
  · obtain ⟨n, hn⟩ := exists_value?_of_mem hbody hmem
    rw [hdigit] at hn
    cases hn
  · rw [hback _ hmem] at hblank
    cases hblank

theorem spells_encode (bytes : List UInt8) : Spells bytes (encode bytes).toList :=
  ⟨[], [], (encode bytes).toList, [], by simp, by simp, by simp, .inl rfl, rfl⟩

/-! ## Files -/

/-- The bytes of a file that holds the text. -/
def utf8 (text : String) : List UInt8 := text.toList.flatMap String.utf8EncodeChar

theorem toArray_utf8 (text : String) : (⟨(utf8 text).toArray⟩ : ByteArray) = text.toByteArray := by
  rw [← String.utf8Encode_toList, List.utf8Encode]
  apply ByteArray.ext
  rw [List.data_toByteArray]
  rfl

theorem length_le_length_utf8 (text : String) : text.toList.length ≤ (utf8 text).length := by
  rw [utf8]
  induction text.toList with
  | nil => exact Nat.le_refl 0
  | cons c rest ih =>
    have hc := Char.utf8Size_pos c
    rw [List.flatMap_cons, List.length_append, String.length_utf8EncodeChar, List.length_cons]
    omega

theorem utf8?_eq_some_iff : utf8? bytes = some text ↔ bytes = utf8 text := by
  rw [utf8?, String.fromUTF8?]
  constructor
  · intro h
    split at h
    next hvalid =>
      cases h
      have hbytes := congrArg (fun b => b.data.toList) (toArray_utf8 (String.fromUTF8 _ hvalid))
      exact hbytes.symm
    next => cases h
  · rintro rfl
    simp only [toArray_utf8, dif_pos text.isValidUTF8]
    rfl

theorem blockOfFile_utf8 (h : Spells bytes text.toList) : blockOfFile (utf8 text) = bytes := by
  have hutf8 : utf8? (utf8 text) = some text := utf8?_eq_some_iff.mpr rfl
  rw [blockOfFile, hutf8, Option.bind_some, decodeHex_eq_ok_iff.mpr h]
  rfl

/-- Only the empty text is a text of its own bytes: every byte takes two digits. -/
theorem eq_nil_of_spells_utf8 (h : Spells (utf8 text) text.toList) : utf8 text = [] := by
  have hlen := h.two_mul_length_le
  have hutf8 := length_le_length_utf8 text
  exact List.length_eq_zero_iff.mp (by omega)

/-- Bytes that are a text of other bytes. -/
def Misread (bytes : List UInt8) : Prop :=
  bytes ≠ [] ∧ ∃ (text : String) (other : List UInt8),
    bytes = utf8 text ∧ decodeHex text = .ok other ∧ other ≠ bytes

/-- A text has twice as many digits as bytes, so it is never a text of itself. -/
theorem misread_iff :
    Misread bytes ↔ bytes ≠ [] ∧ ∃ (text : String) (other : List UInt8),
      bytes = utf8 text ∧ Spells other text.toList := by
  simp only [Misread, decodeHex_eq_ok_iff]
  constructor
  · rintro ⟨hnil, text, other, htext, hother, -⟩
    exact ⟨hnil, text, other, htext, hother⟩
  · rintro ⟨hnil, text, other, rfl, hother⟩
    refine ⟨hnil, text, other, rfl, hother, ?_⟩
    rintro rfl
    exact hnil (eq_nil_of_spells_utf8 hother)

/-- The fallback hides no misreading: what is no text is kept, and what is one is misread. -/
theorem blockOfFile_eq_self_iff : blockOfFile bytes = bytes ↔ ¬Misread bytes := by
  constructor
  · rintro hself ⟨-, text, other, rfl, hother, hne⟩
    rw [blockOfFile_utf8 (decodeHex_eq_ok_iff.mp hother)] at hself
    exact hne hself
  · intro hnot
    by_cases hnil : bytes = []
    · rw [hnil]
      rfl
    · rw [blockOfFile]
      cases hutf8 : utf8? bytes with
      | none => rfl
      | some text =>
        rw [Option.bind_some]
        cases hhex : decodeHex text with
        | error fault => rfl
        | ok other =>
          refine Decidable.byContradiction fun hne => hnot ⟨hnil, text, other, ?_, hhex, hne⟩
          exact utf8?_eq_some_iff.mp hutf8

end CommandLine

end BitcoinBlock
