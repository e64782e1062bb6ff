import Mathlib.Data.Char
import Routing.Text.Percent

/-!
# Percent coding is undone

Decoding a text in percent form gives the text back, whatever characters stand for themselves, as long as they are
ASCII characters other than `%` (`percentDecode_percentEncode`). A text before others is decoded by itself
(`percentDecode_append`).

The bytes of a character are read one by one: the first one says which characters can still come, and each other one
adds six bits (`ofOctets_next`, `ofOctets_last`).
-/

namespace Routing.Text

/-! ### Bytes -/

theorem hexValue?_hexUpper {n : Nat} (h : n < 16) : hexValue? (hexUpper n) = some n := by
  have hall : ∀ m : Fin 16, hexValue? (hexUpper m) = some m.val := by decide
  exact hall ⟨n, h⟩

theorem octets_percentByte {b : Nat} (h : b < 256) (t : Text) : octets (percentByte b ++ t) = .byte b :: octets t := by
  have hhigh : hexValue? (hexUpper (b / 16)) = some (b / 16) := hexValue?_hexUpper (by omega)
  have hlow : hexValue? (hexUpper (b % 16)) = some (b % 16) := hexValue?_hexUpper (by omega)
  have hvalue : 16 * (b / 16) + b % 16 = b := Nat.div_add_mod b 16
  simp only [percentByte, List.cons_append, List.nil_append, octets, hhigh, hlow, hvalue]

theorem octets_flatMap_percentByte {bytes : List Nat} (h : ∀ b ∈ bytes, b < 256) (t : Text) :
    octets (bytes.flatMap percentByte ++ t) = bytes.map .byte ++ octets t := by
  induction bytes with
  | nil => rfl
  | cons b bytes ih =>
    rw [List.forall_mem_cons] at h
    rw [List.flatMap_cons, List.append_assoc, octets_percentByte h.1, ih h.2]
    rfl

theorem octets_plain {c : Char} (h : c ≠ '%') (t : Text) :
    octets (c :: t) = (if c.toNat < 128 then .byte c.toNat else .char c) :: octets t := by
  rw [octets]
  rintro - - - rfl
  exact absurd rfl h

/-- The numbers that are no character are those of the surrogates. -/
theorem toNat_valid (c : Char) : c.toNat < 0xD800 ∨ 0xDFFF < c.toNat ∧ c.toNat < 0x110000 := c.valid

theorem lt_of_mem_utf8Bytes {c : Char} {b : Nat} (h : b ∈ utf8Bytes c) : b < 256 := by
  have hc := toNat_valid c
  simp only [utf8Bytes] at h
  split_ifs at h <;> simp only [List.mem_cons, List.not_mem_nil, or_false] at h <;> omega

/-! ### Characters -/

/-- A byte that is not the last one of its form. -/
theorem ofOctets_next {bits missing least most b : Nat} (hb : least ≤ b ∧ b ≤ most) (hmissing : missing ≠ 1)
    (rest : List Octet) : ofOctets (some ⟨bits, missing, least, most⟩) (.byte b :: rest) =
      ofOctets (some ⟨0x40 * bits + (b - 0x80), missing - 1, 0x80, 0xBF⟩) rest := by
  rw [ofOctets, readOctet, if_pos hb]
  simp only [if_neg hmissing, List.nil_append]

/-- The last byte of a form. -/
theorem ofOctets_last {bits least most b : Nat} (hb : least ≤ b ∧ b ≤ most) (rest : List Octet) :
    ofOctets (some ⟨bits, 1, least, most⟩) (.byte b :: rest) =
      Char.ofNat (0x40 * bits + (b - 0x80)) :: ofOctets none rest := by
  rw [ofOctets, readOctet, if_pos hb]
  rfl

/-- A byte that begins a form. -/
theorem ofOctets_begin {b : Nat} {form : Begun} (h : beginForm b = ([], some form)) (rest : List Octet) :
    ofOctets none (.byte b :: rest) = ofOctets (some form) rest := by
  rw [ofOctets, readOctet, h]
  rfl

theorem ofOctets_ascii {c : Char} (h : c.toNat < 0x80) (rest : List Octet) :
    ofOctets none (.byte c.toNat :: rest) = c :: ofOctets none rest := by
  rw [ofOctets, readOctet, beginForm, if_pos h, Char.ofNat_toNat]
  rfl

/-- The first of three bytes bounds the second one where shorter forms end and where the surrogates are. -/
theorem beginForm_of_three {n : Nat} (hlow : 0x800 ≤ n) (hhigh : n < 0x10000) (hvalid : n < 0xD800 ∨ 0xDFFF < n) :
    ∃ least most, beginForm (0xE0 + n / 0x1000) = ([], some ⟨n / 0x1000, 2, least, most⟩) ∧
      least ≤ 0x80 + n / 0x40 % 0x40 ∧ 0x80 + n / 0x40 % 0x40 ≤ most := by
  have hlt : n / 0x1000 < 0x10 := by omega
  by_cases h0 : n / 0x1000 = 0
  · refine ⟨0xA0, 0xBF, ?_, by omega⟩
    rw [h0]
    rfl
  by_cases hd : n / 0x1000 = 0xD
  · refine ⟨0x80, 0x9F, ?_, by omega⟩
    rw [hd]
    rfl
  · refine ⟨0x80, 0xBF, ?_, by omega⟩
    rw [beginForm, if_neg (by omega), if_neg (by omega), if_neg (by omega), if_neg (by omega), if_neg (by omega),
      if_pos (by omega), Nat.add_sub_cancel_left]

/-- The first of four bytes bounds the second one where shorter forms and all characters end. -/
theorem beginForm_of_four {n : Nat} (hlow : 0x10000 ≤ n) (hhigh : n < 0x110000) :
    ∃ least most, beginForm (0xF0 + n / 0x40000) = ([], some ⟨n / 0x40000, 3, least, most⟩) ∧
      least ≤ 0x80 + n / 0x1000 % 0x40 ∧ 0x80 + n / 0x1000 % 0x40 ≤ most := by
  have hle : n / 0x40000 ≤ 4 := by omega
  by_cases h0 : n / 0x40000 = 0
  · refine ⟨0x90, 0xBF, ?_, by omega⟩
    rw [h0]
    rfl
  by_cases h4 : n / 0x40000 = 4
  · refine ⟨0x80, 0x8F, ?_, by omega⟩
    rw [h4]
    rfl
  · refine ⟨0x80, 0xBF, ?_, by omega⟩
    rw [beginForm, if_neg (by omega), if_neg (by omega), if_neg (by omega), if_neg (by omega), if_neg (by omega),
      if_neg (by omega), if_neg (by omega), if_pos (by omega), Nat.add_sub_cancel_left]

/-- The bytes of a character are read as the character. -/
theorem ofOctets_utf8Bytes (c : Char) (rest : List Octet) :
    ofOctets none ((utf8Bytes c).map .byte ++ rest) = c :: ofOctets none rest := by
  have hvalid := toNat_valid c
  have hofNat := Char.ofNat_toNat c
  rw [utf8Bytes]
  generalize hn : c.toNat = n at hvalid hofNat
  split_ifs with h₁ h₂ h₃
  · rw [← hn] at h₁ ⊢
    exact ofOctets_ascii h₁ rest
  · have hbegin : beginForm (0xC0 + n / 0x40) = ([], some ⟨n / 0x40, 1, 0x80, 0xBF⟩) := by
      rw [beginForm, if_neg (by omega), if_neg (by omega), if_pos (by omega), Nat.add_sub_cancel_left]
    -- what the first byte and the others hold are the quotient and the remainders
    have hbits : 0x40 * (n / 0x40) + (0x80 + n % 0x40 - 0x80) = n := by omega
    simp only [List.map_cons, List.map_nil, List.cons_append, List.nil_append]
    rw [ofOctets_begin hbegin, ofOctets_last (by omega), hbits, hofNat]
  · obtain ⟨least, most, hbegin, hrange⟩ := beginForm_of_three (n := n) (by omega) (by omega) (by omega)
    have hbits : 0x40 * (0x40 * (n / 0x1000) + (0x80 + n / 0x40 % 0x40 - 0x80)) + (0x80 + n % 0x40 - 0x80) = n := by
      omega
    simp only [List.map_cons, List.map_nil, List.cons_append, List.nil_append]
    rw [ofOctets_begin hbegin, ofOctets_next hrange (by omega), ofOctets_last (by omega), hbits, hofNat]
  · obtain ⟨least, most, hbegin, hrange⟩ := beginForm_of_four (n := n) (by omega) (by omega)
    have hbits : 0x40 * (0x40 * (0x40 * (n / 0x40000) + (0x80 + n / 0x1000 % 0x40 - 0x80)) +
        (0x80 + n / 0x40 % 0x40 - 0x80)) + (0x80 + n % 0x40 - 0x80) = n := by
      omega
    simp only [List.map_cons, List.map_nil, List.cons_append, List.nil_append]
    rw [ofOctets_begin hbegin, ofOctets_next hrange (by omega), ofOctets_next (by omega) (by omega),
      ofOctets_last (by omega), hbits, hofNat]

/-! ### Texts -/

/-- The unreserved characters are ASCII characters, and the percent sign is none of them. -/
theorem plain_of_isUnreserved {c : Char} (h : isUnreserved c = true) : c ≠ '%' ∧ c.toNat < 0x80 := by
  refine ⟨?_, ?_⟩
  · rintro rfl
    exact absurd h (by decide)
  · rcases Bool.or_eq_true_iff.mp h with halnum | hmark
    · delta Char.isAlphanum Char.isAlpha Char.isUpper Char.isLower Char.isDigit at halnum
      simp only [Bool.or_eq_true, Bool.and_eq_true, decide_eq_true_eq, ge_iff_le, UInt32.le_iff_toNat_le] at halnum
      have h₁ : 'Z'.val.toNat = 90 := rfl
      have h₂ : 'z'.val.toNat = 122 := rfl
      have h₃ : '9'.val.toNat = 57 := rfl
      show c.val.toNat < 0x80
      omega
    · simp only [List.contains_iff_mem, List.mem_cons, List.not_mem_nil, or_false] at hmark
      rcases hmark with rfl | rfl | rfl | rfl <;> decide

theorem percentDecode_cons {c : Char} (hpercent : c ≠ '%') (hascii : c.toNat < 0x80) (t : Text) :
    percentDecode (c :: t) = c :: percentDecode t := by
  rw [percentDecode, octets_plain hpercent, if_pos hascii, ofOctets_ascii hascii, percentDecode]

/-- Decoding undoes encoding, and what comes after it is decoded by itself. -/
theorem percentDecode_append {keep : Char → Bool} (hkeep : ∀ c, keep c = true → c ≠ '%' ∧ c.toNat < 0x80)
    (t rest : Text) : percentDecode (percentEncode keep t ++ rest) = t ++ percentDecode rest := by
  induction t with
  | nil => rfl
  | cons c t ih =>
    rw [percentEncode, List.flatMap_cons, List.append_assoc]
    split
    · next hc =>
      obtain ⟨hpercent, hascii⟩ := hkeep c hc
      rw [List.singleton_append, percentDecode_cons hpercent hascii, List.cons_append, ← ih]
      rfl
    · rw [percentDecode, octets_flatMap_percentByte fun _ hb => lt_of_mem_utf8Bytes hb, ofOctets_utf8Bytes,
        List.cons_append, ← ih]
      rfl

/-- Decoding undoes encoding. -/
theorem percentDecode_percentEncode {keep : Char → Bool} (hkeep : ∀ c, keep c = true → c ≠ '%' ∧ c.toNat < 0x80)
    (t : Text) : percentDecode (percentEncode keep t) = t := by
  have hall := percentDecode_append hkeep t []
  rwa [List.append_nil, show percentDecode [] = [] from rfl, List.append_nil] at hall

theorem utf8Bytes_ne_nil (c : Char) : utf8Bytes c ≠ [] := by
  simp only [utf8Bytes]
  split_ifs <;> simp

theorem percentEncode_ne_nil {keep : Char → Bool} {t : Text} (h : t ≠ []) : percentEncode keep t ≠ [] := by
  obtain ⟨c, t, rfl⟩ := List.exists_cons_of_ne_nil h
  rw [percentEncode, List.flatMap_cons]
  split
  · simp
  · obtain ⟨b, bytes, hbytes⟩ := List.exists_cons_of_ne_nil (utf8Bytes_ne_nil c)
    simp [hbytes, percentByte]

/-- A text in percent form holds characters that stand for themselves, percent signs and digits. -/
theorem not_mem_percentEncode {keep : Char → Bool} {d : Char} (hkeep : keep d = false) (hpercent : d ≠ '%')
    (hdigit : hexValue? d = none) (t : Text) : d ∉ percentEncode keep t := by
  have hupper : ∀ n, n < 16 → d ≠ hexUpper n := by
    rintro n hn rfl
    rw [hexValue?_hexUpper hn] at hdigit
    cases hdigit
  rw [percentEncode, List.mem_flatMap]
  rintro ⟨c, -, hc⟩
  split at hc
  · next hkept =>
    rw [List.mem_singleton.mp hc, hkept] at hkeep
    cases hkeep
  · obtain ⟨b, hb, hd⟩ := List.mem_flatMap.mp hc
    have hlt := lt_of_mem_utf8Bytes hb
    simp only [percentByte, List.mem_cons, List.not_mem_nil, or_false] at hd
    rcases hd with hd | hd | hd
    · exact hpercent hd
    · exact hupper _ (by omega) hd
    · exact hupper _ (by omega) hd

/-! ### Nothing is read as nothing -/

/-- What is read of a byte is never nothing: there is a character, or a form has begun. -/
theorem beginForm_gives (b : Nat) : (beginForm b).1 ≠ [] ∨ (beginForm b).2.isSome = true := by
  unfold beginForm
  split_ifs <;> simp

theorem readOctet_gives (begun : Option Begun) (o : Octet) :
    (readOctet begun o).1 ≠ [] ∨ (readOctet begun o).2.isSome = true := by
  cases begun with
  | none =>
    cases o with
    | byte b => exact beginForm_gives b
    | char c => exact Or.inl (List.cons_ne_nil _ _)
  | some form =>
    cases o with
    | byte b =>
      simp only [readOctet]
      split_ifs <;> simp
    | char c => exact Or.inl (List.cons_ne_nil _ _)

theorem ofOctets_ne_nil {begun : Option Begun} {octets : List Octet} (h : begun.isSome = true ∨ octets ≠ []) :
    ofOctets begun octets ≠ [] := by
  induction octets generalizing begun with
  | nil =>
    obtain ⟨form, rfl⟩ := Option.isSome_iff_exists.mp (h.resolve_right (not_not_intro rfl))
    rw [ofOctets]
    exact List.cons_ne_nil _ _
  | cons o rest ih =>
    have hread : ofOctets begun (o :: rest) = (readOctet begun o).1 ++ ofOctets (readOctet begun o).2 rest := by
      cases begun <;> rw [ofOctets]
    rw [hread]
    rcases readOctet_gives begun o with hfirst | hbegun
    · exact List.append_ne_nil_of_left_ne_nil hfirst _
    · exact List.append_ne_nil_of_right_ne_nil _ (ih (Or.inl hbegun))

/-- A text that is not empty does not stand for the empty text. -/
theorem percentDecode_ne_nil {t : Text} (h : t ≠ []) : percentDecode t ≠ [] := by
  refine ofOctets_ne_nil (Or.inr ?_)
  obtain ⟨c, t, rfl⟩ := List.exists_cons_of_ne_nil h
  unfold octets
  split
  · split <;> exact List.cons_ne_nil _ _
  · exact List.cons_ne_nil _ _
  · next heq => cases heq

end Routing.Text
