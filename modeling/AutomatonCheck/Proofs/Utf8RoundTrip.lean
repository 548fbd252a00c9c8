import AutomatonCheck.Text.Utf8
import Mathlib.Data.List.Basic

/-!
# Reading back encoded text

The encoding of a character is one to four bytes, which take the decoder from before the
character to behind it: the lead byte settles how many bytes follow and where the next one
lies, and the bytes of a character lie there. So decoding undoes encoding. A byte below
`80` is always a character of its own.
-/
namespace AutomatonCheck.Utf8

theorem ByteRange.contains_iff {range : ByteRange} {b : UInt8} :
    range.contains b = true ↔ range.low.toNat ≤ b.toNat ∧ b.toNat ≤ range.high.toNat := by
  simp only [contains, Bool.and_eq_true, decide_eq_true_eq, UInt8.le_iff_toNat_le]

/-- The byte that carries the last six bits of a number. -/
def trailByte (n : Nat) : UInt8 := UInt8.ofNat (n % 0x40 + 0x80)

theorem toNat_trailByte (n : Nat) : (trailByte n).toNat = n % 0x40 + 0x80 :=
  UInt8.toNat_ofNat_of_lt' (by simp only [UInt8.size]; omega)

@[simp] theorem toNat_trailByte_mod (n : Nat) : (trailByte n).toNat % 0x40 = n % 0x40 := by
  rw [toNat_trailByte]
  omega

theorem contains_trailByte_iff {range : ByteRange} {n : Nat} :
    range.contains (trailByte n) = true ↔
      range.low.toNat ≤ n % 0x40 + 0x80 ∧ n % 0x40 + 0x80 ≤ range.high.toNat := by
  rw [ByteRange.contains_iff, toNat_trailByte]

@[simp] theorem trail_contains (n : Nat) : trail.contains (trailByte n) = true := by
  rw [contains_trailByte_iff]
  have hlow : trail.low.toNat = 0x80 := rfl
  have hhigh : trail.high.toNat = 0xBF := rfl
  omega

theorem lead_eq (b : UInt8) : lead b =
    if b.toNat < 0x80 then ([Char.ofNat b.toNat], .idle)
    else if b.toNat < 0xC2 then ([replacement], .idle)
    else if b.toNat < 0xE0 then ([], .within (b.toNat % 0x20) trail [])
    else if b.toNat = 0xE0 then ([], .within (b.toNat % 0x10) ⟨0xA0, 0xBF⟩ [trail])
    else if b.toNat = 0xED then ([], .within (b.toNat % 0x10) ⟨0x80, 0x9F⟩ [trail])
    else if b.toNat < 0xF0 then ([], .within (b.toNat % 0x10) trail [trail])
    else if b.toNat = 0xF0 then ([], .within (b.toNat % 0x08) ⟨0x90, 0xBF⟩ [trail, trail])
    else if b.toNat < 0xF4 then ([], .within (b.toNat % 0x08) trail [trail, trail])
    else if b.toNat = 0xF4 then ([], .within (b.toNat % 0x08) ⟨0x80, 0x8F⟩ [trail, trail])
    else ([replacement], .idle) := by
  simp only [lead, UInt8.lt_iff_toNat_lt, ← UInt8.toNat_inj, UInt8.toNat_ofNat, Nat.reducePow,
    Nat.reduceMod]

section Lead

variable {b : UInt8}

theorem lead_of_one (hb : b.toNat < 0x80) : lead b = ([Char.ofNat b.toNat], .idle) := by
  rw [lead_eq, if_pos hb]

theorem lead_of_two (hl : 0xC2 ≤ b.toNat) (hh : b.toNat < 0xE0) :
    lead b = ([], .within (b.toNat % 0x20) trail []) := by
  rw [lead_eq, if_neg (by omega), if_neg (by omega), if_pos hh]

/-- After `E0` the next byte is not below `A0`, and after `ED` it is below `A0`. -/
theorem exists_lead_of_three (hl : 0xE0 ≤ b.toNat) (hh : b.toNat < 0xF0) :
    ∃ following, lead b = ([], .within (b.toNat % 0x10) following [trail]) ∧
      ∀ n, (b.toNat = 0xE0 → 0x20 ≤ n % 0x40) → (b.toNat = 0xED → n % 0x40 < 0x20) →
        following.contains (trailByte n) = true := by
  rw [lead_eq, if_neg (by omega), if_neg (by omega), if_neg (by omega), if_pos hh]
  split
  · next he =>
    refine ⟨_, rfl, fun n hlow _ => contains_trailByte_iff.2 ?_⟩
    have hn : 0x20 ≤ n % 0x40 := hlow he
    change 0xA0 ≤ _ ∧ _ ≤ 0xBF
    omega
  split
  · next he =>
    refine ⟨_, rfl, fun n _ hhigh => contains_trailByte_iff.2 ?_⟩
    have hn : n % 0x40 < 0x20 := hhigh he
    change 0x80 ≤ _ ∧ _ ≤ 0x9F
    omega
  · exact ⟨trail, rfl, fun n _ _ => trail_contains n⟩

/-- After `F0` the next byte is not below `90`, and after `F4` it is below `90`. -/
theorem exists_lead_of_four (hl : 0xF0 ≤ b.toNat) (hh : b.toNat ≤ 0xF4) :
    ∃ following, lead b = ([], .within (b.toNat % 0x08) following [trail, trail]) ∧
      ∀ n, (b.toNat = 0xF0 → 0x10 ≤ n % 0x40) → (b.toNat = 0xF4 → n % 0x40 < 0x10) →
        following.contains (trailByte n) = true := by
  rw [lead_eq, if_neg (by omega), if_neg (by omega), if_neg (by omega), if_neg (by omega),
    if_neg (by omega), if_neg (by omega)]
  split
  · next he =>
    refine ⟨_, rfl, fun n hlow _ => contains_trailByte_iff.2 ?_⟩
    have hn : 0x10 ≤ n % 0x40 := hlow he
    change 0x90 ≤ _ ∧ _ ≤ 0xBF
    omega
  split
  · exact ⟨trail, rfl, fun n _ _ => trail_contains n⟩
  · next hne =>
    have he : b.toNat = 0xF4 := by omega
    rw [if_pos he]
    refine ⟨_, rfl, fun n _ hhigh => contains_trailByte_iff.2 ?_⟩
    have hn : n % 0x40 < 0x10 := hhigh he
    change 0x80 ≤ _ ∧ _ ≤ 0x8F
    omega

end Lead

/-- Bytes take the decoder from before a character to behind it. -/
def Decodes (bytes : List UInt8) (c : Char) : Prop :=
  ∀ chars, bytes.foldl Decoder.push ⟨chars, .idle⟩ = ⟨c :: chars, .idle⟩

section Decodes

variable {b : UInt8} {bits l m n v : Nat} {following : ByteRange}

theorem decodes_one (hb : b.toNat < 0x80) : Decodes [b] (Char.ofNat b.toNat) := by
  intro chars
  simp [Decoder.push, step, lead_of_one hb]

theorem decodes_two (hlead : lead b = ([], .within bits trail [])) :
    Decodes [b, trailByte n] (Char.ofNat (bits * 0x40 + n % 0x40)) := by
  intro chars
  simp [Decoder.push, step, hlead]

theorem decodes_three (hlead : lead b = ([], .within bits following [trail]))
    (hnext : following.contains (trailByte m) = true) :
    Decodes [b, trailByte m, trailByte n]
      (Char.ofNat ((bits * 0x40 + m % 0x40) * 0x40 + n % 0x40)) := by
  intro chars
  simp [Decoder.push, step, hlead, hnext]

theorem decodes_four (hlead : lead b = ([], .within bits following [trail, trail]))
    (hnext : following.contains (trailByte l) = true) :
    Decodes [b, trailByte l, trailByte m, trailByte n]
      (Char.ofNat (((bits * 0x40 + l % 0x40) * 0x40 + m % 0x40) * 0x40 + n % 0x40)) := by
  intro chars
  simp [Decoder.push, step, hlead, hnext]

theorem toNat_lead (hn : n < 0x100) : (UInt8.ofNat n).toNat = n := UInt8.toNat_ofNat_of_lt' hn

theorem decodes_of_one (hv : v < 0x80) : Decodes [UInt8.ofNat v] (Char.ofNat v) := by
  have hb : (UInt8.ofNat v).toNat = v := toNat_lead (by omega)
  have hdecodes : Decodes [UInt8.ofNat v] (Char.ofNat (UInt8.ofNat v).toNat) :=
    decodes_one (by omega)
  rwa [hb] at hdecodes

theorem decodes_of_two (hl : 0x80 ≤ v) (hh : v < 0x800) :
    Decodes [UInt8.ofNat (v / 0x40 % 0x20 + 0xC0), trailByte v] (Char.ofNat v) := by
  have hb : (UInt8.ofNat (v / 0x40 % 0x20 + 0xC0)).toNat = v / 0x40 % 0x20 + 0xC0 :=
    toNat_lead (by omega)
  generalize UInt8.ofNat (v / 0x40 % 0x20 + 0xC0) = b at hb
  have hdecodes : Decodes [b, trailByte v] (Char.ofNat (b.toNat % 0x20 * 0x40 + v % 0x40)) :=
    decodes_two (lead_of_two (by omega) (by omega))
  have hbits : b.toNat % 0x20 * 0x40 + v % 0x40 = v := by omega
  rwa [hbits] at hdecodes

/-- The second byte suits its lead byte: after `E0` the number is not too small, and after `ED` it is
no surrogate. -/
theorem decodes_of_three (hl : 0x800 ≤ v) (hh : v < 0x10000) (hs : v < 0xD800 ∨ 0xDFFF < v) :
    Decodes [UInt8.ofNat (v / 0x1000 % 0x10 + 0xE0), trailByte (v / 0x40), trailByte v]
      (Char.ofNat v) := by
  have hb : (UInt8.ofNat (v / 0x1000 % 0x10 + 0xE0)).toNat = v / 0x1000 % 0x10 + 0xE0 :=
    toNat_lead (by omega)
  generalize UInt8.ofNat (v / 0x1000 % 0x10 + 0xE0) = b at hb
  obtain ⟨following, hlead, hnext⟩ := exists_lead_of_three (b := b) (by omega) (by omega)
  have hsecond : following.contains (trailByte (v / 0x40)) = true :=
    hnext _ (by omega) (by omega)
  have hbits : (b.toNat % 0x10 * 0x40 + v / 0x40 % 0x40) * 0x40 + v % 0x40 = v := by omega
  have hdecodes := decodes_three (n := v) hlead hsecond
  rwa [hbits] at hdecodes

/-- The second byte suits its lead byte: after `F0` the number is not too small, and after `F4` it is
not too large. -/
theorem decodes_of_four (hl : 0x10000 ≤ v) (hh : v < 0x110000) :
    Decodes [UInt8.ofNat (v / 0x40000 % 0x08 + 0xF0), trailByte (v / 0x1000),
      trailByte (v / 0x40), trailByte v] (Char.ofNat v) := by
  have hb : (UInt8.ofNat (v / 0x40000 % 0x08 + 0xF0)).toNat = v / 0x40000 % 0x08 + 0xF0 :=
    toNat_lead (by omega)
  generalize UInt8.ofNat (v / 0x40000 % 0x08 + 0xF0) = b at hb
  obtain ⟨following, hlead, hnext⟩ := exists_lead_of_four (b := b) (by omega) (by omega)
  have hsecond : following.contains (trailByte (v / 0x1000)) = true :=
    hnext _ (by omega) (by omega)
  have hbits : ((b.toNat % 0x08 * 0x40 + v / 0x1000 % 0x40) * 0x40 + v / 0x40 % 0x40) * 0x40 +
      v % 0x40 = v := by omega
  have hdecodes := decodes_four (m := v / 0x40) (n := v) hlead hsecond
  rwa [hbits] at hdecodes

end Decodes

/-- The encoding of a character by its number, which is below the surrogates or above them. -/
theorem decodes_utf8EncodeChar (c : Char) : Decodes (String.utf8EncodeChar c) c := by
  have hc : c.toNat < 0xD800 ∨ 0xDFFF < c.toNat ∧ c.toNat < 0x110000 := c.valid
  suffices h : Decodes (String.utf8EncodeChar c) (Char.ofNat c.toNat) by rwa [Char.ofNat_toNat] at h
  unfold String.utf8EncodeChar
  simp only [Char.toNat_val]
  split
  · exact decodes_of_one (by omega)
  split
  · exact decodes_of_two (by omega) (by omega)
  split
  · exact decodes_of_three (by omega) (by omega) (by omega)
  · exact decodes_of_four (by omega) (by omega)

@[simp] theorem encode_singleton (c : Char) : encode [c] = String.utf8EncodeChar c :=
  List.append_nil _

@[simp] theorem encode_cons (c : Char) (chars : List Char) :
    encode (c :: chars) = String.utf8EncodeChar c ++ encode chars := List.flatMap_cons

@[simp] theorem encode_append (chars more : List Char) :
    encode (chars ++ more) = encode chars ++ encode more := List.flatMap_append

theorem foldl_push_encode (chars before : List Char) :
    (encode chars).foldl Decoder.push ⟨before, .idle⟩ = ⟨chars.reverse ++ before, .idle⟩ := by
  induction chars generalizing before with
  | nil => rfl
  | cons c chars ih =>
    rw [encode_cons, List.foldl_append, decodes_utf8EncodeChar c before, ih]
    simp

theorem decode_encode (chars : List Char) : decode (encode chars) = chars := by
  rw [decode, Decoder.start, foldl_push_encode]
  simp [Decoder.close, flush]

theorem utf8EncodeChar_of_lt {c : Char} (hc : c.toNat < 0x80) :
    String.utf8EncodeChar c = [UInt8.ofNat c.toNat] := by
  unfold String.utf8EncodeChar
  simp only [Char.toNat_val]
  rw [if_pos (by omega)]

/-- The bytes of a longer encoding are all marked as parts of one. -/
theorem le_toNat_of_mem_utf8EncodeChar {c : Char} (hc : 0x80 ≤ c.toNat) :
    ∀ b ∈ String.utf8EncodeChar c, 0x80 ≤ b.toNat := by
  have hmarked {n : Nat} (hl : 0x80 ≤ n) (hh : n < 0x100) : 0x80 ≤ (UInt8.ofNat n).toNat := by
    rwa [toNat_lead hh]
  unfold String.utf8EncodeChar
  simp only [Char.toNat_val]
  rw [if_neg (by omega)]
  split
  · simp only [List.forall_mem_cons, List.not_mem_nil, false_implies, implies_true, and_true]
    exact ⟨hmarked (by omega) (by omega), hmarked (by omega) (by omega)⟩
  split
  · simp only [List.forall_mem_cons, List.not_mem_nil, false_implies, implies_true, and_true]
    exact ⟨hmarked (by omega) (by omega), hmarked (by omega) (by omega),
      hmarked (by omega) (by omega)⟩
  · simp only [List.forall_mem_cons, List.not_mem_nil, false_implies, implies_true, and_true]
    exact ⟨hmarked (by omega) (by omega), hmarked (by omega) (by omega),
      hmarked (by omega) (by omega), hmarked (by omega) (by omega)⟩

/-- A byte below `80` occurs only as the one byte of its character. -/
theorem eq_of_mem_utf8EncodeChar {c : Char} {b : UInt8} (hb : b ∈ String.utf8EncodeChar c)
    (hlt : b.toNat < 0x80) : c = Char.ofNat b.toNat := by
  by_cases hc : c.toNat < 0x80
  · rw [utf8EncodeChar_of_lt hc, List.mem_singleton] at hb
    rw [hb, toNat_lead (by omega), Char.ofNat_toNat]
  · have hle : 0x80 ≤ b.toNat := le_toNat_of_mem_utf8EncodeChar (by omega) b hb
    omega

theorem mem_of_mem_encode {chars : List Char} {b : UInt8} (hb : b ∈ encode chars)
    (hlt : b.toNat < 0x80) : Char.ofNat b.toNat ∈ chars := by
  obtain ⟨c, hc, hmem⟩ := List.mem_flatMap.1 hb
  rwa [← eq_of_mem_utf8EncodeChar hmem hlt]

theorem getLast?_of_getLast?_encode {chars : List Char} {b : UInt8}
    (hb : (encode chars).getLast? = some b) (hlt : b.toNat < 0x80) :
    chars.getLast? = some (Char.ofNat b.toNat) := by
  rcases List.eq_nil_or_concat chars with rfl | ⟨before, c, rfl⟩
  · simp [encode] at hb
  · have hne : String.utf8EncodeChar c ≠ [] := String.utf8EncodeChar_ne_nil
    rw [List.concat_eq_append, encode_append, encode_singleton,
      List.getLast?_append_of_ne_nil _ hne] at hb
    rw [List.concat_eq_append, List.getLast?_concat, eq_of_mem_utf8EncodeChar (List.mem_of_getLast? hb) hlt]

end AutomatonCheck.Utf8
