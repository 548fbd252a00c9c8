import Mathlib.Data.List.Induction
import AutomatonCheck.Proofs.Utf8RoundTrip

/-!
# What decoding replaces

Decoding loses something only where it puts in a replacement character. While a sequence
is read, its lead byte settles in what ranges the bytes to come lie, and any bytes in these
ranges complete the encoding of a character, the one that is then put out. All that is cut
off or starts no sequence is replaced. Hence a text that was decoded without a replacement
is encoded by just the bytes that it was decoded from.
-/
namespace AutomatonCheck.Utf8

section Encodings

variable {a b c d : UInt8} {n : Nat}

theorem toNat_scalar (h : n < 0xD800 ∨ 0xDFFF < n ∧ n < 0x110000) :
    (Char.ofNat n).toNat = n := by
  rw [Char.ofNat, dif_pos h]
  rfl

theorem ofNat_eq_of_toNat (h : n = b.toNat) : UInt8.ofNat n = b := by
  rw [h, UInt8.ofNat_toNat]

theorem utf8EncodeChar_one (ha : a.toNat < 0x80) :
    String.utf8EncodeChar (Char.ofNat a.toNat) = [a] := by
  have hchar : (Char.ofNat a.toNat).toNat = a.toNat := toNat_scalar (by omega)
  rw [utf8EncodeChar_of_lt (by omega), hchar, UInt8.ofNat_toNat]

theorem utf8EncodeChar_two (ha : 0xC2 ≤ a.toNat ∧ a.toNat < 0xE0)
    (hb : 0x80 ≤ b.toNat ∧ b.toNat ≤ 0xBF) (hn : n = a.toNat % 0x20 * 0x40 + b.toNat % 0x40) :
    String.utf8EncodeChar (Char.ofNat n) = [a, b] := by
  have hchar : (Char.ofNat n).toNat = n := toNat_scalar (by omega)
  unfold String.utf8EncodeChar
  simp only [Char.toNat_val, hchar]
  rw [if_neg (by omega), if_pos (by omega), ofNat_eq_of_toNat (b := a) (by omega),
    ofNat_eq_of_toNat (b := b) (by omega)]

/-- The range after `E0` keeps the number above those with shorter encodings, and the one after `ED`
below the surrogates. -/
theorem utf8EncodeChar_three (ha : 0xE0 ≤ a.toNat ∧ a.toNat < 0xF0)
    (hb : 0x80 ≤ b.toNat ∧ b.toNat ≤ 0xBF) (hlow : a.toNat = 0xE0 → 0xA0 ≤ b.toNat)
    (hhigh : a.toNat = 0xED → b.toNat ≤ 0x9F) (hc : 0x80 ≤ c.toNat ∧ c.toNat ≤ 0xBF)
    (hn : n = (a.toNat % 0x10 * 0x40 + b.toNat % 0x40) * 0x40 + c.toNat % 0x40) :
    String.utf8EncodeChar (Char.ofNat n) = [a, b, c] := by
  have hchar : (Char.ofNat n).toNat = n := toNat_scalar (by omega)
  unfold String.utf8EncodeChar
  simp only [Char.toNat_val, hchar]
  rw [if_neg (by omega), if_neg (by omega), if_pos (by omega),
    ofNat_eq_of_toNat (b := a) (by omega), ofNat_eq_of_toNat (b := b) (by omega),
    ofNat_eq_of_toNat (b := c) (by omega)]

/-- The range after `F0` keeps the number above those with shorter encodings, and the one after `F4`
below the end of all numbers. -/
theorem utf8EncodeChar_four (ha : 0xF0 ≤ a.toNat ∧ a.toNat ≤ 0xF4)
    (hb : 0x80 ≤ b.toNat ∧ b.toNat ≤ 0xBF) (hlow : a.toNat = 0xF0 → 0x90 ≤ b.toNat)
    (hhigh : a.toNat = 0xF4 → b.toNat ≤ 0x8F) (hc : 0x80 ≤ c.toNat ∧ c.toNat ≤ 0xBF)
    (hd : 0x80 ≤ d.toNat ∧ d.toNat ≤ 0xBF)
    (hn : n = ((a.toNat % 0x08 * 0x40 + b.toNat % 0x40) * 0x40 + c.toNat % 0x40) * 0x40 +
      d.toNat % 0x40) :
    String.utf8EncodeChar (Char.ofNat n) = [a, b, c, d] := by
  have hchar : (Char.ofNat n).toNat = n := toNat_scalar (by omega)
  unfold String.utf8EncodeChar
  simp only [Char.toNat_val, hchar]
  rw [if_neg (by omega), if_neg (by omega), if_neg (by omega),
    ofNat_eq_of_toNat (b := a) (by omega), ofNat_eq_of_toNat (b := b) (by omega),
    ofNat_eq_of_toNat (b := c) (by omega), ofNat_eq_of_toNat (b := d) (by omega)]

end Encodings

/-- Bytes that carry these bits begin a sequence: with any bytes in the ranges to come they are the
encoding of the character that is then put out. -/
def Begins : List ByteRange → List UInt8 → Nat → Prop
  | [], read, bits => String.utf8EncodeChar (Char.ofNat bits) = read
  | range :: rest, read, bits =>
    ∀ b, range.contains b = true → Begins rest (read ++ [b]) (bits * 0x40 + b.toNat % 0x40)

section Begins

variable {a b : UInt8} {following : ByteRange}

theorem trail_contains_iff :
    trail.contains b = true ↔ 0x80 ≤ b.toNat ∧ b.toNat ≤ 0xBF := ByteRange.contains_iff

theorem begins_two (ha : 0xC2 ≤ a.toNat ∧ a.toNat < 0xE0) :
    Begins [trail] [a] (a.toNat % 0x20) := by
  intro b hb
  exact utf8EncodeChar_two ha (trail_contains_iff.1 hb) rfl

theorem begins_three (ha : 0xE0 ≤ a.toNat ∧ a.toNat < 0xF0)
    (hnext : ∀ b, following.contains b = true → (0x80 ≤ b.toNat ∧ b.toNat ≤ 0xBF) ∧
      (a.toNat = 0xE0 → 0xA0 ≤ b.toNat) ∧ (a.toNat = 0xED → b.toNat ≤ 0x9F)) :
    Begins [following, trail] [a] (a.toNat % 0x10) := by
  intro b hb c hc
  obtain ⟨hrange, hlow, hhigh⟩ := hnext b hb
  exact utf8EncodeChar_three ha hrange hlow hhigh (trail_contains_iff.1 hc) rfl

theorem begins_four (ha : 0xF0 ≤ a.toNat ∧ a.toNat ≤ 0xF4)
    (hnext : ∀ b, following.contains b = true → (0x80 ≤ b.toNat ∧ b.toNat ≤ 0xBF) ∧
      (a.toNat = 0xF0 → 0x90 ≤ b.toNat) ∧ (a.toNat = 0xF4 → b.toNat ≤ 0x8F)) :
    Begins [following, trail, trail] [a] (a.toNat % 0x08) := by
  intro b hb c hc d hd
  obtain ⟨hrange, hlow, hhigh⟩ := hnext b hb
  exact utf8EncodeChar_four ha hrange hlow hhigh (trail_contains_iff.1 hc)
    (trail_contains_iff.1 hd) rfl

end Begins

/-- The bytes read of an unfinished sequence. -/
def Progress.Reads : Progress → List UInt8 → Prop
  | .idle, read => read = []
  | .within bits following later, read => Begins (following :: later) read bits

/-- The characters put out and the sequence that goes on account for all bytes. -/
def Accounts (taken : List UInt8) (result : List Char × Progress) : Prop :=
  replacement ∉ result.1 → ∃ read, result.2.Reads read ∧ taken = encode result.1 ++ read

theorem accounts_of_replacement {taken : List UInt8} {chars : List Char} {progress : Progress} :
    Accounts taken (replacement :: chars, progress) := by
  intro h
  exact absurd List.mem_cons_self h

theorem accounts_of_begins {taken : List UInt8} {bits : Nat} {following : ByteRange}
    {later : List ByteRange} (h : Begins (following :: later) taken bits) :
    Accounts taken ([], .within bits following later) := by
  intro _
  exact ⟨taken, h, rfl⟩

theorem accounts_of_char {taken : List UInt8} {c : Char} (h : String.utf8EncodeChar c = taken) :
    Accounts taken ([c], .idle) := by
  intro _
  exact ⟨[], rfl, by rw [encode_singleton, h, List.append_nil]⟩

theorem accounts_lead (b : UInt8) : Accounts [b] (lead b) := by
  rw [lead_eq]
  split
  · next h => exact accounts_of_char (utf8EncodeChar_one h)
  split
  · exact accounts_of_replacement
  split
  · exact accounts_of_begins (begins_two (by omega))
  split
  · refine accounts_of_begins (begins_three (by omega) fun b hb => ?_)
    have hrange : 0xA0 ≤ b.toNat ∧ b.toNat ≤ 0xBF := ByteRange.contains_iff.1 hb
    omega
  split
  · refine accounts_of_begins (begins_three (by omega) fun b hb => ?_)
    have hrange : 0x80 ≤ b.toNat ∧ b.toNat ≤ 0x9F := ByteRange.contains_iff.1 hb
    omega
  split
  · refine accounts_of_begins (begins_three (by omega) fun b hb => ?_)
    have hrange : 0x80 ≤ b.toNat ∧ b.toNat ≤ 0xBF := trail_contains_iff.1 hb
    omega
  split
  · refine accounts_of_begins (begins_four (by omega) fun b hb => ?_)
    have hrange : 0x90 ≤ b.toNat ∧ b.toNat ≤ 0xBF := ByteRange.contains_iff.1 hb
    omega
  split
  · refine accounts_of_begins (begins_four (by omega) fun b hb => ?_)
    have hrange : 0x80 ≤ b.toNat ∧ b.toNat ≤ 0xBF := trail_contains_iff.1 hb
    omega
  split
  · refine accounts_of_begins (begins_four (by omega) fun b hb => ?_)
    have hrange : 0x80 ≤ b.toNat ∧ b.toNat ≤ 0x8F := ByteRange.contains_iff.1 hb
    omega
  · exact accounts_of_replacement

theorem accounts_step {progress : Progress} {read : List UInt8} (h : progress.Reads read)
    (b : UInt8) : Accounts (read ++ [b]) (step progress b) := by
  cases progress with
  | idle =>
    rw [show read = [] from h]
    exact accounts_lead b
  | within bits following later =>
    simp only [step]
    split
    · next hb =>
      have hnext : Begins later (read ++ [b]) (bits * 0x40 + b.toNat % 0x40) := h b hb
      cases later with
      | nil => exact accounts_of_char hnext
      | cons range rest => exact accounts_of_begins hnext
    · exact accounts_of_replacement

namespace Decoder

/-- The invariant of a decoder that has taken in these bytes. -/
theorem accounts_foldl_push (bytes : List UInt8) :
    Accounts bytes ((bytes.foldl push start).chars.reverse, (bytes.foldl push start).progress) := by
  induction bytes using List.reverseRecOn with
  | nil =>
    intro _
    exact ⟨[], rfl, rfl⟩
  | append_singleton bytes b ih =>
    intro h
    simp only [List.foldl_concat, push, List.reverse_append, List.reverse_reverse, List.mem_append,
      not_or] at h
    obtain ⟨read, hread, hbytes⟩ := ih h.1
    obtain ⟨later, hlater, hstep⟩ := accounts_step hread b h.2
    refine ⟨later, ?_, ?_⟩
    · simpa only [List.foldl_concat, push] using hlater
    · simp only [List.foldl_concat, push, List.reverse_append, List.reverse_reverse, encode_append]
      rw [List.append_assoc, ← hstep, ← List.append_assoc, ← hbytes]

end Decoder

/-- Decoding without a replacement loses nothing. -/
theorem encode_decode {bytes : List UInt8} (h : replacement ∉ decode bytes) :
    encode (decode bytes) = bytes := by
  simp only [decode, Decoder.close, List.mem_append, not_or] at h
  obtain ⟨read, hread, hbytes⟩ := Decoder.accounts_foldl_push bytes h.1
  have hidle : (bytes.foldl Decoder.push .start).progress = .idle := by
    cases hprogress : (bytes.foldl Decoder.push .start).progress with
    | idle => rfl
    | within bits following later =>
      rw [hprogress] at h
      exact absurd (List.mem_singleton.2 rfl) h.2
  rw [hidle] at hread
  rw [decode, Decoder.close, hidle, flush, List.append_nil]
  rw [show read = [] from hread, List.append_nil] at hbytes
  exact hbytes.symm

end AutomatonCheck.Utf8
