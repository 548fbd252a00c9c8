import AutomatonCheck.Proofs.Utf8Replacement

/-!
# Decoding around bytes below 80

A byte below `80` lies in no range of a byte to come. It cuts off the sequence that is being
read, if there is one, and is a character of its own, behind which the decoder starts anew.
So the bytes before it and the bytes behind it can be decoded apart. The other way round, a
decoded character that is no replacement stands encoded among the bytes, so a character below
`80` is decoded only where its byte stands.
-/
namespace AutomatonCheck.Utf8

/-- The ranges of the bytes that the sequence being read still lacks. -/
def Progress.awaited : Progress → List ByteRange
  | .idle => []
  | .within _ following later => following :: later

/-- No byte below `80` continues the sequence. -/
def Progress.AwaitsMarked (progress : Progress) : Prop :=
  ∀ range ∈ progress.awaited, 0x80 ≤ range.low.toNat

theorem awaitsMarked_idle : Progress.AwaitsMarked .idle := fun _ h => absurd h List.not_mem_nil

/-- What the decoder makes of a byte at which no sequence goes on: a character of its own, a
replacement or the start of a sequence. -/
inductive LeadsTo (b : UInt8) : List Char × Progress → Prop
  | character (hb : b.toNat < 0x80) : LeadsTo b ([Char.ofNat b.toNat], .idle)
  | replaced : LeadsTo b ([replacement], .idle)
  | starts {bits : Nat} {following : ByteRange} {later : List ByteRange}
    (hmarked : ∀ range ∈ following :: later, 0x80 ≤ range.low.toNat) :
    LeadsTo b ([], .within bits following later)

theorem leadsTo_lead (b : UInt8) : LeadsTo b (lead b) := by
  rw [lead_eq]
  split
  · next hb => exact .character hb
  split
  · exact .replaced
  split
  · exact .starts (by decide)
  split
  · exact .starts (by decide)
  split
  · exact .starts (by decide)
  split
  · exact .starts (by decide)
  split
  · exact .starts (by decide)
  split
  · exact .starts (by decide)
  split
  · exact .starts (by decide)
  · exact .replaced

/-- The sequence that goes on is the end of these bytes, and each character that is put out stands
encoded in them, the replacements apart. -/
structure Tracks (taken : List UInt8) (result : List Char × Progress) : Prop where
  reads : ∃ read, result.2.Reads read ∧ read <:+ taken
  awaitsMarked : result.2.AwaitsMarked
  encoded : ∀ c ∈ result.1, c ≠ replacement → String.utf8EncodeChar c <:+: taken

section Tracks

variable {taken before : List UInt8} {chars : List Char} {progress : Progress}
  {result : List Char × Progress}

theorem tracks_idle (h : ∀ c ∈ chars, c ≠ replacement → String.utf8EncodeChar c <:+: taken) :
    Tracks taken (chars, .idle) where
  reads := ⟨[], rfl, List.nil_suffix⟩
  awaitsMarked := awaitsMarked_idle
  encoded := h

theorem tracks_char {c : Char} (h : String.utf8EncodeChar c = taken) :
    Tracks taken ([c], .idle) := by
  refine tracks_idle fun d hd _ => ?_
  rw [List.mem_singleton.1 hd]
  exact ⟨[], [], by simp [h]⟩

theorem Tracks.append_left (h : Tracks taken result) : Tracks (before ++ taken) result where
  reads := by
    obtain ⟨read, hread, hend⟩ := h.reads
    exact ⟨read, hread, hend.trans (List.suffix_append before taken)⟩
  awaitsMarked := h.awaitsMarked
  encoded c hc hne := (h.encoded c hc hne).trans (List.suffix_append before taken).isInfix

/-- Replacements put out before do not matter. -/
theorem Tracks.replacement_cons (h : Tracks taken (chars, progress)) :
    Tracks taken (replacement :: chars, progress) where
  reads := h.reads
  awaitsMarked := h.awaitsMarked
  encoded := by
    intro c hc hne
    rcases List.mem_cons.1 hc with rfl | hc
    · exact absurd rfl hne
    · exact h.encoded c hc hne

theorem tracks_lead (b : UInt8) : Tracks [b] (lead b) := by
  have hresult : LeadsTo b (lead b) := leadsTo_lead b
  have haccounts : Accounts [b] (lead b) := accounts_lead b
  generalize lead b = result at hresult haccounts ⊢
  cases hresult with
  | character hb => exact tracks_char (utf8EncodeChar_one hb)
  | replaced => exact tracks_idle fun c hc hne => absurd (List.mem_singleton.1 hc) hne
  | starts hmarked =>
    obtain ⟨read, hread, hbytes⟩ := haccounts List.not_mem_nil
    exact ⟨⟨read, hread, [], hbytes.symm⟩, hmarked, fun c hc => absurd hc List.not_mem_nil⟩

theorem tracks_step {read : List UInt8} (hread : progress.Reads read)
    (hmarked : progress.AwaitsMarked) (b : UInt8) : Tracks (read ++ [b]) (step progress b) := by
  cases progress with
  | idle => exact (tracks_lead b).append_left
  | within bits following later =>
    simp only [step]
    split
    · next hb =>
      have hnext : Begins later (read ++ [b]) (bits * 0x40 + b.toNat % 0x40) := hread b hb
      cases later with
      | nil => exact tracks_char hnext
      | cons range rest =>
        exact ⟨⟨_, hnext, List.suffix_refl _⟩, fun range hr => hmarked range (.tail _ hr),
          fun c hc => absurd hc List.not_mem_nil⟩
    · exact (tracks_lead b).append_left.replacement_cons

end Tracks

/-- The invariant of a decoder that has taken in these bytes, well-formed or not. -/
theorem Decoder.tracks_foldl_push (bytes : List UInt8) :
    Tracks bytes ((bytes.foldl push start).chars, (bytes.foldl push start).progress) := by
  induction bytes using List.reverseRecOn with
  | nil => exact tracks_idle fun c hc => absurd hc List.not_mem_nil
  | append_singleton bytes b ih =>
    obtain ⟨read, hread, before, hend⟩ := ih.reads
    have htaken : bytes ++ [b] = before ++ (read ++ [b]) := by rw [← List.append_assoc, hend]
    have hstep : Tracks (bytes ++ [b]) (step (bytes.foldl push start).progress b) := by
      rw [htaken]
      exact (tracks_step hread ih.awaitsMarked b).append_left
    rw [List.foldl_concat, push]
    refine ⟨hstep.reads, hstep.awaitsMarked, ?_⟩
    intro c hc hne
    rcases List.mem_append.1 hc with hc | hc
    · exact hstep.encoded c (List.mem_reverse.1 hc) hne
    · exact (ih.encoded c hc hne).trans (List.prefix_append bytes [b]).isInfix

section Decode

variable {bytes before after : List UInt8} {b : UInt8} {c : Char}

theorem infix_of_mem_decode (hc : c ∈ decode bytes) (hne : c ≠ replacement) :
    String.utf8EncodeChar c <:+: bytes := by
  rw [decode, Decoder.close, List.mem_append, List.mem_reverse] at hc
  rcases hc with hc | hc
  · exact (Decoder.tracks_foldl_push bytes).encoded c hc hne
  · cases hprogress : (bytes.foldl Decoder.push .start).progress with
    | idle => simp [hprogress, flush] at hc
    | within bits following later =>
      rw [hprogress, flush, List.mem_singleton] at hc
      exact absurd hc hne

theorem ofNat_ne_replacement (hb : b.toNat < 0x80) : Char.ofNat b.toNat ≠ replacement := by
  intro h
  have hnat : (Char.ofNat b.toNat).toNat = replacement.toNat := by rw [h]
  rw [toNat_scalar (by omega)] at hnat
  have hreplacement : replacement.toNat = 0xFFFD := rfl
  omega

theorem mem_of_mem_decode (hb : b.toNat < 0x80) (h : Char.ofNat b.toNat ∈ decode bytes) :
    b ∈ bytes := by
  have hinfix := infix_of_mem_decode h (ofNat_ne_replacement hb)
  rw [utf8EncodeChar_one hb] at hinfix
  exact hinfix.subset (List.mem_singleton.2 rfl)

theorem decode_eq_nil_iff : decode bytes = [] ↔ bytes = [] := by
  constructor
  · intro h
    have hencode : encode (decode bytes) = bytes := encode_decode (by simp [h])
    rw [← hencode, h]
    rfl
  · rintro rfl
    rfl

/-- A byte below `80` ends the sequence being read and leaves the decoder idle. -/
theorem step_of_lt {progress : Progress} (h : progress.AwaitsMarked) (hb : b.toNat < 0x80) :
    step progress b = (flush progress ++ [Char.ofNat b.toNat], .idle) := by
  cases progress with
  | idle => exact lead_of_one hb
  | within bits following later =>
    have hlow : 0x80 ≤ following.low.toNat := h following (.head _)
    have hout : ¬ following.contains b = true := by
      rw [ByteRange.contains_iff]
      omega
    rw [step, if_neg hout, lead_of_one hb]
    rfl

namespace Decoder

/-- A decoder adds to its characters and never looks back at them. -/
theorem foldl_push_append (bytes : List UInt8) (chars earlier : List Char) (progress : Progress) :
    bytes.foldl push ⟨chars ++ earlier, progress⟩ =
      ⟨(bytes.foldl push ⟨chars, progress⟩).chars ++ earlier,
        (bytes.foldl push ⟨chars, progress⟩).progress⟩ := by
  induction bytes generalizing chars progress with
  | nil => rfl
  | cons b bytes ih =>
    simp only [List.foldl_cons, push]
    rw [← List.append_assoc, ih]

theorem push_of_lt {decoder : Decoder} (h : decoder.progress.AwaitsMarked) (hb : b.toNat < 0x80) :
    decoder.push b = ⟨Char.ofNat b.toNat :: decoder.close.reverse, .idle⟩ := by
  simp [push, step_of_lt h hb, close]

end Decoder

/-- What stands before a byte below `80` and what stands behind it are decoded apart. -/
theorem decode_append_cons (hb : b.toNat < 0x80) :
    decode (before ++ b :: after) = decode before ++ Char.ofNat b.toNat :: decode after := by
  have hpush := Decoder.push_of_lt (Decoder.tracks_foldl_push before).awaitsMarked hb
  rw [decode, List.foldl_append, List.foldl_cons, hpush]
  have hafter := Decoder.foldl_push_append after [] (Char.ofNat b.toNat :: (decode before).reverse)
    .idle
  rw [List.nil_append] at hafter
  rw [show (before.foldl Decoder.push .start).close = decode before from rfl, hafter]
  simp [Decoder.close, decode, Decoder.start]

theorem getLast?_of_getLast?_decode (hb : b.toNat < 0x80)
    (h : (decode bytes).getLast? = some (Char.ofNat b.toNat)) : bytes.getLast? = some b := by
  have hmem : b ∈ bytes.reverse := List.mem_reverse.2 (mem_of_mem_decode hb (List.mem_of_getLast? h))
  obtain ⟨behind, rest, hcut, hnot⟩ := List.eq_append_cons_of_mem hmem
  rw [List.reverse_eq_iff, List.reverse_append, List.reverse_cons, List.append_assoc,
    List.singleton_append] at hcut
  rw [hcut, decode_append_cons hb] at h
  have hbehind : behind.reverse = [] := by
    by_contra hne
    have hdecode : decode behind.reverse ≠ [] := mt decode_eq_nil_iff.1 hne
    rw [List.getLast?_append_of_ne_nil _ (List.cons_ne_nil _ _), List.getLast?_cons_of_ne_nil hdecode] at h
    exact hnot (List.mem_reverse.1 (mem_of_mem_decode hb (List.mem_of_getLast? h)))
  rw [hcut, hbehind, List.getLast?_concat]

/-- Splitting bytes at a byte below `80` and decoding the pieces is splitting the decoded text at
its character. -/
theorem splitOn_decode (hb : b.toNat < 0x80) (bytes : List UInt8) :
    (decode bytes).splitOn (Char.ofNat b.toNat) = (bytes.splitOn b).map decode := by
  by_cases hmem : b ∈ bytes
  · obtain ⟨before, after, hcut, hnot⟩ := List.eq_append_cons_of_mem hmem
    rw [hcut, decode_append_cons hb, List.splitOn_append_cons_self, List.splitOn_append_cons_self,
      List.map_append, splitOn_decode hb after, List.splitOn_eq_singleton hnot,
      List.splitOn_eq_singleton (mt (mem_of_mem_decode hb) hnot)]
    rfl
  · rw [List.splitOn_eq_singleton hmem, List.splitOn_eq_singleton (mt (mem_of_mem_decode hb) hmem)]
    rfl
termination_by bytes.length
decreasing_by
  rw [hcut, List.length_append, List.length_cons]
  omega

end Decode

end AutomatonCheck.Utf8
