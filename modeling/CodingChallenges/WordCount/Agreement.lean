import CodingChallenges.WordCount.Blocks
import CodingChallenges.WordCount.WordCountV2
import Mathlib.Data.List.Flatten

/-!
# The Two Versions

Bytes and lines as the two versions count them.

The second version counts them directly. The first one counts only what it decodes: null
characters are passed over, what follows a byte that is no UTF-8 is dropped up to the end of the
block, and so is a part of a character at the end of the file. So what it counts is the encoding
of a text, left over when bytes are taken out of the file, and it is the whole file only if none
are.

## Theorems

* `processLoop_counted`: What the first version counts in a file.
* `processFile_agree_iff`: When both versions count the same.
-/

namespace CodingChallenges

namespace WordCount

variable {mbrtowc : List UInt8 → Nat × Nat} {iswspace : Nat → Bool}

theorem IsUtf8Decoder.decodes (h : IsUtf8Decoder mbrtowc) (c : Char) : Decodes mbrtowc c := by
  by_cases hc : c = '\x00'
  · intro rest
    rw [if_pos hc, hc, encodeChar_null]
    exact h.null rest
  · exact h.toDecodesUtf8.decodes hc

/-- Every block ends in one of the three ways. -/
theorem IsUtf8Decoder.blockEnd (h : IsUtf8Decoder mbrtowc) {tail : List UInt8}
    (htail : tail = [] ∨ Utf8Incomplete tail ∨ Utf8Invalid tail) :
    ∃ part, BlockEnd mbrtowc tail part ∧ (part = [] ∨ Utf8Incomplete part) ∧ part.Sublist tail := by
  rcases htail with rfl | htail | htail
  · exact ⟨[], .behind, Or.inl rfl, List.Sublist.refl _⟩
  · exact ⟨tail, .within htail.1 (h.incomplete _ htail), Or.inr htail, List.Sublist.refl _⟩
  · exact ⟨[], .invalid htail.1 (h.invalid _ htail), Or.inl rfl, List.nil_sublist _⟩

/-- What is counted in a file is a text without null characters, and what is left of the file
    when some of its bytes are taken out. -/
theorem processLoop_counted (iswspace : Nat → Bool) (hdecoder : IsUtf8Decoder mbrtowc) {s : State}
    {part rest : List UInt8} (hs : Carries s part) (hpart : part = [] ∨ Utf8Incomplete part)
    (is : InputStream) (hrest : is.rest = rest) (hgood : rest ≠ [] → is.good = true) :
    ∃ s' text, Returns (fun fuel => processLoop mbrtowc iswspace fuel is s) s' ∧
      s'.progress = processText iswspace s.progress text ∧ '\x00' ∉ text ∧
      (utf8Encode text).Sublist (part ++ rest) := by
  -- Nothing is known of the file, so each block is cut where its text ends.
  induction hn : rest.length using Nat.strongRecOn generalizing rest part s is with
  | _ n ih =>
      rcases is with ⟨rest', good⟩
      subst hrest
      change rest'.length = n at hn
      have hlength := part_length_lt hpart
      by_cases hnil : rest' = []
      · subst hnil
        exact ⟨s, [], processLoop_end hs hlength good, rfl, List.not_mem_nil, List.nil_sublist _⟩
      · have hgood' : good = true := hgood hnil
        subst hgood'
        rcases exists_characters (part ++ rest'.take (bufSize - part.length)) with
          ⟨chars, tail, hblock, htail⟩
        rcases hdecoder.blockEnd htail with ⟨part', hend, hpart', hsub⟩
        rcases processLoop_round iswspace hs hlength hnil hblock
          (fun c _ => hdecoder.decodes c) hend with ⟨s₁, hcarries, hprogress, hloop⟩
        have hshorter := length_nextStream_lt hlength hnil
        rw [hn] at hshorter
        rcases ih _ hshorter hcarries hpart' (nextStream _ rest') rfl nextStream_good rfl with
          ⟨s', text, hreturns, hcounted, hnull, hleft⟩
        refine ⟨s', chars.filter (· ≠ '\x00') ++ text, hloop s' hreturns, ?_, ?_, ?_⟩
        · rw [hcounted, hprogress, processText, processText, processText, List.foldl_append]
        · rw [List.mem_append, not_or]
          refine ⟨fun hmem => ?_, hnull⟩
          exact absurd (List.mem_filter.mp hmem).2 (by decide)
        -- The null characters are taken out of this block, and what follows an invalid byte.
        · change (utf8Encode _).Sublist (part ++ rest')
          rw [append_nextStream hblock, utf8Encode_append]
          refine List.Sublist.append (List.Sublist.flatMap List.filter_sublist _) ?_
          exact hleft.trans (List.Sublist.append_right hsub _)

theorem countLastWord_bytes (p : Progress) :
    (countLastWord iswspace p).bytes = p.output.bytes := by
  unfold countLastWord
  split_ifs <;> rfl

theorem countLastWord_lines (p : Progress) :
    (countLastWord iswspace p).lines = p.output.lines := by
  unfold countLastWord
  split_ifs <;> rfl

theorem processFile_counted (hdecoder : IsUtf8Decoder mbrtowc) (iswspace : Nat → Bool)
    (input : List UInt8) :
    ∃ output text, Returns (fun fuel => processFile mbrtowc iswspace fuel
        (InputStream.ofFile input) {}) output ∧
      output.bytes = UInt64.ofNat (utf8Encode text).length ∧ '\x00' ∉ text ∧
      (utf8Encode text).Sublist input := by
  rcases processLoop_counted iswspace hdecoder (carries_start {}) (Or.inl rfl)
    (InputStream.ofFile input) rfl (fun _ => rfl) with
    ⟨s, text, hreturns, hprogress, hnull, hsub⟩
  refine ⟨_, text, hreturns.andThen rfl, ?_, hnull, hsub⟩
  rw [countLastWord_bytes, hprogress, processText_eq]
  exact UInt64.zero_add _

/-- A text without null characters is counted completely. -/
theorem processFile_complete (hdecodes : DecodesUtf8 mbrtowc) (iswspace : Nat → Bool)
    {text : List Char} (hnull : '\x00' ∉ text) :
    ∃ output, Returns (fun fuel => processFile mbrtowc iswspace fuel
        (InputStream.ofFile (utf8Encode text)) {}) output ∧
      output.bytes = UInt64.ofNat (utf8Encode text).length ∧
      output.lines = UInt64.ofNat ((utf8Encode text).count 10) := by
  rcases processLoop_text iswspace hdecodes (carries_start {}) (Or.inl rfl) rfl hnull
    (InputStream.ofFile (utf8Encode text)) rfl (fun _ => rfl) with ⟨s, hreturns, hprogress⟩
  have hlf : (utf8Encode text).count 10 = text.count '\n' :=
    count_utf8Encode (d := '\n') (by decide) text
  refine ⟨_, hreturns.andThen rfl, ?_, ?_⟩
  · rw [countLastWord_bytes, hprogress, processText_eq]
    exact UInt64.zero_add _
  · rw [countLastWord_lines, hprogress, processText_eq, hlf]
    exact UInt64.zero_add _

/-- Whatever the file is: both versions count its bytes and its lines exactly if the index of the
    second one comes to its end, and it is a text without null characters. -/
theorem processFile_agree_iff (hdecoder : IsUtf8Decoder mbrtowc) (iswspace : Nat → Bool)
    (input : List UInt8) :
    (∃ output output', Returns (fun fuel => processFile mbrtowc iswspace fuel
          (InputStream.ofFile input) {}) output ∧
        Returns (fun fuel => V2.processFile fuel input {}) output' ∧
        output.bytes = output'.bytes ∧ output.lines = output'.lines ∧
        output'.bytes.toNat = input.length ∧ output'.lines.toNat = input.count 10) ↔
      input.length < 2 ^ 32 ∧ ∃ text : List Char, '\x00' ∉ text ∧ input = utf8Encode text := by
  constructor
  · rintro ⟨output, output', hreturns, hreturns', hbytes, -, htotal, -⟩
    have hlength := (V2.processFile_returns_iff input).mp ⟨output', hreturns'⟩
    rcases processFile_counted hdecoder iswspace input with
      ⟨counted, text, hcounted, hcount, hnull, hsub⟩
    have hsame := hreturns.unique hcounted
    subst hsame
    -- If all bytes are counted none was taken out, so the file is the text that was counted.
    have hle := hsub.length_le
    rw [← hbytes, hcount, UInt64.toNat_ofNat', Nat.mod_eq_of_lt (by omega)] at htotal
    exact ⟨hlength, text, hnull, (hsub.eq_of_length htotal).symm⟩
  · rintro ⟨hlength, text, hnull, rfl⟩
    -- Of a file that is not too long the second version counts the bytes and lines as they are.
    rcases exists_yields hlength 0 (Nat.zero_le _) with ⟨codepoints, hyields, -⟩
    rcases processFile_complete hdecoder.toDecodesUtf8 iswspace hnull with
      ⟨output, hreturns, hbytes, hlines⟩
    have hlf := List.count_le_length (a := (10 : UInt8)) (l := utf8Encode text)
    refine ⟨output, _, hreturns, V2.processFile_returns hyields, hbytes, hlines, ?_, ?_⟩
    · exact UInt64.toNat_ofNat'.trans (Nat.mod_eq_of_lt (by omega))
    · exact UInt64.toNat_ofNat'.trans (Nat.mod_eq_of_lt (by omega))

theorem processFile_agree_iff_line :
    (∃ output output', Returns (fun fuel => processFile utf8Mbrtowc (· == 32) fuel
          (InputStream.ofFile [97, 10]) {}) output ∧
        Returns (fun fuel => V2.processFile fuel [97, 10] {}) output' ∧
        output.bytes = output'.bytes ∧ output.lines = output'.lines ∧
        output'.bytes.toNat = 2 ∧ output'.lines.toNat = 1) ↔
      2 < 2 ^ 32 ∧ ∃ text : List Char, '\x00' ∉ text ∧ [97, 10] = utf8Encode text :=
  processFile_agree_iff isUtf8Decoder_utf8Mbrtowc (· == 32) [97, 10]

/-- A null character. -/
theorem not_processFile_agree :
    ¬ ∀ (mbrtowc : List UInt8 → Nat × Nat) (iswspace : Nat → Bool), IsUtf8Decoder mbrtowc →
      ∀ input, ∃ output output', Returns (fun fuel => processFile mbrtowc iswspace fuel
          (InputStream.ofFile input) {}) output ∧
        Returns (fun fuel => V2.processFile fuel input {}) output' ∧
        output.bytes = output'.bytes ∧ output.lines = output'.lines ∧
        output'.bytes.toNat = input.length ∧ output'.lines.toNat = input.count 10 := by
  intro h
  rcases h utf8Mbrtowc (· == 32) isUtf8Decoder_utf8Mbrtowc [0] with
    ⟨output, output', hreturns, hreturns', hbytes, -, htotal, -⟩
  rcases processFile_counted isUtf8Decoder_utf8Mbrtowc (· == 32) [0] with
    ⟨counted, text, hcounted, hcount, hnull, hsub⟩
  have hsame := hreturns.unique hcounted
  subst hsame
  have hle : (utf8Encode text).length ≤ 1 := hsub.length_le
  rw [← hbytes, hcount, UInt64.toNat_ofNat', Nat.mod_eq_of_lt (by omega)] at htotal
  have hencode := hsub.eq_of_length htotal
  cases text with
  | nil => cases hencode
  | cons c text =>
      rw [utf8Encode_cons] at hencode
      cases hw : String.utf8EncodeChar c with
      | nil => exact String.utf8EncodeChar_ne_nil hw
      | cons a w =>
          rw [hw, List.cons_append] at hencode
          refine encodeChar_head_ne (fun hc => hnull ?_) hw (List.cons.inj hencode).1
          rw [hc]
          exact List.mem_cons_self

end WordCount

end CodingChallenges
