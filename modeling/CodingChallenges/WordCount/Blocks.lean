import CodingChallenges.WordCount.Codepoints
import CodingChallenges.WordCount.WordCount

/-!
# Reading in Blocks

The outer loop of the first version, and what it counts in a text.

What lies at the front of the buffer before a block is read is the beginning of a character,
so with the bytes that are still in the file it is a text again. Each round counts the
characters that are whole within the block, and carries the beginning of the next one over.
So where the blocks end makes no difference.

## Main definitions

* `nextStream`: What is left of the file when a block has been read.
* `utf8Mbrtowc`: A decoder of UTF-8.

## Theorems

* `processText_eq`: The counters behind a text.
* `processLoop_round`, `processLoop_end`: A block, and the end of the file.
* `block_of_text`: Behind a block of a text a text is left.
* `processLoop_text`: The loop counts the characters of a text.
* `processFile_text`: What is counted in a text.
-/

namespace CodingChallenges

namespace WordCount

theorem add_ofNat (n : UInt64) (a b : Nat) :
    n + UInt64.ofNat a + UInt64.ofNat b = n + UInt64.ofNat (a + b) := by
  rw [UInt64.ofNat_add, UInt64.add_assoc]

theorem toNat_eq_newline_iff (c : Char) : c.toNat = 10 ↔ c = '\n' := by
  constructor
  · intro h
    exact Char.toNat_inj.mp h
  · intro h
    rw [h]
    rfl

/-- The counters behind a text. -/
theorem processText_eq (iswspace : Nat → Bool) (p : Progress) (text : List Char) :
    processText iswspace p text =
      { previousWideChar := (text.getLast?.map Char.toNat).getD p.previousWideChar
        isWordUnderProcess :=
          insideWord iswspace p.isWordUnderProcess (text.map Char.toNat)
        output :=
          { bytes := p.output.bytes + UInt64.ofNat (utf8Encode text).length
            lines := p.output.lines + UInt64.ofNat (text.count '\n')
            words := p.output.words +
              UInt64.ofNat (endedWords iswspace p.isWordUnderProcess (text.map Char.toNat))
            chars := p.output.chars + UInt64.ofNat text.length } } := by
  -- Every counter is the sum of what the characters add to it.
  induction text generalizing p with
  | nil =>
      have hzero : ∀ n : UInt64, n + UInt64.ofNat 0 = n := UInt64.add_zero
      have hencode : (utf8Encode []).length = 0 := rfl
      rw [List.length_nil, List.count_nil, List.map_nil, endedWords, hencode, hzero, hzero, hzero,
        hzero]
      rfl
  | cons c text ih =>
      rw [processText, List.foldl_cons, ← processText, ih]
      rcases processWord_eq iswspace p.isWordUnderProcess p.output.words c.toNat
        (text.map Char.toNat) with ⟨hinside, hwords⟩
      have hlast : (text.getLast?.map Char.toNat).getD c.toNat =
          ((c :: text).getLast?.map Char.toNat).getD p.previousWideChar := by
        rw [List.getLast?_cons]
        cases text.getLast? <;> rfl
      have hlines : (if c.toNat = 10 then p.output.lines + 1 else p.output.lines) +
            UInt64.ofNat (text.count '\n') =
          p.output.lines + UInt64.ofNat ((c :: text).count '\n') := by
        by_cases hc : c = '\n'
        · rw [if_pos ((toNat_eq_newline_iff c).mpr hc), hc, List.count_cons_self, Nat.add_comm,
            ← add_ofNat]
          rfl
        · rw [if_neg fun h => hc ((toNat_eq_newline_iff c).mp h), List.count_cons_of_ne hc]
      simp only [processCharacter, hinside, hwords, hlast, hlines, utf8Encode_cons,
        List.length_append, List.length_cons, List.map_cons, ← add_ofNat, Nat.add_comm text.length]
      rfl

section Loop

variable {mbrtowc : List UInt8 → Nat × Nat} {iswspace : Nat → Bool} {s : State}
  {part rest : List UInt8}

/-- At the end of the file the loop ends, whatever lies at the front of the buffer. -/
theorem processLoop_end (hs : Carries s part) (hpart : part.length < bufSize) (good : Bool) :
    Returns (fun fuel => processLoop mbrtowc iswspace fuel ⟨[], good⟩ s) s := by
  -- There is room in the buffer, so reading nothing is a failure.
  refine Returns.succ ((returns_ok s).congr fun fuel => ?_)
  have hroom : 0 < bufSize - s.remainingBytes := by
    rw [hs.2.2]
    omega
  rw [processLoop, InputStream.read_nil hroom]
  exact if_neg (by decide)

/-- What is left of a stream when a block has been read. -/
def nextStream (n : Nat) (rest : List UInt8) : InputStream :=
  ⟨rest.drop n, decide (n ≤ rest.length)⟩

/-- A block is read and processed. -/
theorem processLoop_round (iswspace : Nat → Bool) {chars : List Char} {tail part' : List UInt8}
    (hs : Carries s part) (hpart : part.length < bufSize) (hrest : rest ≠ [])
    (hblock : part ++ rest.take (bufSize - part.length) = utf8Encode chars ++ tail)
    (hchars : ∀ c ∈ chars, Decodes mbrtowc c) (hend : BlockEnd mbrtowc tail part') :
    ∃ s₁, Carries s₁ part' ∧
      s₁.progress = processText iswspace s.progress (chars.filter (· ≠ '\x00')) ∧
      ∀ s', Returns (fun fuel => processLoop mbrtowc iswspace fuel
          (nextStream (bufSize - part.length) rest) s₁) s' →
        Returns (fun fuel => processLoop mbrtowc iswspace fuel ⟨rest, true⟩ s) s' := by
  have hdata : (rest.take (bufSize - part.length)).length ≠ 0 := by
    have hpos := List.length_pos_iff.mpr hrest
    rw [List.length_take]
    omega
  have hfits : part.length + (rest.take (bufSize - part.length)).length ≤ bufSize := by
    rw [List.length_take]
    omega
  have hholds := hs.fill hfits
  rw [hblock] at hholds
  rcases processBlock_returns iswspace hchars hend hholds rfl with
    ⟨s₁, hreturns, hcarries, hprogress⟩
  refine ⟨s₁, hcarries, hprogress, fun s' hloop => ?_⟩
  -- The block is done with some fuel, and the other blocks with some, so both are with enough.
  have hboth := Returns.bind (f := fun s₁ fuel => processLoop mbrtowc iswspace fuel
    (nextStream (bufSize - part.length) rest) s₁) hreturns hloop
  refine Returns.succ (hboth.congr fun fuel => ?_)
  rw [processLoop, InputStream.read, hs.2.2]
  exact if_pos (Or.inr hdata)

/-- There is more to read, unless the end of the file has been met. -/
theorem nextStream_good {n : Nat} (h : (nextStream n rest).rest ≠ []) :
    (nextStream n rest).good = true := by
  have hlt : n < rest.length := by
    by_contra hnot
    exact h (List.drop_eq_nil_of_le (by omega))
  exact decide_eq_true (Nat.le_of_lt hlt)

theorem length_nextStream_lt (hpart : part.length < bufSize) (hrest : rest ≠ []) :
    (nextStream (bufSize - part.length) rest).rest.length < rest.length := by
  have hpos := List.length_pos_iff.mpr hrest
  rw [nextStream, List.length_drop]
  omega

/-- What a block leaves of the file stands behind what its characters leave of the block. -/
theorem append_nextStream {n : Nat} {front tail : List UInt8}
    (hblock : part ++ rest.take n = front ++ tail) :
    part ++ rest = front ++ (tail ++ (nextStream n rest).rest) := by
  rw [nextStream, ← List.append_assoc, ← hblock, List.append_assoc, List.take_append_drop]

/-- What a part of a character leaves of the buffer. -/
theorem part_length_lt (hpart : part = [] ∨ Utf8Incomplete part) : part.length < bufSize := by
  rcases hpart with rfl | hpart
  · decide
  · exact Nat.lt_trans hpart.length_lt (by decide)

/-- The decoder finds every character that is not null. -/
theorem DecodesUtf8.decodes (h : DecodesUtf8 mbrtowc) {c : Char} (hc : c ≠ '\x00') :
    Decodes mbrtowc c := by
  intro rest
  rw [if_neg hc]
  exact h.character c hc rest

theorem DecodesUtf8.blockEnd (h : DecodesUtf8 mbrtowc) (hpart : part = [] ∨ Utf8Incomplete part) :
    BlockEnd mbrtowc part part := by
  rcases hpart with rfl | hpart
  · exact .behind
  · exact .within hpart.1 (h.incomplete _ hpart)

/-- A part of a character is no text. -/
theorem eq_nil_of_part (hpart : part = [] ∨ Utf8Incomplete part) {text : List Char}
    (htext : part = utf8Encode text) : text = [] := by
  cases text with
  | nil => rfl
  | cons c text =>
      rcases hpart with rfl | hpart
      · rw [utf8Encode_cons] at htext
        exact absurd (List.append_eq_nil_iff.mp htext.symm).1 String.utf8EncodeChar_ne_nil
      · exact absurd htext (hpart.ne_utf8Encode _)

/-- A block of a text ends within a character or behind one, and a text is left. -/
theorem block_of_text (n : Nat) {text : List Char} (htext : part ++ rest = utf8Encode text) :
    ∃ front back part', text = front ++ back ∧
      part ++ rest.take n = utf8Encode front ++ part' ∧ (part' = [] ∨ Utf8Incomplete part') ∧
      part' ++ (nextStream n rest).rest = utf8Encode back := by
  have hprefix : part ++ rest.take n <+: utf8Encode text := by
    refine ⟨rest.drop n, ?_⟩
    rw [List.append_assoc, List.take_append_drop, htext]
  rcases exists_characters_of_prefix hprefix with ⟨front, back, part', rfl, hblock, hpart'⟩
  refine ⟨front, back, part', rfl, hblock, hpart', ?_⟩
  rw [append_nextStream hblock, utf8Encode_append] at htext
  exact List.append_cancel_left htext

/-- A text is left: with what lies at the front of the buffer the rest of the file is counted
    completely. -/
theorem processLoop_text (iswspace : Nat → Bool) (hdecodes : DecodesUtf8 mbrtowc) {text : List Char}
    (hs : Carries s part) (hpart : part = [] ∨ Utf8Incomplete part)
    (htext : part ++ rest = utf8Encode text) (hnull : '\x00' ∉ text) (is : InputStream)
    (hrest : is.rest = rest) (hgood : rest ≠ [] → is.good = true) :
    ∃ s', Returns (fun fuel => processLoop mbrtowc iswspace fuel is s) s' ∧
      s'.progress = processText iswspace s.progress text := by
  -- The induction is on what is left of the file, as the blocks are not equally long: what was
  -- carried over takes room in the buffer.
  induction hn : rest.length using Nat.strongRecOn generalizing rest part text s is with
  | _ n ih =>
      rcases is with ⟨rest', good⟩
      subst hrest
      change rest'.length = n at hn
      have hlength := part_length_lt hpart
      by_cases hnil : rest' = []
      · subst hnil
        rw [List.append_nil] at htext
        rw [eq_nil_of_part hpart htext]
        exact ⟨s, processLoop_end hs hlength good, rfl⟩
      · have hgood' : good = true := hgood hnil
        subst hgood'
        rcases block_of_text (bufSize - part.length) htext with
          ⟨front, back, part', rfl, hblock, hpart', hleft⟩
        rw [List.mem_append, not_or] at hnull
        have hchars : ∀ c ∈ front, Decodes mbrtowc c := fun c hc =>
          hdecodes.decodes fun hsame => hnull.1 (hsame ▸ hc)
        -- The text has no null characters, so none is passed over.
        have hkept : front.filter (· ≠ '\x00') = front := by
          refine List.filter_eq_self.mpr fun c hc => decide_eq_true ?_
          exact fun hsame => hnull.1 (hsame ▸ hc)
        rcases processLoop_round iswspace hs hlength hnil hblock hchars
          (hdecodes.blockEnd hpart') with ⟨s₁, hcarries, hprogress, hloop⟩
        have hshorter := length_nextStream_lt hlength hnil
        rw [hn] at hshorter
        rcases ih _ hshorter hcarries hpart' hleft hnull.2 (nextStream _ rest') rfl
          nextStream_good rfl with ⟨s', hreturns, hcounted⟩
        refine ⟨s', hloop s' hreturns, ?_⟩
        rw [hcounted, hprogress, hkept, processText, processText, processText, List.foldl_append]

end Loop

/-- A decoder as the C library has one where text is UTF-8. -/
def utf8Mbrtowc : List UInt8 → Nat × Nat
  | [] => (incompleteSequence, 0)
  | a :: bytes =>
    if a = 0 then (0, 0)
    else
      match utf8Filling (a :: bytes) with
      | .whole =>
        let len := ((utf8Ranges a).getD []).length + 1
        (len, unitCodepoint ((a :: bytes).take len))
      | .short => (incompleteSequence, 0)
      | .broken => (encodingError, 0)

theorem encodeChar_head_ne {c : Char} {a : UInt8} {w : List UInt8} (hc : c ≠ '\x00')
    (hw : String.utf8EncodeChar c = a :: w) : a ≠ 0 := by
  rintro rfl
  rcases encodes_iff.mp ⟨c, hw⟩ with ⟨ranges, hranges, hfits⟩
  cases hranges
  cases hfits
  have hnumber := (unit_encodeChar c).2
  rw [hw] at hnumber
  exact hc (Char.toNat_inj.mp hnumber.symm)

theorem isUtf8Decoder_utf8Mbrtowc : IsUtf8Decoder utf8Mbrtowc where
  character c hc rest := by
    cases hw : String.utf8EncodeChar c with
    | nil => exact absurd hw String.utf8EncodeChar_ne_nil
    | cons a w =>
        rcases encodes_iff.mp ⟨c, hw⟩ with ⟨ranges, hranges, hfits⟩
        have hwhole := utf8Filling_append c rest
        have hnumber := (unit_encodeChar c).2
        rw [hw, List.cons_append] at hwhole
        rw [hw] at hnumber
        rw [List.cons_append, utf8Mbrtowc, if_neg (encodeChar_head_ne hc hw), hwhole]
        simp only [hranges, Option.getD_some, hfits.length_eq, List.length_cons,
          List.take_succ_cons, List.take_left, hnumber]
  incomplete w hw := by
    have hshort := utf8Filling_incomplete hw
    cases w with
    | nil => rfl
    | cons a bytes =>
        -- The null character is a whole one.
        have ha : a ≠ 0 := by
          rintro rfl
          cases hshort
        rw [utf8Mbrtowc, if_neg ha, hshort]
  null rest := rfl
  invalid w hw := by
    have hbroken := utf8Filling_invalid hw
    cases w with
    | nil => cases hbroken
    | cons a bytes =>
        have ha : a ≠ 0 := by
          rintro rfl
          cases hbroken
        rw [utf8Mbrtowc, if_neg ha, hbroken]

theorem carries_start (output : Output) : Carries (start output) [] :=
  ⟨List.nil_prefix, List.length_replicate, rfl⟩

/-- The last word of a text is counted behind the loops if the text ends inside it. -/
theorem countLastWord_processText (iswspace : Nat → Bool) {text : List Char} (hne : text ≠ []) :
    countLastWord iswspace (processText iswspace { output := {} } text) =
      { bytes := UInt64.ofNat (utf8Encode text).length
        lines := UInt64.ofNat (text.count '\n')
        words := UInt64.ofNat (words iswspace (text.map Char.toNat)).length
        chars := UInt64.ofNat text.length } := by
  cases hlast : text.getLast? with
  | none => exact absurd (List.getLast?_eq_none_iff.mp hlast) hne
  | some c =>
      have hinside : insideWord iswspace false (text.map Char.toNat) = !iswspace c.toNat := by
        rw [insideWord, List.getLast?_map, hlast]
        rfl
      rw [processText_eq, countLastWord, length_words, hinside, hlast]
      simp only [Option.map_some, Option.getD_some, UInt64.zero_add]
      cases hspace : iswspace c.toNat with
      | true => rfl
      | false =>
          rw [if_neg Bool.false_ne_true, UInt64.ofNat_add]
          rfl

/-- What is counted in a text, wherever the blocks end. -/
theorem processFile_text {mbrtowc : List UInt8 → Nat × Nat} (hdecodes : DecodesUtf8 mbrtowc)
    (iswspace : Nat → Bool) (text : List Char) (hne : text ≠ []) (hnull : '\x00' ∉ text) :
    Returns (fun fuel => processFile mbrtowc iswspace fuel
        (InputStream.ofFile (utf8Encode text)) {})
      { bytes := UInt64.ofNat (utf8Encode text).length
        lines := UInt64.ofNat (text.count '\n')
        words := UInt64.ofNat (words iswspace (text.map Char.toNat)).length
        chars := UInt64.ofNat text.length } := by
  rcases processLoop_text iswspace hdecodes (carries_start {}) (Or.inl rfl) rfl hnull
    (InputStream.ofFile (utf8Encode text)) rfl (fun _ => rfl) with ⟨s, hreturns, hprogress⟩
  refine hreturns.andThen ?_
  rw [hprogress]
  exact congrArg _ (countLastWord_processText iswspace hne)

/-- A line of two words. -/
theorem processFile_text_line :
    Returns (fun fuel => processFile utf8Mbrtowc (fun c => c == 32 || c == 10) fuel
        (InputStream.ofFile (utf8Encode ['é', ' ', 'a', '\n'])) {})
      { bytes := 5, lines := 1, words := 2, chars := 4 } :=
  processFile_text isUtf8Decoder_utf8Mbrtowc.toDecodesUtf8 (fun c => c == 32 || c == 10)
    ['é', ' ', 'a', '\n'] (by decide) (by decide)

end WordCount

end CodingChallenges
