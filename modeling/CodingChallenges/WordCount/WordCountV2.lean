import CodingChallenges.WordCount.Codepoints
import CodingChallenges.WordCount.Output

/-!
# The Second Version

`process_file` of `word_count_v2.cpp`, which has the whole file in memory.

Bytes and lines are counted directly. For the rest the decoder is asked for one code point
after the other. A word is counted when the white space behind it comes, and nothing is
done behind the last code point, so a word that ends with the file is not counted.

## Main definitions

* `V2.isWhiteSpace`, `V2.processFile`: The functions of the source.

## Theorems

* `V2.processFile_returns`, `V2.processFile_endless`: What is counted, and when the loop does not
  end.
* `V2.processFile_utf8Encode`: The characters of a text are counted.
* `V2.processFile_words_iff`: When the words are.
-/

namespace CodingChallenges

namespace WordCount

namespace V2

/-- The code points that count as whitespace. -/
def whiteSpaces : List Nat :=
  [9, 10, 11, 12, 13, 32, 133, 160, 5760, 8192, 8193, 8194, 8195, 8196, 8197, 8198, 8199, 8200,
    8201, 8202, 8232, 8233, 8239, 8287, 12288]

/-- The code point is in the list. -/
def isWhiteSpace (c : Nat) : Bool :=
  whiteSpaces.contains c

/-- The loop over the code points. -/
def processLoop : Nat → UTF8Decoder → Bool → Output → Except Fault Output
  | 0, _, _, _ => .error .outOfFuel
  | fuel + 1, decoder, isWordUnderProcess, output =>
    match getNextCodepoint decoder with
    -- A word that is under process here is not counted any more.
    | none => .ok output
    | some (utf32Codepoint, decoder') =>
      let s := processWord (isWhiteSpace utf32Codepoint) isWordUnderProcess output.words
      processLoop fuel decoder' s.1 { output with chars := output.chars + 1, words := s.2 }

/-- Bytes and lines are counted beforehand, the rest by decoding. -/
def processFile (fuel : Nat) (fileContents : List UInt8) (output : Output) :
    Except Fault Output :=
  processLoop fuel (UTF8Decoder.new fileContents) false
    { output with
      bytes := UInt64.ofNat fileContents.length
      lines := UInt64.ofNat (fileContents.count 10) }

/-- Every code point is counted, and the words that end are. -/
theorem processLoop_returns {decoder : UTF8Decoder} {codepoints : List Nat}
    (h : Yields decoder codepoints) (isWordUnderProcess : Bool) (output : Output) :
    Returns (fun fuel => processLoop fuel decoder isWordUnderProcess output)
      { output with
        chars := output.chars + UInt64.ofNat codepoints.length
        words := (processWords isWhiteSpace (isWordUnderProcess, output.words) codepoints).2 } := by
  -- The loop asks for the code points one after the other, and ends as they do.
  induction h generalizing isWordUnderProcess output with
  | @done d hnone =>
      refine Returns.succ (Returns.congr (returns_ok _) fun fuel => ?_)
      rw [processLoop, hnone]
      have hchars : output.chars + UInt64.ofNat ([] : List Nat).length = output.chars :=
        UInt64.add_zero _
      rw [hchars]
      rfl
  | @more d d' x codepoints hsome _ ih =>
      have hchars : output.chars + 1 + UInt64.ofNat codepoints.length =
          output.chars + UInt64.ofNat (x :: codepoints).length := by
        rw [List.length_cons, Nat.add_comm, UInt64.ofNat_add, ← UInt64.add_assoc]
        rfl
      have hrest := ih (processWord (isWhiteSpace x) isWordUnderProcess output.words).1
        { output with
          chars := output.chars + 1
          words := (processWord (isWhiteSpace x) isWordUnderProcess output.words).2 }
      simp only [hchars] at hrest
      refine Returns.succ (hrest.congr fun fuel => ?_)
      rw [processLoop, hsome]

/-- What is counted in a file. -/
theorem processFile_returns {input : List UInt8} {codepoints : List Nat}
    (h : Yields (UTF8Decoder.new input) codepoints) :
    Returns (fun fuel => processFile fuel input {})
      { bytes := UInt64.ofNat input.length
        lines := UInt64.ofNat (input.count 10)
        words := UInt64.ofNat (endedWords isWhiteSpace false codepoints)
        chars := UInt64.ofNat codepoints.length } := by
  have hloop := processLoop_returns h false
    { bytes := UInt64.ofNat input.length, lines := UInt64.ofNat (input.count 10) }
  rw [processWords_eq] at hloop
  simp only [UInt64.zero_add] at hloop
  exact hloop

/-- Behind an index that never comes to the end of the file the loop goes on. -/
theorem processLoop_endless {decoder : UTF8Decoder} (h : Endless decoder) (fuel : Nat)
    (isWordUnderProcess : Bool) (output : Output) :
    processLoop fuel decoder isWordUnderProcess output = .error .outOfFuel := by
  induction fuel generalizing decoder isWordUnderProcess output with
  | zero => rfl
  | succ fuel ih =>
      -- No round is the last one, whatever the fuel is.
      rcases h.decodeFrom 0 0 with ⟨x, d', hsome, hd'⟩
      rw [← getNextCodepoint] at hsome
      rw [processLoop, hsome]
      exact ih hd' _ _

theorem processFile_endless {input : List UInt8} (h : 2 ^ 32 ≤ input.length)
    (output output' : Output) : ¬ Returns (fun fuel => processFile fuel input output) output' := by
  rintro ⟨n, hn⟩
  have hloop := hn n (Nat.le_refl n)
  cases hloop.symm.trans (processLoop_endless (endless_new h) n _ _)

/-- A file is processed if the index of the decoder comes to its end. -/
theorem processFile_returns_iff (input : List UInt8) :
    (∃ output, Returns (fun fuel => processFile fuel input {}) output) ↔ input.length < 2 ^ 32 := by
  constructor
  · rintro ⟨output, h⟩
    by_contra hnot
    exact processFile_endless (by omega) _ _ h
  · intro h
    rcases exists_yields h 0 (Nat.zero_le _) with ⟨codepoints, hyields, -⟩
    exact ⟨_, processFile_returns hyields⟩

/-- A text is decoded to its characters, and they are counted. -/
theorem processFile_utf8Encode (text : List Char) (h : text.length < 2 ^ 30) :
    Yields (UTF8Decoder.new (utf8Encode text)) (text.map Char.toNat) ∧
      ∃ output, Returns (fun fuel => processFile fuel (utf8Encode text) {}) output ∧
        output.chars.toNat = text.length := by
  have hyields := yields_utf8Encode h
  refine ⟨hyields, _, processFile_returns hyields, ?_⟩
  rw [List.length_map, UInt64.toNat_ofNat']
  exact Nat.mod_eq_of_lt (by omega)

/-- A character of each length. -/
theorem processFile_utf8Encode_four :
    Yields (UTF8Decoder.new (utf8Encode ['a', 'é', '€', '😀'])) [0x61, 0xE9, 0x20AC, 0x1F600] ∧
      ∃ output, Returns (fun fuel => processFile fuel (utf8Encode ['a', 'é', '€', '😀']) {}) output ∧
        output.chars.toNat = 4 :=
  processFile_utf8Encode ['a', 'é', '€', '😀'] (by decide)

/-- The words that have ended are counted. -/
theorem words_toNat {input : List UInt8} {codepoints : List Nat} {output : Output}
    (hlength : input.length < 2 ^ 32) (hyields : Yields (UTF8Decoder.new input) codepoints)
    (h : Returns (fun fuel => processFile fuel input {}) output) :
    output.words.toNat = endedWords isWhiteSpace false codepoints := by
  rcases exists_yields hlength 0 (Nat.zero_le _) with ⟨codepoints', hyields', hcount⟩
  have hsame := hyields.unique hyields'
  subst hsame
  have hwords := endedWords_le isWhiteSpace false codepoints
  rw [h.unique (processFile_returns hyields), UInt64.toNat_ofNat']
  exact Nat.mod_eq_of_lt (by omega)

/-- Whatever the file is: the words are counted exactly if the index of the decoder comes to
    its end and the last code point, if there is one, is white space. -/
theorem processFile_words_iff (input : List UInt8) :
    (∃ codepoints output, Yields (UTF8Decoder.new input) codepoints ∧
        Returns (fun fuel => processFile fuel input {}) output ∧
        output.words.toNat = (words isWhiteSpace codepoints).length) ↔
      input.length < 2 ^ 32 ∧ ∀ codepoints, Yields (UTF8Decoder.new input) codepoints →
        ∀ x ∈ codepoints.getLast?, isWhiteSpace x = true := by
  constructor
  · rintro ⟨codepoints, output, hyields, hreturns, hwords⟩
    have hlength := (processFile_returns_iff input).mp ⟨output, hreturns⟩
    refine ⟨hlength, fun codepoints' hyields' => ?_⟩
    have hsame := hyields.unique hyields'
    subst hsame
    rw [words_toNat hlength hyields hreturns, length_words] at hwords
    -- A word that goes on at the end is the one that is missing.
    refine (insideWord_false codepoints).mp ?_
    cases hinside : insideWord isWhiteSpace false codepoints with
    | false => rfl
    | true =>
        rw [hinside, Bool.toNat_true] at hwords
        omega
  · rintro ⟨hlength, hlast⟩
    rcases exists_yields hlength 0 (Nat.zero_le _) with ⟨codepoints, hyields, -⟩
    have hreturns := processFile_returns hyields
    refine ⟨codepoints, _, hyields, hreturns, ?_⟩
    rw [words_toNat hlength hyields hreturns, length_words,
      (insideWord_false codepoints).mpr (hlast codepoints hyields), Bool.toNat_false, Nat.add_zero]

/-- A file that is one word. -/
theorem not_processFile_words :
    ¬ ∀ input, ∃ codepoints output, Yields (UTF8Decoder.new input) codepoints ∧
      Returns (fun fuel => processFile fuel input {}) output ∧
      output.words.toNat = (words isWhiteSpace codepoints).length := by
  intro h
  have hlength : (['a'] : List Char).length < 2 ^ 30 := by decide
  have hyields : Yields (UTF8Decoder.new [97]) [97] := yields_utf8Encode hlength
  rcases h [97] with ⟨codepoints, output, hyields', hreturns, hwords⟩
  have hsame := hyields'.unique hyields
  subst hsame
  rw [words_toNat (by decide) hyields hreturns] at hwords
  exact absurd hwords (by decide)

end V2

end WordCount

end CodingChallenges
