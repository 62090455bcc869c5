import CodingChallenges.Library.InputStream
import CodingChallenges.Library.Utf8Ranges
import CodingChallenges.WordCount.Output

/-!
# The First Version

`process_file` of `word_count.cpp`, which reads the file in blocks.

A block is decoded one character after the other. If it ends within a character, the bytes of
this character are moved to the front of the buffer, and the next block is read behind them.
The characters are decoded by the C library, and so is decided which of them are white space.

## Main definitions

* `processBlock`, `processLoop`, `processFile`: The loops of the source.
* `DecodesUtf8`, `IsUtf8Decoder`: What is known of the decoder.

## Theorems

* `processBlock_null`, `processBlock_character`, `processBlock_incomplete`,
  `processBlock_invalid`: One round for each result of the decoder.
* `processBlock_returns`: What becomes of a block.
-/

namespace CodingChallenges

namespace WordCount

/-- `static_cast<std::size_t>(-1)`, a failed conversion. -/
def encodingError : Nat := 2 ^ 64 - 1

/-- `static_cast<std::size_t>(-2)`, a conversion that needs more bytes. -/
def incompleteSequence : Nat := 2 ^ 64 - 2

/-- `BUF_SIZE`: how much the buffer holds. -/
def bufSize : Nat := 1024

/-- What is known of the file so far. -/
structure Progress where
  previousWideChar : Nat := 0
  isWordUnderProcess : Bool := false
  output : Output
deriving DecidableEq, Repr

/-- The variables of the loops. The pointer into the buffer is where the processed bytes end. -/
structure State where
  fileBuf : List UInt8
  remainingBytes : Nat
  bytesRead : Nat
  processedOffset : Nat
  progress : Progress
deriving DecidableEq, Repr

section Source

variable (mbrtowc : List UInt8 → Nat × Nat) (iswspace : Nat → Bool)

/-- A character is counted. -/
def processCharacter (len currentWideChar : Nat) (p : Progress) : Progress :=
  let word := processWord (iswspace currentWideChar) p.isWordUnderProcess p.output.words
  { previousWideChar := currentWideChar
    isWordUnderProcess := word.1
    output :=
      { bytes := p.output.bytes + UInt64.ofNat len
        lines := if currentWideChar = 10 then p.output.lines + 1 else p.output.lines
        words := word.2
        chars := p.output.chars + 1 } }

/-- The bytes that have been processed are behind. -/
def State.advance (len : Nat) (s : State) : State :=
  { s with bytesRead := s.bytesRead - len, processedOffset := s.processedOffset + len }

/-- A character has been processed. -/
def State.count (len currentWideChar : Nat) (s : State) : State :=
  { s.advance len with progress := processCharacter iswspace len currentWideChar s.progress }

/-- The bytes that are left go to the front of the buffer, and zeros behind them. -/
def State.carryOver (s : State) : State :=
  { s with
    remainingBytes := s.bytesRead
    fileBuf := s.fileBuf.drop s.processedOffset ++ List.replicate s.processedOffset 0 }

/-- The bytes that are left of a block. -/
def State.block (s : State) : List UInt8 :=
  (s.fileBuf.drop s.processedOffset).take s.bytesRead

/-- The inner loop. -/
def processBlock : Nat → State → Except Fault State
  | 0, _ => .error .outOfFuel
  | fuel + 1, s =>
    if s.bytesRead = 0 then .ok s
    else
      let (len, currentWideChar) := mbrtowc s.block
      -- A null character is ignored, in the bytes and the characters too.
      if len = 0 then processBlock fuel (s.advance 1)
      else if 1 ≤ len ∧ len ≤ s.bytesRead then
        processBlock fuel (s.count iswspace len currentWideChar)
      -- The bytes that are left of the block are dropped.
      else if len = encodingError then .ok s
      -- The bytes that are left belong to a character that the next block ends.
      else if len = incompleteSequence then .ok s.carryOver
      -- The decoder returns no other length, so the loop never comes here.
      else processBlock fuel s

/-- The bytes read lie in the buffer behind those that remained. -/
def State.fill (data : List UInt8) (s : State) : State :=
  { s with
    fileBuf := s.fileBuf.take s.remainingBytes ++ data ++
      s.fileBuf.drop (s.remainingBytes + data.length)
    bytesRead := data.length + s.remainingBytes
    processedOffset := 0
    remainingBytes := 0 }

/-- The outer loop. -/
def processLoop : Nat → InputStream → State → Except Fault State
  | 0, _, _ => .error .outOfFuel
  | fuel + 1, is, s =>
    let (data, is') := is.read (bufSize - s.remainingBytes)
    -- At the end of the file `read` fails, but what it has read before is still processed.
    if is'.good = true ∨ data.length ≠ 0 then
      processBlock mbrtowc iswspace fuel (s.fill data) >>= processLoop fuel is'
    else .ok s

/-- The last word is counted behind the loops. -/
def countLastWord (p : Progress) : Output :=
  -- Before the first character this is the null character, which is no white space.
  if iswspace p.previousWideChar then p.output
  else { p.output with words := p.output.words + 1 }

/-- The buffer before the first block. -/
def start (output : Output) : State where
  fileBuf := List.replicate bufSize 0
  remainingBytes := 0
  bytesRead := 0
  processedOffset := 0
  progress := { output := output }

/-- A word may end with the file. -/
def processFile (fuel : Nat) (is : InputStream) (output : Output) : Except Fault Output :=
  processLoop mbrtowc iswspace fuel is (start output) >>= fun s =>
    .ok (countLastWord iswspace s.progress)

end Source

/-- The decoder finds the character that a text begins with, and knows the beginnings of
    one. -/
structure DecodesUtf8 (mbrtowc : List UInt8 → Nat × Nat) : Prop where
  character : ∀ c : Char, c ≠ '\x00' → ∀ rest,
    mbrtowc (String.utf8EncodeChar c ++ rest) = ((String.utf8EncodeChar c).length, c.toNat)
  incomplete : ∀ w, Utf8Incomplete w → (mbrtowc w).1 = incompleteSequence

/-- It also tells the null character and what is not UTF-8. -/
structure IsUtf8Decoder (mbrtowc : List UInt8 → Nat × Nat) : Prop extends DecodesUtf8 mbrtowc where
  null : ∀ rest, (mbrtowc (0 :: rest)).1 = 0
  invalid : ∀ w, Utf8Invalid w → (mbrtowc w).1 = encodingError

/-- The characters of a text are counted. -/
def processText (iswspace : Nat → Bool) (p : Progress) (text : List Char) : Progress :=
  text.foldl (fun p c => processCharacter iswspace (String.utf8EncodeChar c).length c.toNat p) p

/-- The bytes that lie in the buffer and are still to be processed. -/
def Holds (s : State) (data : List UInt8) : Prop :=
  ∃ before after, s.fileBuf = before ++ data ++ after ∧ s.fileBuf.length = bufSize ∧
    s.processedOffset = before.length ∧ s.bytesRead = data.length

/-- The bytes that the next block is read behind. -/
def Carries (s : State) (part : List UInt8) : Prop :=
  part <+: s.fileBuf ∧ s.fileBuf.length = bufSize ∧ s.remainingBytes = part.length

namespace Holds

variable {s : State} {data w : List UInt8}

theorem block (h : Holds s data) : s.block = data := by
  rcases h with ⟨before, after, hbuf, -, hoffset, hread⟩
  rw [State.block, hbuf, hoffset, hread, List.append_assoc, List.drop_left, List.take_left]

theorem length_le (h : Holds s data) : s.bytesRead ≤ bufSize := by
  rcases h with ⟨before, after, hbuf, hlength, -, hread⟩
  rw [hbuf, List.length_append, List.length_append] at hlength
  omega

theorem advance (h : Holds s (w ++ data)) : Holds (s.advance w.length) data := by
  rcases h with ⟨before, after, hbuf, hlength, hoffset, hread⟩
  refine ⟨before ++ w, after, ?_, hlength, ?_, ?_⟩
  · rw [State.advance, hbuf, List.append_assoc before w, List.append_assoc before]
  · rw [State.advance, hoffset, List.length_append]
  · rw [State.advance, hread, List.length_append, Nat.add_sub_cancel_left]

theorem count (h : Holds s (w ++ data)) (iswspace : Nat → Bool) (c : Nat) :
    Holds (s.count iswspace w.length c) data :=
  h.advance

theorem carryOver (h : Holds s data) : Carries s.carryOver data := by
  rcases h with ⟨before, after, hbuf, hlength, hoffset, hread⟩
  have hmoved : s.carryOver.fileBuf = data ++ (after ++ List.replicate before.length 0) := by
    rw [State.carryOver, hbuf, hoffset, List.append_assoc before, List.drop_left, List.append_assoc]
  refine ⟨?_, ?_, hread⟩
  · rw [hmoved]
    exact List.prefix_append _ _
  · rw [hbuf, List.length_append, List.length_append] at hlength
    rw [hmoved, List.length_append, List.length_append, List.length_replicate]
    omega

end Holds

theorem Carries.fill {s : State} {part data : List UInt8} (h : Carries s part)
    (hfits : part.length + data.length ≤ bufSize) : Holds (s.fill data) (part ++ data) := by
  rcases h with ⟨⟨after, hbuf⟩, hlength, hremaining⟩
  have hfilled : (s.fill data).fileBuf = part ++ data ++ after.drop data.length := by
    rw [State.fill, hremaining, ← hbuf, List.take_left, ← List.drop_drop, List.drop_left]
  refine ⟨[], after.drop data.length, hfilled, ?_, rfl, ?_⟩
  · rw [← hbuf, List.length_append] at hlength
    rw [hfilled, List.length_append, List.length_append, List.length_drop]
    omega
  · rw [State.fill, hremaining, List.length_append, Nat.add_comm]

/-- The decoder finds the character that a text begins with. It does not say how long the null
    character is. -/
def Decodes (mbrtowc : List UInt8 → Nat × Nat) (c : Char) : Prop :=
  ∀ rest, if c = '\x00' then (mbrtowc (String.utf8EncodeChar c ++ rest)).1 = 0
    else mbrtowc (String.utf8EncodeChar c ++ rest) = ((String.utf8EncodeChar c).length, c.toNat)

/-- How a block ends behind its characters, and what of it is carried over. -/
inductive BlockEnd (mbrtowc : List UInt8 → Nat × Nat) : List UInt8 → List UInt8 → Prop
  | behind : BlockEnd mbrtowc [] []
  | within {rest : List UInt8} :
      rest ≠ [] → (mbrtowc rest).1 = incompleteSequence → BlockEnd mbrtowc rest rest
  | invalid {rest : List UInt8} :
      rest ≠ [] → (mbrtowc rest).1 = encodingError → BlockEnd mbrtowc rest []

section Block

variable {mbrtowc : List UInt8 → Nat × Nat} {iswspace : Nat → Bool} {s : State}
  {data rest : List UInt8}

theorem processBlock_behind (hs : Holds s []) (fuel : Nat) :
    processBlock mbrtowc iswspace (fuel + 1) s = .ok s := by
  rcases hs with ⟨before, after, -, -, -, hread⟩
  exact if_pos hread

theorem Holds.ne_zero (hs : Holds s data) (hdata : data ≠ []) : s.bytesRead ≠ 0 := by
  rcases hs with ⟨before, after, -, -, -, hread⟩
  have hpos := List.length_pos_iff.mpr hdata
  omega

/-- A null character is passed over. -/
theorem processBlock_null (hs : Holds s data) (hdata : data ≠ []) (hlen : (mbrtowc data).1 = 0)
    (fuel : Nat) :
    processBlock mbrtowc iswspace (fuel + 1) s =
      processBlock mbrtowc iswspace fuel (s.advance 1) := by
  rw [processBlock, if_neg (hs.ne_zero hdata), hs.block]
  simp only
  rw [if_pos hlen]

/-- A character is counted. -/
theorem processBlock_character {w : List UInt8} {c : Nat} (hs : Holds s (w ++ data)) (hw : w ≠ [])
    (hchar : mbrtowc (w ++ data) = (w.length, c)) (fuel : Nat) :
    processBlock mbrtowc iswspace (fuel + 1) s =
      processBlock mbrtowc iswspace fuel (s.count iswspace w.length c) := by
  have hpos := List.length_pos_iff.mpr hw
  have hread : w.length ≤ s.bytesRead := by
    rcases hs with ⟨before, after, -, -, -, hread⟩
    rw [hread, List.length_append]
    exact Nat.le_add_right _ _
  rw [processBlock, if_neg (by omega), hs.block, hchar]
  simp only
  rw [if_neg (by omega), if_pos ⟨hpos, hread⟩]

/-- The two results of the decoder that are no lengths end the block. -/
theorem processBlock_incomplete (hs : Holds s data) (hdata : data ≠ [])
    (hlen : (mbrtowc data).1 = incompleteSequence) (fuel : Nat) :
    processBlock mbrtowc iswspace (fuel + 1) s = .ok s.carryOver := by
  have hle := hs.length_le
  -- As a length the result would be larger than the buffer.
  have hbig : ¬ (1 ≤ incompleteSequence ∧ incompleteSequence ≤ s.bytesRead) := by
    unfold incompleteSequence
    unfold bufSize at hle
    omega
  rw [processBlock, if_neg (hs.ne_zero hdata), hs.block]
  simp only
  rw [hlen, if_neg (by decide), if_neg hbig, if_neg (by decide), if_pos rfl]

theorem processBlock_invalid (hs : Holds s data) (hdata : data ≠ [])
    (hlen : (mbrtowc data).1 = encodingError) (fuel : Nat) :
    processBlock mbrtowc iswspace (fuel + 1) s = .ok s := by
  have hle := hs.length_le
  have hbig : ¬ (1 ≤ encodingError ∧ encodingError ≤ s.bytesRead) := by
    unfold encodingError
    unfold bufSize at hle
    omega
  rw [processBlock, if_neg (hs.ne_zero hdata), hs.block]
  simp only
  rw [hlen, if_neg (by decide), if_neg hbig, if_pos rfl]

/-- A state that carries nothing. -/
theorem Holds.carries_nil (hs : Holds s data) (hremaining : s.remainingBytes = 0) :
    Carries s [] := by
  rcases hs with ⟨before, after, -, hlength, -, -⟩
  exact ⟨List.nil_prefix, hlength, hremaining⟩

theorem encodeChar_null : String.utf8EncodeChar '\x00' = [0] := by
  decide

/-- The characters of a block are counted, but for the null characters, and what is left behind
    them is carried over unless it is no UTF-8. -/
theorem processBlock_returns (iswspace : Nat → Bool) {chars : List Char} {part : List UInt8}
    (hchars : ∀ c ∈ chars, Decodes mbrtowc c) (hend : BlockEnd mbrtowc rest part)
    (hs : Holds s (utf8Encode chars ++ rest)) (hremaining : s.remainingBytes = 0) :
    ∃ s', Returns (fun fuel => processBlock mbrtowc iswspace fuel s) s' ∧ Carries s' part ∧
      s'.progress = processText iswspace s.progress (chars.filter (· ≠ '\x00')) := by
  -- Each round takes one character, and none of the rounds changes what remained.
  induction chars generalizing s with
  | nil =>
      rw [utf8Encode, List.flatMap_nil, List.nil_append] at hs
      cases hend with
      | behind =>
          refine ⟨s, Returns.succ ((returns_ok s).congr (processBlock_behind hs)), ?_, rfl⟩
          exact hs.carries_nil hremaining
      | within hne hlen =>
          refine ⟨s.carryOver, Returns.succ ((returns_ok _).congr ?_), hs.carryOver, rfl⟩
          exact processBlock_incomplete hs hne hlen
      | invalid hne hlen =>
          refine ⟨s, Returns.succ ((returns_ok s).congr ?_), hs.carries_nil hremaining, rfl⟩
          exact processBlock_invalid hs hne hlen
  | cons c chars ih =>
      rw [List.forall_mem_cons] at hchars
      rw [utf8Encode_cons, List.append_assoc] at hs
      have hround := hchars.1 (utf8Encode chars ++ rest)
      by_cases hnull : c = '\x00'
      · subst hnull
        rw [if_pos rfl] at hround
        rcases ih hchars.2 hs.advance hremaining with ⟨s', hreturns, hcarries, hprogress⟩
        refine ⟨s', Returns.succ (hreturns.congr fun fuel => ?_), hcarries, ?_⟩
        · rw [encodeChar_null] at hs hround ⊢
          exact processBlock_null hs (List.cons_ne_nil _ _) hround fuel
        · rw [List.filter_cons_of_neg (by decide)]
          exact hprogress
      · rw [if_neg hnull] at hround
        rcases ih hchars.2 (hs.count iswspace c.toNat) hremaining with
          ⟨s', hreturns, hcarries, hprogress⟩
        refine ⟨s', Returns.succ (hreturns.congr fun fuel => ?_), hcarries, ?_⟩
        · exact processBlock_character hs String.utf8EncodeChar_ne_nil hround fuel
        · rw [List.filter_cons_of_pos (by exact decide_eq_true hnull)]
          exact hprogress

end Block

end WordCount

end CodingChallenges
