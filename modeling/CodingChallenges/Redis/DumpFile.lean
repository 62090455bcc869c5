import CodingChallenges.Redis.RdbManager

/-!
# Loading What Was Saved

A dictionary of strings and lists of strings is loaded as it was saved, except
that every string is a bulk string afterwards.

The file has no marks between its parts: each part is found only because
everything in front of it was read to its last byte and no further. So a part is
read back by its reader whatever follows it, and parts that are read back one
after the other are read back together.

The one part that is not always read back is a length. Its second byte is read
into a signed `char`, so some lengths come back larger than they were
(`readLength_writeLength_iff`), and lengths of five bytes and more are not written
at all. What is proved here is about dictionaries with lengths that do come back.

## Main definitions

* `Part`: A part of the file is read to its end, whatever follows.
* `LengthReadBack`: A length comes back as it was written.
* `lengthReadAs`: What a length comes back as.
* `writtenLengths`: The lengths that are written of a dictionary.
* `RespType.asBulk`, `loadedEntry`: What becomes of a value and of an entry.

## Theorems

* `Part.bind`: Parts that are read one after the other.
* `readLength_writeLength_iff`: The lengths that come back.
* `part_readLength`: The length of a part.
* `part_loadEntry`, `part_loadEntries`: The entries.
* `load_saveSnapshot`: The whole file.
-/

namespace CodingChallenges

namespace Redis

/-- A part of the file from which the reader takes a value, and after which it leaves
    the file at whatever follows. -/
def Part {α : Type} (reader : Load α) (part : List Byte) (a : α) : Prop :=
  ∀ rest, reader ⟨part ++ rest, true⟩ = .ok (a, ⟨rest, true⟩)

/-- The length comes back as it was written. -/
def LengthReadBack (length : Nat) : Prop :=
  ∃ ifile, readLength (.ofFile (writeLength length)) = .ok (length, ifile)

/-- How many bytes an element of a list has. Only strings are written. -/
def RespType.stringLength : RespType → Nat
  | .string s => s.str.length
  | _ => 0

/-- The lengths that are written of an entry. -/
def entryLengths (key : Key) (entry : DictionaryValue RespType) : List Nat :=
  key.length :: match entry.value with
    | .string s => [s.str.length]
    | .array list => list.length :: list.map RespType.stringLength
    | _ => []

/-- The lengths that are written of a dictionary. -/
def writtenLengths (snapshot : DictionarySnapshot RespType) : List Nat :=
  snapshot.length :: snapshot.flatMap fun x => entryLengths x.1 x.2

/-- A string as a bulk string. -/
def RespType.asBulkString : RespType → RespType
  | .string s => .string { s with isBulk := true }
  | v => v

/-- A value with its strings as bulk strings. -/
def RespType.asBulk : RespType → RespType
  | .array list => .array (list.map RespType.asBulkString)
  | v => v.asBulkString

/-- What is loaded of an entry. -/
def loadedEntry (x : Key × DictionaryValue RespType) : Key × DictionaryValue RespType :=
  (x.1, { x.2 with value := x.2.value.asBulk })

variable {α β : Type}

namespace Part

theorem pure (a : α) : Part (Pure.pure a : Load α) [] a :=
  fun _ => rfl

theorem bind {reader : Load α} {k : α → Load β} {first v : List Byte} {a : α} {b : β}
    (hfirst : Part reader first a) (hsecond : Part (k a) v b) :
    Part (reader >>= k) (first ++ v) b := by
  intro rest
  have hrun : (reader >>= k) ⟨first ++ v ++ rest, true⟩ =
      (reader ⟨first ++ v ++ rest, true⟩ >>= fun x => k x.1 x.2) := rfl
  rw [hrun, List.append_assoc, hfirst, ok_bind]
  exact hsecond rest

/-- What is computed from what was read costs nothing of the file. -/
theorem map {reader : Load α} {part : List Byte} {a : α} (f : α → β) (h : Part reader part a) :
    Part (reader >>= fun x => Pure.pure (f x)) part (f a) := by
  have hboth := h.bind (k := fun x => Pure.pure (f x)) (pure (f a))
  rw [List.append_nil] at hboth
  exact hboth

end Part

theorem part_getFresh (c : Byte) : Part getFresh [c] c :=
  fun _ => rfl

theorem part_getByte (c : Byte) : Part getByte [c] (some c) :=
  fun _ => rfl

theorem part_readBlock (block : List Byte) : Part (readBlock block.length) block block := by
  intro rest
  exact congrArg Except.ok (InputStream.readZeroed_append rfl)

section Lengths

/-- What a length is read as. The second byte of a length of two bytes is taken for a
    signed `char`, and the sign is carried on into the bits above it. -/
def lengthReadAs (length : Nat) : Nat :=
  if 64 ≤ length ∧ length ≤ 16383 ∧ 128 ≤ length % 256 then length + 0xFF00 else length

/-- The bits in front of a length of one byte, and the length behind them. -/
theorem shortLength_bits : ∀ length < 64,
    (UInt8.ofNat (length &&& 0b00111111)) >>> 6 = 0 ∧
      (UInt8.ofNat (length &&& 0b00111111) &&& 0b00111111).toNat = length := by
  decide

/-- The bits in front of a length of two bytes, and the upper bits of the length
    behind them. -/
theorem mediumLength_bits : ∀ high < 64,
    ((0b01000000 : Byte) ||| UInt8.ofNat high) >>> 6 = 1 ∧
      (((0b01000000 : Byte) ||| UInt8.ofNat high) &&& 0b00111111).toNat = high := by
  decide

/-- A byte as a `std::uint16_t`, with its sign. -/
theorem toUInt16_ofNat : ∀ low < 256,
    toUInt16 (UInt8.ofNat low) = if 128 ≤ low then low + 0xFF00 else low := by
  decide +kernel

variable {length : Nat}

theorem part_shortLength (h : length ≤ 63) : Part readLength (writeLength length) length := by
  rcases shortLength_bits length (by omega) with ⟨hbits, hvalue⟩
  rw [writeLength, if_pos h]
  refine (part_getFresh _).bind (v := []) ?_
  rw [if_pos hbits, hvalue]
  exact Part.pure length

/-- A length of two bytes comes back with the sign of its second byte. -/
theorem part_mediumLength (hlow : 64 ≤ length) (hhigh : length ≤ 16383) :
    Part readLength (writeLength length) (lengthReadAs length) := by
  have hupper : (length >>> 8) &&& 0b00111111 = length / 256 := by
    have hmod : (length >>> 8) &&& 0b00111111 = (length >>> 8) % 2 ^ 6 :=
      Nat.and_two_pow_sub_one_eq_mod _ 6
    rw [hmod, Nat.shiftRight_eq_div_pow]
    omega
  have hlower : length &&& 0xff = length % 256 := Nat.and_two_pow_sub_one_eq_mod _ 8
  rcases mediumLength_bits (length / 256) (by omega) with ⟨hbits, hvalue⟩
  have hone : ¬ ((0b01000000 : Byte) ||| UInt8.ofNat (length / 256)) >>> 6 = 0 := by
    rw [hbits]
    decide
  have hread : toUInt16 (UInt8.ofNat (length % 256)) +
      (((0b01000000 : Byte) ||| UInt8.ofNat (length / 256)) &&& 0b00111111).toNat <<< 8 =
        lengthReadAs length := by
    rw [hvalue, toUInt16_ofNat (length % 256) (by omega), Nat.shiftLeft_eq]
    unfold lengthReadAs
    split <;> split <;> omega
  rw [writeLength, if_neg (by omega), if_pos hhigh, hupper, hlower]
  refine (part_getFresh _).bind (v := [UInt8.ofNat (length % 256)]) ?_
  rw [if_neg hone, if_pos hbits, ← hread]
  exact (part_getFresh _).map fun secondByte => toUInt16 secondByte +
    (((0b01000000 : Byte) ||| UInt8.ofNat (length / 256)) &&& 0b00111111).toNat <<< 8

theorem part_longLength (hlow : 16383 < length) (hhigh : length ≤ 0xFFFFFFFF) :
    Part readLength (writeLength length) length := by
  rw [writeLength, if_neg (by omega), if_neg (by omega), if_pos hhigh]
  have hlength : (LittleEndian.encode 4 length).length = 4 := LittleEndian.length_encode 4 length
  have hblock := part_readBlock (LittleEndian.encode 4 length)
  rw [hlength] at hblock
  have hvalue : LittleEndian.decode (LittleEndian.encode 4 length) = length :=
    LittleEndian.decode_encode_of_lt (by omega)
  refine (part_getFresh 0b10000000).bind ?_
  rw [if_neg (by decide), if_neg (by decide), if_pos (by decide)]
  have hmap := hblock.map LittleEndian.decode
  rw [hvalue] at hmap
  exact hmap

/-- What is written of a length is read to its end. -/
theorem part_writeLength (h : length ≤ 0xFFFFFFFF) :
    Part readLength (writeLength length) (lengthReadAs length) := by
  by_cases hshort : length ≤ 63
  · have hsame : lengthReadAs length = length := if_neg (by omega)
    rw [hsame]
    exact part_shortLength hshort
  · by_cases hmedium : length ≤ 16383
    · exact part_mediumLength (by omega) hmedium
    · have hsame : lengthReadAs length = length := if_neg (by omega)
      rw [hsame]
      exact part_longLength (by omega) h

/-- A length of one byte comes back. -/
theorem lengthReadBack_of_le (h : length ≤ 63) : LengthReadBack length := by
  have hpart := part_shortLength h []
  rw [List.append_nil] at hpart
  exact ⟨_, hpart⟩

/-- A length that comes back is read to the end of what was written of it. -/
theorem part_readLength (h : LengthReadBack length) :
    Part readLength (writeLength length) length := by
  rcases h with ⟨ifile, hread⟩
  by_cases hwritten : length ≤ 0xFFFFFFFF
  · have hpart := part_writeLength hwritten
    -- What came back when nothing followed comes back always.
    have hsame : readLength (.ofFile (writeLength length)) =
        .ok (lengthReadAs length, ⟨[], true⟩) := by
      have hnil := hpart []
      rwa [List.append_nil] at hnil
    rw [hread, Except.ok.injEq, Prod.mk.injEq] at hsame
    rwa [← hsame.1] at hpart
  · -- Nothing is written, and nothing can be read.
    rw [writeLength, if_neg (by omega), if_neg (by omega), if_neg hwritten] at hread
    cases hread

/-- A length comes back, and nothing but the length is read, exactly if it has not two
    bytes of which the second is negative as a `char`. -/
theorem readLength_writeLength_iff (length : Nat) (h : length ≤ 0xFFFFFFFF) :
    Part readLength (writeLength length) length ↔
      (64 ≤ length → length ≤ 16383 → length % 256 < 128) := by
  have hpart := part_writeLength h
  constructor
  · intro hback hlow hhigh
    have hsame := (hback []).symm.trans (hpart [])
    rw [Except.ok.injEq, Prod.mk.injEq] at hsame
    unfold lengthReadAs at hsame
    by_contra hsign
    rw [if_pos ⟨hlow, hhigh, Nat.le_of_not_lt hsign⟩] at hsame
    omega
  · intro hsign
    have hsame : lengthReadAs length = length := by
      refine if_neg ?_
      rintro ⟨hlow, hhigh, hneg⟩
      exact absurd (hsign hlow hhigh) (Nat.not_lt_of_le hneg)
    rwa [hsame] at hpart

/-- The largest length of two bytes with a second byte that is not negative. -/
theorem readLength_writeLength_medium : Part readLength (writeLength 16255) 16255 :=
  (readLength_writeLength_iff 16255 (by decide)).mpr fun _ _ => by decide

/-- A length of 128 is read as 65408. -/
theorem not_readLength_writeLength :
    ¬ ∀ length ≤ 0xFFFFFFFF, Part readLength (writeLength length) length := by
  intro hall
  have hback := hall 128 (by decide) []
  have hread : readLength ⟨writeLength 128 ++ [], true⟩ = .ok (65408, ⟨[], true⟩) := by decide
  rw [hread, Except.ok.injEq, Prod.mk.injEq] at hback
  exact absurd hback.1 (by decide)

end Lengths

theorem part_loadString {str : List Byte} (h : LengthReadBack str.length) :
    Part loadString (saveString str) str :=
  (part_readLength h).bind (part_readBlock str)

/-- The elements of a list come back, as bulk strings. -/
theorem part_loadElements {list : RespArray} (hstrings : ∀ v ∈ list, v.IsString)
    (hlengths : ∀ v ∈ list, LengthReadBack v.stringLength) :
    ∃ part, saveElements list = some part ∧
      Part (loadElements list.length) part (list.map RespType.asBulkString) := by
  induction list with
  | nil => exact ⟨[], rfl, Part.pure []⟩
  | cons v rest ih =>
      rw [List.forall_mem_cons] at hstrings hlengths
      rcases RespType.isString_iff.mp hstrings.1 with ⟨s, rfl⟩
      rcases ih hstrings.2 hlengths.2 with ⟨part, hsave, hpart⟩
      refine ⟨saveString s.str ++ part, by rw [saveElements, hsave, Option.map_some], ?_⟩
      exact (part_loadString hlengths.1).bind (hpart.map fun rest => .string ⟨s.str, true⟩ :: rest)

/-- The expiry comes back, together with the byte behind it. -/
theorem part_loadExpiry (expiry : Option UInt64) {valueType : Byte} (h : valueType ≠ 0xFC) :
    Part loadExpiry (saveExpiry expiry ++ [valueType]) (expiry, valueType) := by
  cases expiry with
  | none =>
      refine (part_getFresh valueType).bind (v := []) ?_
      rw [if_neg h]
      exact Part.pure (none, valueType)
  | some expiryMillis =>
      have hlength : (LittleEndian.encode 8 expiryMillis.toNat).length = 8 :=
        LittleEndian.length_encode 8 expiryMillis.toNat
      have hblock := part_readBlock (LittleEndian.encode 8 expiryMillis.toNat)
      rw [hlength] at hblock
      have hvalue : LittleEndian.decode (LittleEndian.encode 8 expiryMillis.toNat) =
          expiryMillis.toNat :=
        LittleEndian.decode_encode_of_lt expiryMillis.toNat_lt
      refine (part_getFresh 0xFC).bind ?_
      rw [if_pos rfl]
      refine hblock.bind ?_
      have hmap := (part_getByte valueType).map fun valueType' =>
        (some (UInt64.ofNat (LittleEndian.decode (LittleEndian.encode 8 expiryMillis.toNat))),
          valueType'.getD 0xFC)
      rw [hvalue, UInt64.ofNat_toNat] at hmap
      rw [hvalue, UInt64.ofNat_toNat]
      exact hmap

/-- An entry comes back. -/
theorem part_loadEntry {key : Key} {entry : DictionaryValue RespType}
    (hvalue : entry.value.Serialisable)
    (hlengths : ∀ length ∈ entryLengths key entry, LengthReadBack length) :
    ∃ part, saveEntry key entry = some part ∧
      Part loadEntry part (loadedEntry (key, entry)) := by
  rcases entry with ⟨value, expiry⟩
  cases value with
  -- The parts stand one behind the other, and each is read back from where it begins.
  | string s =>
      rw [entryLengths, List.forall_mem_cons, List.forall_mem_singleton] at hlengths
      refine ⟨saveExpiry expiry ++ [0x00] ++ (saveString key ++ saveString s.str), ?_, ?_⟩
      · have hsave : saveEntry key ⟨.string s, expiry⟩ =
            some (saveExpiry expiry ++ (0x00 :: saveString key) ++ saveString s.str) := rfl
        rw [hsave]
        congr 1
        simp only [List.append_assoc, List.cons_append, List.nil_append]
      refine (part_loadExpiry expiry (by decide)).bind ?_
      dsimp only
      rw [if_pos rfl]
      refine (part_loadString hlengths.1).bind ?_
      exact (part_loadString hlengths.2).map fun str =>
        ((key, ⟨.string ⟨str, true⟩, expiry⟩) : Key × DictionaryValue RespType)
  | array list =>
      rw [entryLengths, List.forall_mem_cons, List.forall_mem_cons, List.forall_mem_map] at hlengths
      rcases part_loadElements hvalue hlengths.2.2 with ⟨elements, hsave, helements⟩
      refine ⟨saveExpiry expiry ++ [0x01] ++
          (saveString key ++ (writeLength list.length ++ elements)),
        ?_, ?_⟩
      · rw [saveEntry_array, hsave, Option.map_some]
        congr 1
        simp only [List.append_assoc, List.cons_append, List.nil_append]
      refine (part_loadExpiry expiry (by decide)).bind ?_
      dsimp only
      rw [if_neg (by decide), if_pos rfl]
      refine (part_loadString hlengths.1).bind ?_
      refine (part_readLength hlengths.2.1).bind ?_
      exact helements.map fun values =>
        ((key, ⟨.array values, expiry⟩) : Key × DictionaryValue RespType)
  | _ => cases hvalue

/-- All entries come back, in the same order. -/
theorem part_loadEntries {snapshot : DictionarySnapshot RespType}
    (hvalues : ∀ x ∈ snapshot, x.2.value.Serialisable)
    (hlengths : ∀ x ∈ snapshot, ∀ length ∈ entryLengths x.1 x.2, LengthReadBack length) :
    ∃ part, saveEntries snapshot = some part ∧
      Part (loadEntries snapshot.length) part (snapshot.map loadedEntry) := by
  induction snapshot with
  | nil => exact ⟨[], rfl, Part.pure []⟩
  | cons x rest ih =>
      rw [List.forall_mem_cons] at hvalues hlengths
      rcases part_loadEntry hvalues.1 hlengths.1 with ⟨record, hrecord, hentry⟩
      rcases ih hvalues.2 hlengths.2 with ⟨records, hrecords, hentries⟩
      refine ⟨record ++ records, ?_, ?_⟩
      · rw [saveEntries_cons, hrecord, Option.bind_some, hrecords, Option.map_some]
      · exact hentry.bind (hentries.map fun rest => loadedEntry x :: rest)

/-- The part of the header that is skipped is the part in front of the lengths. -/
theorem drop_saveHeader (dictSize : Nat) (rest : List Byte) :
    (saveHeader dictSize ++ rest).drop headerLength =
      writeLength dictSize ++ (writeLength dictSize ++ rest) := by
  have hlength : (bytes "REDIS0005" ++ [0xFA, 0x07] ++ bytes "VERSION" ++
      [0x01, byte '3', 0xFE, 0x00, 0xFB]).length = headerLength := by simp [headerLength]
  unfold saveHeader
  generalize bytes "REDIS0005" ++ [0xFA, 0x07] ++ bytes "VERSION" ++
    [0x01, byte '3', 0xFE, 0x00, 0xFB] = skipped at *
  rw [List.append_assoc, List.append_assoc]
  exact List.drop_left' hlength

/-- Loading the file that was saved of a dictionary of strings and lists of strings
    gives its entries, in the same order and with the same expiries, if all lengths
    in the file come back. All strings are bulk strings then. -/
theorem load_saveSnapshot (snapshot : DictionarySnapshot RespType)
    (hvalues : ∀ x ∈ snapshot, x.2.value.Serialisable)
    (hlengths : ∀ length ∈ writtenLengths snapshot, LengthReadBack length) :
    ∃ file, saveSnapshot snapshot = some file ∧
      load (some file) = .ok (snapshot.map loadedEntry) := by
  rw [writtenLengths, List.forall_mem_cons] at hlengths
  have hentryLengths : ∀ x ∈ snapshot, ∀ length ∈ entryLengths x.1 x.2, LengthReadBack length :=
    fun x hx length hlength => hlengths.2 length (List.mem_flatMap.mpr ⟨x, hx, hlength⟩)
  rcases part_loadEntries hvalues hentryLengths with ⟨records, hrecords, hentries⟩
  refine ⟨saveHeader snapshot.length ++ records ++ saveTrailer, ?_, ?_⟩
  · rw [saveSnapshot, hrecords, Option.map_some]
  have hsize := part_readLength hlengths.1
  -- The two sizes, the entries, and the byte that ends them.
  have hload : Part loadSnapshot
      (writeLength snapshot.length ++ (writeLength snapshot.length ++ (records ++ [0xFF])))
      (snapshot.map loadedEntry) := by
    unfold loadSnapshot
    refine hsize.bind ?_
    refine hsize.bind ?_
    refine hentries.bind ?_
    exact (part_getByte 0xFF).map fun _ => snapshot.map loadedEntry
  have hrun := hload (LittleEndian.encode 8 0)
  rw [load, InputStream.ofFile, List.append_assoc, drop_saveHeader]
  simp only [List.append_assoc, List.cons_append, List.nil_append] at hrun
  rw [saveTrailer, hrun, map_ok]

/-- A string that expires and a list, both with the bytes in them that the file uses to
    tell its parts. -/
theorem load_saveSnapshot_tags :
    ∃ file, saveSnapshot [(bytes "k", ⟨.string ⟨[0xFC, 0x01, 0xFF], false⟩, some 1700000000000⟩),
        ([0x00], ⟨.array [.string ⟨[], true⟩, .string ⟨[0xFC], true⟩], none⟩)] = some file ∧
      load (some file) = .ok [(bytes "k", ⟨.string ⟨[0xFC, 0x01, 0xFF], true⟩, some 1700000000000⟩),
        ([0x00], ⟨.array [.string ⟨[], true⟩, .string ⟨[0xFC], true⟩], none⟩)] := by
  refine load_saveSnapshot [(bytes "k", ⟨.string ⟨[0xFC, 0x01, 0xFF], false⟩, some 1700000000000⟩),
    ([0x00], ⟨.array [.string ⟨[], true⟩, .string ⟨[0xFC], true⟩], none⟩)] ?_ ?_
  · intro x hx
    rcases List.mem_pair.mp hx with rfl | rfl
    · trivial
    · intro v hv
      rcases List.mem_pair.mp hv with rfl | rfl <;> trivial
  · intro length hlength
    apply lengthReadBack_of_le
    revert length
    decide

end Redis

end CodingChallenges
