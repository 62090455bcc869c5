import CodingChallenges.Library.Delimiter
import CodingChallenges.Library.PercentEncoding
import Mathlib.Algebra.Ring.Nat

/-!
# Decoding a Path

`url_decode` of `WebServer.cpp`.

The path is decoded in place: an escape is replaced by its byte, and the search for the next
percent sign goes on at this byte. If it is a percent sign itself, it is taken as the beginning of
another escape. The digits are read with `std::from_chars`, which is content with one of them,
and accepts a sign.

## Main definitions

* `urlDecode`: The function of the source.
* `decodeInPlace`: What is made of the rest of the path.
* `Accepted`: The texts for which decoding succeeds.

## Theorems

* `urlDecode_eq`: The loop decodes the rest of the path.
* `not_mem_of_decodeInPlace`: No percent sign is left.
* `Accepted.decodeInPlace`, `accepted_of_decodeInPlace`: When decoding succeeds.
* `urlDecode_iff`: When it is single-pass decoding.
-/

namespace CodingChallenges

namespace WebServer

open Delimiter

/-- The character that the two characters behind a percent sign are read as. The value is an
    `int`. -/
def decodedChar (hexValue : List UInt8) : Option UInt8 :=
  (fromCharsHexSigned (2 ^ 31) hexValue).map fun (value, _) => UInt8.ofInt value

/-- The loop of `url_decode`. -/
def urlDecodeFrom (str : List UInt8) (percentPos : Nat) : Option (List UInt8) :=
  match findFrom [37] str percentPos with
  | none => some str
  | some percentPos =>
    -- There are no two characters behind the percent sign.
    if str.length ≤ percentPos + 2 then none
    else
      match decodedChar ((str.drop (percentPos + 1)).take 2) with
      | none => none
      -- The search goes on at the character, not behind it.
      | some c => urlDecodeFrom (str.take percentPos ++ [c] ++ str.drop (percentPos + 3)) percentPos
termination_by str.length
decreasing_by
  simp only [List.length_append, List.length_take, List.length_drop, List.length_singleton]
  omega

/-- `url_decode`, from the start of the text. -/
def urlDecode (str : List UInt8) : Option (List UInt8) :=
  urlDecodeFrom str 0

/-- What is made of the rest of the path. What an escape is replaced by belongs to it. -/
def decodeInPlace : List UInt8 → Option (List UInt8)
  | [] => some []
  | b :: text =>
    if b = 37 then
      match text with
      | high :: low :: rest =>
        match decodedChar [high, low] with
        -- The character is looked at again.
        | some c => decodeInPlace (c :: rest)
        | none => none
      | _ => none
    else (decodeInPlace text).map (b :: ·)
termination_by text => text.length

theorem decodeInPlace_cons {b : UInt8} (text : List UInt8) (hb : b ≠ 37) :
    decodeInPlace (b :: text) = (decodeInPlace text).map (b :: ·) := by
  rw [decodeInPlace.eq_def]
  exact if_neg hb

theorem decodeInPlace_escape {high low c : UInt8} (rest : List UInt8)
    (h : decodedChar [high, low] = some c) :
    decodeInPlace (37 :: high :: low :: rest) = decodeInPlace (c :: rest) := by
  rw [decodeInPlace.eq_def]
  simp only [if_true, h]

theorem decodeInPlace_malformed {high low : UInt8} (rest : List UInt8)
    (h : decodedChar [high, low] = none) : decodeInPlace (37 :: high :: low :: rest) = none := by
  rw [decodeInPlace.eq_def]
  simp only [if_true, h]

theorem decodeInPlace_short {text : List UInt8} (h : text.length < 2) :
    decodeInPlace (37 :: text) = none := by
  rw [decodeInPlace.eq_def]
  match text, h with
  | [], _ => rfl
  | [_], _ => rfl

theorem exists_two {text : List UInt8} (h : 2 ≤ text.length) :
    ∃ high low rest, text = high :: low :: rest := by
  match text, h with
  | high :: low :: rest, _ => exact ⟨high, low, rest, rfl⟩

theorem length_lt_two {text : List UInt8}
    (h : ∀ high low rest, text = high :: low :: rest → False) :
    text.length < 2 := by
  by_contra hnot
  rcases exists_two (by omega : 2 ≤ text.length) with ⟨high, low, rest, htext⟩
  exact h high low rest htext

section Loop

variable {front rest : List UInt8}

/-- The search goes past what is no percent sign. -/
theorem urlDecodeFrom_cons {b : UInt8} (hb : b ≠ 37) :
    urlDecodeFrom (front ++ b :: rest) front.length =
      urlDecodeFrom ((front ++ [b]) ++ rest) (front ++ [b]).length := by
  have hfind := findFrom_cons front rest hb
  rw [List.append_cons] at hfind ⊢
  rw [urlDecodeFrom, hfind, ← urlDecodeFrom]

theorem urlDecodeFrom_end : urlDecodeFrom (front ++ []) front.length = some (front ++ []) := by
  have hnone : findFrom [37] (front ++ []) front.length = none := by
    rw [findFrom, List.drop_left]
    rfl
  rw [urlDecodeFrom, hnone]

/-- A percent sign with too little behind it. -/
theorem urlDecodeFrom_short (hshort : rest.length < 2) :
    urlDecodeFrom (front ++ 37 :: rest) front.length = none := by
  have hlength : (front ++ 37 :: rest).length ≤ front.length + 2 := by
    rw [List.length_append, List.length_cons]
    omega
  rw [urlDecodeFrom, findFrom_singleton]
  exact if_pos hlength

/-- An escape is replaced by its byte. -/
theorem urlDecodeFrom_escape (high low : UInt8) :
    urlDecodeFrom (front ++ 37 :: high :: low :: rest) front.length =
      match decodedChar [high, low] with
      | none => none
      | some c => urlDecodeFrom (front ++ c :: rest) front.length := by
  have hlength : ¬ (front ++ 37 :: high :: low :: rest).length ≤ front.length + 2 := by
    rw [List.length_append, List.length_cons, List.length_cons, List.length_cons]
    omega
  have hhex : ((front ++ 37 :: high :: low :: rest).drop (front.length + 1)).take 2 =
      [high, low] := by
    rw [← List.drop_drop, List.drop_left]
    rfl
  have hbehind : (front ++ 37 :: high :: low :: rest).drop (front.length + 3) = rest := by
    rw [← List.drop_drop, List.drop_left]
    rfl
  rw [urlDecodeFrom, findFrom_singleton]
  simp only
  rw [if_neg hlength, hhex, hbehind, List.take_left]
  cases decodedChar [high, low] with
  | none => rfl
  | some c =>
      simp only [List.append_assoc, List.singleton_append]

/-- The loop makes of the rest of the path what is made of it, and leaves what is before it. -/
theorem urlDecodeFrom_eq (front rest : List UInt8) :
    urlDecodeFrom (front ++ rest) front.length = (decodeInPlace rest).map (front ++ ·) := by
  -- An escape makes the rest shorter by two bytes, and what is no percent sign goes to the front.
  induction hn : rest.length using Nat.strongRecOn generalizing front rest with
  | _ n ih =>
      cases rest with
      | nil =>
          rw [urlDecodeFrom_end, decodeInPlace]
          rfl
      | cons b text =>
          rw [List.length_cons] at hn
          by_cases hb : b = 37
          · subst hb
            by_cases hshort : text.length < 2
            · rw [urlDecodeFrom_short hshort, decodeInPlace_short hshort]
              rfl
            · rcases exists_two (by omega : 2 ≤ text.length) with ⟨high, low, text, rfl⟩
              rw [urlDecodeFrom_escape]
              cases hc : decodedChar [high, low] with
              | none =>
                  rw [decodeInPlace_malformed _ hc]
                  rfl
              | some c =>
                  have hlt : (c :: text).length < n := by
                    rw [List.length_cons, List.length_cons] at hn
                    rw [List.length_cons]
                    omega
                  rw [decodeInPlace_escape _ hc]
                  exact ih _ hlt front (c :: text) rfl
          · have hlt : text.length < n := by omega
            rw [urlDecodeFrom_cons hb, ih text.length hlt _ _ rfl, decodeInPlace_cons _ hb,
              Option.map_map]
            refine Option.map_congr fun t _ => ?_
            rw [List.append_assoc]
            rfl

end Loop

theorem urlDecode_eq (str : List UInt8) : urlDecode str = decodeInPlace str := by
  have h := urlDecodeFrom_eq [] str
  rw [List.nil_append] at h
  rw [urlDecode, show 0 = ([] : List UInt8).length from rfl, h]
  cases decodeInPlace str <;> rfl

theorem ofInt_natCast (n : Nat) : UInt8.ofInt (n : Int) = UInt8.ofNat n := by
  have hmod : ((n : Int) % 2 ^ 8).toNat = n % 2 ^ 8 := by omega
  rw [UInt8.ofInt, hmod]
  exact UInt8.ofNat_mod_size

/-- A text without percent signs is not changed. -/
theorem urlDecode_of_not_mem {text : List UInt8} (h : 37 ∉ text) : urlDecode text = some text := by
  rw [urlDecode_eq]
  induction text with
  | nil => rw [decodeInPlace]
  | cons b text ih =>
      rw [List.mem_cons, not_or] at h
      rw [decodeInPlace_cons _ (Ne.symm h.1), ih h.2]
      rfl

/-- Of the two characters the first one is a digit, or a sign if the second one is a digit. -/
theorem decodedChar_eq (high low : UInt8) :
    decodedChar [high, low] =
      if high = 45 then (hexDigitValue low).map fun m : Nat => UInt8.ofInt (-(m : Int))
      else (hexDigitValue high).map fun n : Nat =>
        match hexDigitValue low with
        | some m => UInt8.ofInt ((16 * n + m : Nat) : Int)
        | none => UInt8.ofInt (n : Int) := by
  have hread := fromCharsHexSigned_two (2 ^ 31) high low (by decide)
  have hmap : decodedChar [high, low] =
      ((fromCharsHexSigned (2 ^ 31) [high, low]).map Prod.fst).map UInt8.ofInt := by
    rw [Option.map_map]
    rfl
  rw [hmap, hread]
  split_ifs with hsign
  · exact Option.map_map _ _ _
  · rw [Option.map_map]
    refine Option.map_congr fun n _ => ?_
    rw [Function.comp_apply]
    cases hexDigitValue low <;> rfl

/-- Two digits are read as the byte that they spell. -/
theorem decodedChar_of_hexByte {high low c : UInt8} (h : hexByte high low = some c) :
    decodedChar [high, low] = some c := by
  rw [decodedChar_eq]
  unfold hexByte at h
  cases hn : hexDigitValue high with
  | none => rw [hn] at h; cases h
  | some n =>
      cases hm : hexDigitValue low with
      | none => rw [hn, hm] at h; cases h
      | some m =>
          rw [hn, hm] at h
          have hsign : high ≠ 45 := by
            rintro rfl
            cases hn
          rw [if_neg hsign, Option.map_some]
          simp only [ofInt_natCast]
          exact h

/-- Only two digits are read as a percent sign. -/
theorem decodedChar_percent {high low : UInt8} (h : decodedChar [high, low] = some 37) :
    high = 50 ∧ low = 53 := by
  -- A sign and a digit, one digit, and two digits are all tried.
  have hsigned : ∀ m : Nat, m < 16 → UInt8.ofInt (-(m : Int)) ≠ 37 := by decide
  have hsingle : ∀ n : Nat, n < 16 → UInt8.ofInt (n : Int) ≠ 37 := by decide
  have hboth : ∀ n < 16, ∀ m < 16, UInt8.ofInt ((16 * n + m : Nat) : Int) = 37 →
      n = 2 ∧ m = 5 := by
    decide
  rw [decodedChar_eq] at h
  split_ifs at h with hsign
  · rw [Option.map_eq_some_iff] at h
    rcases h with ⟨m, hm, hvalue⟩
    exact absurd hvalue (hsigned m (hexDigitValue_lt hm))
  · rw [Option.map_eq_some_iff] at h
    rcases h with ⟨n, hn, hvalue⟩
    cases hm : hexDigitValue low with
    | none =>
        rw [hm] at hvalue
        exact absurd hvalue (hsingle n (hexDigitValue_lt hn))
    | some m =>
        rw [hm] at hvalue
        rcases hboth n (hexDigitValue_lt hn) m (hexDigitValue_lt hm) hvalue with ⟨rfl, rfl⟩
        exact ⟨eq_hexDigit_of_value hn (by decide), eq_hexDigit_of_value hm (by decide)⟩

/-- The texts for which decoding succeeds: behind every percent sign comes, with any number of
    escaped percent signs in between, what is read as another character. -/
inductive Accepted : List UInt8 → Prop
  | nil : Accepted []
  | plain {b : UInt8} {text : List UInt8} : b ≠ 37 → Accepted text → Accepted (b :: text)
  | escape {high low c : UInt8} {text : List UInt8} :
      decodedChar [high, low] = some c → c ≠ 37 → Accepted text →
        Accepted (37 :: high :: low :: text)
  | again {text : List UInt8} : Accepted (37 :: text) → Accepted (37 :: 50 :: 53 :: text)

/-- What has been decoded holds no percent sign. -/
theorem not_mem_of_decodeInPlace {text decoded : List UInt8}
    (h : decodeInPlace text = some decoded) : 37 ∉ decoded := by
  induction text using decodeInPlace.induct generalizing decoded with
  | case1 =>
      rw [decodeInPlace] at h
      cases h
      exact List.not_mem_nil
  | case2 high low rest c hc ih =>
      rw [decodeInPlace_escape _ hc] at h
      exact ih h
  | case3 high low rest hc =>
      rw [decodeInPlace_malformed _ hc] at h
      cases h
  | case4 text hshort =>
      rw [decodeInPlace_short (length_lt_two hshort)] at h
      cases h
  | case5 b text hb ih =>
      rw [decodeInPlace_cons _ hb, Option.map_eq_some_iff] at h
      rcases h with ⟨rest, hrest, rfl⟩
      rw [List.mem_cons, not_or]
      exact ⟨fun hsame => hb hsame.symm, ih hrest⟩

theorem accepted_cons_iff {b : UInt8} {text : List UInt8} (hb : b ≠ 37) :
    Accepted (b :: text) ↔ Accepted text := by
  constructor
  · intro h
    cases h with
    | plain _ h => exact h
    | escape _ _ _ => exact absurd rfl hb
    | again _ => exact absurd rfl hb
  · exact .plain hb

/-- Decoding succeeds for these texts. -/
theorem Accepted.decodeInPlace {text : List UInt8} (h : Accepted text) :
    ∃ decoded, WebServer.decodeInPlace text = some decoded := by
  induction h with
  | nil => exact ⟨[], by rw [WebServer.decodeInPlace]⟩
  | plain hb _ ih =>
      rcases ih with ⟨decoded, hdecoded⟩
      exact ⟨_, by rw [decodeInPlace_cons _ hb, hdecoded]; rfl⟩
  | escape hc hne _ ih =>
      rcases ih with ⟨decoded, hdecoded⟩
      exact ⟨_, by rw [decodeInPlace_escape _ hc, decodeInPlace_cons _ hne, hdecoded]; rfl⟩
  | again _ ih =>
      rcases ih with ⟨decoded, hdecoded⟩
      exact ⟨decoded, by rw [decodeInPlace_escape (c := 37) _ rfl, hdecoded]⟩

/-- And for no others. -/
theorem accepted_of_decodeInPlace {text decoded : List UInt8}
    (h : decodeInPlace text = some decoded) : Accepted text := by
  induction text using decodeInPlace.induct generalizing decoded with
  | case1 => exact .nil
  | case2 high low rest c hc ih =>
      rw [decodeInPlace_escape _ hc] at h
      have hrest := ih h
      -- An escaped percent sign begins what is decoded next.
      by_cases hne : c = 37
      · subst hne
        rcases decodedChar_percent hc with ⟨rfl, rfl⟩
        exact .again hrest
      · exact .escape hc hne ((accepted_cons_iff hne).mp hrest)
  | case3 high low rest hc =>
      rw [decodeInPlace_malformed _ hc] at h
      cases h
  | case4 text hshort =>
      rw [decodeInPlace_short (length_lt_two hshort)] at h
      cases h
  | case5 b text hb ih =>
      rw [decodeInPlace_cons _ hb, Option.map_eq_some_iff] at h
      rcases h with ⟨rest, hrest, -⟩
      exact .plain hb (ih hrest)

/-- Without an encoded percent sign decoding is single-pass. -/
theorem decodeInPlace_of_percentDecode {text decoded : List UInt8}
    (h : percentDecode text = some decoded) (hfree : 37 ∉ decoded) :
    decodeInPlace text = some decoded := by
  induction text using percentDecode.induct generalizing decoded with
  | case1 =>
      cases h
      rw [decodeInPlace]
  | case2 high low rest c hc ih =>
      rw [percentDecode_escape _ hc, Option.map_eq_some_iff] at h
      rcases h with ⟨decoded, hdecoded, rfl⟩
      rw [List.mem_cons, not_or] at hfree
      rw [decodeInPlace_escape _ (decodedChar_of_hexByte hc),
        decodeInPlace_cons _ (Ne.symm hfree.1), ih hdecoded hfree.2]
      rfl
  | case3 high low rest hc =>
      rw [percentDecode_malformed _ hc] at h
      cases h
  | case4 text hshort =>
      rw [percentDecode_short (length_lt_two hshort)] at h
      cases h
  | case5 b text hb ih =>
      rw [percentDecode_cons _ hb, Option.map_eq_some_iff] at h
      rcases h with ⟨decoded, hdecoded, rfl⟩
      rw [List.mem_cons, not_or] at hfree
      rw [decodeInPlace_cons _ hb, ih hdecoded hfree.2]
      rfl

/-- Whatever the text is: it is decoded in a single pass exactly if no escape stands for a
    percent sign, and, with a percent sign that begins no escape, it is not accepted for other
    reasons. And when it was encoded it is read back exactly if it holds no percent sign. -/
theorem urlDecode_iff (text : List UInt8) :
    (urlDecode text = percentDecode text ↔
      (∀ decoded, percentDecode text = some decoded → 37 ∉ decoded) ∧
        (percentDecode text = none → ¬ Accepted text)) ∧
    ∀ reserved : UInt8 → Bool, reserved 37 = true →
      (urlDecode (percentEncode reserved text) = some text ↔ 37 ∉ text) := by
  constructor
  · rw [urlDecode_eq]
    cases hsingle : percentDecode text with
    -- Where single-pass decoding fails, the code agrees if it fails, too.
    | none =>
        simp only [reduceCtorEq, false_imp_iff, implies_true, true_and, forall_const]
        constructor
        · intro hnone haccepted
          rcases haccepted.decodeInPlace with ⟨decoded, hdecoded⟩
          rw [hnone] at hdecoded
          cases hdecoded
        · intro hnot
          rw [Option.eq_none_iff_forall_ne_some]
          exact fun decoded hdecoded => hnot (accepted_of_decodeInPlace hdecoded)
    -- Where it succeeds, a percent sign in its result would have been decoded once more.
    | some decoded =>
        simp only [Option.some.injEq, forall_eq', reduceCtorEq, false_imp_iff, and_true]
        exact ⟨not_mem_of_decodeInPlace, decodeInPlace_of_percentDecode hsingle⟩
  · intro reserved hreserved
    rw [urlDecode_eq]
    exact ⟨not_mem_of_decodeInPlace,
      decodeInPlace_of_percentDecode (percentDecode_percentEncode hreserved text)⟩

/-- An encoded percent sign. -/
theorem not_urlDecode : ¬ ∀ text, urlDecode text = percentDecode text := by
  intro h
  have hpercent := h [37, 50, 53]
  rw [urlDecode_eq, decodeInPlace_escape (c := 37) _ rfl,
    decodeInPlace_short (by decide)] at hpercent
  cases hpercent

end WebServer

end CodingChallenges
