import Mathlib.Data.List.TakeWhile
import CodingChallenges.Json.Nesting
import CodingChallenges.Json.Tokenizer

/-!
# What Follows a Document

The tokens of a text with something behind it are those of the text and those of what
follows, if the text does not end with a number: this is the only token that may grow
when more input comes, apart from whitespace, which does not count. A document ends
with a closing bracket. So whatever else follows it gives additional tokens or an error,
and the check fails.

The one thing that can follow is a zero byte, with anything behind it: the tokenizer
takes it for the end of the input.

## Main definitions

* `significantTokens`: What the tokenizer finds apart from whitespace.
* `inArray`: A text as the only element of an array.

## Theorems

* `filteredTokens_tokenize`: The tokenizer finds the significant tokens.
* `significantTokens_append`: The tokens of a text and of what follows it.
* `parseText_append_iff`: What may follow a document.
-/

namespace CodingChallenges

namespace Json

/-- The tokens of a text that are not whitespace, or nothing if it has an error. -/
def significantTokens (input : List UInt8) : Option (List Token) :=
  match _ : scan input with
  | .stop => some []
  | .fail => none
  | .read new rest => (significantTokens rest).map (filteredTokens new ++ ·)
termination_by weight input
decreasing_by exact scan_weight ‹_›

variable {c : UInt8} {d is rest t : List UInt8} {new tokens : List Token}

theorem significantTokens_stop (h : scan d = .stop) : significantTokens d = some [] := by
  rw [significantTokens]
  split <;> simp_all

theorem significantTokens_fail (h : scan d = .fail) : significantTokens d = none := by
  rw [significantTokens]
  split <;> simp_all

theorem significantTokens_read (h : scan d = .read new rest) :
    significantTokens d = (significantTokens rest).map (filteredTokens new ++ ·) := by
  rw [significantTokens]
  split <;> simp_all

/-- The tokens of a text that begins with one are this token and those of the rest. -/
theorem significantTokens_eq_some (hnul : c ≠ 0) (h : significantTokens (c :: is) = some tokens) :
    ∃ new rest others, readToken c is = some (new, rest) ∧ significantTokens rest = some others ∧
      tokens = filteredTokens new ++ others := by
  cases hread : readToken c is with
  | none =>
      rw [significantTokens_fail (scan_of_readToken_eq_none hnul hread)] at h
      cases h
  | some result =>
      rcases result with ⟨new, rest⟩
      rw [significantTokens_read (scan_of_readToken hnul hread), Option.map_eq_some_iff] at h
      rcases h with ⟨others, hothers, rfl⟩
      exact ⟨new, rest, others, rfl, hothers, rfl⟩

theorem filteredTokens_append (tokens tokens' : List Token) :
    filteredTokens (tokens ++ tokens') = filteredTokens tokens ++ filteredTokens tokens' :=
  List.filter_append ..

theorem filteredTokens_tokenizeFrom (tokens : List Token) (input : List UInt8) :
    filteredTokens (tokenizeFrom tokens input) =
      ((significantTokens input).map (filteredTokens tokens ++ ·)).getD [] := by
  fun_induction tokenizeFrom tokens input with
  | case1 tokens input hscan =>
      rw [significantTokens_stop hscan]
      simp only [Option.map_some, List.append_nil, Option.getD_some]
  | case2 tokens input hscan =>
      rw [significantTokens_fail hscan]
      rfl
  | case3 tokens input new rest hscan ih =>
      rw [significantTokens_read hscan, ih, Option.map_map, filteredTokens_append]
      simp only [List.append_assoc, Function.comp_def]

theorem filteredTokens_tokenize (input : List UInt8) :
    filteredTokens (tokenize input) = (significantTokens input).getD [] := by
  rw [tokenize, filteredTokens_tokenizeFrom]
  cases significantTokens input <;> rfl

/-! ### Whitespace -/

theorem isWhitespace_iff : isWhitespace c = true ↔ c = 0x20 ∨ c = 0x0A ∨ c = 0x0D ∨ c = 0x09 := by
  simp only [isWhitespace, Bool.or_eq_true, decide_eq_true_eq, or_assoc]

theorem scan_whitespace (hc : isWhitespace c = true) (is : List UInt8) :
    scan (c :: is) = .read [⟨.whitespace, (handleWhitespace c is).stringToken⟩]
      ((handleWhitespace c is).lastReadChar :: (handleWhitespace c is).rest) := by
  rcases isWhitespace_iff.mp hc with rfl | rfl | rfl | rfl <;> rfl

theorem readWhile_rest (kind : UInt8 → Bool) (is s s' : List UInt8) (l : UInt8) :
    (readWhile kind is s l).lastReadChar = (readWhile kind is s' l).lastReadChar ∧
      (readWhile kind is s l).rest = (readWhile kind is s' l).rest := by
  induction is generalizing s s' with
  | nil => exact ⟨rfl, rfl⟩
  | cons c is ih =>
      by_cases hkind : kind c = true
      · simp only [readWhile, if_pos hkind]
        exact ih _ _
      · simp only [readWhile, if_neg hkind]
        exact ⟨trivial, trivial⟩

theorem significantTokens_whitespace_eq (hc : isWhitespace c = true) (is : List UInt8) :
    significantTokens (c :: is) = significantTokens
      ((handleWhitespace c is).lastReadChar :: (handleWhitespace c is).rest) := by
  rw [significantTokens_read (scan_whitespace hc is)]
  exact Option.map_id_apply

/-- Whitespace in front of a text makes no difference. -/
theorem significantTokens_whitespace (hc : isWhitespace c = true) (is : List UInt8) :
    significantTokens (c :: is) = significantTokens is := by
  rw [significantTokens_whitespace_eq hc, handleWhitespace]
  cases is with
  | nil => rw [readWhile, significantTokens_stop rfl, significantTokens_stop rfl]
  | cons c' is =>
      by_cases hc' : isWhitespace c' = true
      · rw [significantTokens_whitespace_eq hc', readWhile, if_pos hc', handleWhitespace]
        rcases readWhile_rest isWhitespace is ([c] ++ [c']) [c'] 0 with ⟨hlast, hrest⟩
        rw [hlast, hrest]
      · rw [readWhile, if_neg hc']

theorem significantTokens_dropWhile (t : List UInt8) :
    significantTokens (t.dropWhile isWhitespace) = significantTokens t := by
  induction t with
  | nil => rfl
  | cons c t ih =>
      by_cases hc : isWhitespace c = true
      · rw [List.dropWhile_cons_of_pos hc, significantTokens_whitespace hc, ih]
      · rw [List.dropWhile_cons_of_neg hc]

/-! ### Numbers at the end of the input -/

theorem readToken_numeric (hc : (decide (c = byte '-') || isDigit c) = true) (is : List UInt8) :
    readToken c is = (handleNumeric c is).map fun r =>
      ([⟨.numericValue, r.stringToken⟩], r.lastReadChar :: r.rest) := by
  have hne : ∀ c', (decide (c' = byte '-') || isDigit c') = false → c ≠ c' := by
    rintro c' hc' rfl
    rw [hc] at hc'
    cases hc'
  have htype : charType c = none := by
    rw [charType, if_neg (hne _ rfl), if_neg (hne _ rfl), if_neg (hne _ rfl), if_neg (hne _ rfl),
      if_neg (hne _ rfl), if_neg (hne _ rfl)]
  have hspace : ¬ isWhitespace c = true := by
    rw [isWhitespace_iff]
    rintro (h | h | h | h)
    · exact hne _ rfl h
    · exact hne _ rfl h
    · exact hne _ rfl h
    · exact hne _ rfl h
  unfold readToken
  simp only [htype, if_neg (hne (byte '"') rfl), if_neg hspace, if_pos hc]

/-- A number with nothing behind it hands back a zero. -/
theorem handleNumeric_nil {r : Reading} (h : handleNumeric c [] = some r) :
    r.lastReadChar = 0 ∧ r.rest = [] := by
  rcases handleNumeric_settles h with ⟨-, hsuffix⟩ | ⟨hrest, hlast | ⟨hne, -⟩⟩
  · cases List.suffix_nil.mp hsuffix
  · exact ⟨hlast, hrest⟩
  · exact absurd rfl hne

/-- The point, the letters of an exponent and the plus sign begin no token. -/
theorem scan_numberEnd (hend : isNumberEnd c = true)
    (hc : ¬ (decide (c = byte '-') || isDigit c) = true) (is : List UInt8) :
    scan (c :: is) = .fail := by
  rw [Bool.not_eq_true, Bool.or_eq_false_iff] at hc
  simp only [isNumberEnd, Bool.or_eq_true, decide_eq_true_eq, hc.2] at hend
  rcases hend with ((((rfl | rfl) | rfl) | rfl) | rfl) | hfalse
  · rfl
  · rfl
  · rfl
  · rfl
  · cases hc.1
  · cases hfalse

/-- Where a character of a number comes next, there is the token of a number, and then
    come those of what its handler hands back. -/
theorem significantTokens_numeric (hend : isNumberEnd c = true)
    (h : significantTokens (c :: is) = some tokens) :
    ∃ r others, handleNumeric c is = some r ∧
      significantTokens (r.lastReadChar :: r.rest) = some others ∧
      tokens = ⟨.numericValue, r.stringToken⟩ :: others := by
  have hnul : c ≠ 0 := by
    rintro rfl
    cases hend
  by_cases hc : (decide (c = byte '-') || isDigit c) = true
  case neg =>
    rw [significantTokens_fail (scan_numberEnd hend hc is)] at h
    cases h
  rcases significantTokens_eq_some hnul h with ⟨new, rest, others, hread, hothers, rfl⟩
  rw [readToken_numeric hc, Option.map_eq_some_iff] at hread
  rcases hread with ⟨r, hnumber, heq⟩
  cases heq
  exact ⟨r, others, hnumber, hothers, rfl⟩

/-- What a number hands back at the end of the input gives only numbers. -/
theorem significantTokens_numberEnd (hc : c = 0 ∨ isNumberEnd c = true)
    (h : significantTokens [c] = some tokens) : ∀ token ∈ tokens, token.type = .numericValue := by
  rcases hc with rfl | hend
  · rw [significantTokens_stop rfl] at h
    cases h
    exact nofun
  · rcases significantTokens_numeric hend h with ⟨r, others, hnumber, hothers, rfl⟩
    rcases handleNumeric_nil hnumber with ⟨hlast, hrest⟩
    rw [hlast, hrest, significantTokens_stop rfl] at hothers
    cases hothers
    intro token htoken
    rw [List.mem_singleton.mp htoken]

/-- The tokens of a text and of what follows it, unless the text ends with a number. -/
theorem significantTokens_append (hnul : 0 ∉ d) (h : significantTokens d = some tokens)
    (hlast : ∀ token, tokens.getLast? = some token → token.type ≠ .numericValue) (t : List UInt8) :
    significantTokens (d ++ t) = (significantTokens t).map (tokens ++ ·) := by
  induction hn : d.length using Nat.strongRecOn generalizing d tokens with
  | ind n ih =>
      subst hn
      cases d with
      | nil =>
          rw [significantTokens_stop rfl] at h
          cases h
          exact Option.map_id_apply.symm
      | cons c is =>
          rw [List.mem_cons, not_or] at hnul
          by_cases hspace : isWhitespace c = true
          · rw [significantTokens_whitespace hspace] at h
            rw [List.cons_append, significantTokens_whitespace hspace]
            exact ih is.length (Nat.lt_succ_self _) hnul.2 h hlast rfl
          rcases significantTokens_eq_some (Ne.symm hnul.1) h with
            ⟨new, rest, others, hread, hothers, rfl⟩
          rcases readToken_settles hread with ⟨happend, hsuffix⟩ | ⟨hfalse, -⟩ | hend
          · -- The token has its end within the input, and the rest is shorter.
            have hothersLast : ∀ token, others.getLast? = some token →
                token.type ≠ .numericValue := by
              intro token htoken
              refine hlast token ?_
              rw [List.getLast?_append, htoken, Option.some_or]
            have hrest := ih rest.length (Nat.lt_succ_of_le hsuffix.length_le)
              (fun hmem => hnul.2 (hsuffix.subset hmem)) hothers hothersLast rfl
            rw [List.cons_append,
              significantTokens_read (scan_of_readToken (Ne.symm hnul.1) (happend t)), hrest,
              Option.map_map]
            simp only [Function.comp_def, List.append_assoc]
          · exact absurd hfalse hspace
          · -- The input has ended with a number, which would then be the last token.
            rcases hend with ⟨s, l, rfl, rfl, hl⟩
            have hothersType := significantTokens_numberEnd (hl.imp id And.right) hothers
            have hne : filteredTokens [⟨.numericValue, s⟩] ++ others ≠ [] :=
              List.cons_ne_nil _ _
            refine absurd ?_ (hlast _ (List.getLast?_eq_some_getLast hne))
            rcases List.mem_cons.mp (List.getLast_mem hne) with hfirst | hother
            · rw [hfirst]
            · exact hothersType _ hother

/-! ### Documents -/

/-- The check of a text is one of its significant tokens. -/
theorem parseText_iff (input : List UInt8) :
    parseText input = true ↔ ∃ tokens, significantTokens input = some tokens ∧
      ∃ v : Value, (v.IsObject ∨ v.IsArray) ∧ types tokens = v.tokens ∧
        v.height ≤ maxIndentLevel := by
  have hparse : parseText input = true ↔ parse (tokenize input) = true := by
    rw [parseText]
    by_cases hempty : tokenize input = []
    · rw [if_pos hempty, hempty]
      decide
    · rw [if_neg hempty]
  rw [hparse]
  constructor
  · intro h
    rcases fits_of_derives (derives_of_parse h) with ⟨v, hv, htypes, hheight⟩
    rw [filteredTokens_tokenize] at htypes
    cases htokens : significantTokens input with
    | none =>
        -- Without tokens there is nothing that a value could be made of.
        rw [htokens] at htypes
        rcases v.head?_tokens with ⟨t, ht, -⟩
        rw [← htypes] at ht
        cases ht
    | some tokens =>
        rw [htokens] at htypes
        exact ⟨tokens, rfl, v, hv, htypes, by omega⟩
  · rintro ⟨tokens, htokens, v, hv, htypes, hheight⟩
    refine parse_of_value hv ?_ hheight
    rw [filteredTokens_tokenize, htokens, Option.getD_some, htypes]

/-- A container ends with a bracket. -/
theorem Value.getLast?_tokens {v : Value} (hv : v.IsObject ∨ v.IsArray) :
    v.tokens.getLast? = some .closingBraces ∨ v.tokens.getLast? = some .closingSquareBrace := by
  cases v with
  | emptyObject => exact Or.inl rfl
  | object members => exact Or.inl List.getLast?_concat
  | emptyArray => exact Or.inr rfl
  | array elements => exact Or.inr List.getLast?_concat
  | _ => simp only [IsObject, IsArray, or_self] at hv

theorem charType_ne_whitespace {type : TokenType} (h : charType c = some type) :
    type ≠ .whitespace := by
  rintro rfl
  unfold charType at h
  split_ifs at h <;> cases h

/-- A byte that is not whitespace begins a token that counts. -/
theorem readToken_significant (hspace : ¬ isWhitespace c = true)
    (h : readToken c is = some (new, rest)) : filteredTokens new ≠ [] := by
  unfold readToken at h
  cases htype : charType c with
  | some type =>
      rw [htype] at h
      cases h
      simp only [filteredTokens, ne_eq, decide_not, charType_ne_whitespace htype, decide_false,
        Bool.not_false, List.filter_cons_of_pos, List.filter_nil, List.cons_ne_self,
        not_false_eq_true]
  | none =>
      simp only [htype] at h
      -- Each of the other readers puts a token with a type of its own first.
      split_ifs at h
      all_goals
        rcases Option.map_eq_some_iff.mp h with ⟨r, -, heq⟩
        cases heq
        exact List.cons_ne_nil _ _

theorem significantTokens_ne_nil (hnul : c ≠ 0) (hspace : ¬ isWhitespace c = true)
    (h : significantTokens (c :: is) = some tokens) : tokens ≠ [] := by
  rcases significantTokens_eq_some hnul h with ⟨new, rest, others, hread, -, rfl⟩
  exact List.append_ne_nil_of_left_ne_nil (readToken_significant hspace hread) _

/-- Behind a document there may only be whitespace, up to a zero byte if there is one. -/
theorem parseText_append_iff {d t : List UInt8} (hnul : 0 ∉ d) (hd : parseText d = true)
    (ht : ∃ b ∈ t, isWhitespace b = false) :
    parseText (d ++ t) = false ↔ t.find? (fun b => !isWhitespace b) ≠ some 0 := by
  rcases (parseText_iff d).mp hd with ⟨tokens, htokens, v, hv, htypes, hheight⟩
  have hlast : ∀ token, tokens.getLast? = some token → token.type ≠ .numericValue := by
    intro token htoken hnumeric
    have hlastType : v.tokens.getLast? = some token.type := by
      rw [← htypes, List.getLast?_map, htoken, Option.map_some]
    rw [hnumeric] at hlastType
    rcases Value.getLast?_tokens hv with h | h
    · rw [h] at hlastType
      cases hlastType
    · rw [h] at hlastType
      cases hlastType
  have happend := significantTokens_append hnul htokens hlast t
  -- What follows has the same tokens as its part from the first byte on that counts.
  rw [← significantTokens_dropWhile t] at happend
  rw [List.find?_not_eq_head?_dropWhile]
  cases hdrop : t.dropWhile isWhitespace with
  | nil =>
      rcases ht with ⟨b, hb, hspace⟩
      have hall := List.dropWhile_eq_nil_iff.mp hdrop b hb
      rw [hspace] at hall
      cases hall
  | cons b rest =>
      rw [hdrop] at happend
      rw [List.head?_cons, ne_eq, Option.some.injEq]
      by_cases hb : b = 0
      · have hstop : significantTokens (b :: rest) = some [] := by
          rw [hb, significantTokens_stop rfl]
        rw [hstop, Option.map_some, List.append_nil] at happend
        have haccept := (parseText_iff (d ++ t)).mpr ⟨tokens, happend, v, hv, htypes, hheight⟩
        rw [haccept, hb]
        simp only [Bool.true_eq_false, not_true_eq_false]
      · refine iff_of_true ?_ hb
        rw [Bool.eq_false_iff, ne_eq, parseText_iff]
        rintro ⟨all, hall, v', -, htypes', -⟩
        rw [happend, Option.map_eq_some_iff] at hall
        rcases hall with ⟨extra, hextra, rfl⟩
        have hspace : ¬ isWhitespace b = true := by
          have := List.head?_dropWhile_not isWhitespace t
          rw [hdrop] at this
          simpa only [Bool.not_eq_true, List.head?_cons] using this
        -- No document is the beginning of another one, so there are no extra tokens.
        have hboth : v.tokens ++ types extra = v'.tokens ++ [] := calc
          v.tokens ++ types extra = types tokens ++ types extra := by rw [htypes]
          _ = types (tokens ++ extra) := List.map_append.symm
          _ = v'.tokens ++ [] := by rw [htypes', List.append_nil]
        have hnil := (Value.tokens_append_inj v v' hboth).2
        exact significantTokens_ne_nil hb hspace hextra (List.map_eq_nil_iff.mp hnil)

/-- A text as the only element of an array. -/
def inArray (t : List UInt8) : List UInt8 :=
  byte '[' :: (t ++ [byte ']'])

theorem significantTokens_inArray (t : List UInt8) :
    significantTokens (inArray t) = (significantTokens (t ++ [byte ']'])).map
      ([⟨.openingSquareBrace, [byte '[']⟩] ++ ·) := by
  rw [inArray, significantTokens_read rfl]
  rfl

theorem significantTokens_closing :
    significantTokens [byte ']'] = some [⟨.closingSquareBrace, [byte ']']⟩] := by
  rw [significantTokens_read rfl, significantTokens_stop rfl]
  rfl

theorem significantTokens_emptyArray (t : List UInt8) :
    significantTokens (byte '[' :: byte ']' :: t) = (significantTokens t).map
      ([⟨.openingSquareBrace, [byte '[']⟩, ⟨.closingSquareBrace, [byte ']']⟩] ++ ·) := by
  rw [significantTokens_read rfl, significantTokens_read rfl, Option.map_map]
  rfl

theorem parseText_emptyArray (h : significantTokens t = some []) :
    parseText (byte '[' :: byte ']' :: t) = true := by
  rw [parseText_iff, significantTokens_emptyArray, h]
  exact ⟨_, rfl, .emptyArray, Or.inr trivial, rfl, by decide⟩

/-- A letter behind an empty array is found. -/
theorem parseText_append_letter :
    (0 ∉ [byte '[', byte ']'] ∧ parseText [byte '[', byte ']'] = true) ∧
      (parseText ([byte '[', byte ']'] ++ [byte ' ', byte 'x']) = false ↔
        [byte ' ', byte 'x'].find? (fun b => !isWhitespace b) ≠ some 0) ∧
      [byte ' ', byte 'x'].find? (fun b => !isWhitespace b) ≠ some 0 := by
  have hnul : 0 ∉ [byte '[', byte ']'] := by decide
  have hd : parseText [byte '[', byte ']'] = true :=
    parseText_emptyArray (significantTokens_stop rfl)
  exact ⟨⟨hnul, hd⟩, parseText_append_iff hnul hd ⟨byte 'x', by decide, rfl⟩, by decide⟩

/-- A letter behind an empty array and a zero is not. -/
theorem accepts_letter_after_zero :
    0 ∉ [byte '[', byte ']'] ∧ parseText [byte '[', byte ']'] = true ∧
      (∃ b ∈ [0, byte 'x'], isWhitespace b = false) ∧
      parseText ([byte '[', byte ']'] ++ [0, byte 'x']) = true :=
  ⟨by decide, parseText_emptyArray (significantTokens_stop rfl), ⟨byte 'x', by decide, rfl⟩,
    parseText_emptyArray (significantTokens_stop rfl)⟩

end Json

end CodingChallenges
