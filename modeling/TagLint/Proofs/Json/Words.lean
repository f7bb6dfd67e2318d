import TagLint.Proofs.Json.Grammar

/-!
# Reading the words of a JSON text

A text is divided into tokens from left to right, in the only way that there is.

- `char?_eq_some_iff`, `body?_eq_some_iff`: characters and strings are read in all their forms.
- `word?_eq_some_iff`: so are tokens.
- `tokens?_eq_some_iff`: the tokens that are read are those that the text spells.
-/

namespace TagLint.Json

variable {text rest : List Char}

/-! ### Characters -/

/-- The code unit at the front of a text, and the text behind it. -/
def unit? : List Char → Option (Nat × List Char)
  | '\\' :: 'u' :: a :: b :: c :: d :: rest => (code? a b c d).map (·, rest)
  | _ => none

/-- The character at the front of a text that is written with its code, and the text behind it. -/
def coded? (text : List Char) : Option (Char × List Char) :=
  match unit? text with
  | none => none
  | some (code, behind) =>
    if isHigh code then
      match unit? behind with
      | none => none
      | some (low, rest) =>
        if isLow low then some (Char.ofNat (pairCode code low), rest) else none
    else if isLow code then none
    else some (Char.ofNat code, behind)

/-- The character of a string at the front of a text, and the text behind it. -/
def char? : List Char → Option (Char × List Char)
  | [] => none
  | c :: rest =>
    if c = '\\' then
      match rest with
      | [] => none
      | letter :: behind =>
        if letter = 'u' then coded? (c :: rest) else (short? letter).map (·, behind)
    else if isPlain c then some (c, rest)
    else none

theorem unit?_eq_some_iff {code : Nat} : unit? text = some (code, rest) ↔
    ∃ a b c d, text = '\\' :: 'u' :: a :: b :: c :: d :: rest ∧ code? a b c d = some code := by
  constructor
  · intro h
    unfold unit? at h
    split at h
    · rename_i a b c d behind
      obtain ⟨found, hfound, ⟨⟩⟩ := Option.map_eq_some_iff.1 h
      exact ⟨a, b, c, d, rfl, hfound⟩
    · cases h
  · rintro ⟨a, b, c, d, rfl, h⟩
    rw [unit?, h]
    rfl

/-- A character is read from its code, or from the codes of a pair. -/
theorem coded?_eq_some_iff {found : Char} : coded? text = some (found, rest) ↔
    ∃ word, Writes ('\\' :: 'u' :: word) found ∧ text = '\\' :: 'u' :: (word ++ rest) := by
  constructor
  · intro h
    unfold coded? at h
    split at h
    · cases h
    rename_i code behind hunit
    obtain ⟨a, b, c, d, rfl, hcode⟩ := unit?_eq_some_iff.1 hunit
    split at h
    case isTrue hhigh =>
      split at h
      · cases h
      rename_i low rest hunit'
      obtain ⟨a', b', c', d', rfl, hcode'⟩ := unit?_eq_some_iff.1 hunit'
      split at h
      · rename_i hlow
        obtain ⟨rfl, rfl⟩ := Prod.mk.inj (Option.some.inj h)
        exact ⟨_, .pair hcode hcode' hhigh hlow, rfl⟩
      · cases h
    case isFalse hhigh =>
      split at h
      · cases h
      · rename_i hlow
        cases h
        exact ⟨_, .code hcode (Bool.eq_false_iff.2 hhigh) (Bool.eq_false_iff.2 hlow), rfl⟩
  · rintro ⟨word, hword, rfl⟩
    cases hword with
    | @short letter found h => cases h
    | @code a b c d code h hhigh hlow =>
      have hunit : unit? ('\\' :: 'u' :: a :: b :: c :: d :: rest) = some (code, rest) :=
        unit?_eq_some_iff.2 ⟨a, b, c, d, rfl, h⟩
      show coded? ('\\' :: 'u' :: a :: b :: c :: d :: rest) = _
      simp only [coded?, hunit, hhigh, hlow, Bool.false_eq_true, if_false]
    | @pair a b c d a' b' c' d' high low h h' hhigh hlow =>
      have hunit : unit? ('\\' :: 'u' :: a :: b :: c :: d ::
          '\\' :: 'u' :: a' :: b' :: c' :: d' :: rest) =
          some (high, '\\' :: 'u' :: a' :: b' :: c' :: d' :: rest) :=
        unit?_eq_some_iff.2 ⟨a, b, c, d, rfl, h⟩
      have hunit' : unit? ('\\' :: 'u' :: a' :: b' :: c' :: d' :: rest) = some (low, rest) :=
        unit?_eq_some_iff.2 ⟨a', b', c', d', rfl, h'⟩
      show coded? ('\\' :: 'u' :: a :: b :: c :: d ::
        '\\' :: 'u' :: a' :: b' :: c' :: d' :: rest) = _
      simp only [coded?, hunit, hunit', hhigh, hlow, if_true]

/-- **A character of a string is read in all its forms**, and in no other. -/
theorem char?_eq_some_iff {found : Char} :
    char? text = some (found, rest) ↔ ∃ word, Writes word found ∧ text = word ++ rest := by
  constructor
  · intro h
    unfold char? at h
    split at h
    · cases h
    rename_i c behind
    split at h
    case isTrue hescape =>
      subst hescape
      split at h
      · cases h
      rename_i letter behind
      split at h
      · obtain ⟨word, hword, htext⟩ := coded?_eq_some_iff.1 h
        exact ⟨_, hword, htext⟩
      · obtain ⟨other, hshort, hpair⟩ := Option.map_eq_some_iff.1 h
        cases hpair
        exact ⟨_, .short hshort, rfl⟩
    case isFalse =>
      split at h
      · rename_i hplain
        cases h
        exact ⟨_, .plain hplain, rfl⟩
      · cases h
  · rintro ⟨word, hword, rfl⟩
    have hcoded : ∀ more, word = '\\' :: 'u' :: more →
        char? (word ++ rest) = some (found, rest) := by
      rintro more rfl
      show coded? ('\\' :: 'u' :: (more ++ rest)) = _
      exact coded?_eq_some_iff.2 ⟨more, hword, rfl⟩
    cases hword with
    | plain h =>
      have hescape : found ≠ '\\' := by
        rintro rfl
        cases h
      show char? (found :: rest) = _
      simp only [char?, if_neg hescape, if_pos h]
    | @short letter found h =>
      have hletter : letter ≠ 'u' := by
        rintro rfl
        cases h
      show char? ('\\' :: letter :: rest) = _
      simp only [char?, if_true, if_neg hletter, h, Option.map_some]
    | code => exact hcoded _ rfl
    | pair => exact hcoded _ rfl

theorem Writes.ne_nil {word : List Char} {c : Char} (h : Writes word c) : word ≠ [] := by
  cases h <;> exact List.cons_ne_nil _ _

/-- No form of a character begins with a quote. -/
theorem Writes.head_ne {word : List Char} {c : Char} (h : Writes word c) (rest : List Char) :
    word ≠ '"' :: rest := by
  rintro rfl
  cases h with
  | plain h => cases h

/-! ### Strings -/

theorem length_lt_of_char? {found : Char} (h : char? text = some (found, rest)) :
    rest.length < text.length := by
  obtain ⟨word, hword, rfl⟩ := char?_eq_some_iff.1 h
  have := List.length_pos_iff.2 hword.ne_nil
  rw [List.length_append]
  omega

/-- The text in a string behind its first quote, and the text behind its last one. -/
def body? (text : List Char) : Option (List Char × List Char) :=
  if text.head? = some '"' then some ([], text.tail)
  else
    match h : char? text with
    | none => none
    | some (found, behind) =>
      have := length_lt_of_char? h
      (body? behind).map fun (value, rest) => (found :: value, rest)
termination_by text.length

/-- **The text in a string is read in all its forms**, and in no other. -/
theorem body?_eq_some_iff {value : List Char} : body? text = some (value, rest) ↔
    ∃ body, WritesAll body value ∧ text = body ++ '"' :: rest := by
  constructor
  · intro h
    fun_induction body? text generalizing value with
    | case1 text hquote =>
      cases h
      obtain ⟨rest, rfl⟩ := List.head?_eq_some_iff.1 hquote
      exact ⟨[], .nil, rfl⟩
    | case2 => cases h
    | case3 text hquote found behind hchar _ ih =>
      obtain ⟨⟨more, other⟩, hmore, ⟨⟩⟩ := Option.map_eq_some_iff.1 h
      obtain ⟨word, hword, rfl⟩ := char?_eq_some_iff.1 hchar
      obtain ⟨body, hbody, rfl⟩ := ih hmore
      exact ⟨word ++ body, .cons hword hbody, (List.append_assoc ..).symm⟩
  · rintro ⟨body, hbody, rfl⟩
    induction hbody with
    | nil =>
      have hquote : ('"' :: rest).head? = some '"' := rfl
      rw [List.nil_append, body?, if_pos hquote]
      rfl
    | @cons word body value c hword hbody ih =>
      have hchar : char? (word ++ (body ++ '"' :: rest)) = some (c, body ++ '"' :: rest) :=
        char?_eq_some_iff.2 ⟨word, hword, rfl⟩
      have hquote : (word ++ (body ++ '"' :: rest)).head? ≠ some '"' := by
        obtain ⟨first, more, rfl⟩ := List.exists_cons_of_ne_nil hword.ne_nil
        rintro ⟨⟩
        exact hword.head_ne more rfl
      rw [List.append_assoc, body?, if_neg hquote]
      split
      · rename_i hnone
        rw [hchar] at hnone
        cases hnone
      · rename_i found behind hsome
        rw [hchar] at hsome
        cases hsome
        rw [ih]
        rfl

/-! ### Tokens -/

/-- The number at the front of a text, and the text behind it. -/
def number? (text : List Char) : Option (Nat × List Char) :=
  let value := Nat.ofDigitChars 10 (text.takeWhile Char.isDigit) 0
  if Nat.toDigits 10 value = text.takeWhile Char.isDigit then
    some (value, text.dropWhile Char.isDigit)
  else none

/-- **A number is read whole**, and it is read from its digits only. -/
theorem number?_eq_some_iff {value : Nat} : number? text = some (value, rest) ↔
    text = Nat.toDigits 10 value ++ rest ∧ Text.Ends Char.isDigit rest := by
  constructor
  · intro h
    rw [number?] at h
    split at h
    · rename_i hdigits
      cases h
      constructor
      · rw [hdigits, List.takeWhile_append_dropWhile]
      · exact Text.ends_dropWhile _ _
    · cases h
  · rintro ⟨rfl, hends⟩
    have hdigits : ∀ c ∈ Nat.toDigits 10 value, c.isDigit = true :=
      fun c hc => Nat.isDigit_of_mem_toDigits (by decide) (by decide) hc
    rw [number?, Text.takeWhile_append hdigits hends, Text.dropWhile_append hdigits hends,
      Nat.ofDigitChars_toDigits (by decide) (by decide), if_pos rfl]

/-- The truth value at the front of a text, and the text behind it. -/
def literal? : List Char → Option (Token × List Char)
  | 't' :: 'r' :: 'u' :: 'e' :: rest => some (.literal true, rest)
  | 'f' :: 'a' :: 'l' :: 's' :: 'e' :: rest => some (.literal false, rest)
  | _ => none

theorem exists_word_of_literal? {token : Token} (h : literal? text = some (token, rest)) :
    ∃ word value, Word word (.literal value) ∧ token = .literal value ∧ text = word ++ rest := by
  unfold literal? at h
  split at h
  · cases h
    exact ⟨_, _, .yes, rfl, rfl⟩
  · cases h
    exact ⟨_, _, .no, rfl, rfl⟩
  · cases h

/-- The token at the front of a text, and the text behind it. -/
def word? (text : List Char) : Option (Token × List Char) :=
  match text with
  | [] => none
  | c :: rest =>
    if c.isDigit then (number? text).map fun (value, rest) => (.number value, rest)
    else if c = '"' then (body? rest).map fun (value, rest) => (.string (String.ofList value), rest)
    else if c ∈ marks then some (.mark c, rest)
    else literal? text

/-- **A token is read in all its forms**, and in no other. -/
theorem word?_eq_some_iff {token : Token} : word? text = some (token, rest) ↔
    ∃ word, Word word token ∧ (∀ value, token = .number value → Text.Ends Char.isDigit rest) ∧
      text = word ++ rest := by
  constructor
  · intro h
    cases text with
    | nil => cases h
    | cons c behind =>
      simp only [word?] at h
      split at h
      · obtain ⟨⟨value, other⟩, hnumber, hpair⟩ := Option.map_eq_some_iff.1 h
        cases hpair
        obtain ⟨htext, hends⟩ := number?_eq_some_iff.1 hnumber
        exact ⟨_, .number value, fun _ _ => hends, htext⟩
      split at h
      · rename_i hquote
        subst hquote
        obtain ⟨⟨value, other⟩, hbody, hpair⟩ := Option.map_eq_some_iff.1 h
        cases hpair
        obtain ⟨body, hwrites, rfl⟩ := body?_eq_some_iff.1 hbody
        refine ⟨'"' :: (body ++ ['"']), .string ?_, nofun, ?_⟩
        · rw [String.toList_ofList]
          exact hwrites
        · simp only [List.cons_append, List.append_assoc, List.nil_append]
      split at h
      · rename_i hmark
        cases h
        exact ⟨_, .mark hmark, nofun, rfl⟩
      obtain ⟨word, value, hword, rfl, htext⟩ := exists_word_of_literal? h
      exact ⟨word, hword, nofun, htext⟩
  · rintro ⟨word, hword, hends, rfl⟩
    cases hword with
    | @mark c h =>
      simp only [marks, List.mem_cons, List.not_mem_nil, or_false] at h
      rcases h with rfl | rfl | rfl | rfl | rfl | rfl <;> rfl
    | yes => rfl
    | no => rfl
    | number value =>
      have hnumber : number? (Nat.toDigits 10 value ++ rest) = some (value, rest) :=
        number?_eq_some_iff.2 ⟨rfl, hends value rfl⟩
      obtain ⟨c, digits, hdigits⟩ := List.exists_cons_of_ne_nil (Nat.toDigits_ne_nil (b := 10))
      have hdigit : c.isDigit = true := by
        refine Nat.isDigit_of_mem_toDigits (b := 10) (n := value) (by decide) (by decide) ?_
        rw [hdigits]
        exact List.mem_cons_self
      rw [hdigits, List.cons_append] at hnumber ⊢
      simp only [word?, if_pos hdigit, hnumber, Option.map_some]
    | @string body value h =>
      have hbody : body? ((body ++ ['"']) ++ rest) = some (value.toList, rest) := by
        rw [List.append_assoc]
        exact body?_eq_some_iff.2 ⟨body, h, rfl⟩
      show (body? ((body ++ ['"']) ++ rest)).map _ = _
      rw [hbody]
      exact congrArg (fun value => some (Token.string value, rest)) String.ofList_toList

theorem Word.ne_nil {word : List Char} {token : Token} (h : Word word token) : word ≠ [] := by
  cases h with
  | number => exact Nat.toDigits_ne_nil
  | _ => exact List.cons_ne_nil _ _

/-- No form of a token begins with white space. -/
theorem Word.ends_isSpace {word : List Char} {token : Token} (h : Word word token) :
    Text.Ends isSpace word := by
  cases h with
  | @mark c h =>
    simp only [marks, List.mem_cons, List.not_mem_nil, or_false] at h
    rcases h with rfl | rfl | rfl | rfl | rfl | rfl <;> exact Text.ends_cons rfl
  | yes => exact Text.ends_cons rfl
  | no => exact Text.ends_cons rfl
  | number value =>
    intro c hc
    have hdigit : c.isDigit = true :=
      Nat.isDigit_of_mem_toDigits (b := 10) (n := value) (by decide) (by decide)
        (List.mem_of_mem_head? hc)
    rw [Bool.eq_false_iff]
    intro hspace
    simp only [isSpace, Bool.or_eq_true, decide_eq_true_eq] at hspace
    rcases hspace with ((rfl | rfl) | rfl) | rfl <;> cases hdigit
  | string => exact Text.ends_cons rfl

theorem length_lt_of_word? {token : Token} (h : word? text = some (token, rest)) :
    rest.length < text.length := by
  obtain ⟨word, hword, -, rfl⟩ := word?_eq_some_iff.1 h
  have := List.length_pos_iff.2 hword.ne_nil
  rw [List.length_append]
  omega

/-- The tokens of a text. -/
def tokens? (text : List Char) : Option (List Token) :=
  match text with
  | [] => some []
  | c :: rest =>
    if isSpace c then tokens? rest
    else
      match h : word? (c :: rest) with
      | none => none
      | some (token, behind) =>
        have := length_lt_of_word? h
        (tokens? behind).map (token :: ·)
termination_by text.length
decreasing_by
  · exact Nat.lt_succ_self rest.length
  · exact this

/-- **The tokens that are read are those that a text spells.** -/
theorem tokens?_eq_some_iff {tokens : List Token} :
    tokens? text = some tokens ↔ Spells text tokens := by
  constructor
  · intro h
    fun_induction tokens? text generalizing tokens with
    | case1 => cases h; exact .nil
    | case2 c rest hspace ih => exact .space hspace (ih h)
    | case3 => cases h
    | case4 c rest hspace token behind hword _ ih =>
      obtain ⟨more, hmore, rfl⟩ := Option.map_eq_some_iff.1 h
      obtain ⟨word, hform, hends, htext⟩ := word?_eq_some_iff.1 hword
      rw [htext]
      exact .token hform hends (ih hmore)
  · intro h
    induction h with
    | nil => rw [tokens?]
    | space hspace _ ih => rw [tokens?, if_pos hspace, ih]
    | @token word text token tokens hword hends _ ih =>
      have hfront : word? (word ++ text) = some (token, text) :=
        word?_eq_some_iff.2 ⟨word, hword, hends, rfl⟩
      obtain ⟨c, more, rfl⟩ := List.exists_cons_of_ne_nil hword.ne_nil
      have hspace : ¬isSpace c = true := Bool.eq_false_iff.1 (hword.ends_isSpace c rfl)
      rw [List.cons_append] at hfront ⊢
      rw [tokens?, if_neg hspace]
      split
      · rename_i hnone
        rw [hfront] at hnone
        cases hnone
      · rename_i found behind hsome
        rw [hfront] at hsome
        cases hsome
        rw [ih, Option.map_some]

end TagLint.Json
