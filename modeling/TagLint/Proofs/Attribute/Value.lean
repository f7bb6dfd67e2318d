import TagLint.Attribute.Value
import TagLint.Proofs.Script.Braced

/-!
# The extent of a value

The laws of `quotedTail`, like those of `bracedTail`: what stands behind the closing quote has no
say in where a quoted value ends, and neither has a cut there.

- `IsQuoteClosed`: a quoted value has a closing quote. One that has none reaches to the end of the
  text (`quotedTail_of_open`).
-/

namespace TagLint.Attribute

/-! ### Equations -/

theorem quotedTail_go_nil (quote : Char) (taken : Nat) : quotedTail.go quote taken [] = taken := by
  rw [quotedTail.go]

theorem quotedTail_go_last (quote : Char) (taken : Nat) :
    quotedTail.go quote taken ['\\'] = taken + 1 := by
  rw [quotedTail.go.eq_def]
  rfl

theorem quotedTail_go_pair (quote c : Char) (taken : Nat) (rest : List Char) :
    quotedTail.go quote taken ('\\' :: c :: rest) = quotedTail.go quote (taken + 2) rest := by
  rw [quotedTail.go.eq_def]
  rfl

theorem quotedTail_go_single {c : Char} (hc : c ≠ '\\') (quote : Char) (taken : Nat)
    (rest : List Char) :
    quotedTail.go quote taken (c :: rest) =
      if c = quote then taken + 1 else quotedTail.go quote (taken + 1) rest := by
  rw [quotedTail.go.eq_def]
  simp only [if_neg hc]

/-- The accumulator of `quotedTail` is added to the answer. -/
theorem quotedTail_go_add (base : Nat) (quote : Char) (taken : Nat) (text : List Char) :
    quotedTail.go quote (base + taken) text = base + quotedTail.go quote taken text := by
  fun_induction quotedTail.go quote taken text with
  | case1 => rw [quotedTail_go_nil]
  | case2 taken => rw [quotedTail_go_last, Nat.add_assoc]
  | case3 taken c rest ih => rw [quotedTail_go_pair, ← ih, Nat.add_assoc]
  | case4 taken rest hslash => rw [quotedTail_go_single hslash, if_pos rfl, Nat.add_assoc]
  | case5 taken c rest hslash hquote ih =>
    rw [quotedTail_go_single hslash, if_neg hquote, ← ih, Nat.add_assoc]

theorem quotedTail_go_eq (quote : Char) (taken : Nat) (text : List Char) :
    quotedTail.go quote taken text = taken + quotedTail quote text :=
  quotedTail_go_add taken quote 0 text

theorem quotedTail_pair (quote c : Char) (rest : List Char) :
    quotedTail quote ('\\' :: c :: rest) = 2 + quotedTail quote rest := by
  rw [quotedTail, quotedTail_go_pair, quotedTail_go_eq]

theorem quotedTail_quote {quote : Char} (hq : quote ≠ '\\') (rest : List Char) :
    quotedTail quote (quote :: rest) = 1 := by
  rw [quotedTail, quotedTail_go_single hq, if_pos rfl]

theorem quotedTail_single {quote c : Char} (hslash : c ≠ '\\') (hquote : c ≠ quote)
    (rest : List Char) : quotedTail quote (c :: rest) = 1 + quotedTail quote rest := by
  rw [quotedTail, quotedTail_go_single hslash, if_neg hquote, quotedTail_go_eq]

theorem quotedTail_go_le (quote : Char) (taken : Nat) (text : List Char) :
    quotedTail.go quote taken text ≤ taken + text.length := by
  fun_induction quotedTail.go quote taken text with
  | case1 => exact Nat.le_refl _
  | case2 => exact Nat.le_refl _
  | case3 taken c rest ih =>
    rw [List.length_cons, List.length_cons]
    omega
  | case4 taken rest hslash =>
    rw [List.length_cons]
    omega
  | case5 taken c rest hslash hquote ih =>
    rw [List.length_cons]
    omega

/-- A quoted value ends in the text. -/
theorem quotedTail_le (quote : Char) (text : List Char) : quotedTail quote text ≤ text.length := by
  have hle := quotedTail_go_le quote 0 text
  rwa [Nat.zero_add] at hle

/-! ### Closing and cutting -/

/-- A quoted value ends with the first quote that no backslash takes along. -/
theorem quotedTail_of_escaped {quote : Char} (hq : quote ≠ '\\') {body : List Char}
    (h : Text.Escaped (· ≠ quote) body) (behind : List Char) :
    quotedTail quote (body ++ quote :: behind) = body.length + 1 := by
  induction h with
  | nil => exact quotedTail_quote hq behind
  | pair c _ ih =>
    rw [List.cons_append, List.cons_append, quotedTail_pair, ih, List.length_cons,
      List.length_cons]
    omega
  | single hc hplain _ ih =>
    rw [List.cons_append, quotedTail_single hc hplain, ih, List.length_cons]
    omega

/-- Behind an opening quote stands one of its kind that no backslash takes along. -/
def IsQuoteClosed (quote : Char) (text : List Char) : Prop :=
  ∃ body behind, text = body ++ quote :: behind ∧ Text.Escaped (· ≠ quote) body

theorem not_isQuoteClosed_nil (quote : Char) : ¬ IsQuoteClosed quote [] := by
  rintro ⟨body, behind, htext, -⟩
  cases body <;> cases htext

theorem not_isQuoteClosed_last {quote : Char} (hq : quote ≠ '\\') :
    ¬ IsQuoteClosed quote ['\\'] := by
  rintro ⟨body, behind, htext, hbody⟩
  cases hbody with
  | nil => exact hq (List.cons.inj htext).1.symm
  | pair => cases htext
  | single hne => exact hne (List.cons.inj htext).1.symm

theorem isQuoteClosed_quote (quote : Char) (rest : List Char) :
    IsQuoteClosed quote (quote :: rest) :=
  ⟨[], rest, rfl, .nil⟩

theorem isQuoteClosed_pair {quote : Char} (hq : quote ≠ '\\') (c : Char) (rest : List Char) :
    IsQuoteClosed quote ('\\' :: c :: rest) ↔ IsQuoteClosed quote rest := by
  constructor
  · rintro ⟨body, behind, htext, hbody⟩
    cases hbody with
    | nil => exact absurd (List.cons.inj htext).1.symm hq
    | pair _ hmore =>
      cases htext
      exact ⟨_, behind, rfl, hmore⟩
    | single hne => exact absurd (List.cons.inj htext).1.symm hne
  · rintro ⟨body, behind, rfl, hbody⟩
    exact ⟨'\\' :: c :: body, behind, rfl, .pair c hbody⟩

theorem isQuoteClosed_single {quote c : Char} (hslash : c ≠ '\\') (hquote : c ≠ quote)
    (rest : List Char) : IsQuoteClosed quote (c :: rest) ↔ IsQuoteClosed quote rest := by
  constructor
  · rintro ⟨body, behind, htext, hbody⟩
    cases hbody with
    | nil => exact absurd (List.cons.inj htext).1 hquote
    | pair => exact absurd (List.cons.inj htext).1 hslash
    | single _ _ hmore =>
      cases htext
      exact ⟨_, behind, rfl, hmore⟩
  · rintro ⟨body, behind, rfl, hbody⟩
    exact ⟨c :: body, behind, rfl, .single hslash hquote hbody⟩

/-- A quoted value that is not closed reaches to the end of the text. -/
theorem quotedTail_of_open {quote : Char} (hq : quote ≠ '\\') {text : List Char}
    (h : ¬ IsQuoteClosed quote text) : quotedTail quote text = text.length := by
  have hgo (taken : Nat) : quotedTail.go quote taken text = taken + text.length := by
    fun_induction quotedTail.go quote taken text with
    | case1 => rfl
    | case2 => rfl
    | case3 taken c rest ih =>
      rw [ih (mt (isQuoteClosed_pair hq c rest).2 h), List.length_cons, List.length_cons]
      omega
    | case4 taken rest => exact absurd (isQuoteClosed_quote quote rest) h
    | case5 taken c rest hslash hquote ih =>
      rw [ih (mt (isQuoteClosed_single hslash hquote rest).2 h), List.length_cons]
      omega
  rw [quotedTail, hgo, Nat.zero_add]

/-- A quoted value ends with a quote of its kind, or nothing is behind it. -/
theorem quotedTail_ends {quote : Char} (hq : quote ≠ '\\') (text : List Char) :
    (text.take (quotedTail quote text)).getLast? = some quote ∨
      text.drop (quotedTail quote text) = [] := by
  by_cases hclosed : IsQuoteClosed quote text
  · obtain ⟨body, behind, rfl, hbody⟩ := hclosed
    have htake : (body ++ quote :: behind).take (body.length + 1) = body ++ [quote] := by
      rw [List.append_cons, List.take_left' (by rw [List.length_append, List.length_singleton])]
    left
    rw [quotedTail_of_escaped hq hbody, htake, List.getLast?_concat]
  · right
    rw [quotedTail_of_open hq hclosed, List.drop_length]

/-- A quoted value that ends in front of something ends there whatever that is. -/
theorem quotedTail_append {quote : Char} (hq : quote ≠ '\\') {inner behind : List Char}
    (hne : behind ≠ []) (h : quotedTail quote (inner ++ behind) = inner.length)
    (other : List Char) : quotedTail quote (inner ++ other) = inner.length := by
  by_cases hclosed : IsQuoteClosed quote (inner ++ behind)
  · obtain ⟨body, rest, htext, hbody⟩ := hclosed
    rw [htext, quotedTail_of_escaped hq hbody] at h
    have hinner : inner = body ++ [quote] := by
      have htake := congrArg (List.take inner.length) htext
      rwa [List.take_left, List.append_cons, List.take_left' (by
        rw [List.length_append, List.length_singleton, h])] at htake
    rw [hinner, List.append_assoc, List.singleton_append, quotedTail_of_escaped hq hbody,
      List.length_append, List.length_singleton]
  · rw [quotedTail_of_open hq hclosed, List.length_append] at h
    exact absurd (List.length_eq_zero_iff.1 (by omega)) hne

/-- A cut at or behind the end of a quoted value leaves it as it is. -/
theorem quotedTail_go_take {quote : Char} {taken : Nat} {text : List Char} {k : Nat}
    (h : quotedTail.go quote taken text ≤ taken + k) :
    quotedTail.go quote taken (text.take k) = quotedTail.go quote taken text := by
  fun_induction quotedTail.go quote taken text generalizing k with
  | case1 => rw [List.take_nil, quotedTail_go_nil]
  | case2 taken =>
    rw [List.take_of_length_le (by simp only [List.length_cons, List.length_nil]; omega),
      quotedTail_go_last]
  | case3 taken c rest ih =>
    rw [quotedTail_go_eq] at h
    obtain ⟨m, rfl⟩ : ∃ m, k = m + 2 := ⟨k - 2, by omega⟩
    rw [List.take_succ_cons, List.take_succ_cons, quotedTail_go_pair]
    exact ih (by rw [quotedTail_go_eq]; omega)
  | case4 taken rest hslash =>
    obtain ⟨m, rfl⟩ : ∃ m, k = m + 1 := ⟨k - 1, by omega⟩
    rw [List.take_succ_cons, quotedTail_go_single hslash, if_pos rfl]
  | case5 taken c rest hslash hquote ih =>
    rw [quotedTail_go_eq] at h
    obtain ⟨m, rfl⟩ : ∃ m, k = m + 1 := ⟨k - 1, by omega⟩
    rw [List.take_succ_cons, quotedTail_go_single hslash, if_neg hquote]
    exact ih (by rw [quotedTail_go_eq]; omega)

theorem quotedTail_take {quote : Char} {text : List Char} {k : Nat}
    (h : quotedTail quote text ≤ k) : quotedTail quote (text.take k) = quotedTail quote text :=
  quotedTail_go_take (by rwa [Nat.zero_add])

/-! ### Assignments -/

/-- Without `=` nothing is assigned. -/
theorem assignmentLength_eq_zero {text : List Char}
    (h : (text.dropWhile Text.isSpace).head? ≠ some '=') : assignmentLength text = 0 := by
  unfold assignmentLength
  split
  · next heq =>
    rw [heq] at h
    exact absurd rfl h
  · rfl

theorem assignmentLength_of_dropWhile {text rest : List Char}
    (h : text.dropWhile Text.isSpace = '=' :: rest) :
    assignmentLength text = (text.takeWhile Text.isSpace).length + 1 +
      (rest.takeWhile Text.isSpace).length + valueLength (rest.dropWhile Text.isSpace) := by
  unfold assignmentLength
  split
  · next heq =>
    cases h.symm.trans heq
    rfl
  · next hne => exact absurd h (hne rest)

end TagLint.Attribute
