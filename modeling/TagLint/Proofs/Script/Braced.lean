import TagLint.Proofs.Script.Atom
import TagLint.Script.Braced

/-!
# The extent of a braced expression

`bracedTail` counts braces atom by atom. Here are its equations, what a cut of the text does to it
(`bracedTail_take`), and the grammar of the scripts that it reads as they are meant:

- `Items`: a text of items, which are braced texts of items, closed literals and comments, and
  characters that open nothing.
- `bracedTail_of_items`: the items before a closing brace are read whole, whatever follows the
  brace.
-/

namespace TagLint.Script

/-! ### Equations of the counter -/

theorem bracedTail_go_nil (outer taken : Nat) : bracedTail.go outer taken [] = taken := by
  rw [bracedTail.go]

theorem bracedTail_go_open (outer taken : Nat) (rest : List Char) :
    bracedTail.go outer taken ('{' :: rest) = bracedTail.go (outer + 1) (taken + 1) rest := by
  rw [bracedTail.go.eq_def]
  simp

theorem bracedTail_go_close_zero (taken : Nat) (rest : List Char) :
    bracedTail.go 0 taken ('}' :: rest) = taken + 1 := by
  rw [bracedTail.go.eq_def]
  simp

theorem bracedTail_go_close_succ (outer taken : Nat) (rest : List Char) :
    bracedTail.go (outer + 1) taken ('}' :: rest) = bracedTail.go outer (taken + 1) rest := by
  rw [bracedTail.go.eq_def]
  simp

theorem bracedTail_go_atom {c : Char} (hopen : c ≠ '{') (hclose : c ≠ '}') (outer taken : Nat)
    (rest : List Char) :
    bracedTail.go outer taken (c :: rest) =
      bracedTail.go outer (taken + 1 + atomTail c rest) (rest.drop (atomTail c rest)) := by
  rw [bracedTail.go.eq_def]
  simp only [if_neg hopen, if_neg hclose]

/-- The accumulator of `bracedTail` is added to the answer. -/
theorem bracedTail_go_add (base outer taken : Nat) (text : List Char) :
    bracedTail.go outer (base + taken) text = base + bracedTail.go outer taken text := by
  fun_induction bracedTail.go outer taken text with
  | case1 => rw [bracedTail_go_nil]
  | case2 outer taken rest ih => rw [bracedTail_go_open, ← ih, Nat.add_assoc]
  | case3 taken rest => rw [bracedTail_go_close_zero, Nat.add_assoc]
  | case4 taken rest outer hopen ih => rw [bracedTail_go_close_succ, ← ih, Nat.add_assoc]
  | case5 outer taken c rest hopen hclose tail ih =>
    rw [bracedTail_go_atom hopen hclose, ← ih, ← Nat.add_assoc, ← Nat.add_assoc]

theorem bracedTail_go_eq (outer taken : Nat) (text : List Char) :
    bracedTail.go outer taken text = taken + bracedTail.go outer 0 text :=
  bracedTail_go_add taken outer 0 text

theorem le_bracedTail_go (outer taken : Nat) (text : List Char) :
    taken ≤ bracedTail.go outer taken text := by
  rw [bracedTail_go_eq]
  exact Nat.le_add_right ..

theorem bracedTail_go_le (outer taken : Nat) (text : List Char) :
    bracedTail.go outer taken text ≤ taken + text.length := by
  fun_induction bracedTail.go outer taken text with
  | case1 => exact Nat.le_refl _
  | case2 outer taken rest ih =>
    rw [List.length_cons]
    omega
  | case3 taken rest =>
    rw [List.length_cons]
    omega
  | case4 taken rest outer hopen ih =>
    rw [List.length_cons]
    omega
  | case5 outer taken c rest hopen hclose tail ih =>
    have hle : tail ≤ rest.length := atomTail_le c rest
    rw [List.length_drop] at ih
    rw [List.length_cons]
    omega

/-- A braced expression ends in the text. -/
theorem bracedTail_le (text : List Char) : bracedTail text ≤ text.length := by
  have hle := bracedTail_go_le 0 0 text
  rwa [Nat.zero_add] at hle

/-! ### Cutting -/

/-- A cut at or behind the end of a braced expression leaves it as it is. -/
theorem bracedTail_go_take {outer taken : Nat} {text : List Char} {k : Nat}
    (h : bracedTail.go outer taken text ≤ taken + k) :
    bracedTail.go outer taken (text.take k) = bracedTail.go outer taken text := by
  fun_induction bracedTail.go outer taken text generalizing k with
  | case1 => rw [List.take_nil, bracedTail_go_nil]
  | case2 outer taken rest ih =>
    have := le_bracedTail_go (outer + 1) (taken + 1) rest
    obtain ⟨m, rfl⟩ : ∃ m, k = m + 1 := ⟨k - 1, by omega⟩
    rw [List.take_succ_cons, bracedTail_go_open]
    exact ih (by omega)
  | case3 taken rest =>
    obtain ⟨m, rfl⟩ : ∃ m, k = m + 1 := ⟨k - 1, by omega⟩
    rw [List.take_succ_cons, bracedTail_go_close_zero]
  | case4 taken rest outer hopen ih =>
    have := le_bracedTail_go outer (taken + 1) rest
    obtain ⟨m, rfl⟩ : ∃ m, k = m + 1 := ⟨k - 1, by omega⟩
    rw [List.take_succ_cons, bracedTail_go_close_succ]
    exact ih (by omega)
  | case5 outer taken c rest hopen hclose tail =>
    rename_i ih
    have := le_bracedTail_go outer (taken + 1 + tail) (rest.drop tail)
    obtain ⟨m, rfl⟩ : ∃ m, k = m + 1 := ⟨k - 1, by omega⟩
    have htail : atomTail c (rest.take m) = tail := atomTail_take (by omega)
    rw [List.take_succ_cons, bracedTail_go_atom hopen hclose, htail, List.drop_take]
    exact ih (by omega)

theorem bracedTail_take {text : List Char} {k : Nat} (h : bracedTail text ≤ k) :
    bracedTail (text.take k) = bracedTail text :=
  bracedTail_go_take (by rwa [Nat.zero_add])

/-! ### The grammar of scripts -/

/-- A text of items. A slash stands for itself only where it opens no comment. -/
inductive Items : List Char → Prop
  | nil : Items []
  | nested {inner rest : List Char} :
    Items inner → Items rest → Items ('{' :: (inner ++ '}' :: rest))
  | literal {quote : Char} {body rest : List Char} : isQuote quote = true →
    Text.Escaped (IsLiteralChar quote) body → Items rest → Items (quote :: (body ++ quote :: rest))
  | lineComment {body rest : List Char} :
    '\n' ∉ body → Items rest → Items ('/' :: '/' :: (body ++ '\n' :: rest))
  | blockComment {body rest : List Char} : ¬ ['*', '/'] <:+: body → Items rest →
    Items ('/' :: '*' :: (body ++ (['*', '/'] ++ rest)))
  | slash {rest : List Char} : rest.head? ≠ some '/' → rest.head? ≠ some '*' → Items rest →
    Items ('/' :: rest)
  | plain {c : Char} {rest : List Char} : c ≠ '/' → c ≠ '{' → c ≠ '}' → isQuote c = false →
    Items rest → Items (c :: rest)

theorem atomTail_of_escaped {quote : Char} (hq : isQuote quote = true) {body : List Char}
    (h : Text.Escaped (IsLiteralChar quote) body) (behind : List Char) :
    atomTail quote (body ++ quote :: behind) = body.length + 1 := by
  have hslash : quote ≠ '/' := by
    rintro rfl
    cases hq
  rw [atomTail, if_neg hslash, if_pos hq,
    (literalTail?_eq_some_iff hq).2 ⟨body, behind, rfl, h, rfl⟩, Option.getD_some]

theorem atomTail_line {body : List Char} (h : '\n' ∉ body) (behind : List Char) :
    atomTail '/' ('/' :: (body ++ '\n' :: behind)) = 1 + body.length := by
  have hbody : ∀ c ∈ body, (c != '\n') = true := by
    intro c hc
    simpa using fun heq : c = '\n' => h (heq ▸ hc)
  rw [atomTail, if_pos rfl, commentTail?, List.takeWhile_append_of_pos hbody,
    List.takeWhile_cons_of_neg (by simp), List.append_nil, Option.getD_some]

theorem atomTail_block {body : List Char} (h : ¬ ['*', '/'] <:+: body) (behind : List Char) :
    atomTail '/' ('*' :: (body ++ (['*', '/'] ++ behind))) = 1 + (body.length + 2) := by
  rw [atomTail, if_pos rfl, commentTail?,
    Text.through?_append_closer (by simp) (by decide) h]
  rfl

theorem atomTail_slash {rest : List Char} (hline : rest.head? ≠ some '/')
    (hblock : rest.head? ≠ some '*') : atomTail '/' rest = 0 := by
  rw [atomTail, if_pos rfl, commentTail?_of_head? hline hblock, Option.getD_none]

theorem atomTail_plain {c : Char} (hslash : c ≠ '/') (hq : isQuote c = false) (rest : List Char) :
    atomTail c rest = 0 := by
  rw [atomTail, if_neg hslash, if_neg (by simp [hq])]

/-- An atom is read whole. -/
theorem bracedTail_go_skip {c : Char} (hopen : c ≠ '{') (hclose : c ≠ '}')
    {tail behind : List Char} (htail : atomTail c (tail ++ behind) = tail.length)
    (outer taken : Nat) :
    bracedTail.go outer taken (c :: (tail ++ behind)) =
      bracedTail.go outer (taken + 1 + tail.length) behind := by
  rw [bracedTail_go_atom hopen hclose, htail, List.drop_left]

/-- Items are read whole up to the brace behind them. -/
theorem bracedTail_go_of_items {inner : List Char} (h : Items inner) (outer taken : Nat)
    (behind : List Char) :
    bracedTail.go outer taken (inner ++ '}' :: behind) =
      bracedTail.go outer (taken + inner.length) ('}' :: behind) := by
  -- the text behind is arbitrary, for an inner expression is followed by more items
  induction h generalizing outer taken behind with
  | nil => rfl
  | nested _ _ ihInner ihRest =>
    rw [List.cons_append, List.append_assoc, List.cons_append, bracedTail_go_open, ihInner,
      bracedTail_go_close_succ, ihRest]
    simp only [List.length_cons, List.length_append]
    congr 1
    omega
  | @literal quote body rest hq hbody _ ih =>
    have hopen : quote ≠ '{' := by rintro rfl; cases hq
    have hclose : quote ≠ '}' := by rintro rfl; cases hq
    have htext : quote :: (body ++ quote :: rest) ++ '}' :: behind =
        quote :: ((body ++ [quote]) ++ (rest ++ '}' :: behind)) := by simp
    rw [htext, bracedTail_go_skip hopen hclose, ih]
    · simp only [List.length_cons, List.length_append, List.length_nil]
      congr 1
      omega
    · rw [List.append_assoc, List.singleton_append, atomTail_of_escaped hq hbody]
      simp
  | @lineComment body rest hbody _ ih =>
    have htext : '/' :: '/' :: (body ++ '\n' :: rest) ++ '}' :: behind =
        '/' :: (('/' :: body) ++ ('\n' :: ([] ++ (rest ++ '}' :: behind)))) := by simp
    -- the newline is an atom of its own
    rw [htext, bracedTail_go_skip (by decide) (by decide),
      bracedTail_go_skip (by decide) (by decide) (atomTail_plain (by decide) (by decide) _), ih]
    · simp only [List.length_cons, List.length_append, List.length_nil]
      congr 1
      omega
    · rw [List.cons_append, atomTail_line hbody, List.length_cons, Nat.add_comm]
  | @blockComment body rest hbody _ ih =>
    have htext : '/' :: '*' :: (body ++ (['*', '/'] ++ rest)) ++ '}' :: behind =
        '/' :: (('*' :: (body ++ ['*', '/'])) ++ (rest ++ '}' :: behind)) := by simp
    rw [htext, bracedTail_go_skip (by decide) (by decide), ih]
    · simp only [List.length_cons, List.length_append, List.length_nil]
      congr 1
      omega
    · rw [List.cons_append, List.append_assoc, atomTail_block hbody]
      simp only [List.length_cons, List.length_append, List.length_nil]
      omega
  | @slash rest hline hblock _ ih =>
    have hhead : ∀ c, c ≠ '}' → rest.head? ≠ some c → (rest ++ '}' :: behind).head? ≠ some c := by
      intro c hc hrest
      cases rest with
      | nil => simpa using Ne.symm hc
      | cons d rest => exact hrest
    have htail : atomTail '/' ([] ++ (rest ++ '}' :: behind)) = 0 :=
      atomTail_slash (hhead '/' (by decide) hline) (hhead '*' (by decide) hblock)
    rw [List.cons_append, ← List.nil_append (rest ++ '}' :: behind),
      bracedTail_go_skip (by decide) (by decide) htail, ih]
    simp only [List.length_cons, List.length_nil]
    congr 1
    omega
  | @plain c rest hslash hopen hclose hq _ ih =>
    rw [List.cons_append, ← List.nil_append (rest ++ '}' :: behind),
      bracedTail_go_skip hopen hclose (atomTail_plain hslash hq _), ih]
    simp only [List.length_cons, List.length_nil]
    congr 1
    omega

/-- A braced expression of items ends with the brace behind the items. -/
theorem bracedTail_of_items {inner : List Char} (h : Items inner) (behind : List Char) :
    bracedTail (inner ++ '}' :: behind) = inner.length + 1 := by
  rw [bracedTail, bracedTail_go_of_items h, bracedTail_go_close_zero, Nat.zero_add]

end TagLint.Script
