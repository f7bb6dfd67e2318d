import Mathlib.Data.List.TakeWhile
import TagLint.Proofs.Script.Balance

/-!
# Scripts, read part by part

A script is read from the front. Where a closed literal or comment stands, it is read whole;
everywhere else one character is read, be it a quote or a slash that opens something.

- `Whole`: a closed literal or comment, and what follows it.
- `Reads`: the parts in which a text is read. There is one such reading, and its parts are the
  atoms of the text (`reads_iff`).
- `Closes`: the parts in front of the first closing brace at which as many braces are closed as
  opened. Only a brace that is a part of its own counts.
- `exists_closes`: a braced expression that is closed ends with that brace.
-/

namespace TagLint.Script

/-! ### Parts -/

/-- A closed literal or comment, with the text behind it. A line comment goes on to the end of its
line; the others end where they are closed, whatever is behind them. -/
inductive Whole : List Char → List Char → Prop
  | literal {quote : Char} {body : List Char} (behind : List Char) : isQuote quote = true →
    Text.Escaped (IsLiteralChar quote) body → Whole (quote :: (body ++ [quote])) behind
  | lineComment {body behind : List Char} : '\n' ∉ body → (∀ c ∈ behind.head?, c = '\n') →
    Whole ('/' :: '/' :: body) behind
  | blockComment {body : List Char} (behind : List Char) : ¬ ['*', '/'] <:+: body →
    Whole ('/' :: '*' :: (body ++ ['*', '/'])) behind

/-- The parts in which a text is read. -/
inductive Reads : List (List Char) → List Char → Prop
  | nil : Reads [] []
  | whole {part behind : List Char} {parts : List (List Char)} :
    Whole part behind → Reads parts behind → Reads (part :: parts) (part ++ behind)
  | single {c : Char} {rest : List Char} {parts : List (List Char)} :
    (∀ part behind, c :: rest = part ++ behind → ¬ Whole part behind) → Reads parts rest →
    Reads ([c] :: parts) (c :: rest)

/-- The characters behind `c` of the literal or comment that `c` opens, if it is closed. -/
def wholeTail? (c : Char) (rest : List Char) : Option Nat :=
  if c = '/' then commentTail? rest
  else if isQuote c then literalTail? c rest
  else none

variable {c : Char} {tail rest behind text part : List Char} {parts : List (List Char)} {n : Nat}

theorem atomTail_eq (c : Char) (rest : List Char) : atomTail c rest = (wholeTail? c rest).getD 0 := by
  rw [atomTail, wholeTail?]
  split
  · rfl
  · split <;> rfl

theorem wholeTail?_slash (rest : List Char) : wholeTail? '/' rest = commentTail? rest :=
  if_pos rfl

theorem wholeTail?_quote (hq : isQuote c = true) (rest : List Char) :
    wholeTail? c rest = literalTail? c rest := by
  have hslash : c ≠ '/' := by
    rintro rfl
    cases hq
  rw [wholeTail?, if_neg hslash, if_pos hq]

/-- A closed literal or comment is counted whole. -/
theorem Whole.wholeTail? (h : Whole part behind) :
    ∃ c tail, part = c :: tail ∧ wholeTail? c (tail ++ behind) = some tail.length := by
  cases h with
  | @literal quote body _ hq hbody =>
    refine ⟨quote, body ++ [quote], rfl, ?_⟩
    rw [wholeTail?_quote hq, List.append_assoc, List.length_append]
    exact (literalTail?_eq_some_iff hq).2 ⟨body, behind, rfl, hbody, rfl⟩
  | @lineComment body _ hbody hbehind =>
    have hrun : ∀ c ∈ body, (c != '\n') = true := by
      intro c hc
      exact bne_iff_ne.2 fun heq => hbody (heq ▸ hc)
    have hends : Text.Ends (· != '\n') behind := by
      intro c hc
      rw [hbehind c hc]
      rfl
    refine ⟨'/', '/' :: body, rfl, ?_⟩
    rw [wholeTail?_slash, List.cons_append, commentTail?, Text.takeWhile_append hrun hends,
      List.length_cons, Nat.add_comm]
  | @blockComment body _ hbody =>
    have hlength : ('*' :: (body ++ ['*', '/'])).length = 1 + (body.length + ['*', '/'].length) := by
      simp
      omega
    refine ⟨'/', '*' :: (body ++ ['*', '/']), rfl, ?_⟩
    rw [wholeTail?_slash, List.cons_append, List.append_assoc, commentTail?,
      Text.through?_append_closer (by simp) (by decide) hbody, Option.map_some, hlength]

/-- What is counted whole is a closed literal or comment. -/
theorem whole_of_wholeTail? (h : wholeTail? c rest = some n) :
    Whole (c :: rest.take n) (rest.drop n) := by
  rw [wholeTail?] at h
  split at h
  · next hslash =>
    subst hslash
    unfold commentTail? at h
    split at h
    · next rest =>
      cases h
      rw [Nat.add_comm, List.take_succ_cons, List.drop_succ_cons, Text.take_length_takeWhile,
        Text.drop_length_takeWhile]
      refine .lineComment (fun hmem => ?_) fun c hc => ?_
      · exact absurd (List.mem_takeWhile_imp hmem) (by simp)
      · simpa using Text.ends_dropWhile (· != '\n') rest c hc
    · next rest =>
      obtain ⟨m, hm, rfl⟩ := Option.map_eq_some_iff.1 h
      obtain ⟨body, behind, rfl, hbody, rfl⟩ := Text.exists_of_through? (by simp) hm
      rw [Nat.add_comm, List.take_succ_cons, List.drop_succ_cons, ← List.length_append,
        ← List.append_assoc, List.take_left, List.drop_left]
      exact .blockComment behind hbody
    · cases h
  · split at h
    · next hq =>
      obtain ⟨body, behind, rfl, hbody, rfl⟩ := (literalTail?_eq_some_iff hq).1 h
      have htext : body ++ c :: behind = (body ++ [c]) ++ behind := by simp
      have hlength : body.length + 1 = (body ++ [c]).length := by simp
      rw [htext, hlength, List.take_left, List.drop_left]
      exact .literal behind hq hbody
    · cases h

/-- Something is counted whole exactly where a closed literal or comment stands. -/
theorem wholeTail?_eq_none_iff : wholeTail? c rest = none ↔
    ∀ part behind, c :: rest = part ++ behind → ¬ Whole part behind := by
  constructor
  · intro hnone part behind htext hwhole
    obtain ⟨d, tail, rfl, htail⟩ := hwhole.wholeTail?
    obtain ⟨rfl, rfl⟩ := List.cons.inj htext
    cases hnone.symm.trans htail
  · intro h
    cases htail : wholeTail? c rest with
    | none => rfl
    | some n =>
      refine absurd (whole_of_wholeTail? htail) (h _ _ ?_)
      rw [List.cons_append, List.take_append_drop]

/-- The atoms of a text are a reading of it. -/
theorem reads_atoms (text : List Char) : Reads (atoms text) text := by
  fun_induction atoms text with
  | case1 => exact .nil
  | case2 c rest ih =>
    rw [atomTail_eq] at ih ⊢
    cases htail : wholeTail? c rest with
    | none =>
      rw [htail] at ih
      exact .single (wholeTail?_eq_none_iff.1 htail) ih
    | some n =>
      rw [htail] at ih
      have hread := Reads.whole (whole_of_wholeTail? htail) ih
      rwa [List.cons_append, Option.getD_some, List.take_append_drop] at hread

/-- A text is read in one way, atom by atom. -/
theorem reads_iff : Reads parts text ↔ parts = atoms text := by
  constructor
  · intro h
    induction h with
    | nil => rw [atoms_nil]
    | whole hwhole _ ih =>
      obtain ⟨c, tail, rfl, htail⟩ := hwhole.wholeTail?
      rw [List.cons_append, atoms_cons, atomTail_eq, htail, Option.getD_some, List.take_left,
        List.drop_left, ih]
    | single hnone _ ih =>
      rw [atoms_cons, atomTail_eq, wholeTail?_eq_none_iff.2 hnone, Option.getD_none,
        List.take_zero, List.drop_zero, ih]
  · rintro rfl
    exact reads_atoms text

/-- The parts of a text make the text. -/
theorem flatten_atoms (text : List Char) : (atoms text).flatten = text := by
  fun_induction atoms text with
  | case1 => rfl
  | case2 c rest ih => rw [List.flatten_cons, ih, List.cons_append, List.take_append_drop]

/-! ### The brace that closes -/

/-- With the parts `inner` and a closing brace, as many braces of these parts are closed as opened,
and `opened` more. There is no earlier brace of this kind. -/
structure Closes (opened : Nat) (inner parts : List (List Char)) : Prop where
  stands : inner ++ [['}']] <+: parts
  balanced : (inner ++ [['}']]).count ['}'] = (inner ++ [['}']]).count ['{'] + opened
  first : ∀ front, front ++ [['}']] <+: parts →
    (front ++ [['}']]).count ['}'] = (front ++ [['}']]).count ['{'] + opened →
    inner.length ≤ front.length

variable {opened outer : Nat} {inner : List (List Char)} {first : List Char}

/-- A first part that does not close the expression is in front of the brace that does. -/
theorem Closes.cons {left : Nat} (h : Closes left inner parts)
    (hfirst : first ≠ ['}'] ∨ opened ≠ 1)
    (hleft : [first].count ['}'] + left = [first].count ['{'] + opened) :
    Closes opened (first :: inner) (first :: parts) := by
  have hcount (part : List Char) (front : List (List Char)) :
      (first :: front).count part = [first].count part + front.count part :=
    @List.count_append _ _ _ [first] front
  constructor
  case stands => exact List.cons_prefix_cons.2 ⟨rfl, h.stands⟩
  case balanced =>
    have hbalanced := h.balanced
    rw [List.cons_append, hcount ['}'], hcount ['{']]
    omega
  case first =>
    rintro (_ | ⟨next, front⟩) hstands hbalanced
    · obtain ⟨rfl, -⟩ := List.cons_prefix_cons.1 hstands
      rcases hfirst with hne | hne
      · exact absurd rfl hne
      · exact absurd (hbalanced.symm.trans rfl) (by simpa using hne)
    · obtain ⟨rfl, hfront⟩ := List.cons_prefix_cons.1 hstands
      rw [List.cons_append, hcount ['}'], hcount ['{']] at hbalanced
      exact Nat.succ_le_succ (h.first front hfront (by omega))

theorem Closes.unique {other : List (List Char)} (h : Closes opened inner parts)
    (hother : Closes opened other parts) : other = inner := by
  have hle := h.first other hother.stands hother.balanced
  have hge := hother.first inner h.stands h.balanced
  have hinner : inner <+: parts := (List.prefix_append inner _).trans h.stands
  have hfront : other <+: parts := (List.prefix_append other _).trans hother.stands
  exact (List.prefix_of_prefix_length_le hfront hinner hge).eq_of_length (Nat.le_antisymm hge hle)

/-- The brace that balances a first one closes the expression behind that. -/
theorem Closes.isClosed (h : Closes 0 inner (['{'] :: atoms rest)) : IsClosed 0 rest := by
  obtain ⟨behind, hatoms⟩ := h.stands
  have hbalanced := h.balanced
  cases inner with
  | nil => cases (List.cons.inj hatoms).1
  | cons first inner =>
    obtain ⟨rfl, hrest⟩ : ['{'] = first ∧ atoms rest = inner ++ ['}'] :: behind := by
      simpa [eq_comm] using hatoms
    refine ⟨inner, behind, hrest, ?_⟩
    simp only [List.count_append, List.count_cons, List.count_nil] at hbalanced
    simpa using hbalanced

/-- An expression that is closed ends with the first brace that closes it. -/
theorem exists_closes (taken : Nat) (h : IsClosed outer text) : ∃ inner,
    Closes (outer + 1) inner (atoms text) ∧
      bracedTail.go outer taken text = taken + inner.flatten.length + 1 := by
  fun_induction bracedTail.go outer taken text with
  | case1 outer => exact absurd h (not_isClosed_nil outer)
  | case2 outer taken rest ih =>
    obtain ⟨inner, hcloses, htail⟩ := ih (isClosed_open.1 h)
    refine ⟨['{'] :: inner, ?_, ?_⟩
    · rw [atoms_brace (.inl rfl)]
      exact hcloses.cons (.inl (by decide)) (by simp; omega)
    · rw [htail, List.flatten_cons, List.length_append, List.length_singleton]
      omega
  | case3 taken rest =>
    refine ⟨[], ?_, rfl⟩
    rw [atoms_brace (.inr rfl)]
    exact ⟨⟨atoms rest, rfl⟩, rfl, fun front _ _ => Nat.zero_le _⟩
  | case4 taken rest outer _ ih =>
    obtain ⟨inner, hcloses, htail⟩ := ih (isClosed_close_succ.1 h)
    refine ⟨['}'] :: inner, ?_, ?_⟩
    · rw [atoms_brace (.inr rfl)]
      exact hcloses.cons (.inr (by omega)) (by simp; omega)
    · rw [htail, List.flatten_cons, List.length_append, List.length_singleton]
      omega
  | case5 outer taken c rest hopen hclose tail ih =>
    obtain ⟨inner, hcloses, hgo⟩ := ih ((isClosed_atom hopen hclose).1 h)
    have hne {brace : Char} (h : c ≠ brace) : c :: rest.take tail ≠ [brace] :=
      fun heq => h (List.cons.inj heq).1
    have hlength : (rest.take tail).length = tail :=
      List.length_take_of_le (atomTail_le c rest)
    refine ⟨(c :: rest.take tail) :: inner, ?_, ?_⟩
    · rw [atoms_cons]
      exact hcloses.cons (.inl (hne hclose)) (by simp [hne hopen, hne hclose])
    · rw [hgo, List.flatten_cons, List.length_append, List.length_cons, hlength]
      omega

/-- A braced expression ends with a closing brace, or nothing is behind it. -/
theorem bracedTail_ends (rest : List Char) :
    (rest.take (bracedTail rest)).getLast? = some '}' ∨ rest.drop (bracedTail rest) = [] := by
  by_cases hclosed : IsClosed 0 rest
  · obtain ⟨inner, hcloses, htail⟩ := exists_closes 0 hclosed
    obtain ⟨behind, hatoms⟩ := hcloses.stands
    have htext : rest = (inner.flatten ++ ['}']) ++ behind.flatten := by
      rw [← flatten_atoms rest, ← hatoms]
      simp
    have hlength : bracedTail rest = (inner.flatten ++ ['}']).length := by
      rw [bracedTail, htail]
      simp
    have htake : rest.take (inner.flatten ++ ['}']).length = inner.flatten ++ ['}'] := by
      rw [htext, List.take_left]
    exact .inl (by rw [hlength, htake, List.getLast?_concat])
  · right
    rw [bracedTail_of_open hclosed, List.drop_length]

end TagLint.Script
