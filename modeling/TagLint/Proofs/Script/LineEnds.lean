import Mathlib.Data.List.TakeWhile
import TagLint.Proofs.Script.Braced
import TagLint.Proofs.Text.LineEnds

/-!
# Scripts with another line end

A script with carriage returns before its newlines is read like the script without them, but for
one thing. A backslash in a literal takes one character along. That is the whole line end if it is
a newline, and else only the carriage return, so the newline behind it leaves the literal open.

- `escapesNewline`, `lineLiteral?`: the literals of which that is so, unless they are templates.
- `literalTail?_crlf`: a literal ends at the counterpart of its end, or else it escapes a newline.
- `literals`: the single- and double-quoted literals of a script.
- `bracedTail_crlf`: a script of which no such literal escapes a newline ends at the counterpart of
  its end.
-/

namespace TagLint.Script

open Text

/-! ### Equations of literals -/

/-- The accumulator of `literalTail?` is added to the answer. -/
theorem literalTail?_go_add (base : Nat) (quote : Char) (taken : Nat) (text : List Char) :
    literalTail?.go quote (base + taken) text =
      (literalTail?.go quote taken text).map (base + ·) := by
  fun_induction literalTail?.go quote taken text with
  | case1 => rfl
  | case2 => rfl
  | case3 taken c rest ih => rw [literalTail?_go_pair, ← ih, Nat.add_assoc]
  | case4 taken c rest hslash hline => rw [literalTail?_go_single hslash, if_pos hline]; rfl
  | case5 taken rest hslash hline =>
    rw [literalTail?_go_single hslash, if_neg hline, if_pos rfl, Nat.add_assoc]
    rfl
  | case6 taken c rest hslash hline hquote ih =>
    rw [literalTail?_go_single hslash, if_neg hline, if_neg hquote, ← ih, Nat.add_assoc]

theorem literalTail?_go_eq (quote : Char) (taken : Nat) (text : List Char) :
    literalTail?.go quote taken text = (literalTail? quote text).map (taken + ·) :=
  literalTail?_go_add taken quote 0 text

theorem literalTail?_pair (quote c : Char) (rest : List Char) :
    literalTail? quote ('\\' :: c :: rest) = (literalTail? quote rest).map (2 + ·) := by
  rw [literalTail?, literalTail?_go_pair, literalTail?_go_eq]

theorem literalTail?_quote {quote : Char} (hq : isQuote quote = true) (rest : List Char) :
    literalTail? quote (quote :: rest) = some 1 := by
  obtain ⟨hslash, hnewline⟩ := ne_of_isQuote hq
  rw [literalTail?, literalTail?_go_single hslash, if_neg (by simp [hnewline]), if_pos rfl]

theorem literalTail?_newline {quote : Char} (hq : quote ≠ templateQuote) (rest : List Char) :
    literalTail? quote ('\n' :: rest) = none := by
  rw [literalTail?, literalTail?_go_single (by decide), if_pos (by simpa using hq)]

theorem literalTail?_single {quote c : Char} (hslash : c ≠ '\\') (hc : IsLiteralChar quote c)
    (rest : List Char) :
    literalTail? quote (c :: rest) = (literalTail? quote rest).map (1 + ·) := by
  have hline : ¬ (decide (c = '\n') && quote != templateQuote) = true := by
    simpa using hc.2
  rw [literalTail?, literalTail?_go_single hslash, if_neg hline, if_neg hc.1, literalTail?_go_eq]

/-! ### Literals that escape a newline -/

/-- Whether a backslash of a text takes a newline along. -/
def escapesNewline : List Char → Bool
  | [] => false
  | c :: rest =>
    if c = '\\' then
      match rest with
      | [] => false
      | d :: rest => d = '\n' || escapesNewline rest
    else escapesNewline rest

theorem escapesNewline_pair (c : Char) (rest : List Char) :
    escapesNewline ('\\' :: c :: rest) = (decide (c = '\n') || escapesNewline rest) := by
  rw [escapesNewline.eq_def]
  rfl

theorem escapesNewline_single {c : Char} (h : c ≠ '\\') (rest : List Char) :
    escapesNewline (c :: rest) = escapesNewline rest := by
  rw [escapesNewline.eq_def]
  exact if_neg h

/-- The counterpart of the end of a literal. There is none if the literal is no template and
escapes a newline, for it is left open then. -/
def crlfTail? (quote : Char) (text : List Char) (tail : Nat) : Option Nat :=
  if quote != templateQuote && escapesNewline (text.take tail) then none
  else some (crlfPlace text tail)

theorem crlfTail?_quote {quote : Char} (hq : isQuote quote = true) (rest : List Char) :
    crlfTail? quote (quote :: rest) 1 = some 1 := by
  obtain ⟨hslash, hnewline⟩ := ne_of_isQuote hq
  rw [crlfTail?, List.take_succ_cons, List.take_zero, escapesNewline_single hslash, escapesNewline,
    Bool.and_false, crlfPlace_cons hnewline, crlfPlace_zero]
  rfl

/-- Behind a character that escapes nothing. -/
theorem crlfTail?_single {c : Char} (hslash : c ≠ '\\') (hc : c ≠ '\n') (quote : Char)
    (rest : List Char) (tail : Nat) :
    crlfTail? quote (c :: rest) (1 + tail) = (crlfTail? quote rest tail).map (1 + ·) := by
  rw [Nat.add_comm, crlfTail?, crlfTail?, List.take_succ_cons, escapesNewline_single hslash,
    crlfPlace_cons hc]
  split
  · rfl
  · rw [Option.map_some, Nat.add_comm 1]

/-- Behind a line end. -/
theorem crlfTail?_newline (quote : Char) (rest : List Char) (tail : Nat) :
    crlfTail? quote ('\n' :: rest) (1 + tail) = (crlfTail? quote rest tail).map (2 + ·) := by
  rw [Nat.add_comm, crlfTail?, crlfTail?, List.take_succ_cons, escapesNewline_single (by decide),
    crlfPlace_newline]
  split
  · rfl
  · rw [Option.map_some, Nat.add_comm 2]

/-- Behind an escaped character. -/
theorem crlfTail?_pair {c : Char} (hc : c ≠ '\n') (quote : Char) (rest : List Char) (tail : Nat) :
    crlfTail? quote ('\\' :: c :: rest) (2 + tail) = (crlfTail? quote rest tail).map (2 + ·) := by
  rw [Nat.add_comm, crlfTail?, crlfTail?, List.take_succ_cons, List.take_succ_cons,
    escapesNewline_pair, crlfPlace_cons (by decide), crlfPlace_cons hc, decide_eq_false hc,
    Bool.false_or]
  split
  · rfl
  · rw [Option.map_some, Nat.add_comm 2]

/-- Behind an escaped line end, in a template. -/
theorem crlfTail?_template (rest : List Char) (tail : Nat) :
    crlfTail? templateQuote ('\\' :: '\n' :: rest) (2 + tail) =
      (crlfTail? templateQuote rest tail).map (3 + ·) := by
  rw [Nat.add_comm, crlfTail?, crlfTail?, crlfPlace_cons (by decide), crlfPlace_newline,
    Nat.add_assoc, Nat.add_comm _ (2 + 1)]
  rfl

/-- Behind an escaped line end, in another literal, which is left open. -/
theorem crlfTail?_escape {quote : Char} (hq : quote ≠ templateQuote) (rest : List Char)
    (tail : Nat) : crlfTail? quote ('\\' :: '\n' :: rest) (2 + tail) = none := by
  rw [Nat.add_comm, crlfTail?, List.take_succ_cons, List.take_succ_cons, escapesNewline_pair]
  simp [hq]

/-- The counterpart of the end of a literal, if that of each tail of it is known. -/
theorem bind_crlfTail? {quote : Char} {text rest : List Char} {n m : Nat}
    (h : ∀ tail, crlfTail? quote text (n + tail) = (crlfTail? quote rest tail).map (m + ·)) :
    ((literalTail? quote rest).map (n + ·)).bind (crlfTail? quote text) =
      ((literalTail? quote rest).bind (crlfTail? quote rest)).map (m + ·) := by
  cases literalTail? quote rest with
  | none => rfl
  | some tail => exact h tail

/-- **A literal ends at the counterpart of its end, or it escapes a newline** and is left open. -/
theorem literalTail?_crlf {quote : Char} (hq : isQuote quote = true) (text : List Char) :
    literalTail? quote (crlf text) = (literalTail? quote text).bind (crlfTail? quote text) := by
  obtain ⟨hquoteSlash, hquoteNewline⟩ := ne_of_isQuote hq
  have hreturn : IsLiteralChar quote '\r' := by
    refine ⟨?_, nofun⟩
    rintro rfl
    cases hq
  have hnewline : IsLiteralChar templateQuote '\n' := ⟨by decide, fun _ => rfl⟩
  induction hn : text.length using Nat.strongRecOn generalizing text with
  | ind n ih =>
    subst hn
    rcases text with _ | ⟨c, rest⟩
    · rfl
    by_cases hslash : c = '\\'
    · subst hslash
      rcases rest with _ | ⟨d, rest⟩
      · rfl
      have hrest : literalTail? quote (crlf rest) = _ :=
        ih rest.length (Nat.lt_succ_of_lt (Nat.lt_succ_self rest.length)) rest rfl
      rw [crlf_cons (by decide), literalTail?_pair]
      by_cases hd : d = '\n'
      · -- the backslash takes the carriage return along, and behind that is the newline
        subst hd
        rw [crlf_newline, literalTail?_pair]
        by_cases htemplate : quote = templateQuote
        · subst htemplate
          rw [literalTail?_single (by decide) hnewline, hrest,
            bind_crlfTail? (crlfTail?_template rest), Option.map_map]
          congr 1
          funext n
          exact (Nat.add_assoc 2 1 n).symm
        · rw [literalTail?_newline htemplate]
          cases literalTail? quote rest with
          | none => rfl
          | some tail => exact (crlfTail?_escape htemplate rest tail).symm
      · rw [crlf_cons hd, literalTail?_pair, hrest, bind_crlfTail? (crlfTail?_pair hd quote rest)]
    have hrest : literalTail? quote (crlf rest) = _ :=
      ih rest.length (Nat.lt_succ_self rest.length) rest rfl
    by_cases hquote : c = quote
    · subst hquote
      rw [crlf_cons hquoteNewline, literalTail?_quote hq, literalTail?_quote hq]
      exact (crlfTail?_quote hq rest).symm
    by_cases hc : c = '\n'
    · subst hc
      rw [crlf_newline, literalTail?_single (by decide) hreturn]
      by_cases htemplate : quote = templateQuote
      · subst htemplate
        rw [literalTail?_single (by decide) hnewline, literalTail?_single (by decide) hnewline,
          hrest, bind_crlfTail? (crlfTail?_newline templateQuote rest), Option.map_map]
        congr 1
        funext n
        exact (Nat.add_assoc 1 1 n).symm
      · rw [literalTail?_newline htemplate, literalTail?_newline htemplate]
        rfl
    · have hliteral : IsLiteralChar quote c := ⟨hquote, fun h => absurd h hc⟩
      rw [crlf_cons hc, literalTail?_single hslash hliteral, literalTail?_single hslash hliteral,
        hrest, bind_crlfTail? (crlfTail?_single hslash hc quote rest)]

/-! ### Atoms -/

/-- The single- or double-quoted literal that `c` opens in front of `rest`, if it is closed. -/
def lineLiteral? (c : Char) (rest : List Char) : Option (List Char) :=
  if isQuote c && c != templateQuote then (literalTail? c rest).map fun tail => c :: rest.take tail
  else none

/-- No backslash in the literals takes a newline along. -/
def Portable (literals : List (List Char)) : Prop :=
  ∀ literal ∈ literals, escapesNewline literal = false

theorem Portable.of_append {front literals : List (List Char)} (h : Portable (front ++ literals)) :
    Portable front ∧ Portable literals :=
  List.forall_mem_append.1 h

/-- The tail of a literal in front of which no newline is escaped has a counterpart. -/
theorem literalTail?_crlf_of_portable {c : Char} (hq : isQuote c = true) {rest : List Char}
    (h : Portable (lineLiteral? c rest).toList) :
    literalTail? c (crlf rest) = (literalTail? c rest).map (crlfPlace rest) := by
  rw [literalTail?_crlf hq]
  rcases htail : literalTail? c rest with _ | tail
  · rfl
  rw [Option.bind_some, Option.map_some, crlfTail?]
  by_cases htemplate : c = templateQuote
  · subst htemplate
    rfl
  · have hliteral : lineLiteral? c rest = some (c :: rest.take tail) := by
      rw [lineLiteral?, if_pos (by simp [hq, htemplate]), htail, Option.map_some]
    rw [hliteral] at h
    have hescapes := h _ List.mem_cons_self
    rw [escapesNewline_single (ne_of_isQuote hq).1] at hescapes
    rw [hescapes, Bool.and_false]
    rfl

/-- A comment ends at the counterpart of its end, unless a line comment takes the carriage return
before its newline along. -/
theorem commentTail?_crlf (rest : List Char) :
    commentTail? (crlf rest) = (commentTail? rest).map (crlfPlace rest) ∨
      ∃ body more, '\n' ∉ body ∧ rest = '/' :: (body ++ '\n' :: more) := by
  rcases rest with _ | ⟨c, rest⟩
  · exact .inl rfl
  by_cases hline : c = '/'
  · subst hline
    by_cases hnewline : '\n' ∈ rest
    · obtain ⟨body, more, hrest, hbody⟩ := List.eq_append_cons_of_mem hnewline
      exact .inr ⟨body, more, hbody, by rw [hrest]⟩
    · have hrun : rest.takeWhile (· != '\n') = rest := by
        rw [List.takeWhile_eq_self_iff]
        intro c hc
        simpa using fun h : c = '\n' => hnewline (h ▸ hc)
      refine .inl ?_
      rw [crlf_cons (by decide), crlf_of_notMem hnewline, commentTail?, hrun, Option.map_some,
        Nat.add_comm, crlfPlace_cons (by decide), crlfPlace, List.take_length,
        crlf_of_notMem hnewline]
  by_cases hblock : c = '*'
  · subst hblock
    refine .inl ?_
    rw [crlf_cons (by decide), commentTail?, commentTail?,
      through?_crlf (by simp) (by decide) (by decide), Option.map_map, Option.map_map]
    congr 1
    funext n
    simp only [Function.comp_apply, Nat.add_comm 1, crlfPlace_cons (c := '*') (by decide)]
  · refine .inl ?_
    rw [commentTail?_of_ne hline hblock]
    by_cases hc : c = '\n'
    · subst hc
      exact commentTail?_of_ne (by decide) (by decide) _
    · rw [crlf_cons hc]
      exact commentTail?_of_ne hline hblock _

/-- A line comment of the counterpart takes the carriage return along. Behind the counterpart of the
comment the carriage return comes next, and the reader passes over it. -/
theorem read_line_crlf {α : Type} {read : Nat → List Char → α}
    (hreturn : ∀ taken rest, read taken ('\r' :: rest) = read (taken + 1) rest)
    {body : List Char} (hbody : '\n' ∉ body) (more : List Char) (taken : Nat) :
    let rest := '/' :: (body ++ '\n' :: more)
    read (taken + atomTail '/' (crlf rest)) ((crlf rest).drop (atomTail '/' (crlf rest))) =
      read (taken + crlfPlace rest (atomTail '/' rest)) (crlf (rest.drop (atomTail '/' rest))) := by
  intro rest
  have hreturned : '\n' ∉ body ++ ['\r'] := by simp [hbody]
  have hcrlf : crlf rest = '/' :: (body ++ ['\r'] ++ '\n' :: crlf more) := by
    rw [crlf_cons (by decide), crlf_append, crlf_of_notMem hbody, crlf_newline, List.append_assoc,
      List.singleton_append]
  have hplace : crlfPlace rest (body.length + 1) = body.length + 1 := by
    rw [crlfPlace_cons (by decide), crlfPlace_append, crlf_of_notMem hbody]
  rw [atomTail_line hbody, hcrlf, atomTail_line hreturned, Nat.add_comm 1, Nat.add_comm 1, hplace,
    List.drop_succ_cons, List.drop_succ_cons, List.drop_left, List.drop_left, crlf_newline, hreturn,
    List.length_append, List.length_singleton, Nat.add_assoc, Nat.add_assoc]

/-- **Reading on behind an atom is reading on at the counterpart**, for a reader that passes over
carriage returns. -/
theorem read_atomTail_crlf {α : Type} {read : Nat → List Char → α}
    (hreturn : ∀ taken rest, read taken ('\r' :: rest) = read (taken + 1) rest) {c : Char}
    {rest : List Char} (h : Portable (lineLiteral? c rest).toList) (taken : Nat) :
    read (taken + atomTail c (crlf rest)) ((crlf rest).drop (atomTail c (crlf rest))) =
      read (taken + crlfPlace rest (atomTail c rest)) (crlf (rest.drop (atomTail c rest))) := by
  have hplace (heq : atomTail c (crlf rest) = crlfPlace rest (atomTail c rest)) :
      read (taken + atomTail c (crlf rest)) ((crlf rest).drop (atomTail c (crlf rest))) =
        read (taken + crlfPlace rest (atomTail c rest)) (crlf (rest.drop (atomTail c rest))) := by
    rw [heq, drop_crlf]
  have hmap (answer : Option Nat) :
      (answer.map (crlfPlace rest)).getD 0 = crlfPlace rest (answer.getD 0) := by
    cases answer <;> rfl
  by_cases hslash : c = '/'
  · subst hslash
    rcases commentTail?_crlf rest with hcomment | ⟨body, more, hbody, rfl⟩
    · refine hplace ?_
      rw [atomTail, atomTail, if_pos rfl, if_pos rfl, hcomment, hmap]
    · exact read_line_crlf hreturn hbody more taken
  by_cases hq : isQuote c = true
  · refine hplace ?_
    rw [atomTail, atomTail, if_neg hslash, if_neg hslash, if_pos hq, if_pos hq,
      literalTail?_crlf_of_portable hq h, hmap]
  · refine hplace ?_
    rw [atomTail_plain hslash (by simpa using hq), atomTail_plain hslash (by simpa using hq)]
    rfl

/-! ### Braced expressions -/

/-- The single- and double-quoted literals of a script: those that the reading of a braced
expression comes to. -/
def literals (text : List Char) : List (List Char) :=
  go 0 text
where
  /-- Goes on with `outer` braces open around the innermost one. -/
  go (outer : Nat) : List Char → List (List Char)
    | [] => []
    | c :: rest =>
      if c = '{' then go (outer + 1) rest
      else if c = '}' then
        match outer with
        | 0 => []
        | outer + 1 => go outer rest
      else (lineLiteral? c rest).toList ++ go outer (rest.drop (atomTail c rest))
  termination_by text => text.length
  decreasing_by all_goals simp only [List.length_drop, List.length_cons]; omega

/-- A carriage return is passed over. -/
theorem bracedTail_go_return (outer taken : Nat) (rest : List Char) :
    bracedTail.go outer taken ('\r' :: rest) = bracedTail.go outer (taken + 1) rest := by
  rw [bracedTail_go_atom (by decide) (by decide), atomTail_plain (by decide) (by decide)]
  rfl

/-- A line end is passed over, either one. -/
theorem bracedTail_go_newline (outer taken : Nat) (rest : List Char) :
    bracedTail.go outer taken ('\n' :: rest) = bracedTail.go outer (taken + 1) rest := by
  rw [bracedTail_go_atom (by decide) (by decide), atomTail_plain (by decide) (by decide)]
  rfl

theorem bracedTail_go_crlf {outer : Nat} {text : List Char} (h : Portable (literals.go outer text))
    (base : Nat) :
    bracedTail.go outer base (crlf text) = base + crlfPlace text (bracedTail.go outer 0 text) := by
  have hcount (outer taken : Nat) (rest : List Char) :
      bracedTail.go outer (0 + 1 + taken) rest = taken + bracedTail.go outer 0 rest + 1 := by
    rw [bracedTail_go_eq]
    omega
  fun_induction literals.go outer text generalizing base with
  | case1 => rw [crlf_nil, bracedTail_go_nil, crlfPlace_nil, Nat.add_zero]
  | case2 outer rest ih =>
    rw [crlf_cons (by decide), bracedTail_go_open, bracedTail_go_open, ih h,
      hcount (outer + 1) 0, crlfPlace_cons (by decide), Nat.zero_add]
    omega
  | case3 rest =>
    rw [crlf_cons (by decide), bracedTail_go_close_zero, bracedTail_go_close_zero,
      crlfPlace_cons (by decide), crlfPlace_zero]
  | case4 rest outer hopen ih =>
    rw [crlf_cons (by decide), bracedTail_go_close_succ, bracedTail_go_close_succ, ih h,
      hcount outer 0, crlfPlace_cons (by decide), Nat.zero_add]
    omega
  | case5 outer c rest hopen hclose ih =>
    obtain ⟨hatom, hrest⟩ := h.of_append
    have hbehind := ih hrest
    by_cases hc : c = '\n'
    · subst hc
      rw [atomTail_plain (by decide) (by decide), List.drop_zero] at hbehind
      rw [crlf_newline, bracedTail_go_return, bracedTail_go_newline, bracedTail_go_newline, hbehind,
        hcount outer 0, crlfPlace_newline, Nat.zero_add]
      omega
    · rw [crlf_cons hc, bracedTail_go_atom hopen hclose, bracedTail_go_atom hopen hclose,
        read_atomTail_crlf (bracedTail_go_return outer) hatom, hbehind, hcount, crlfPlace_cons hc,
        crlfPlace_add]
      omega

/-- A script of which no literal escapes a newline ends at the counterpart of its end. -/
theorem bracedTail_crlf {text : List Char} (h : Portable (literals text)) :
    bracedTail (crlf text) = crlfPlace text (bracedTail text) := by
  have hgo := bracedTail_go_crlf h 0
  rwa [Nat.zero_add] at hgo

end TagLint.Script
