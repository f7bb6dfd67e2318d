import TagLint.Proofs.Bytes.Places
import TagLint.Proofs.Script.LineEnds
import TagLint.Proofs.Script.Reading

/-!
# Scripts, read byte by byte

- `skipString`, `skipComment`, `skipBraced`: what stands in braces, read over bytes and indices.
- `Tail.skipString`, `Tail.skipComment`, `Tail.skipBraced`: on any bytes they do not fail, and end where
  the readers of characters end that take each byte for the character with its code.
- `literalTail?_view`, `commentTail?_view`, `bracedTail_view`: the readers of characters count the bytes
  of a text as they count its characters. A backslash takes one byte along, and so the count may go on
  inside a character. The bytes that are left of it are all passed over.
- `At.skipAtom`, `At.skipBraced`: so the readers of bytes end where they should at a place of a text.
-/

namespace TagLint.Bytes

open Script
open Text (byteSize)

/-! ### Over bytes -/

/-- Goes to the end of a literal. -/
def literal (quote : Char) : Loop Unit (Option Nat) where
  step _ i c := .ok <|
    if c = '\\' then .go () (i + 2)
    else if c = '\n' && quote != templateQuote then .stop none
    else if c = quote then .stop (some (i + 1))
    else .go () (i + 1)
  finish _ _ := .ok none

/-- The index behind the literal whose quote is at an index. -/
def skipString (bytes : List UInt8) (start : Nat) : Checked (Option Nat) := do
  let quote ← byteAt bytes start
  (literal quote).run bytes () (← add start 1)

/-- The index behind the comment whose slash is at an index. -/
def skipComment (bytes : List UInt8) (start : Nat) : Checked (Option Nat) := do
  match peek bytes (← add start 1) with
  | some '/' =>
    let body ← add start 2
    let rest ← sliceFrom bytes body
    return some (← add body (rest.takeWhile (· != '\n')).length)
  | some '*' =>
    let body ← add start 2
    match find ['*', '/'] (← sliceFrom bytes body) with
    | some place => return some (← add (← add body place) 2)
    | none => return none
  | _ => return none

/-- The index behind the literal or comment that a byte opens, if it is closed. -/
def skipAtom (bytes : List UInt8) (i : Nat) (c : Char) : Checked (Option Nat) :=
  if c = '/' then skipComment bytes i
  else if isQuote c then skipString bytes i
  else .ok none

/-- Goes to the brace that balances the first one, and counts the braces that are open. -/
def braced (bytes : List UInt8) : Loop Nat Nat where
  step depth i c := do
    match ← skipAtom bytes i c with
    | some behind => return .go depth behind
    | none =>
      if c = '{' then return .go (← add depth 1) (i + 1)
      else if c = '}' then
        let left ← sub depth 1
        return if left = 0 then .stop (i + 1) else .go left (i + 1)
      else return .go depth (i + 1)
  finish _ _ := .ok bytes.length

/-- The index behind the braced expression whose brace is at an index. -/
def skipBraced (bytes : List UInt8) (start : Nat) : Checked Nat :=
  (braced bytes).run bytes 0 start

/-! ### Literals -/

variable {text rest : List Char} {i : Nat} {c quote : Char} {bytes : List UInt8}

/-- A quote and a newline are ASCII. -/
theorem toNat_lt_of_isQuote (h : isQuote quote = true) : quote.toNat < 128 := by
  simp only [isQuote, Bool.or_eq_true, decide_eq_true_eq] at h
  rcases h with (rfl | rfl) | rfl <;> decide

theorem literal_step {c : Char} (hslash : c ≠ '\\') (hc : IsLiteralChar quote c) (i : Nat) :
    (literal quote).step () i c = .ok (.go () (i + 1)) := by
  have hline : ¬(decide (c = '\n') && quote != templateQuote) = true := by
    simpa using hc.2
  show Except.ok (if c = '\\' then _ else _) = _
  rw [if_neg hslash, if_neg hline, if_neg hc.1]

namespace Tail

/-- A literal is read to its end. The index may jump behind the end of the bytes. -/
theorem run_literal (h : Tail bytes i rest) (hq : isQuote quote = true) :
    (literal quote).run bytes () i = .ok ((literalTail? quote rest).map (i + ·)) := by
  obtain ⟨hslashQuote, hnewlineQuote⟩ := ne_of_isQuote hq
  induction hn : rest.length using Nat.strongRecOn generalizing i rest with
  | ind n ih =>
    subst hn
    cases rest with
    | nil => exact Loop.run_end h.peek_nil
    | cons c rest =>
      by_cases hslash : c = '\\'
      · subst hslash
        rw [h.run_go rfl (by decide) (by decide)]
        cases rest with
        | nil => exact Loop.run_end (h.drop 2).peek_nil
        | cons d rest =>
          rw [literalTail?_pair, Option.map_map,
            ih rest.length (by simp only [List.length_cons]; omega) (h.drop 2) rfl]
          congr 2
          funext n
          exact Nat.add_assoc ..
      by_cases hnewline : c = '\n' ∧ quote ≠ templateQuote
      · obtain ⟨rfl, hne⟩ := hnewline
        have hstop : (literal quote).step () i '\n' = .ok (.stop none) := by
          show Except.ok (if '\n' = '\\' then _ else if _ then _ else _) = _
          rw [if_neg (by decide), if_pos (by simpa using hne)]
        rw [Loop.run_stop h.peek hstop, literalTail?_newline hne]
        rfl
      by_cases hquote : c = quote
      · subst hquote
        have hstop : (literal c).step () i c = .ok (.stop (some (i + 1))) := by
          show Except.ok (if c = '\\' then _ else if _ then _ else if c = c then _ else _) = _
          rw [if_neg hslash, if_neg (by simp [hnewlineQuote]), if_pos rfl]
        rw [Loop.run_stop h.peek hstop, literalTail?_quote hq]
        rfl
      · have hplain : IsLiteralChar quote c := by
          refine ⟨hquote, fun heq => ?_⟩
          by_contra hne
          exact hnewline ⟨heq, hne⟩
        rw [h.run_go (literal_step hslash hplain i) (by decide) (by decide),
          literalTail?_single hslash hplain, Option.map_map,
          ih rest.length (by rw [List.length_cons]; omega) h.next rfl]
        congr 2
        funext n
        exact Nat.add_assoc ..

/-- A literal is skipped whole, if it is closed. -/
theorem skipString (h : Tail bytes i (quote :: rest)) (hq : isQuote quote = true) :
    Bytes.skipString bytes i = .ok ((literalTail? quote rest).map (i + 1 + ·)) := by
  rw [Bytes.skipString, byteAt, h.peek]
  show (do (literal quote).run bytes () (← add i 1) : Checked (Option Nat)) = _
  rw [h.add_eq_ok (by decide), ok_bind, h.next.run_literal hq]

end Tail

/-! ### Comments -/

section Opener

variable (hadd : add i 1 = .ok (i + 1))

include hadd

/-- Behind the opener of a line comment, the line is skipped. -/
theorem skipComment_of_line (hpeek : peek bytes (i + 1) = some '/') :
    skipComment bytes i = do
      let body ← add i 2
      let rest ← sliceFrom bytes body
      return some (← add body (rest.takeWhile (· != '\n')).length) := by
  rw [skipComment, hadd, ok_bind, hpeek]
  rfl

/-- Behind the opener of a block comment, the closer is searched for. -/
theorem skipComment_of_block (hpeek : peek bytes (i + 1) = some '*') :
    skipComment bytes i = do
      let body ← add i 2
      match find ['*', '/'] (← sliceFrom bytes body) with
      | some place => return some (← add (← add body place) 2)
      | none => return none := by
  rw [skipComment, hadd, ok_bind, hpeek]
  rfl

end Opener

namespace Tail

theorem skipComment_line (h : Tail bytes i ('/' :: '/' :: rest)) :
    Bytes.skipComment bytes i = .ok ((commentTail? ('/' :: rest)).map (i + 1 + ·)) := by
  have hbody : Tail bytes (i + 2) rest := h.next.next
  have hlength := hbody.length_eq h.next.lt_length
  have hline := (List.takeWhile_prefix (· != '\n') (l := rest)).length_le
  have hend : add (i + 2) (rest.takeWhile (· != '\n')).length =
      .ok (i + 2 + (rest.takeWhile (· != '\n')).length) :=
    Bytes.add_eq_ok (hbody.le_maxSize (by omega))
  rw [skipComment_of_line (h.add_eq_ok (by decide)) h.next.peek, h.add_eq_ok (by decide), ok_bind,
    hbody.sliceFrom h.next.lt_length, ok_bind, hend, ok_bind, commentTail?, Option.map_some,
    ← Nat.add_assoc]
  rfl

theorem skipComment_block (h : Tail bytes i ('/' :: '*' :: rest)) :
    Bytes.skipComment bytes i = .ok ((commentTail? ('*' :: rest)).map (i + 1 + ·)) := by
  have hbody : Tail bytes (i + 2) rest := h.next.next
  have hlength := hbody.length_eq h.next.lt_length
  rw [skipComment_of_block (h.add_eq_ok (by decide)) h.next.peek, h.add_eq_ok (by decide), ok_bind,
    hbody.sliceFrom h.next.lt_length, ok_bind, find, commentTail?]
  cases hthrough : Text.through? ['*', '/'] rest with
  | none => rfl
  | some n =>
    obtain ⟨body, behind, rfl, -, rfl⟩ := Text.exists_of_through? (by simp) hthrough
    have hplace : body.length + ['*', '/'].length - ['*', '/'].length = body.length :=
      Nat.add_sub_cancel ..
    simp only [List.length_append, List.length_cons] at hlength
    simp only [Option.map_some, hplace]
    rw [Bytes.add_eq_ok (hbody.le_maxSize (by omega)), ok_bind,
      Bytes.add_eq_ok (hbody.le_maxSize (by omega)), ok_bind]
    show Except.ok (some _) = Except.ok (some _)
    congr 2
    simp only [List.length_cons, List.length_nil]
    omega

/-- A comment is skipped whole, if it is closed. -/
theorem skipComment (h : Tail bytes i ('/' :: rest)) :
    Bytes.skipComment bytes i = .ok ((commentTail? rest).map (i + 1 + ·)) := by
  cases rest with
  | nil =>
    rw [Bytes.skipComment, h.add_eq_ok (by decide), ok_bind, h.next.peek_nil]
    rfl
  | cons c rest =>
    by_cases hline : c = '/'
    · subst hline
      exact h.skipComment_line
    by_cases hblock : c = '*'
    · subst hblock
      exact h.skipComment_block
    · rw [Bytes.skipComment, h.add_eq_ok (by decide), ok_bind, commentTail?_of_ne hline hblock,
        h.next.peek]
      split
      · next heq => exact absurd (Option.some.inj heq) hline
      · next heq => exact absurd (Option.some.inj heq) hblock
      · rfl

end Tail

/-! ### Atoms and braces -/

theorem braced_step {bytes : List UInt8} {depth : Nat} (hopen : c ≠ '{') (hclose : c ≠ '}') :
    (braced bytes).step depth i c =
      skipAtom bytes i c >>= fun behind => .ok (.go depth (behind.getD (i + 1))) := by
  show (skipAtom bytes i c >>= _) = _
  congr 1
  funext behind
  cases behind with
  | some behind => rfl
  | none =>
    show (if c = '{' then _ else if c = '}' then _ else _) = _
    rw [if_neg hopen, if_neg hclose]
    rfl

theorem braced_open {bytes : List UInt8} {depth : Nat} (h : depth + 1 ≤ maxSize) :
    (braced bytes).step depth i '{' = .ok (.go (depth + 1) (i + 1)) := by
  show (add depth 1 >>= _) = _
  rw [add_eq_ok h]
  rfl

namespace Tail

/-- A literal or comment is skipped whole, if it is closed. -/
theorem skipAtom (h : Tail bytes i (c :: rest)) :
    Bytes.skipAtom bytes i c = .ok ((wholeTail? c rest).map (i + 1 + ·)) := by
  rw [Bytes.skipAtom, wholeTail?]
  by_cases hslash : c = '/'
  · subst hslash
    rw [if_pos rfl, if_pos rfl, h.skipComment]
  rw [if_neg hslash, if_neg hslash]
  by_cases hq : isQuote c = true
  · rw [if_pos hq, if_pos hq, h.skipString hq]
  · rw [if_neg hq, if_neg hq]
    rfl

/-- The loop that counts braces passes over any other atom. -/
theorem braced_step_atom (h : Tail bytes i (c :: rest)) (hopen : c ≠ '{') (hclose : c ≠ '}')
    (depth : Nat) :
    (braced bytes).step depth i c = .ok (.go depth (i + (1 + atomTail c rest))) := by
  rw [braced_step hopen hclose, h.skipAtom, ok_bind, atomTail_eq]
  cases wholeTail? c rest with
  | none => rfl
  | some n => rw [Option.map_some, Option.getD_some, Option.getD_some, Nat.add_assoc]

theorem run_braced {outer : Nat} (h : Tail bytes i rest) (hi : i ≤ bytes.length)
    (houter : outer < i) :
    (braced bytes).run bytes (outer + 1) i = .ok (i + bracedTail.go outer 0 rest) := by
  have hlength := h.length_eq hi
  have hsize := h.size
  induction hn : rest.length using Nat.strongRecOn generalizing i rest outer with
  | ind n ih =>
    subst hn
    cases rest with
    | nil =>
      rw [Loop.run_end h.peek_nil, bracedTail_go_nil]
      exact congrArg Except.ok hlength.symm
    | cons c rest =>
      have hnext := h.next.length_eq h.lt_length
      by_cases hopen : c = '{'
      · subst hopen
        -- no more braces are open than bytes have been read, so the count stays in range
        have hdepth : outer + 1 + 1 ≤ maxSize := h.le_maxSize (by have := h.lt_length; omega)
        rw [h.run_go (braced_open hdepth) (by decide) (by decide),
          ih rest.length (Nat.lt_succ_self _) h.next h.lt_length (by omega) hnext rfl,
          bracedTail_go_open, bracedTail_go_eq (outer + 1) (0 + 1), Nat.zero_add, Nat.add_assoc]
      by_cases hclose : c = '}'
      · subst hclose
        cases outer with
        | zero =>
          rw [Loop.run_stop h.peek rfl, bracedTail_go_close_zero]
        | succ outer =>
          have hstep : (braced bytes).step (outer + 1 + 1) i '}' = .ok (.go (outer + 1) (i + 1)) :=
            rfl
          rw [h.run_go hstep (by decide) (by decide),
            ih rest.length (Nat.lt_succ_self _) h.next h.lt_length (by omega) hnext rfl,
            bracedTail_go_close_succ, bracedTail_go_eq outer (0 + 1), Nat.zero_add, Nat.add_assoc]
      · have htail := atomTail_le c rest
        have hbehind : Tail bytes (i + (1 + atomTail c rest)) (rest.drop (atomTail c rest)) := by
          rw [← Nat.add_assoc]
          exact h.next.drop _
        have hle : i + (1 + atomTail c rest) ≤ bytes.length := by omega
        have hshort : (rest.drop (atomTail c rest)).length < (c :: rest).length := by
          rw [List.length_drop, List.length_cons]
          omega
        rw [h.run_go (h.braced_step_atom hopen hclose _) (by omega) (by omega),
          ih _ hshort hbehind hle (by omega) (hbehind.length_eq hle) rfl,
          bracedTail_go_atom hopen hclose, bracedTail_go_eq outer (0 + 1 + _), Nat.zero_add,
          Nat.add_assoc]

/-- A braced expression is skipped to its end. -/
theorem skipBraced (h : Tail bytes i ('{' :: rest)) :
    Bytes.skipBraced bytes i = .ok (i + 1 + bracedTail rest) := by
  rw [Bytes.skipBraced, h.run_go (braced_open (by decide)) (by decide) (by decide),
    h.next.run_braced h.lt_length (Nat.succ_pos i)]
  rfl

end Tail

/-! ### The bytes of a text -/

/-- A character outside ASCII stands for itself in a literal. -/
theorem isLiteralChar_of_le (hq : isQuote quote = true) (hc : 128 ≤ c.toNat) :
    c ≠ '\\' ∧ IsLiteralChar quote c := by
  refine ⟨ne_of_le_toNat hc (by decide), ne_of_le_toNat hc (toNat_lt_of_isQuote hq), ?_⟩
  intro hnewline
  exact absurd hnewline (ne_of_le_toNat hc (by decide))

/-- A literal goes on over bytes outside ASCII. -/
theorem literalTail?_wide (hq : isQuote quote = true) {wide : List Char}
    (hwide : ∀ d ∈ wide, 128 ≤ d.toNat) (behind : List Char) :
    literalTail? quote (wide ++ behind) = (literalTail? quote behind).map (wide.length + ·) := by
  induction wide with
  | nil =>
    rw [List.nil_append]
    cases literalTail? quote behind with
    | none => rfl
    | some n => exact congrArg some (Nat.zero_add n).symm
  | cons d wide ih =>
    obtain ⟨hd, hwide⟩ := List.forall_mem_cons.1 hwide
    obtain ⟨hslash, hplain⟩ := isLiteralChar_of_le hq hd
    rw [List.cons_append, literalTail?_single hslash hplain, ih hwide, Option.map_map]
    congr 1
    funext n
    show 1 + (wide.length + n) = wide.length + 1 + n
    omega

/-- A literal ends among the bytes of a text where it ends among its characters. -/
theorem literalTail?_view (hq : isQuote quote = true) (text : List Char) :
    literalTail? quote (view (utf8 text)) =
      (literalTail? quote text).map fun n => byteSize (text.take n) := by
  induction hn : text.length using Nat.strongRecOn generalizing text with
  | ind n ih =>
    subst hn
    cases text with
    | nil => rfl
    | cons c text =>
      by_cases hslash : c = '\\'
      · subst hslash
        rw [view_utf8_of_lt (by decide)]
        cases text with
        | nil => rfl
        | cons d text =>
          -- the backslash takes along the first byte of the character
          obtain ⟨first, more, hview, -, hlength, hmore⟩ := exists_view_cons d text
          rw [hview, literalTail?_pair, literalTail?_pair, literalTail?_wide hq hmore,
            ih text.length (by simp only [List.length_cons]; omega) text rfl, Option.map_map,
            Option.map_map, Option.map_map]
          congr 1
          funext n
          show 2 + (more.length + byteSize (text.take n)) =
            byteSize (('\\' :: d :: text).take (2 + n))
          rw [Nat.add_comm 2 n, List.take_succ_cons, List.take_succ_cons, Text.byteSize_cons,
            Text.byteSize_cons, ← hlength]
          show _ = 1 + _
          omega
      by_cases hnewline : c = '\n' ∧ quote ≠ templateQuote
      · obtain ⟨rfl, hne⟩ := hnewline
        rw [view_utf8_of_lt (by decide), literalTail?_newline hne, literalTail?_newline hne]
        rfl
      by_cases hquote : c = quote
      · subst hquote
        have hc := toNat_lt_of_isQuote hq
        rw [view_utf8_of_lt hc, literalTail?_quote hq, literalTail?_quote hq, Option.map_some,
          List.take_succ_cons, List.take_zero, Text.byteSize_cons, utf8Size_of_lt hc]
        rfl
      · have hplain : IsLiteralChar quote c := by
          refine ⟨hquote, fun heq => ?_⟩
          by_contra hne
          exact hnewline ⟨heq, hne⟩
        rw [literalTail?_single hslash hplain, ← map_byteSize_take,
          ← ih text.length (Nat.lt_succ_self _) text rfl]
        by_cases hc : c.toNat < 128
        · rw [view_utf8_of_lt hc, literalTail?_single hslash hplain, utf8Size_of_lt hc]
        · obtain ⟨wide, hview, hlength, hwide⟩ := exists_view_utf8 (Nat.not_lt.1 hc) text
          rw [hview, literalTail?_wide hq hwide, hlength]

/-- A comment ends among the bytes of a text where it ends among its characters. -/
theorem commentTail?_view (text : List Char) : commentTail? (view (utf8 text)) =
    (commentTail? text).map fun n => byteSize (text.take n) := by
  cases text with
  | nil => rfl
  | cons c text =>
    by_cases hline : c = '/'
    · subst hline
      have hrun : ((view (utf8 text)).takeWhile (· != '\n')).length =
          byteSize (text.take (text.takeWhile (· != '\n')).length) := by
        rw [Text.take_length_takeWhile, length_takeWhile_view (uniform_ne (by decide))]
      rw [view_utf8_of_lt (by decide), commentTail?, commentTail?, hrun]
      exact map_byteSize_take '/' text (some _)
    by_cases hblock : c = '*'
    · subst hblock
      rw [view_utf8_of_lt (by decide), commentTail?, commentTail?,
        through?_view (List.cons_ne_nil _ _) (forall_lt_of_all rfl)]
      exact map_byteSize_take '*' text (Text.through? ['*', '/'] text)
    · obtain ⟨d, wide, hview, hd, -⟩ := exists_view_cons c text
      rw [hview, commentTail?_of_ne hline hblock, commentTail?_of_ne]
      · rfl
      · exact (hd.eq_iff (by decide)).not.2 hline
      · exact (hd.eq_iff (by decide)).not.2 hblock

theorem wholeTail?_view (c : Char) (text : List Char) : wholeTail? c (view (utf8 text)) =
    (wholeTail? c text).map fun n => byteSize (text.take n) := by
  rw [wholeTail?, wholeTail?]
  by_cases hslash : c = '/'
  · rw [if_pos hslash, if_pos hslash, commentTail?_view]
  rw [if_neg hslash, if_neg hslash]
  by_cases hq : isQuote c = true
  · rw [if_pos hq, if_pos hq, literalTail?_view hq]
  · rw [if_neg hq, if_neg hq]
    rfl

/-- An atom ends among the bytes of a text where it ends among its characters. -/
theorem atomTail_view (c : Char) (text : List Char) :
    atomTail c (view (utf8 text)) = byteSize (text.take (atomTail c text)) := by
  rw [atomTail_eq, atomTail_eq, wholeTail?_view]
  cases wholeTail? c text <;> rfl

theorem isQuote_of_le (hc : 128 ≤ c.toNat) : isQuote c = false := by
  rw [Bool.eq_false_iff]
  intro hq
  have := toNat_lt_of_isQuote hq
  omega

/-- A character outside ASCII opens nothing. -/
theorem skipAtom_of_le (bytes : List UInt8) (i : Nat) (hc : 128 ≤ c.toNat) :
    skipAtom bytes i c = .ok none := by
  rw [skipAtom, if_neg (ne_of_le_toNat hc (by decide)),
    if_neg (Bool.eq_false_iff.1 (isQuote_of_le hc))]

theorem atomTail_of_le (hc : 128 ≤ c.toNat) (rest : List Char) : atomTail c rest = 0 := by
  rw [atomTail, if_neg (ne_of_le_toNat hc (by decide)),
    if_neg (Bool.eq_false_iff.1 (isQuote_of_le hc))]

/-- A braced expression goes on over bytes outside ASCII. -/
theorem bracedTail_go_wide {wide : List Char} (hwide : ∀ d ∈ wide, 128 ≤ d.toNat) (outer : Nat)
    (behind : List Char) :
    bracedTail.go outer 0 (wide ++ behind) = wide.length + bracedTail.go outer 0 behind := by
  induction wide with
  | nil => exact (Nat.zero_add _).symm
  | cons d wide ih =>
    obtain ⟨hd, hwide⟩ := List.forall_mem_cons.1 hwide
    rw [List.cons_append,
      bracedTail_go_atom (ne_of_le_toNat hd (by decide)) (ne_of_le_toNat hd (by decide)),
      atomTail_of_le hd, List.drop_zero, bracedTail_go_eq, ih hwide, List.length_cons]
    omega

/-- A braced expression ends among the bytes of a text where it ends among its characters. -/
theorem bracedTail_go_view (outer : Nat) (text : List Char) :
    bracedTail.go outer 0 (view (utf8 text)) =
      byteSize (text.take (bracedTail.go outer 0 text)) := by
  -- a character more on both sides
  have hcons (c : Char) {text : List Char} {size n k : Nat} (hsize : c.utf8Size = size)
      (h : k = byteSize (text.take n)) : size + k = byteSize ((c :: text).take (0 + 1 + n)) := by
    rw [Nat.zero_add, Nat.add_comm 1, List.take_succ_cons, Text.byteSize_cons, h, hsize]
  induction hn : text.length using Nat.strongRecOn generalizing outer text with
  | ind n ih =>
    subst hn
    cases text with
    | nil =>
      rw [List.take_nil]
      exact bracedTail_go_nil outer 0
    | cons c text =>
      have hnext (outer : Nat) := ih text.length (Nat.lt_succ_self _) outer text rfl
      by_cases hopen : c = '{'
      · subst hopen
        rw [view_utf8_of_lt (by decide), bracedTail_go_open, bracedTail_go_open, bracedTail_go_eq,
          bracedTail_go_eq _ (0 + 1) text]
        exact hcons '{' rfl (hnext (outer + 1))
      by_cases hclose : c = '}'
      · subst hclose
        rw [view_utf8_of_lt (by decide)]
        cases outer with
        | zero =>
          rw [bracedTail_go_close_zero, bracedTail_go_close_zero]
          rfl
        | succ outer =>
          rw [bracedTail_go_close_succ, bracedTail_go_close_succ, bracedTail_go_eq,
            bracedTail_go_eq _ (0 + 1) text]
          exact hcons '}' rfl (hnext outer)
      by_cases hc : c.toNat < 128
      · have hbehind := ih (text.drop (atomTail c text)).length
          (by rw [List.length_drop, List.length_cons]; omega) outer _ rfl
        rw [view_utf8_of_lt hc, bracedTail_go_atom hopen hclose, bracedTail_go_atom hopen hclose,
          atomTail_view, view_utf8_drop, bracedTail_go_eq, bracedTail_go_eq _ (0 + 1 + _) (text.drop _),
          Nat.add_assoc (0 + 1), Nat.add_assoc (0 + 1)]
        refine hcons c (utf8Size_of_lt hc) ?_
        rw [hbehind, List.take_add, Text.byteSize_append]
      · have hc := Nat.not_lt.1 hc
        obtain ⟨wide, hview, hlength, hwide⟩ := exists_view_utf8 hc text
        rw [hview, bracedTail_go_wide hwide, bracedTail_go_atom hopen hclose, atomTail_of_le hc,
          bracedTail_go_eq _ (0 + 1 + 0) (text.drop 0), hlength]
        exact hcons c rfl (hnext outer)

theorem bracedTail_view (text : List Char) :
    bracedTail (view (utf8 text)) = byteSize (text.take (bracedTail text)) :=
  bracedTail_go_view 0 text

/-! ### At a place of a text -/

theorem At.byteAt (h : At text i (c :: rest)) (hc : c.toNat < 128) :
    Bytes.byteAt (utf8 text) i = .ok c := by
  rw [Bytes.byteAt, h.peek hc]

/-- What is skipped at a place is the atom there, if it has several characters. -/
theorem At.skipAtom (h : At text i (c :: rest)) :
    (Bytes.skipAtom (utf8 text) i c = .ok none ∧ atomTail c rest = 0) ∨
    (c.toNat < 128 ∧
      Bytes.skipAtom (utf8 text) i c = .ok (some (ahead (i + 1) rest (atomTail c rest)))) := by
  by_cases hc : c.toNat < 128
  · have htail := h.tail
    rw [view_utf8_of_lt hc] at htail
    rw [htail.skipAtom, wholeTail?_view, atomTail_eq]
    cases wholeTail? c rest with
    | none => exact .inl ⟨rfl, rfl⟩
    | some n => exact .inr ⟨hc, rfl⟩
  · have hc := Nat.not_lt.1 hc
    exact .inl ⟨skipAtom_of_le _ i hc, atomTail_of_le hc rest⟩

/-- A loop that skips atoms passes over the atom at a place. -/
theorem At.run_atom {σ α : Type} {loop : Loop σ α} {state : σ} (h : At text i (c :: rest))
    (hpasses : loop.Passes state) (hstep : loop.step state i c =
      Bytes.skipAtom (utf8 text) i c >>= fun behind => .ok (.go state (behind.getD (i + 1)))) :
    loop.run (utf8 text) state i =
      loop.run (utf8 text) state (ahead i (c :: rest) (1 + atomTail c rest)) := by
  rw [Nat.add_comm 1, ahead_succ]
  rcases h.skipAtom with ⟨hskip, htail⟩ | ⟨hc, hskip⟩
  · rw [hskip] at hstep
    rw [htail]
    exact h.run_over hpasses hstep
  · rw [hskip] at hstep
    have hbehind := (h.next_of_lt hc).drop (atomTail c rest)
    have hlt : i < ahead (i + 1) rest (atomTail c rest) := le_ahead (i + 1) rest _
    rw [utf8Size_of_lt hc]
    exact Loop.run_go (h.peek hc) hstep hlt hbehind.le_maxSize

/-- A braced expression at a place is skipped whole. -/
theorem At.skipBraced (h : At text i ('{' :: rest)) :
    Bytes.skipBraced (utf8 text) i = .ok (ahead (i + 1) rest (bracedTail rest)) := by
  have htail := h.tail
  rw [view_utf8_of_lt (by decide)] at htail
  rw [htail.skipBraced, bracedTail_view]
  rfl

end TagLint.Bytes
