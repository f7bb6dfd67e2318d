import TagLint.Proofs.Bytes.Balance

/-!
# Literals and comments among arbitrary bytes

Where a literal or a comment ends is a matter of the bytes in front of its end. So the end is the
first that the bytes have, and it stays where it is when the bytes behind it are cut off.

- `LiteralEnds`, `LineEnds`, `BlockEnds`: where a literal, a line comment and a block comment end.
  These are rules about bytes, without the loops that look for the end.
- `Tail.skipString_eq_some_iff`, `Tail.skipComment_eq_some_iff`: the loops find these ends.
- `Tail.skipString_take`, `Tail.skipComment_take`: what a cut of the bytes does to them.
- `atoms_skipped`: both for every quote and every slash of some bytes.
-/

namespace TagLint.Bytes

open Script

/-! ### Ends -/

/-- The bytes from an index to before another. -/
def between (bytes : List UInt8) (i j : Nat) : List Char :=
  (view bytes).extract i j

/-- The literal whose quote is at `start` ends before `stop`. Escape pairs and bytes that stand for
themselves lead to a quote of the same kind. -/
structure LiteralEnds (bytes : List UInt8) (quote : Char) (start stop : Nat) : Prop where
  behind : start + 1 < stop
  body : Text.Escaped (IsLiteralChar quote) (between bytes (start + 1) (stop - 1))
  closed : peek bytes (stop - 1) = some quote

/-- The line comment whose first slash is at `start` ends before `stop`, where the first newline
behind the slashes stands or the bytes end. -/
structure LineEnds (bytes : List UInt8) (start stop : Nat) : Prop where
  opens : peek bytes (start + 1) = some '/'
  behind : start + 2 ≤ stop
  body : '\n' ∉ between bytes (start + 2) stop
  ends : peek bytes stop = some '\n' ∨ stop = bytes.length

/-- The closer of a block comment stands at an index. -/
def ClosesBlock (bytes : List UInt8) (i : Nat) : Prop :=
  peek bytes i = some '*' ∧ peek bytes (i + 1) = some '/'

/-- The block comment whose slash is at `start` ends before `stop`, behind the first closer that
stands behind the whole opener. -/
structure BlockEnds (bytes : List UInt8) (start stop : Nat) : Prop where
  opens : peek bytes (start + 1) = some '*'
  behind : start + 4 ≤ stop
  closed : ClosesBlock bytes (stop - 2)
  first : ∀ i, start + 2 ≤ i → ClosesBlock bytes i → stop ≤ i + 2

namespace Tail

variable {bytes : List UInt8} {i j k start stop : Nat} {c quote : Char} {rest body behind : List Char}

/-! ### Bytes to an index and bytes behind it -/

/-- A text at an index begins with what stands between the index and its end. -/
theorem between_eq (h : Tail bytes i (body ++ behind)) : between bytes i (i + body.length) = body := by
  rw [between, List.extract_eq_take_drop, h.view_drop, Nat.add_sub_cancel_left, List.take_left]

/-- The bytes from an index on go through any byte further on. -/
theorem exists_eq_append (h : Tail bytes i rest) (hle : i ≤ j) (hpeek : Bytes.peek bytes j = some c) :
    ∃ behind, rest = between bytes i j ++ c :: behind ∧ (between bytes i j).length = j - i := by
  have hbehind := (of_peek h.size hpeek).view_drop
  have hdrop : rest.drop (j - i) = (view bytes).drop j := by
    rw [← h.view_drop, List.drop_drop, Nat.add_sub_cancel' hle]
  have hlt := Loop.lt_length_of_peek hpeek
  refine ⟨(view bytes).drop (j + 1), ?_, ?_⟩
  · rw [between, List.extract_eq_take_drop, h.view_drop, ← hbehind, ← hdrop,
      List.take_append_drop]
  · rw [between, List.extract_eq_take_drop, List.length_take, List.length_drop, length_view,
      Nat.min_eq_left (by omega)]

theorem peek_append (h : Tail bytes i (body ++ c :: behind)) :
    Bytes.peek bytes (i + body.length) = some c := by
  have hbehind := h.drop body.length
  rw [List.drop_left] at hbehind
  exact hbehind.peek

/-! ### Literals -/

/-- **A literal is skipped to its end, and only a closed literal is skipped.** -/
theorem skipString_eq_some_iff (h : Tail bytes start (quote :: rest)) (hq : isQuote quote = true) :
    Bytes.skipString bytes start = .ok (some stop) ↔ LiteralEnds bytes quote start stop := by
  rw [h.skipString hq, Except.ok.injEq, Option.map_eq_some_iff]
  constructor
  · rintro ⟨n, hn, rfl⟩
    obtain ⟨body, behind, rfl, hbody, rfl⟩ := (literalTail?_eq_some_iff hq).1 hn
    have hlast : start + 1 + (body.length + 1) - 1 = start + 1 + body.length := by omega
    constructor
    case behind => omega
    case body => rw [hlast, h.next.between_eq]; exact hbody
    case closed => rw [hlast, h.next.peek_append]
  · intro hends
    have hbehind := hends.behind
    obtain ⟨behind, hrest, hlength⟩ := h.next.exists_eq_append (by omega) hends.closed
    refine ⟨(between bytes (start + 1) (stop - 1)).length + 1, ?_, by omega⟩
    exact (literalTail?_eq_some_iff hq).2 ⟨_, behind, hrest, hends.body, rfl⟩

/-! ### Comments -/

/-- A line comment is skipped to the newline behind it, or to the end. -/
theorem skipComment_eq_some_iff_line (h : Tail bytes start ('/' :: '/' :: rest)) :
    Bytes.skipComment bytes start = .ok (some stop) ↔ LineEnds bytes start stop := by
  have hbody : Tail bytes (start + 2) rest := h.next.next
  have hlength := hbody.length_eq h.next.lt_length
  rw [h.skipComment, Except.ok.injEq, commentTail?, Option.map_some, Option.some.injEq]
  constructor
  · rintro rfl
    have hstop : start + 1 + (1 + (rest.takeWhile (· != '\n')).length) =
        start + 2 + (rest.takeWhile (· != '\n')).length := by omega
    have hsplit := List.takeWhile_append_dropWhile (p := (· != '\n')) (l := rest)
    have hends := Text.ends_dropWhile (· != '\n') rest
    rw [← hsplit] at hbody
    rw [hstop]
    constructor
    case opens => exact h.next.peek
    case behind => exact Nat.le_add_right ..
    case body =>
      rw [hbody.between_eq]
      intro hmem
      exact absurd (List.mem_takeWhile_imp hmem) (by simp)
    case ends =>
      rcases hdrop : rest.dropWhile (· != '\n') with _ | ⟨c, behind⟩
      · have hwhole := congrArg List.length hsplit
        rw [hdrop, List.append_nil] at hwhole
        exact .inr (by omega)
      · obtain rfl : c = '\n' := by simpa using hends c (by rw [hdrop]; rfl)
        rw [hdrop] at hbody
        exact .inl hbody.peek_append
  · intro hends
    have hbehind := hends.behind
    have hrun : ∀ c ∈ between bytes (start + 2) stop, (c != '\n') = true := by
      intro c hc
      exact bne_iff_ne.2 fun heq => hends.body (heq ▸ hc)
    rcases hends.ends with hnewline | hend
    · obtain ⟨behind, hrest, hbetween⟩ := hbody.exists_eq_append hbehind hnewline
      have hstop : Text.Ends (· != '\n') ('\n' :: behind) := Text.ends_cons rfl
      rw [hrest, Text.takeWhile_append hrun hstop, hbetween]
      omega
    · have hrest : between bytes (start + 2) stop = rest := by
        rw [between, List.extract_eq_take_drop, hbody.view_drop]
        exact List.take_of_length_le (by omega)
      rw [hrest] at hrun
      rw [List.takeWhile_eq_self_iff.2 hrun]
      omega

theorem closesBlock_iff (h : Tail bytes i rest) : ClosesBlock bytes i ↔ ['*', '/'] <+: rest := by
  have hget (k : Nat) : Bytes.peek bytes (i + k) = rest[k]? := by
    rw [← h.view_drop, List.getElem?_drop]
    rfl
  have hzero := hget 0
  have hone := hget 1
  rw [Nat.add_zero] at hzero
  rw [ClosesBlock, hzero, hone]
  match rest with
  | [] => simp
  | [c] => simp
  | c :: d :: rest => simp [eq_comm]

/-- A block comment is skipped to the first closer behind its opener. -/
theorem skipComment_eq_some_iff_block (h : Tail bytes start ('/' :: '*' :: rest)) :
    Bytes.skipComment bytes start = .ok (some stop) ↔ BlockEnds bytes start stop := by
  have hbody : Tail bytes (start + 2) rest := h.next.next
  rw [h.skipComment, Except.ok.injEq, commentTail?, Option.map_map, Option.map_eq_some_iff]
  constructor
  · rintro ⟨n, hn, rfl⟩
    obtain ⟨m, rfl, hm, hmin⟩ := (Text.through?_eq_some_iff (List.cons_ne_nil _ _)).1 hn
    have hstop : start + 1 + (1 + (m + ['*', '/'].length)) = start + 2 + m + 2 := by
      simp only [List.length_cons, List.length_nil]
      omega
    rw [Function.comp_apply, hstop]
    constructor
    case opens => exact h.next.peek
    case behind => omega
    case closed => exact (hbody.drop m).closesBlock_iff.2 hm
    case first =>
      intro i hi hcloses
      obtain ⟨j, rfl⟩ := Nat.exists_eq_add_of_le hi
      have hj := mt (hmin j) (not_not_intro ((hbody.drop j).closesBlock_iff.1 hcloses))
      omega
  · intro hends
    obtain ⟨m, hm⟩ := Nat.exists_eq_add_of_le hends.behind
    have hlast : stop - 2 = start + 2 + m := by omega
    refine ⟨m + ['*', '/'].length, ?_, ?_⟩
    · refine (Text.through?_eq_some_iff (List.cons_ne_nil _ _)).2 ⟨m, rfl, ?_, fun j hj hp => ?_⟩
      · have hclosed := hends.closed
        rw [hlast] at hclosed
        exact (hbody.drop m).closesBlock_iff.1 hclosed
      · have := hends.first (start + 2 + j) (by omega) ((hbody.drop j).closesBlock_iff.2 hp)
        omega
    · simp only [Function.comp_apply, List.length_cons, List.length_nil]
      omega

/-- **A comment is skipped to its end, and only a closed comment is skipped.** -/
theorem skipComment_eq_some_iff (h : Tail bytes start ('/' :: rest)) :
    Bytes.skipComment bytes start = .ok (some stop) ↔
      LineEnds bytes start stop ∨ BlockEnds bytes start stop := by
  have hopens (opener : Char) : Bytes.peek bytes (start + 1) = some opener ↔
      rest.head? = some opener := by
    rw [Bytes.peek, ← List.head?_drop, h.next.view_drop]
  by_cases hline : rest.head? = some '/'
  · have hnot : ¬ BlockEnds bytes start stop := by
      intro hends
      cases hline.symm.trans ((hopens _).1 hends.opens)
    obtain ⟨rest, rfl⟩ := List.head?_eq_some_iff.1 hline
    rw [h.skipComment_eq_some_iff_line, or_iff_left hnot]
  have hnotLine : ¬ LineEnds bytes start stop := fun hends => hline ((hopens _).1 hends.opens)
  rw [or_iff_right hnotLine]
  by_cases hblock : rest.head? = some '*'
  · obtain ⟨rest, rfl⟩ := List.head?_eq_some_iff.1 hblock
    exact h.skipComment_eq_some_iff_block
  · rw [h.skipComment, commentTail?_of_head? hline hblock]
    refine iff_of_false (fun hsome => ?_) fun hends => hblock ((hopens _).1 hends.opens)
    cases hsome

/-! ### Cuts -/

/-- A cut behind a byte leaves the byte, and less behind it. -/
theorem take (h : Tail bytes i (c :: rest)) (hk : i < k) :
    Tail (bytes.take k) i (c :: rest.take (k - (i + 1))) := by
  obtain ⟨m, rfl⟩ := Nat.exists_eq_add_of_lt hk
  have hsize : (bytes.take (i + m + 1)).length ≤ bytes.length := List.length_take_le' ..
  refine ⟨Nat.le_trans hsize h.size, ?_⟩
  rw [view, List.map_take, List.drop_take]
  show ((view bytes).drop i).take _ = _
  rw [h.view_drop, show i + m + 1 - i = m + 1 by omega, show i + m + 1 - (i + 1) = m by omega,
    List.take_succ_cons]

/-- A cut at a byte or in front of it leaves none there. -/
theorem peek_take (hk : k ≤ i) : Bytes.peek (bytes.take k) i = none := by
  rw [Bytes.peek, List.getElem?_eq_none_iff, length_view, List.length_take]
  omega

/-- **A cut leaves the end of a literal where it is, if it is at the end or behind it, and makes no
end.** -/
theorem skipString_take (h : Tail bytes start (quote :: rest)) (hq : isQuote quote = true) :
    Bytes.skipString (bytes.take k) start = .ok (some stop) ↔
      Bytes.skipString bytes start = .ok (some stop) ∧ stop ≤ k := by
  rw [h.skipString hq, Except.ok.injEq, Option.map_eq_some_iff]
  by_cases hk : start < k
  · rw [(h.take hk).skipString hq, Except.ok.injEq, Option.map_eq_some_iff]
    simp only [literalTail?_take hq]
    constructor
    · rintro ⟨n, ⟨hn, hle⟩, rfl⟩
      exact ⟨⟨n, hn, rfl⟩, by omega⟩
    · rintro ⟨⟨n, hn, rfl⟩, hle⟩
      exact ⟨n, ⟨hn, by omega⟩, rfl⟩
  · -- the quote itself is cut off
    refine iff_of_false ?_ ?_
    · rw [Bytes.skipString, byteAt, peek_take (Nat.not_lt.1 hk)]
      intro hsome
      cases hsome
    · rintro ⟨⟨n, -, rfl⟩, hle⟩
      omega

/-- A literal that nothing closes stays open. -/
theorem skipString_take_of_none (h : Tail bytes start (quote :: rest)) (hq : isQuote quote = true)
    (hnone : Bytes.skipString bytes start = .ok none) (hk : start < k) :
    Bytes.skipString (bytes.take k) start = .ok none := by
  have hcut := (h.take hk).skipString hq
  rcases htail : literalTail? quote (rest.take (k - (start + 1))) with _ | n
  · rw [hcut, htail]
    rfl
  · rw [htail] at hcut
    cases hnone.symm.trans ((h.skipString_take hq).1 hcut).1

/-- **A cut at the end of a comment or behind it leaves the end where it is.** A line comment then
ends with the bytes, and no longer with its newline. -/
theorem skipComment_take (h : Tail bytes start ('/' :: rest))
    (hsome : Bytes.skipComment bytes start = .ok (some stop)) (hk : stop ≤ k) :
    Bytes.skipComment (bytes.take k) start = .ok (some stop) := by
  rw [h.skipComment, Except.ok.injEq, Option.map_eq_some_iff] at hsome
  obtain ⟨n, hn, rfl⟩ := hsome
  rw [(h.take (by omega)).skipComment, commentTail?_take hn (by omega)]
  rfl

/-- **No cut makes a comment of a slash that opens none.** -/
theorem skipComment_take_of_none (h : Tail bytes start ('/' :: rest))
    (hnone : Bytes.skipComment bytes start = .ok none) :
    Bytes.skipComment (bytes.take k) start = .ok none := by
  by_cases hk : start < k
  · rw [h.skipComment, Except.ok.injEq, Option.map_eq_none_iff] at hnone
    rw [(h.take hk).skipComment, commentTail?_take_eq_none hnone]
    rfl
  · rw [Bytes.skipComment, h.add_eq_ok (by decide), ok_bind, peek_take (by omega)]
    rfl

end Tail

/-! ### Every quote and every slash -/

/-- How the literal whose quote is at an index is skipped. -/
structure SkipsLiteral (bytes : List UInt8) (quote : Char) (start : Nat) : Prop where
  /-- The readers of characters find the same end, or none. -/
  extent : skipString bytes start =
    .ok ((literalTail? quote ((view bytes).drop (start + 1))).map (start + 1 + ·))
  some_iff : ∀ stop, skipString bytes start = .ok (some stop) ↔ LiteralEnds bytes quote start stop
  unique : ∀ stop other, LiteralEnds bytes quote start stop →
    LiteralEnds bytes quote start other → other = stop
  /-- A cut at the end or behind it leaves the end, and no cut makes one. -/
  take : ∀ k stop, skipString (bytes.take k) start = .ok (some stop) ↔
    skipString bytes start = .ok (some stop) ∧ stop ≤ k
  take_none : skipString bytes start = .ok none →
    ∀ k, start < k → skipString (bytes.take k) start = .ok none

/-- How the comment whose slash is at an index is skipped. -/
structure SkipsComment (bytes : List UInt8) (start : Nat) : Prop where
  /-- The readers of characters find the same end, or none. -/
  extent : skipComment bytes start =
    .ok ((commentTail? ((view bytes).drop (start + 1))).map (start + 1 + ·))
  some_iff : ∀ stop, skipComment bytes start = .ok (some stop) ↔
    LineEnds bytes start stop ∨ BlockEnds bytes start stop
  /-- A cut at the end or behind it leaves the end. -/
  take : ∀ k stop, skipComment bytes start = .ok (some stop) → stop ≤ k →
    skipComment (bytes.take k) start = .ok (some stop)
  /-- No cut makes an end. -/
  take_none : skipComment bytes start = .ok none →
    ∀ k, skipComment (bytes.take k) start = .ok none

variable {bytes : List UInt8}

/-- **Literals and comments are skipped to their ends, among any bytes and however these are cut
behind the ends.** -/
theorem atoms_skipped (hsize : bytes.length ≤ maxTextSize) :
    (∀ quote start, isQuote quote = true → peek bytes start = some quote →
      SkipsLiteral bytes quote start) ∧
    ∀ start, peek bytes start = some '/' → SkipsComment bytes start := by
  constructor
  · intro quote start hq hpeek
    have h := Tail.of_peek hsize hpeek
    have hexact (stop : Nat) : skipString bytes start = .ok (some stop) ↔
        LiteralEnds bytes quote start stop := h.skipString_eq_some_iff hq
    constructor
    case extent => exact h.skipString hq
    case some_iff => exact hexact
    case unique =>
      intro stop other hstop hother
      cases ((hexact stop).2 hstop).symm.trans ((hexact other).2 hother)
      rfl
    case take => exact fun k stop => h.skipString_take hq
    case take_none => exact fun hnone k hk => h.skipString_take_of_none hq hnone hk
  · intro start hpeek
    have h := Tail.of_peek hsize hpeek
    constructor
    case extent => exact h.skipComment
    case some_iff => exact fun stop => h.skipComment_eq_some_iff
    case take => exact fun k stop hsome hk => h.skipComment_take hsome hk
    case take_none => exact fun hnone k => h.skipComment_take_of_none hnone

/-- The bytes of `'\⏎\'?'/*/*///'⏎"⏎"`, where `⏎` is a newline and the byte for `?` is no UTF-8. -/
def escapedLine : List UInt8 :=
  [0x27, 0x5c, 0x0a, 0x5c, 0x27, 0xff, 0x27, 0x2f, 0x2a, 0x2f, 0x2a, 0x2f, 0x2f, 0x2f, 0x27, 0x0a,
    0x22, 0x0a, 0x22]

/-- A literal goes on behind a newline and a quote that are escaped, the opener of a block comment is
no closer of it, a line comment takes no newline along, and a newline leaves a literal open. -/
theorem atoms_skipped_of_escapedLine : escapedLine.length ≤ maxTextSize ∧
    (SkipsLiteral escapedLine '\'' 0 ∧ LiteralEnds escapedLine '\'' 0 7) ∧
    (SkipsComment escapedLine 7 ∧ BlockEnds escapedLine 7 12) ∧
    (SkipsComment escapedLine 12 ∧ LineEnds escapedLine 12 15) ∧
    SkipsLiteral escapedLine '"' 16 ∧ ∀ stop, ¬ LiteralEnds escapedLine '"' 16 stop := by
  have hsize : escapedLine.length ≤ maxTextSize := by decide
  obtain ⟨hliterals, hcomments⟩ := atoms_skipped hsize
  have hsingle := hliterals '\'' 0 rfl (by decide)
  have hblock := hcomments 7 (by decide)
  have hline := hcomments 12 (by decide)
  have hdouble := hliterals '"' 16 rfl (by decide)
  refine ⟨hsize, ⟨hsingle, ?_⟩, ⟨hblock, ?_⟩, ⟨hline, ?_⟩, hdouble, fun stop hends => ?_⟩
  · exact (hsingle.some_iff 7).1 (by decide +kernel)
  · have hends := (hblock.some_iff 12).1 (by decide +kernel)
    exact hends.resolve_left fun h => absurd h.opens (by decide)
  · have hends := (hline.some_iff 15).1 (by decide +kernel)
    exact hends.resolve_right fun h => absurd h.opens (by decide)
  · have hnone : skipString escapedLine 16 = .ok none := by decide +kernel
    cases hnone.symm.trans ((hdouble.some_iff stop).2 hends)

end TagLint.Bytes
