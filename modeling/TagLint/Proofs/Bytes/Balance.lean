import TagLint.Proofs.Bytes.Progress
import TagLint.Proofs.Bytes.Script
import TagLint.Proofs.Script.Reading

/-!
# Braces among arbitrary bytes

The loop that counts braces takes any bytes, also such as are no UTF-8. Each byte counts as the
character with its code.

- `Inside`: the state of the loop that counts braces agrees with the parts that it has read
  (`Inside.step`, `inside_of_reaches`).
- `skipBraced_balances`: a braced expression is skipped to the brace that balances the first one.
-/

namespace TagLint.Bytes

open Script

/-! ### The count of braces -/

variable {bytes : List UInt8} {start : Nat} {front parts : List (List Char)} {here next : Nat × Nat}

/-- The loop that counts braces has read the parts `front` from an index on. Its count is by how
many more braces of these parts are opened than closed, and there are some. -/
structure Inside (bytes : List UInt8) (start : Nat) (front : List (List Char)) (here : Nat × Nat) :
    Prop where
  index : here.2 = start + front.flatten.length
  reads : atoms ((view bytes).drop start) = front ++ atoms ((view bytes).drop here.2)
  count : here.1 + front.count ['}'] = front.count ['{']
  isOpen : 0 < here.1

/-- An iteration of the loop reads one more part. -/
theorem Inside.extend {part : List Char} (h : Inside bytes start front here)
    (hindex : next.2 = here.2 + part.length)
    (hreads : atoms ((view bytes).drop here.2) = part :: atoms ((view bytes).drop next.2))
    (hcount : next.1 + [part].count ['}'] = here.1 + [part].count ['{']) (hopen : 0 < next.1) :
    Inside bytes start (front ++ [part]) next := by
  constructor
  case index => rw [hindex, h.index, List.flatten_append, List.flatten_singleton,
    List.length_append, Nat.add_assoc]
  case reads => rw [h.reads, hreads, List.append_assoc, List.singleton_append]
  case count =>
    have := h.count
    rw [List.count_append, List.count_append]
    omega
  case isOpen => exact hopen

/-- While an expression is open, each iteration of the loop reads a part. -/
theorem Inside.step (h : Inside bytes start front here) (hsize : bytes.length ≤ maxTextSize)
    (hmove : (braced bytes).Moves bytes here next) :
    ∃ part, Inside bytes start (front ++ [part]) next := by
  obtain ⟨depth, i⟩ := here
  obtain ⟨after, j⟩ := next
  obtain ⟨c, hpeek, hstep⟩ := hmove
  obtain ⟨rest, hrest⟩ : ∃ rest, (view bytes).drop (i + 1) = rest := ⟨_, rfl⟩
  have htail : Tail bytes i (c :: rest) := hrest ▸ Tail.of_peek hsize hpeek
  by_cases hopen : c = '{'
  · subst hopen
    have hbrace : (braced bytes).step depth i '{' = add depth 1 >>= fun more =>
      .ok (.go more (i + 1)) := rfl
    rw [hbrace, add] at hstep
    split at hstep
    · cases hstep
      refine ⟨['{'], h.extend rfl ?_ rfl (Nat.succ_pos depth)⟩
      rw [htail.view_drop, htail.next.view_drop, atoms_brace (.inl rfl)]
    · cases hstep
  by_cases hclose : c = '}'
  · subst hclose
    have hdepth := h.isOpen
    match depth, hdepth with
    -- with one brace open the loop answers here, so this is no iteration
    | 1, _ => cases hstep
    | depth + 2, _ =>
      cases hstep
      refine ⟨['}'], h.extend rfl ?_ rfl (Nat.succ_pos depth)⟩
      rw [htail.view_drop, htail.next.view_drop, atoms_brace (.inr rfl)]
  · have hne {brace : Char} (h : c ≠ brace) (rest : List Char) : c :: rest ≠ [brace] :=
      fun heq => h (List.cons.inj heq).1
    rw [htail.braced_step_atom hopen hclose, Nat.add_comm 1] at hstep
    cases hstep
    refine ⟨c :: rest.take (atomTail c rest), h.extend ?_ ?_ ?_ h.isOpen⟩
    · rw [List.length_cons, List.length_take_of_le (atomTail_le c rest)]
      rfl
    · have hbehind := (htail.drop (atomTail c rest + 1)).view_drop
      rw [List.drop_succ_cons] at hbehind
      rw [htail.view_drop, atoms_cons, ← hbehind]
      rfl
    · rw [List.count_singleton, List.count_singleton, if_neg, if_neg]
      · exact fun heq => hne hopen _ (eq_of_beq heq)
      · exact fun heq => hne hclose _ (eq_of_beq heq)

/-- The loop begins in front of the first brace, and all it reaches is inside the expression. -/
theorem inside_of_reaches (hsize : bytes.length ≤ maxTextSize) (hopen : peek bytes start = some '{')
    (h : (braced bytes).Reaches bytes (0, start) here) :
    here = (0, start) ∨ ∃ front, Inside bytes start front here := by
  have htail := Tail.of_peek hsize hopen
  induction h with
  | refl => exact .inl rfl
  | @tail here next _ hmove ih =>
    right
    rcases ih with rfl | ⟨front, hinside⟩
    -- in front of the first brace nothing is open, so the invariant begins behind it
    · have hfirst : (braced bytes).Moves bytes (0, start) (1, start + 1) :=
        ⟨'{', hopen, braced_open (show 0 + 1 ≤ maxSize by decide)⟩
      obtain rfl := hfirst.unique hmove
      refine ⟨[['{']], rfl, ?_, rfl, Nat.one_pos⟩
      rw [htail.view_drop, atoms_brace (.inl rfl), List.singleton_append]
    · obtain ⟨part, hpart⟩ := hinside.step hsize hmove
      exact ⟨_, hpart⟩

/-- How the braced expression at an index is skipped. The bytes from there on are read in `parts`,
and `stop` is where the skipping ends. -/
structure Balances (bytes : List UInt8) (start : Nat) (parts : List (List Char)) (stop : Nat) :
    Prop where
  /-- There is one way in which the bytes are read. -/
  reads : ∀ other, Reads other ((view bytes).drop start) ↔ other = parts
  skipped : skipBraced bytes start = .ok stop
  /-- The readers of characters count the same. -/
  extent : stop = start + 1 + bracedTail ((view bytes).drop (start + 1))
  /-- The end is behind the first brace that balances those in front of it. -/
  closed : ∀ inner, Closes 0 inner parts → stop = start + inner.flatten.length + 1
  /-- Without such a brace the end is that of the bytes. -/
  unclosed : (∀ inner, ¬ Closes 0 inner parts) → stop = bytes.length
  grows : start < stop
  within : stop ≤ bytes.length
  /-- In every iteration the count is that of the parts that have been read. -/
  count : ∀ depth i, (braced bytes).Reaches bytes (0, start) (depth, i) →
    ∃ front, front <+: parts ∧ i = start + front.flatten.length ∧
      depth + front.count ['}'] = front.count ['{']
  /-- Something is open in front of every closing brace that is read. -/
  isOpen : ∀ depth i, (braced bytes).Reaches bytes (0, start) (depth, i) →
    peek bytes i = some '}' → 1 ≤ depth

/-- **A braced expression is skipped to the brace that balances its first one.** -/
theorem skipBraced_balances (hsize : bytes.length ≤ maxTextSize)
    (hopen : peek bytes start = some '{') : ∃ parts stop, Balances bytes start parts stop := by
  obtain ⟨rest, hrest⟩ : ∃ rest, (view bytes).drop (start + 1) = rest := ⟨_, rfl⟩
  have htail : Tail bytes start ('{' :: rest) := hrest ▸ Tail.of_peek hsize hopen
  have hlength := htail.next.length_eq htail.lt_length
  have hatoms : atoms ((view bytes).drop start) = ['{'] :: atoms rest := by
    rw [htail.view_drop, atoms_brace (.inl rfl)]
  refine ⟨['{'] :: atoms rest, start + 1 + bracedTail rest, ?_⟩
  constructor
  case reads =>
    intro other
    rw [reads_iff, hatoms]
  case skipped => exact htail.skipBraced
  case extent => rw [hrest]
  case closed =>
    intro inner hinner
    obtain ⟨other, hother, htaken⟩ := exists_closes 0 hinner.isClosed
    have hbrace : Closes 0 (['{'] :: other) (['{'] :: atoms rest) :=
      hother.cons (.inl (by decide)) rfl
    rw [hbrace.unique hinner, bracedTail, htaken, List.flatten_cons, List.length_append,
      List.length_singleton]
    omega
  case unclosed =>
    intro hnone
    have hopen : ¬ IsClosed 0 rest := by
      intro hclosed
      obtain ⟨inner, hcloses, -⟩ := exists_closes 0 hclosed
      exact hnone _ (hcloses.cons (.inl (by decide)) rfl)
    rw [bracedTail_of_open hopen, hlength]
  case grows => omega
  case within =>
    have := bracedTail_le rest
    omega
  case count =>
    intro depth i hreaches
    rcases inside_of_reaches hsize hopen hreaches with heq | ⟨front, hinside⟩
    · cases heq
      exact ⟨[], List.nil_prefix, rfl, rfl⟩
    · have hfront : front <+: ['{'] :: atoms rest := by
        rw [← hatoms, hinside.reads]
        exact List.prefix_append ..
      exact ⟨front, hfront, hinside.index, hinside.count⟩
  case isOpen =>
    intro depth i hreaches hclose
    rcases inside_of_reaches hsize hopen hreaches with heq | ⟨front, hinside⟩
    · cases heq
      cases hopen.symm.trans hclose
    · exact hinside.isOpen

/-- The bytes of `x{"}"'?{}//}`, a newline and `}x`, where the byte for `?` is no UTF-8. -/
def strayQuote : List UInt8 :=
  [0x78, 0x7b, 0x22, 0x7d, 0x22, 0x27, 0xff, 0x7b, 0x7d, 0x2f, 0x2f, 0x7d, 0x0a, 0x7d, 0x78]

/-- Three closing braces are passed over: one in a string, the one of a nested expression, behind a
quote that nothing closes, and one in a comment. -/
theorem skipBraced_balances_of_strayQuote :
    strayQuote.length ≤ maxTextSize ∧ peek strayQuote 1 = some '{' ∧
      ∃ parts, Balances strayQuote 1 parts 14 := by
  have hsize : strayQuote.length ≤ maxTextSize := by decide
  have hopen : peek strayQuote 1 = some '{' := by decide
  obtain ⟨parts, stop, h⟩ := skipBraced_balances hsize hopen
  obtain rfl : stop = 14 :=
    Except.ok.inj (h.skipped.symm.trans (by decide +kernel : skipBraced strayQuote 1 = .ok 14))
  exact ⟨hsize, hopen, parts, h⟩

end TagLint.Bytes
