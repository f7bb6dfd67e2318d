import TagLint.Proofs.Bytes.Advance
import TagLint.Proofs.Bytes.Balance
import TagLint.Proofs.Tag.Nesting

/-!
# The stack of a tag

The loop that looks for the end of a tag keeps what is open on a stack. The stack has more states
than `Nesting`, which has no place for a quote among braces or for a tag that is gone. Here it is
shown that the loop never comes to those.

- `Layers`, `IsStack`: the tag with one quote on it or with braces, each on its opener, and the places
  in order.
- `IsStack.change`, `isStack_of_iterates`: an iteration keeps this shape, and so a run does.
- `scanTag_eq_ok_iff`: a run ends where the loop has an answer; `IsStack.answers_ok_iff` and
  `IsStack.answers_error_iff` say which it is.
- `Follows`: the loop keeps the stack of what is open in the reading over characters
  (`Follows.moves`, `exists_follows`).
- `insideTag_keepsStack`: all of this for the tag at a place of a source.
-/

namespace TagLint.Bytes

open Script (atomTail)

variable {bytes : List UInt8} {start stop i j : Nat} {c : Char} {stack next outer : Stack}

/-! ### The shape -/

/-- The character that opens something. -/
def Open.opener : Open → Char
  | .tag => '<'
  | .quote mark => mark
  | .brace => '{'

/-- On the tag at `start` stands one quote, or any number of braces, and nothing else. -/
inductive Layers (start : Nat) : Stack → Prop
  | quote {quote : Char} (opened : Nat) : quote = '"' ∨ quote = '\'' →
    Layers start [(.quote quote, opened), (.tag, start)]
  | braces (opened : List Nat) :
    Layers start (opened.map (fun place => (Open.brace, place)) ++ [(.tag, start)])

/-- The stack of the tag at `start`, with the index at `i`. -/
structure IsStack (bytes : List UInt8) (start i : Nat) (stack : Stack) : Prop where
  layers : Layers start stack
  /-- What was opened last is innermost. -/
  sorted : stack.Pairwise fun inner outer => outer.2 < inner.2
  below : ∀ entry ∈ stack, entry.2 < i
  /-- What is open stands on its opener. -/
  opens : ∀ entry ∈ stack, peek bytes entry.2 = some entry.1.opener

theorem Layers.eq_of_tag {opened : Nat} (h : Layers start ((.tag, opened) :: outer)) :
    opened = start ∧ outer = [] := by
  generalize hstack : (Open.tag, opened) :: outer = stack at h
  cases h with
  | quote => cases hstack
  | braces places =>
    cases places with
    | nil =>
      cases hstack
      exact ⟨rfl, rfl⟩
    | cons => cases hstack

theorem Layers.getLast? (h : Layers start stack) : stack.getLast? = some (.tag, start) := by
  cases h with
  | quote => rfl
  | braces opened => exact List.getLast?_concat

/-- An iteration leaves the layers in order. A quote is put on the tag alone, since `Change` has it
only there; a brace is put on the tag or on a brace. -/
theorem Layers.change (h : Layers start stack) (hchange : Change i c stack next) :
    Layers start next := by
  cases hchange with
  | keeps => exact h
  | opensQuote hquote =>
    obtain ⟨rfl, rfl⟩ := h.eq_of_tag
    exact .quote i hquote
  | @opensBrace innermost outer _ hinnermost =>
    generalize hstack : innermost :: outer = stack at h
    cases h with
    | quote =>
      cases hstack
      rcases hinnermost with htag | hbrace
      · cases htag
      · cases hbrace
    | braces places => exact .braces (i :: places)
  | @closes innermost _ hinnermost =>
    generalize hstack : innermost :: next = stack at h
    cases h with
    | quote =>
      cases hstack
      exact .braces []
    | braces places =>
      cases places with
      | nil =>
        cases hstack
        rcases hinnermost with hquote | ⟨hbrace, -⟩
        · cases hquote
        · cases hbrace
      | cons first places =>
        cases hstack
        exact .braces places

namespace IsStack

theorem mono (h : IsStack bytes start i stack) (hle : i ≤ j) : IsStack bytes start j stack :=
  ⟨h.layers, h.sorted, fun entry hmem => Nat.lt_of_lt_of_le (h.below entry hmem) hle, h.opens⟩

/-- An opener is put on top where it is read. -/
theorem push {kind : Open} (h : IsStack bytes start i stack) (hpeek : peek bytes i = some kind.opener)
    (hlayers : Layers start ((kind, i) :: stack)) : IsStack bytes start (i + 1) ((kind, i) :: stack) := by
  constructor
  case layers => exact hlayers
  case sorted => exact .cons h.below h.sorted
  case below =>
    intro entry hmem
    rcases List.mem_cons.1 hmem with rfl | hmem
    · exact Nat.lt_succ_self i
    · exact Nat.lt_succ_of_lt (h.below entry hmem)
  case opens =>
    intro entry hmem
    rcases List.mem_cons.1 hmem with rfl | hmem
    · exact hpeek
    · exact h.opens entry hmem

theorem pop {innermost : Open × Nat} (h : IsStack bytes start i (innermost :: stack))
    (hlayers : Layers start stack) : IsStack bytes start i stack :=
  ⟨hlayers, h.sorted.of_cons, fun entry hmem => h.below entry (List.mem_cons_of_mem _ hmem),
    fun entry hmem => h.opens entry (List.mem_cons_of_mem _ hmem)⟩

/-- **An iteration keeps the shape of the stack.** -/
theorem change (h : IsStack bytes start i stack) (hpeek : peek bytes i = some c)
    (hchange : Change i c stack next) (hlt : i < j) : IsStack bytes start j next := by
  have hlayers := h.layers.change hchange
  cases hchange with
  | keeps => exact h.mono (Nat.le_of_lt hlt)
  | opensQuote =>
    have hopener : peek bytes i = some (Open.quote c).opener := hpeek
    exact (h.push hopener hlayers).mono hlt
  | opensBrace hc =>
    have hopener : peek bytes i = some Open.brace.opener := hpeek.trans (congrArg some hc)
    exact (h.push hopener hlayers).mono hlt
  | closes => exact (h.pop hlayers).mono (Nat.le_of_lt hlt)

end IsStack

/-! ### Runs -/

/-- In the reading of the tag at `start` an iteration begins at the index `i` with `stack`. -/
def Iterates (bytes : List UInt8) (start : Nat) (stack : Stack) (i : Nat) : Prop :=
  (insideTag bytes).Reaches bytes ([(.tag, start)], start + 1) (stack, i)

theorem change_of_moves {here there : Stack × Nat} (h : (insideTag bytes).Moves bytes here there) :
    ∃ c, peek bytes here.2 = some c ∧ Change here.2 c here.1 there.1 ∧
      (there.2 = here.2 + 1 ∨ there.2 = here.2 + 2 ∨
        skipAtom bytes here.2 c = .ok (some there.2)) := by
  obtain ⟨c, hpeek, hstep⟩ := h
  refine ⟨c, hpeek, ?_⟩
  rcases insideTag_step_cases hstep with ⟨_, _, -, -, hstop⟩ | ⟨next, j, hgo, hchange, hj⟩
  · cases hstop
  · cases hgo
    exact ⟨hchange, hj⟩

/-- **Every iteration begins with a stack of the right shape.** -/
theorem isStack_of_iterates (hopen : peek bytes start = some '<')
    (h : Iterates bytes start stack i) : IsStack bytes start i stack := by
  unfold Iterates at h
  generalize hthere : (stack, i) = there at h
  induction h generalizing stack i with
  | refl =>
    cases hthere
    have hempty : IsStack bytes start (start + 1) [(.tag, start)] := by
      constructor
      case layers => exact .braces []
      case sorted => exact .cons nofun .nil
      case below => simp
      case opens => exact fun entry hmem => List.mem_singleton.1 hmem ▸ hopen
    exact hempty
  | @tail here _ _ hmove ih =>
    subst hthere
    obtain ⟨c, hpeek, hchange, -⟩ := change_of_moves hmove
    have hlt : here.2 < i := (allLead_insideTag bytes).advances bytes here (stack, i) hmove
    exact (ih rfl).change hpeek hchange hlt

/-- The index stays in range, for an atom ends in the bytes. -/
theorem le_maxSize_of_moves (hsize : bytes.length ≤ maxTextSize) {here there : Stack × Nat}
    (h : (insideTag bytes).Moves bytes here there) : there.2 ≤ maxSize := by
  obtain ⟨c, hpeek, -, hj⟩ := change_of_moves h
  have htail := Tail.of_peek hsize hpeek
  rcases hj with hone | htwo | hskip
  · rw [hone]
    exact htail.add_le (by decide)
  · rw [htwo]
    exact htail.add_le (by decide)
  · rw [htail.skipAtom, Except.ok.injEq, Option.map_eq_some_iff] at hskip
    obtain ⟨n, hn, hthere⟩ := hskip
    have hatom := Script.atomTail_le c ((view bytes).drop (here.2 + 1))
    rw [Script.atomTail_eq, hn, Option.getD_some] at hatom
    have hlength := htail.next.length_eq htail.lt_length
    exact htail.le_maxSize (by omega)

/-- The reading of a tag ends where the loop has an answer. -/
theorem scanTag_eq_ok_iff (hsize : bytes.length ≤ maxTextSize) (hopen : peek bytes start = some '<')
    {found : Except (Open × Nat) Nat} : scanTag bytes start = .ok found ↔
      ∃ stack i, Iterates bytes start stack i ∧ (insideTag bytes).Answers bytes (stack, i) found := by
  rw [scanTag, (Tail.of_peek hsize hopen).add_eq_ok (by decide), ok_bind]
  constructor
  · intro h
    obtain ⟨⟨stack, i⟩, hreaches, hanswers⟩ := Loop.exists_answers_of_run h
    exact ⟨stack, i, hreaches, hanswers⟩
  · rintro ⟨stack, i, hreaches, hanswers⟩
    have hrun := Loop.run_eq_of_reaches ((allLead_insideTag bytes).advances bytes)
      (fun _ _ => le_maxSize_of_moves hsize) hreaches
    exact hrun.trans hanswers.run_eq

namespace IsStack

variable (h : IsStack bytes start i stack)

include h

/-- The loop answers with the end of the tag where a `>` stands and nothing is open in the tag. -/
theorem answers_ok_iff : (insideTag bytes).Answers bytes (stack, i) (.ok stop) ↔
    stack = [(.tag, start)] ∧ peek bytes i = some '>' ∧ stop = i + 1 := by
  constructor
  · rintro (⟨c, hpeek, hstep⟩ | ⟨-, hfinish⟩)
    · rcases insideTag_step_cases hstep with ⟨opened, outer, hstack, rfl, hstop⟩ | ⟨_, _, hgo, -⟩
      · change stack = _ at hstack
        subst hstack
        obtain ⟨rfl, rfl⟩ := h.layers.eq_of_tag
        cases hstop
        exact ⟨rfl, hpeek, rfl⟩
      · cases hgo
    · cases stack with
      | nil => cases hfinish
      | cons innermost outer => cases hfinish
  · rintro ⟨rfl, hpeek, rfl⟩
    exact .inl ⟨'>', hpeek, rfl⟩

/-- The loop answers with what is innermost where the bytes end. -/
theorem answers_error_iff {entry : Open × Nat} :
    (insideTag bytes).Answers bytes (stack, i) (.error entry) ↔
      stack.head? = some entry ∧ peek bytes i = none := by
  constructor
  · rintro (⟨c, hpeek, hstep⟩ | ⟨hend, hfinish⟩)
    · rcases insideTag_step_cases hstep with ⟨_, _, -, -, hstop⟩ | ⟨_, _, hgo, -⟩
      · cases hstop
      · cases hgo
    · cases stack with
      | nil => cases hfinish
      | cons innermost outer =>
        cases hfinish
        exact ⟨rfl, hend⟩
  · rintro ⟨hhead, hend⟩
    cases stack with
    | nil => cases hhead
    | cons innermost outer =>
      cases hhead
      exact .inr ⟨hend, rfl⟩

end IsStack

/-! ### What is open over characters -/

/-- At an index stands what is left of a character outside ASCII, if anything, and then `rest`. -/
def Lags (text : List Char) (i : Nat) (rest : List Char) : Prop :=
  ∃ wide, (∀ d ∈ wide, 128 ≤ d.toNat) ∧ (view (utf8 text)).drop i = wide ++ view (utf8 rest)

variable {text whole rest : List Char} {nest : Nesting} {place : Nat}

theorem At.lags (h : At text i rest) : Lags text i rest :=
  ⟨[], nofun, h.view_drop⟩

/-- Behind the first byte of a character only bytes outside ASCII are left of it. -/
theorem lags_succ (h : (view (utf8 text)).drop i = view (utf8 rest)) :
    Lags text (i + 1) (rest.drop 1) := by
  have hsucc : (view (utf8 text)).drop (i + 1) = (view (utf8 rest)).drop 1 := by
    rw [← List.drop_drop, h]
  cases rest with
  | nil => exact ⟨[], nofun, hsucc⟩
  | cons c rest =>
    by_cases hc : c.toNat < 128
    · rw [view_utf8_of_lt hc] at hsucc
      exact ⟨[], nofun, hsucc⟩
    · obtain ⟨wide, hview, hlength, hwide⟩ := exists_view_utf8 (Nat.not_lt.1 hc) rest
      obtain ⟨d, wide, rfl⟩ := List.exists_cons_of_length_pos (hlength ▸ c.utf8Size_pos)
      rw [hview] at hsucc
      exact ⟨wide, fun e he => hwide e (List.mem_cons_of_mem _ he), hsucc⟩

/-- A character outside ASCII means nothing in a tag. -/
theorem step_of_le (hproper : nest.IsProper) (hc : 128 ≤ c.toNat) :
    nest.step place c rest = .read nest 0 := by
  have hne {a : Char} (ha : a.toNat < 128) : c ≠ a := ne_of_le_toNat hc ha
  cases nest with
  | tag =>
    refine Nesting.step_tag_of_isPlain ?_ place rest
    simp [Nesting.isPlain, hne (a := '>') (by decide), hne (a := '\\') (by decide),
      hne (a := '"') (by decide), hne (a := '\'') (by decide), hne (a := '{') (by decide)]
  | quoted quote opened =>
    have hquote : quote.toNat < 128 := by
      rcases hproper with rfl | rfl <;> decide
    rw [Nesting.step, if_neg (hne (by decide)), if_neg (hne hquote)]
  | braced opened outer =>
    rw [Nesting.step, if_neg (hne (by decide)), if_neg (hne (by decide)), atomTail_of_le hc]

/-- The loop over bytes has on its stack what is open where the reading over characters is. Behind
a backslash, and in a character outside ASCII, it has some bytes to go to that place. -/
structure Follows (text whole : List Char) (start : Nat) (here : Stack × Nat) (nest : Nesting)
    (place : Nat) : Prop where
  reaches : Nesting.Reaches whole nest place
  isProper : nest.IsProper
  stack_eq : here.1 = stackOf (ahead start whole) nest
  lags : Lags text here.2 (whole.drop place)

namespace Follows

variable {here there : Stack × Nat}

/-- In front of a character the loop is at its index. -/
theorem exists_at (hwhole : At text start whole) (hrest : whole.drop place = c :: rest)
    (hview : (view (utf8 text)).drop i = view (utf8 (c :: rest))) :
    At text i (c :: rest) ∧ ahead start whole place = i := by
  have hplace := hwhole.drop place
  rw [hrest] at hplace
  have hindex := congrArg List.length hview
  rw [List.length_drop, length_view, length_view, length_utf8, length_utf8] at hindex
  have hsize := hplace.add_byteSize
  have hpos := Text.byteSize_pos (List.cons_ne_nil c rest)
  obtain rfl : ahead start whole place = i := by omega
  exact ⟨hplace, rfl⟩

/-- In front of an ASCII character the loop makes the step of the reading. -/
theorem read (h : Follows text whole start here nest place) (hwhole : At text start whole)
    (hrest : whole.drop place = c :: rest) (hc : c.toNat < 128)
    (hview : (view (utf8 text)).drop here.2 = view (utf8 (c :: rest)))
    (hmove : (insideTag (utf8 text)).step here.1 here.2 c = .ok (.go there.1 there.2)) :
    ∃ nest place, Follows text whole start there nest place := by
  obtain ⟨hat, hindex⟩ := exists_at hwhole hrest hview
  obtain ⟨after, j⟩ := there
  rw [h.stack_eq] at hmove
  cases hstep : nest.step place c rest with
  | finish =>
    obtain ⟨rfl, rfl⟩ := Nesting.step_eq_finish_iff.1 hstep
    cases hmove
  | read next tail =>
    have hproper := Nesting.isProper_of_step h.isProper hstep
    have hreaches : Nesting.Reaches whole next (place + 1 + tail) :=
      .tail h.reaches ⟨c, rest, tail, hrest, hstep, rfl⟩
    have hbehind := Text.drop_behind hrest tail
    suffices hnext : after = stackOf (ahead start whole) next ∧ Lags text j (rest.drop tail) by
      exact ⟨next, place + 1 + tail, hreaches, hproper, hnext.1, hbehind ▸ hnext.2⟩
    have hmakes : Makes (utf8 text) (ahead start whole) nest here.2 c rest next tail :=
      makes_of_step h.isProper hindex hstep
    cases hmakes with
    | single _ hloop =>
      cases hloop.symm.trans hmove
      exact ⟨rfl, lags_succ hview⟩
    | escape _ hloop =>
      cases hloop.symm.trans hmove
      exact ⟨rfl, lags_succ (hat.next_of_lt hc).view_drop⟩
    | atom hloop =>
      rw [hloop] at hmove
      rcases hat.skipAtom with ⟨hskip, htail⟩ | ⟨-, hskip⟩
      · rw [hskip] at hmove
        cases hmove
        rw [htail]
        exact ⟨rfl, lags_succ hview⟩
      · rw [hskip] at hmove
        cases hmove
        exact ⟨rfl, ((hat.next_of_lt hc).drop _).lags⟩

/-- **The loop follows the reading over characters.** -/
theorem moves (h : Follows text whole start here nest place) (hwhole : At text start whole)
    (hmove : (insideTag (utf8 text)).Moves (utf8 text) here there) :
    ∃ nest place, Follows text whole start there nest place := by
  obtain ⟨d, hpeek, hstep⟩ := hmove
  -- over a byte outside ASCII the loop goes on with the same stack
  have hover (hd : 128 ≤ d.toNat) : here.1 = there.1 ∧ here.2 + 1 = there.2 := by
    have hpasses : (insideTag (utf8 text)).Passes (stackOf (ahead start whole) nest) :=
      insideTag_passes h.isProper
    rw [h.stack_eq, hpasses here.2 d hd] at hstep
    injection hstep with hgo
    injection hgo with hstack hindex
    exact ⟨h.stack_eq.trans hstack, hindex⟩
  obtain ⟨wide, hwide, hdrop⟩ := h.lags
  cases wide with
  | cons e wide =>
    obtain rfl := Option.some.inj (hpeek.symm.trans (Text.getElem?_of_drop hdrop))
    obtain ⟨hstack, hindex⟩ := hover (hwide d List.mem_cons_self)
    refine ⟨nest, place, h.reaches, h.isProper, hstack ▸ h.stack_eq, wide, ?_, ?_⟩
    · exact fun e he => hwide e (List.mem_cons_of_mem _ he)
    · rw [← hindex]
      exact Text.drop_behind hdrop 0
  | nil =>
    rw [List.nil_append] at hdrop
    cases hrest : whole.drop place with
    | nil =>
      rw [hrest] at hdrop
      have hend : peek (utf8 text) here.2 = none :=
        List.getElem?_eq_none (List.drop_eq_nil_iff.1 hdrop)
      cases hpeek.symm.trans hend
    | cons c rest =>
      rw [hrest] at hdrop
      obtain ⟨hat, -⟩ := exists_at hwhole hrest hdrop
      by_cases hc : c.toNat < 128
      · obtain rfl := Option.some.inj (hpeek.symm.trans (hat.peek hc))
        exact h.read hwhole hrest hc hdrop hstep
      · have hc := Nat.not_lt.1 hc
        obtain ⟨e, hpeek', he⟩ := hat.exists_peek hc (k := 0) c.utf8Size_pos
        obtain rfl := Option.some.inj (hpeek.symm.trans hpeek')
        obtain ⟨hstack, hindex⟩ := hover he
        have hreaches : Nesting.Reaches whole nest (place + 1) :=
          .tail h.reaches ⟨c, rest, 0, hrest, step_of_le h.isProper hc, rfl⟩
        refine ⟨nest, place + 1, hreaches, h.isProper, hstack ▸ h.stack_eq, ?_⟩
        rw [← hindex, Text.drop_behind hrest 0]
        exact lags_succ hdrop

end Follows

/-- Whatever the loop has on its stack is what is open at a place of the tag. -/
theorem exists_follows (h : At text start ('<' :: rest)) (hiterates : Iterates (utf8 text) start stack i) :
    ∃ nest place, Follows text ('<' :: rest) start (stack, i) nest place := by
  unfold Iterates at hiterates
  generalize (stack, i) = there at hiterates
  induction hiterates with
  | refl => exact ⟨.tag, 1, .refl, trivial, rfl, (h.next_of_lt (by decide)).lags⟩
  | tail _ hmove ih =>
    obtain ⟨nest, place, hfollows⟩ := ih
    exact hfollows.moves h hmove

/-! ### The tag at a place -/

/-- What is so of the stack in the reading of the tag at a place of a text. -/
structure KeepsStack (text : List Char) (start : Nat) (rest : List Char) : Prop where
  /-- In every iteration the stack has its shape. -/
  shape : ∀ stack i, Iterates (utf8 text) start stack i → IsStack (utf8 text) start i stack
  /-- The stack is never empty, for the tag stays at its bottom. -/
  bottom : ∀ stack i, Iterates (utf8 text) start stack i → stack.getLast? = some (.tag, start)
  /-- A quote is entered in the tag alone. -/
  quote : ∀ stack i quote j, Iterates (utf8 text) start stack i →
    (insideTag (utf8 text)).Moves (utf8 text) (stack, i) ((.quote quote, i) :: stack, j) →
    stack = [(.tag, start)]
  /-- The tag is returned where a `>` is read with the tag alone on the stack. -/
  returned : ∀ stop, scanTag (utf8 text) start = .ok (.ok stop) ↔
    ∃ i, Iterates (utf8 text) start [(.tag, start)] i ∧ peek (utf8 text) i = some '>' ∧ stop = i + 1
  /-- Otherwise the text ends, and what is innermost is to blame. -/
  unclosed : ∀ entry, scanTag (utf8 text) start = .ok (.error entry) ↔
    ∃ outer i, Iterates (utf8 text) start (entry :: outer) i ∧ peek (utf8 text) i = none
  /-- The reading over characters ends at the same place. -/
  scanned : scanTag (utf8 text) start = .ok (At.endAt start ('<' :: rest) (tagLength ('<' :: rest)))
  /-- The stack is that of what is open in the reading over characters. -/
  follows : ∀ stack i, Iterates (utf8 text) start stack i → ∃ nest place,
    Nesting.Reaches ('<' :: rest) nest place ∧ stack = stackOf (ahead start ('<' :: rest)) nest

/-- **The stack of a tag keeps its shape.** -/
theorem insideTag_keepsStack (h : At text start ('<' :: rest)) : KeepsStack text start rest := by
  have hsize : (utf8 text).length ≤ maxTextSize := by
    rw [length_utf8]
    exact h.size
  have hopen : peek (utf8 text) start = some '<' := h.peek (by decide)
  have hshape (stack : Stack) (i : Nat) (hiterates : Iterates (utf8 text) start stack i) :
      IsStack (utf8 text) start i stack := isStack_of_iterates hopen hiterates
  constructor
  case shape => exact hshape
  case bottom => exact fun stack i hiterates => (hshape stack i hiterates).layers.getLast?
  case quote =>
    intro stack i quote j hiterates hmove
    have hnext := (hshape _ j (.tail hiterates hmove)).layers
    generalize hstack : (Open.quote quote, i) :: stack = next at hnext
    cases hnext with
    | quote =>
      cases hstack
      rfl
    | braces places => cases places <;> cases hstack
  case returned =>
    intro stop
    rw [scanTag_eq_ok_iff hsize hopen]
    constructor
    · rintro ⟨stack, i, hiterates, hanswers⟩
      obtain ⟨rfl, hpeek, hstop⟩ := (hshape stack i hiterates).answers_ok_iff.1 hanswers
      exact ⟨i, hiterates, hpeek, hstop⟩
    · rintro ⟨i, hiterates, hpeek, hstop⟩
      exact ⟨_, i, hiterates, (hshape _ i hiterates).answers_ok_iff.2 ⟨rfl, hpeek, hstop⟩⟩
  case unclosed =>
    intro entry
    rw [scanTag_eq_ok_iff hsize hopen]
    constructor
    · rintro ⟨stack, i, hiterates, hanswers⟩
      obtain ⟨hhead, hend⟩ := (hshape stack i hiterates).answers_error_iff.1 hanswers
      obtain ⟨outer, rfl⟩ := List.head?_eq_some_iff.1 hhead
      exact ⟨outer, i, hiterates, hend⟩
    · rintro ⟨outer, i, hiterates, hend⟩
      exact ⟨_, i, hiterates, (hshape _ i hiterates).answers_error_iff.2 ⟨rfl, hend⟩⟩
  case scanned => exact h.scanTag
  case follows =>
    intro stack i hiterates
    obtain ⟨nest, place, hfollows⟩ := exists_follows h hiterates
    exact ⟨nest, place, hfollows.reaches, hfollows.stack_eq⟩

/-- A tag after its `<`, with an opening brace and an escaped `é` in quotes, and with nested braces
in which one more is closed by a literal alone. -/
def nestedBraces : List Char :=
  "p a='\x7b\"\\é' b=\x7b\x7b'\x7d'\x7d\x7d>x".toList

/-- Behind a character of two bytes, the tag is read with its stack in shape up to the `>`, where
nothing but the tag is left on it. -/
theorem insideTag_keepsStack_of_nestedBraces :
    At ('é' :: '<' :: nestedBraces) 2 ('<' :: nestedBraces) ∧
      KeepsStack ('é' :: '<' :: nestedBraces) 2 nestedBraces ∧
      ∃ i, Iterates (utf8 ('é' :: '<' :: nestedBraces)) 2 [(.tag, 2)] i ∧ 25 = i + 1 := by
  have hat : At ('é' :: '<' :: nestedBraces) 2 ('<' :: nestedBraces) :=
    ⟨⟨['é'], rfl, rfl⟩, by decide +kernel⟩
  have h := insideTag_keepsStack hat
  have hscan : scanTag (utf8 ('é' :: '<' :: nestedBraces)) 2 = .ok (.ok 25) := by decide +kernel
  obtain ⟨i, hiterates, -, hstop⟩ := (h.returned 25).1 hscan
  exact ⟨hat, h, i, hiterates, hstop⟩

end TagLint.Bytes
