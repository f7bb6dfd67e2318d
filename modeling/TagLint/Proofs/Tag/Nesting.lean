import Mathlib.Logic.Relation
import TagLint.Proofs.Attribute.Value
import TagLint.Tag.Nesting

/-!
# The places of a tag

Reading a tag goes through places, each with what is open there. This module says what one step
does and follows the steps:

- `Moves`, `Reaches`: one step, and the places that the reading of a tag comes to.
- `Inside`, `Region`: the places between the opening of a quoted or braced region at tag level
  and the first return to tag level.
- `valueTail`: where a quoted or braced value ends for the reader of attributes. Its end moves
  along with every step (`valueTail_step`), so both readers leave a region at the same place
  (`region_iff`).
-/

namespace TagLint.Nesting

open Relation

/-! ### One step -/

theorem step_eq_finish_iff {nest : Nesting} {place : Nat} {c : Char} {rest : List Char} :
    nest.step place c rest = .finish ↔ nest = .tag ∧ c = '>' := by
  cases nest with
  | tag =>
    rw [step]
    split
    · next h => simp [h]
    · next h => repeat' (first | split | simp [h])
  | quoted quote opened =>
    rw [step]
    repeat' (first | split | simp)
  | braced opened outer =>
    rw [step]
    repeat' (first | split | simp)

/-- The tag ends with a `>`. -/
theorem getElem?_of_finish {nest : Nesting} {place stop : Nat} {text : List Char}
    (h : nest.finish place text = .ok stop) :
    ∃ i, stop = place + i + 1 ∧ text[i]? = some '>' := by
  fun_induction finish nest place text with
  | case1 => cases h
  | case2 nest place c rest hstep =>
    cases h
    rw [(step_eq_finish_iff.1 hstep).2]
    exact ⟨0, rfl, rfl⟩
  | case3 nest place c rest next tail hstep ih =>
    obtain ⟨i, hstop, hi⟩ := ih h
    refine ⟨i + tail + 1, by omega, ?_⟩
    rw [List.getElem?_cons_succ, Nat.add_comm, ← List.getElem?_drop]
    exact hi

/-- A tag that ends has its `>` as its last character, behind a first one. -/
theorem getElem?_of_tagLength {text : List Char} {length : Nat}
    (h : tagLength text = .ok length) :
    ∃ i, 1 ≤ i ∧ length = i + 1 ∧ text[i]? = some '>' := by
  obtain ⟨i, hlength, hi⟩ := getElem?_of_finish h
  rw [List.getElem?_drop] at hi
  exact ⟨1 + i, by omega, hlength, hi⟩

theorem tagLength_le {text : List Char} {length : Nat} (h : tagLength text = .ok length) :
    length ≤ text.length := by
  obtain ⟨i, -, rfl, hclose⟩ := getElem?_of_tagLength h
  exact (List.getElem?_eq_some_iff.1 hclose).1

/-- What a character at tag level does, if it does not end the tag. -/
theorem step_tag_cases {place : Nat} {c : Char} {rest : List Char} {next : Nesting} {tail : Nat}
    (h : Nesting.tag.step place c rest = .read next tail) :
    (c = '\\' ∧ next = .tag ∧ tail = 1) ∨
    ((c = '"' ∨ c = '\'') ∧ next = .quoted c place ∧ tail = 0) ∨
    (c = '{' ∧ next = .braced place [] ∧ tail = 0) ∨
    (next = .tag ∧ tail = 0) := by
  rw [step] at h
  split at h
  · cases h
  · split at h
    · next hc =>
      cases h
      exact .inl ⟨hc, rfl, rfl⟩
    · split at h
      · next hc =>
        cases h
        exact .inr (.inl ⟨by simpa using hc, rfl, rfl⟩)
      · split at h
        · next hc =>
          cases h
          exact .inr (.inr (.inl ⟨hc, rfl, rfl⟩))
        · cases h
          exact .inr (.inr (.inr ⟨rfl, rfl⟩))

/-- A character that means nothing at tag level. -/
def isPlain (c : Char) : Bool :=
  c != '>' && c != '\\' && c != '"' && c != '\'' && c != '{'

theorem step_tag_of_isPlain {c : Char} (h : isPlain c = true) (place : Nat) (rest : List Char) :
    Nesting.tag.step place c rest = .read .tag 0 := by
  simp only [isPlain, Bool.and_eq_true, bne_iff_ne] at h
  obtain ⟨⟨⟨⟨hclose, hslash⟩, hdouble⟩, hsingle⟩, hbrace⟩ := h
  simp [step, hclose, hslash, hdouble, hsingle, hbrace]

theorem isPlain_of_isSpace {c : Char} (h : Text.isSpace c = true) : isPlain c = true := by
  simp only [Text.isSpace, Bool.or_eq_true, decide_eq_true_eq] at h
  rcases h with (((rfl | rfl) | rfl) | rfl) | rfl <;> rfl

theorem isPlain_of_isTagNameChar {c : Char} (h : Text.isTagNameChar c = true) :
    isPlain c = true := by
  simp only [isPlain, Bool.and_eq_true, bne_iff_ne]
  refine ⟨⟨⟨⟨?_, ?_⟩, ?_⟩, ?_⟩, ?_⟩ <;> rintro rfl <;> cases h

theorem isPlain_of_isNameChar {c : Char} (h : Text.isNameChar c = true) : isPlain c = true :=
  isPlain_of_isTagNameChar (by rw [Text.isTagNameChar, h, Bool.true_or])

/-- What a character in quotes does. -/
theorem step_quoted_cases {quote c : Char} {opened place : Nat} {rest : List Char}
    {next : Nesting} {tail : Nat}
    (h : (Nesting.quoted quote opened).step place c rest = .read next tail) :
    (c = '\\' ∧ next = .quoted quote opened ∧ tail = 1) ∨
    (c ≠ '\\' ∧ c = quote ∧ next = .tag ∧ tail = 0) ∨
    (c ≠ '\\' ∧ c ≠ quote ∧ next = .quoted quote opened ∧ tail = 0) := by
  rw [step] at h
  split at h
  · next hc =>
    cases h
    exact .inl ⟨hc, rfl, rfl⟩
  · next hc =>
    split at h
    · next hq =>
      cases h
      exact .inr (.inl ⟨hc, hq, rfl, rfl⟩)
    · next hq =>
      cases h
      exact .inr (.inr ⟨hc, hq, rfl, rfl⟩)

/-- What a character in braces does. -/
theorem step_braced_cases {c : Char} {opened place : Nat} {outer : List Nat} {rest : List Char}
    {next : Nesting} {tail : Nat}
    (h : (Nesting.braced opened outer).step place c rest = .read next tail) :
    (c = '{' ∧ next = .braced place (opened :: outer) ∧ tail = 0) ∨
    (c = '}' ∧ next = ofOuter outer ∧ tail = 0) ∨
    (c ≠ '{' ∧ c ≠ '}' ∧ next = .braced opened outer ∧ tail = Script.atomTail c rest) := by
  rw [step] at h
  split at h
  · next hc =>
    cases h
    exact .inl ⟨hc, rfl, rfl⟩
  · next hopen =>
    split at h
    · next hc =>
      cases h
      exact .inr (.inl ⟨hc, rfl, rfl⟩)
    · next hclose =>
      cases h
      exact .inr (.inr ⟨hopen, hclose, rfl, rfl⟩)

/-- A step that returns to tag level takes no further character along. -/
theorem tail_eq_zero_of_leave {nest : Nesting} {place : Nat} {c : Char} {rest : List Char}
    {tail : Nat} (hnest : nest ≠ .tag) (h : nest.step place c rest = .read .tag tail) :
    tail = 0 := by
  cases nest with
  | tag => exact absurd rfl hnest
  | quoted quote opened =>
    rcases step_quoted_cases h with ⟨-, hnext, -⟩ | ⟨-, -, -, htail⟩ | ⟨-, -, -, htail⟩
    · cases hnext
    · exact htail
    · exact htail
  | braced opened outer =>
    rcases step_braced_cases h with ⟨-, -, htail⟩ | ⟨-, -, htail⟩ | ⟨-, -, hnext, -⟩
    · exact htail
    · exact htail
    · cases hnext

/-! ### The end of a value -/

/-- How many characters of a text belong to the value that is open, as the reader of attributes
counts them. -/
def valueTail : Nesting → List Char → Nat
  | tag, _ => 0
  | quoted quote _, text => Attribute.quotedTail quote text
  | braced _ outer, text => Script.bracedTail.go outer.length 0 text

/-- **One step of the tag's reader is one step of the attributes' reader**: the end of the value
moves along with the place. -/
theorem valueTail_step {nest next : Nesting} {place tail : Nat} {c : Char} {rest : List Char}
    (hnest : nest ≠ .tag) (h : nest.step place c rest = .read next tail)
    (htail : tail ≤ rest.length) :
    nest.valueTail (c :: rest) = 1 + tail + next.valueTail (rest.drop tail) := by
  cases nest with
  | tag => exact absurd rfl hnest
  | quoted quote opened =>
    rcases step_quoted_cases h with ⟨rfl, rfl, rfl⟩ | ⟨hc, rfl, rfl, rfl⟩ | ⟨hc, hq, rfl, rfl⟩
    · cases rest with
      | nil => cases htail
      | cons d rest => exact Attribute.quotedTail_pair quote d rest
    · exact Attribute.quotedTail_quote hc rest
    · exact Attribute.quotedTail_single hc hq rest
  | braced opened outer =>
    rcases step_braced_cases h with ⟨rfl, rfl, rfl⟩ | ⟨rfl, rfl, rfl⟩ | ⟨hopen, hclose, rfl, rfl⟩
    · show Script.bracedTail.go outer.length 0 ('{' :: rest) =
        1 + 0 + Script.bracedTail.go (outer.length + 1) 0 rest
      rw [Script.bracedTail_go_open, Script.bracedTail_go_eq]
    · cases outer with
      | nil => exact Script.bracedTail_go_close_zero 0 rest
      | cons opened outer =>
        show Script.bracedTail.go (outer.length + 1) 0 ('}' :: rest) =
          1 + 0 + Script.bracedTail.go outer.length 0 rest
        rw [Script.bracedTail_go_close_succ, Script.bracedTail_go_eq]
    · show Script.bracedTail.go outer.length 0 (c :: rest) = 1 + Script.atomTail c rest +
        Script.bracedTail.go outer.length 0 (rest.drop (Script.atomTail c rest))
      rw [Script.bracedTail_go_atom hopen hclose, Script.bracedTail_go_eq, Nat.zero_add]

theorem valueTail_nil (nest : Nesting) : nest.valueTail [] = 0 := by
  cases nest with
  | tag => rfl
  | quoted quote opened => exact Attribute.quotedTail_go_nil quote 0
  | braced opened outer => exact Script.bracedTail_go_nil outer.length 0

/-- Reading on from inside a value is reading on at tag level behind the value. -/
theorem finish_ok_iff_valueTail {nest : Nesting} {place stop : Nat} {text : List Char} :
    nest.finish place text = .ok stop ↔
      Nesting.tag.finish (place + nest.valueTail text) (text.drop (nest.valueTail text)) =
        .ok stop := by
  -- along the steps of the reading; at tag level there is nothing left to show
  fun_induction finish nest place text with
  | case1 nest place =>
    rw [valueTail_nil, List.drop_nil, finish]
    simp
  | case2 nest place c rest hstep =>
    obtain ⟨rfl, rfl⟩ := step_eq_finish_iff.1 hstep
    show _ ↔ Nesting.tag.finish place ('>' :: rest) = .ok stop
    rw [finish, hstep]
  | case3 nest place c rest next tail hstep ih =>
    by_cases hnest : nest = .tag
    · subst hnest
      show _ ↔ Nesting.tag.finish place (c :: rest) = .ok stop
      rw [finish, hstep]
    · rw [ih]
      by_cases htail : tail ≤ rest.length
      · rw [valueTail_step hnest hstep htail, Nat.add_assoc 1 tail, Nat.add_comm 1,
          List.drop_succ_cons, ← List.drop_drop]
        simp only [Nat.add_assoc, Nat.add_comm, Nat.add_left_comm]
      · -- the text ends inside the step, so neither side finishes
        have hrest : rest.drop tail = [] := List.drop_of_length_le (Nat.le_of_not_le htail)
        have hall : (c :: rest).drop (nest.valueTail (c :: rest)) = [] := by
          cases nest with
          | tag => exact absurd rfl hnest
          | quoted quote opened =>
            rcases step_quoted_cases hstep with ⟨rfl, rfl, rfl⟩ | ⟨-, -, -, rfl⟩ | ⟨-, -, -, rfl⟩
            · cases rest with
              | nil =>
                show ['\\'].drop (Attribute.quotedTail.go quote 0 ['\\']) = []
                rw [Attribute.quotedTail_go_last, List.drop_succ_cons, List.drop_nil]
              | cons d rest => exact absurd (Nat.succ_pos _) htail
            · exact absurd (Nat.zero_le _) htail
            · exact absurd (Nat.zero_le _) htail
          | braced opened outer =>
            rcases step_braced_cases hstep with ⟨-, -, rfl⟩ | ⟨-, -, rfl⟩ | ⟨-, -, -, rfl⟩
            · exact absurd (Nat.zero_le _) htail
            · exact absurd (Nat.zero_le _) htail
            · exact absurd (Script.atomTail_le c rest) htail
        rw [hall, hrest, List.drop_nil, finish, finish]

/-! ### Steps and places -/

/-- One step of the reading of the tag at the front of `text`, from what is open at a place to what
is open at the next one. -/
def Moves (text : List Char) (before after : Nesting × Nat) : Prop :=
  ∃ c rest tail, text.drop before.2 = c :: rest ∧
    before.1.step before.2 c rest = .read after.1 tail ∧ after.2 = before.2 + 1 + tail

/-- The reading of the tag at the front of `text` comes to `place` with `nest` open. -/
def Reaches (text : List Char) (nest : Nesting) (place : Nat) : Prop :=
  ReflTransGen (Moves text) (.tag, 1) (nest, place)

/-- A step that does not start at tag level. -/
def MovesInside (text : List Char) (before after : Nesting × Nat) : Prop :=
  before.1 ≠ .tag ∧ Moves text before after

/-- At tag level the reading opens something at `first` and comes to `place`, with `nest` open
there, before it is back at tag level a second time. -/
def Inside (text : List Char) (first : Nat) (nest : Nesting) (place : Nat) : Prop :=
  Reaches text .tag first ∧ ∃ start : Nesting × Nat, start.1 ≠ .tag ∧
    Moves text (.tag, first) start ∧ ReflTransGen (MovesInside text) start (nest, place)

/-- A quoted or braced region: what is opened at tag level at `first` is closed, and the reading
first back at tag level, at `stop`. -/
def Region (text : List Char) (first stop : Nat) : Prop :=
  Inside text first .tag stop

theorem Moves.lt {text : List Char} {before after : Nesting × Nat} (h : Moves text before after) :
    before.2 < after.2 ∧ before.2 < text.length := by
  obtain ⟨c, rest, tail, htext, -, hafter⟩ := h
  have hlen := congrArg List.length htext
  rw [List.length_drop, List.length_cons] at hlen
  omega

/-- A step does not change how the reading ends. -/
theorem finish_of_moves {text : List Char} {before after : Nesting × Nat}
    (h : Moves text before after) :
    before.1.finish before.2 (text.drop before.2) =
      after.1.finish after.2 (text.drop after.2) := by
  obtain ⟨c, rest, tail, htext, hstep, hafter⟩ := h
  rw [htext, finish, hstep, hafter, Text.drop_behind htext]

/-- From every place that the reading comes to, it ends like the whole. -/
theorem finish_of_reaches {text : List Char} {nest : Nesting} {place : Nat}
    (h : Reaches text nest place) :
    nest.finish place (text.drop place) = tagLength text := by
  unfold Reaches at h
  generalize htarget : (nest, place) = target at h
  induction h generalizing nest place with
  | refl =>
    cases htarget
    rfl
  | @tail before _ _ hmove ih =>
    subst htarget
    rw [← finish_of_moves hmove]
    exact ih rfl

/-- The reading goes past characters that mean nothing. -/
theorem reaches_of_isPlain {text run rest : List Char} {place : Nat}
    (h : Reaches text .tag place) (htext : text.drop place = run ++ rest)
    (hrun : run.all isPlain = true) : Reaches text .tag (place + run.length) := by
  induction run generalizing place with
  | nil => exact h
  | cons c run ih =>
    rw [List.all_cons, Bool.and_eq_true] at hrun
    obtain ⟨hc, hrun⟩ := hrun
    have hmove : Moves text (.tag, place) (.tag, place + 1) :=
      ⟨c, run ++ rest, 0, htext, step_tag_of_isPlain hc place _, rfl⟩
    rw [List.length_cons, Nat.add_comm run.length, ← Nat.add_assoc]
    refine ih (.tail h hmove) ?_ hrun
    exact Text.drop_behind htext 0

theorem reaches_of_inside {text : List Char} {first place : Nat} {nest : Nesting}
    (h : Inside text first nest place) : Reaches text nest place := by
  obtain ⟨hfirst, start, -, hmove, hpath⟩ := h
  refine (ReflTransGen.tail hfirst hmove).trans (hpath.lift id fun _ _ hinside => ?_)
  exact hinside.2

/-- At tag level the reading is in front of the end. -/
theorem lt_of_reaches {text : List Char} {nest : Nesting} {place length : Nat}
    (h : Reaches text nest place) (hlength : tagLength text = .ok length) : place < length :=
  lt_of_finish ((finish_of_reaches h).trans hlength)

/-! ### Regions -/

/-- What is open at a place is closed where its value ends. -/
theorem add_valueTail_of_path {text : List Char} {nest : Nesting} {place stop : Nat}
    (h : ReflTransGen (MovesInside text) (nest, place) (.tag, stop)) :
    place + nest.valueTail (text.drop place) = stop := by
  generalize hfrom : (nest, place) = before at h
  -- from the end of the path backwards, so that every step is known to be followed by another
  induction h using ReflTransGen.head_induction_on generalizing nest place with
  | refl =>
    cases hfrom
    rfl
  | @head _ after hmove hpath ih =>
    subst hfrom
    obtain ⟨hnest, c, rest, tail, htext, hstep, hafter⟩ := hmove
    have hlen := congrArg List.length htext
    rw [List.length_drop, List.length_cons] at hlen
    have htail : tail ≤ rest.length := by
      rcases hpath.cases_head with rfl | ⟨_, hnext, -⟩
      · rw [tail_eq_zero_of_leave hnest hstep]
        exact Nat.zero_le _
      · -- the next step begins inside the text
        have := hnext.2.lt.2
        omega
    have hrest := ih rfl
    rw [hafter, Text.drop_behind htext] at hrest
    rw [htext, valueTail_step hnest hstep htail]
    omega

/-- If the tag ends, then what is open in it is closed before. -/
theorem exists_path_of_finish {text : List Char} {nest : Nesting} {place length : Nat}
    (h : nest.finish place (text.drop place) = .ok length) :
    ∃ stop, ReflTransGen (MovesInside text) (nest, place) (.tag, stop) := by
  generalize htext : text.drop place = suffix at h
  fun_induction finish nest place suffix with
  | case1 => cases h
  | case2 nest place c rest hstep =>
    obtain ⟨rfl, -⟩ := step_eq_finish_iff.1 hstep
    exact ⟨place, .refl⟩
  | case3 nest place c rest next tail hstep ih =>
    by_cases hnest : nest = .tag
    · subst hnest
      exact ⟨place, .refl⟩
    · obtain ⟨stop, hpath⟩ := ih (Text.drop_behind htext tail) h
      exact ⟨stop, .head ⟨hnest, c, rest, tail, htext, hstep, rfl⟩ hpath⟩

/-- The region that opens at a place of a tag that ends: it is closed, and that is where the value
ends. -/
theorem region_iff {text rest : List Char} {first stop length : Nat} {c : Char} {nest : Nesting}
    (hlength : tagLength text = .ok length) (hfirst : Reaches text .tag first)
    (htext : text.drop first = c :: rest) (hstep : Nesting.tag.step first c rest = .read nest 0)
    (hnest : nest ≠ .tag) :
    Region text first stop ↔ stop = first + 1 + nest.valueTail rest := by
  have hmove : Moves text (.tag, first) (nest, first + 1) := ⟨c, rest, 0, htext, hstep, rfl⟩
  have hrest : text.drop (first + 1) = rest := Text.drop_behind htext 0
  constructor
  · rintro ⟨-, ⟨next, place⟩, -, ⟨d, rest', tail, htext', hstep', hplace⟩, hpath⟩
    obtain ⟨rfl, rfl⟩ := List.cons.inj (htext.symm.trans htext')
    cases hstep.symm.trans hstep'
    subst hplace
    rw [← add_valueTail_of_path hpath, ← hrest]
  · rintro rfl
    have hfinish := (finish_of_reaches (.tail hfirst hmove)).trans hlength
    obtain ⟨stop, hpath⟩ := exists_path_of_finish hfinish
    have hstop := add_valueTail_of_path hpath
    rw [hrest] at hstop
    rw [hstop]
    exact ⟨hfirst, _, hnest, hmove, hpath⟩

/-- A region opens with a quote or a brace. -/
theorem Region.opener {text : List Char} {first stop : Nat} (h : Region text first stop) :
    ∃ c, text[first]? = some c ∧ (c = '"' ∨ c = '\'' ∨ c = '{') := by
  obtain ⟨-, start, hnest, ⟨c, rest, tail, htext, hstep, -⟩, -⟩ := h
  have hget := Text.getElem?_of_drop htext
  rcases step_tag_cases hstep with ⟨-, htag, -⟩ | ⟨hquote, -, -⟩ | ⟨hbrace, -, -⟩ | ⟨htag, -⟩
  · exact absurd htag hnest
  · exact ⟨c, hget, hquote.imp_right .inl⟩
  · exact ⟨c, hget, .inr (.inr hbrace)⟩
  · exact absurd htag hnest

theorem quoted_region_iff {text rest : List Char} {first stop length : Nat} {quote : Char}
    (hlength : tagLength text = .ok length) (hfirst : Reaches text .tag first)
    (htext : text.drop first = quote :: rest) (hquote : quote = '"' ∨ quote = '\'') :
    Region text first stop ↔ stop = first + 1 + Attribute.quotedTail quote rest := by
  have hstep : Nesting.tag.step first quote rest = .read (.quoted quote first) 0 := by
    rcases hquote with rfl | rfl <;> rfl
  exact region_iff hlength hfirst htext hstep nofun

theorem braced_region_iff {text rest : List Char} {first stop length : Nat}
    (hlength : tagLength text = .ok length) (hfirst : Reaches text .tag first)
    (htext : text.drop first = '{' :: rest) :
    Region text first stop ↔ stop = first + 1 + Script.bracedTail rest := by
  have hstep : Nesting.tag.step first '{' rest = .read (.braced first []) 0 := rfl
  exact region_iff hlength hfirst htext hstep nofun

theorem Region.first_lt {text : List Char} {first stop : Nat} (h : Region text first stop) :
    first < stop := by
  obtain ⟨-, ⟨nest, place⟩, -, hmove, hpath⟩ := h
  rw [← add_valueTail_of_path hpath]
  exact Nat.lt_of_lt_of_le hmove.lt.1 (Nat.le_add_right ..)

theorem Region.lt {text : List Char} {first stop length : Nat} (h : Region text first stop)
    (hlength : tagLength text = .ok length) : stop < length :=
  lt_of_reaches (reaches_of_inside h) hlength

end TagLint.Nesting
