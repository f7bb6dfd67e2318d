import TagLint.Proofs.Script.Balance
import TagLint.Proofs.Tag.Nesting

/-!
# What a tag leaves open

A tag that does not end leaves its quote or its braces open. The reading keeps account of these, and
this module says that the account is right.

- `Opens`, `ClosedAt`: the quotes and braces that the reading of a tag opens, and whether what
  stands behind such a one closes it. The first is about the places that the reading comes to, the
  second about the text alone.
- `Account`: everything that was opened is closed or on the account. One step keeps the account
  right (`Account.moves`), and so it is right wherever the reading comes to (`account_of_reaches`).
- `Innermost`: what is opened last of all that is not closed. A tag that does not end is blamed on
  that (`innermost_of_tagLength`).
-/

namespace TagLint.Nesting

open Relation

variable {text rest : List Char} {nest next : Nesting} {place tail : Nat} {c : Char}

/-! ### The way is determined -/

theorem moves_rightUnique (text : List Char) : Relator.RightUnique (Moves text) := by
  rintro before ⟨nest, place⟩ ⟨nest', place'⟩ ⟨c, rest, tail, htext, hstep, hplace⟩
    ⟨c', rest', tail', htext', hstep', hplace'⟩
  obtain ⟨rfl, rfl⟩ := List.cons.inj (htext.symm.trans htext')
  obtain ⟨rfl, rfl⟩ := Step.read.inj (hstep.symm.trans hstep')
  exact Prod.ext rfl (hplace.trans hplace'.symm)

/-- The reading goes forward. -/
theorem eq_or_lt_of_moves {before after : Nesting × Nat}
    (h : ReflTransGen (Moves text) before after) : before = after ∨ before.2 < after.2 := by
  induction h with
  | refl => exact .inl rfl
  | tail _ hmove ih =>
    rcases ih with rfl | hlt
    · exact .inr hmove.lt.1
    · exact .inr (Nat.lt_trans hlt hmove.lt.1)

theorem pos_of_reaches (h : Reaches text nest place) : 0 < place := by
  rcases eq_or_lt_of_moves h with heq | hlt
  · cases heq
    exact Nat.one_pos
  · exact Nat.lt_trans Nat.one_pos hlt

/-- Of two places that the reading comes to, it comes from the one in front to the one behind. -/
theorem path_of_le {start before after : Nesting × Nat}
    (hbefore : ReflTransGen (Moves text) start before)
    (hafter : ReflTransGen (Moves text) start after) (hle : before.2 ≤ after.2) :
    ReflTransGen (Moves text) before after := by
  rcases ReflTransGen.total_of_right_unique (moves_rightUnique text) hbefore hafter with
    hpath | hpath
  · exact hpath
  · rcases eq_or_lt_of_moves hpath with rfl | hlt
    · exact .refl
    · exact absurd hle (Nat.not_le.2 hlt)

/-- What is open at a place is the same whenever the reading comes there. -/
theorem eq_of_reaches {nest' : Nesting} (h : Reaches text nest place)
    (h' : Reaches text nest' place) : nest = nest' := by
  rcases eq_or_lt_of_moves (path_of_le h h' (Nat.le_refl place)) with heq | hlt
  · exact congrArg Prod.fst heq
  · exact absurd hlt (Nat.lt_irrefl place)

/-- The reading comes to no place inside a step. -/
theorem le_of_reaches_behind {after : Nesting × Nat} {behind : Nat} {nest' : Nesting}
    (h : Reaches text nest place) (hmove : Moves text (nest, place) after)
    (hbehind : Reaches text nest' behind) (hlt : place < behind) : after.2 ≤ behind := by
  rcases (path_of_le h hbehind (Nat.le_of_lt hlt)).cases_head with heq | ⟨between, hfirst, hmore⟩
  · exact absurd (congrArg Prod.snd heq) (Nat.ne_of_lt hlt)
  · obtain rfl := moves_rightUnique text hmove hfirst
    rcases eq_or_lt_of_moves hmore with rfl | hle
    · exact Nat.le_refl _
    · exact Nat.le_of_lt hle

/-- The way to a place at tag level goes through all of a region that it goes into. -/
theorem le_of_path_inside {before : Nesting × Nat} {stop : Nat}
    (hinside : ReflTransGen (MovesInside text) before (.tag, stop))
    (hpath : ReflTransGen (Moves text) before (.tag, place)) : stop ≤ place := by
  -- along the region, which the way to the place cannot leave
  induction hinside using ReflTransGen.head_induction_on with
  | refl =>
    rcases eq_or_lt_of_moves hpath with heq | hlt
    · exact Nat.le_of_eq (congrArg Prod.snd heq)
    · exact Nat.le_of_lt hlt
  | head hmove _ ih =>
    rcases hpath.cases_head with heq | ⟨next, hnext, hpath⟩
    · exact absurd (congrArg Prod.fst heq) hmove.1
    · obtain rfl := moves_rightUnique text hmove.2 hnext
      exact ih hpath

/-- Inside a region the reader of tags is at tag level nowhere. -/
theorem Region.le_of_reaches {first stop : Nat} (h : Region text first stop)
    (hplace : Reaches text .tag place) : place ≤ first ∨ stop ≤ place := by
  rcases Nat.lt_or_ge first place with hlt | hle
  · obtain ⟨hfirst, start, -, hmove, hinside⟩ := h
    rcases (path_of_le hfirst hplace (Nat.le_of_lt hlt)).cases_head with
      heq | ⟨next, hnext, hpath⟩
    · exact absurd (congrArg Prod.snd heq) (Nat.ne_of_lt hlt)
    · obtain rfl := moves_rightUnique text hmove hnext
      exact .inr (le_of_path_inside hinside hpath)
  · exact .inl hle

/-- A tag that does not end is read to the end of the text. -/
theorem exists_path_of_error {last : Nesting}
    (h : nest.finish place (text.drop place) = .error last) :
    ∃ stop, ReflTransGen (Moves text) (nest, place) (last, stop) ∧ text.drop stop = [] := by
  generalize htext : text.drop place = suffix at h
  fun_induction finish nest place suffix with
  | case1 nest place =>
    cases h
    exact ⟨place, .refl, htext⟩
  | case2 => cases h
  | case3 nest place c rest next tail hstep ih =>
    obtain ⟨stop, hpath, hstop⟩ := ih (Text.drop_behind htext tail) h
    exact ⟨stop, .head ⟨c, rest, tail, htext, hstep, rfl⟩ hpath, hstop⟩

/-! ### What opens and what closes -/

/-- With `nest` open, the character opens something: a quote or a brace at tag level, and a brace in
braces. -/
def Begins : Nesting → Char → Prop
  | tag, c => c = '"' ∨ c = '\'' ∨ c = '{'
  | quoted _ _, _ => False
  | braced _ _, c => c = '{'

/-- The reading of the tag at the front of `text` opens a quoted value or a braced expression at
`place`. -/
def Opens (text : List Char) (place : Nat) : Prop :=
  ∃ nest c, Reaches text nest place ∧ text[place]? = some c ∧ nest.Begins c

/-- What the character opens is closed in the text behind it. -/
def IsClosed (c : Char) (behind : List Char) : Prop :=
  if c = '{' then Script.IsClosed 0 behind else Attribute.IsQuoteClosed c behind

/-- What is opened at `place` is closed before the text ends. -/
def ClosedAt (text : List Char) (place : Nat) : Prop :=
  ∃ c behind, text.drop place = c :: behind ∧ IsClosed c behind

theorem closedAt_iff (htext : text.drop place = c :: rest) :
    ClosedAt text place ↔ IsClosed c rest := by
  constructor
  · rintro ⟨d, behind, heq, hclosed⟩
    obtain ⟨rfl, rfl⟩ := List.cons.inj (htext.symm.trans heq)
    exact hclosed
  · exact fun hclosed => ⟨c, rest, htext, hclosed⟩

/-! ### The account -/

/-- The places where what is open was opened, from the inside out. -/
def openPlaces : Nesting → List Nat
  | tag => []
  | quoted _ opened => [opened]
  | braced opened outer => opened :: outer

theorem openPlaces_ofOuter (outer : List Nat) : (ofOuter outer).openPlaces = outer := by
  cases outer with
  | nil => rfl
  | cons => rfl

/-- Quotes are open on a quote, and braces on braces. -/
def OpenedIn (text : List Char) : Nesting → Prop
  | tag => True
  | quoted quote opened => (quote = '"' ∨ quote = '\'') ∧ text[opened]? = some quote
  | braced opened outer => ∀ first ∈ opened :: outer, text[first]? = some '{'

/-- Of the things that are open, the one with `level` others inside it is closed in the text that is
to come. -/
def ClosesAt : Nesting → Nat → List Char → Prop
  | tag, _, _ => False
  | quoted quote _, _, text => Attribute.IsQuoteClosed quote text
  | braced _ _, level, text => Script.IsClosed level text

theorem closesAt_ofOuter {outer : List Nat} {level : Nat} (h : level < outer.length) :
    (ofOuter outer).ClosesAt level text ↔ Script.IsClosed level text := by
  cases outer with
  | nil => cases h
  | cons => rfl

/-- What a step does to the account: it keeps it, adds the place it is at, or takes off the entry
of what is innermost. What is closed in the text to come stays so. -/
inductive Effect (nest : Nesting) (place : Nat) (c : Char) (rest : List Char) (next : Nesting)
    (tail : Nat) : Prop
  | keeps : ¬ nest.Begins c → next = nest →
    (∀ level, level < nest.openPlaces.length →
      (nest.ClosesAt level (c :: rest) ↔ nest.ClosesAt level (rest.drop tail))) →
    Effect nest place c rest next tail
  | adds : nest.Begins c → next.openPlaces = place :: nest.openPlaces →
    (next.ClosesAt 0 (rest.drop tail) ↔ IsClosed c rest) →
    (∀ level, level < nest.openPlaces.length →
      (nest.ClosesAt level (c :: rest) ↔ next.ClosesAt (level + 1) (rest.drop tail))) →
    Effect nest place c rest next tail
  | takes {first : Nat} : ¬ nest.Begins c → nest.openPlaces = first :: next.openPlaces →
    nest.ClosesAt 0 (c :: rest) →
    (∀ level, level < next.openPlaces.length →
      (nest.ClosesAt (level + 1) (c :: rest) ↔ next.ClosesAt level (rest.drop tail))) →
    Effect nest place c rest next tail

theorem effect_tag (h : Nesting.tag.step place c rest = .read next tail) :
    Effect .tag place c rest next tail := by
  have hnone {motive : Nat → Prop} (level : Nat) (hlevel : level < 0) : motive level :=
    absurd hlevel (Nat.not_lt_zero level)
  rw [step] at h
  split at h
  case isTrue => cases h
  split at h
  case isTrue hslash =>
    cases h
    subst hslash
    exact .keeps (by unfold Begins; decide) rfl hnone
  split at h
  case isTrue hquote =>
    cases h
    have hquote : c = '"' ∨ c = '\'' := by simpa using hquote
    have hbrace : c ≠ '{' := by rcases hquote with rfl | rfl <;> decide
    refine .adds (hquote.imp_right .inl) rfl ?_ hnone
    rw [IsClosed, if_neg hbrace]
    rfl
  split at h
  case isTrue hbrace =>
    cases h
    subst hbrace
    exact .adds (.inr (.inr rfl)) rfl Iff.rfl hnone
  case isFalse hquote hbrace =>
    cases h
    refine .keeps ?_ rfl hnone
    rintro (rfl | rfl | rfl)
    · exact hquote rfl
    · exact hquote rfl
    · exact hbrace rfl

theorem effect_quoted {quote : Char} {opened : Nat} (hq : quote ≠ '\\')
    (h : (Nesting.quoted quote opened).step place c rest = .read next tail) :
    Effect (.quoted quote opened) place c rest next tail := by
  rcases step_quoted_cases h with ⟨rfl, rfl, rfl⟩ | ⟨-, rfl, rfl, rfl⟩ | ⟨hslash, hne, rfl, rfl⟩
  · refine .keeps nofun rfl fun _ _ => ?_
    cases rest with
    | nil =>
      exact iff_of_false (Attribute.not_isQuoteClosed_last hq)
        (Attribute.not_isQuoteClosed_nil quote)
    | cons d rest => exact Attribute.isQuoteClosed_pair hq d rest
  · exact .takes nofun rfl (Attribute.isQuoteClosed_quote _ rest) nofun
  · exact .keeps nofun rfl fun _ _ => Attribute.isQuoteClosed_single hslash hne rest

theorem effect_braced {opened : Nat} {outer : List Nat}
    (h : (Nesting.braced opened outer).step place c rest = .read next tail) :
    Effect (.braced opened outer) place c rest next tail := by
  rcases step_braced_cases h with ⟨rfl, rfl, rfl⟩ | ⟨rfl, rfl, rfl⟩ | ⟨hopen, hclose, rfl, rfl⟩
  · exact .adds rfl rfl Iff.rfl fun _ _ => Script.isClosed_open
  · have hplaces : (braced opened outer).openPlaces = opened :: (ofOuter outer).openPlaces := by
      rw [openPlaces_ofOuter]
      rfl
    have hbegins : '}' ≠ '{' := by decide
    refine .takes hbegins hplaces (Script.isClosed_close_zero rest)
      fun level hlevel => ?_
    · rw [openPlaces_ofOuter] at hlevel
      exact Script.isClosed_close_succ.trans (closesAt_ofOuter hlevel).symm
  · exact .keeps hopen rfl fun _ _ => Script.isClosed_atom hopen hclose

theorem OpenedIn.effect (hopened : nest.OpenedIn text)
    (h : nest.step place c rest = .read next tail) : Effect nest place c rest next tail := by
  cases nest with
  | tag => exact effect_tag h
  | quoted quote opened =>
    refine effect_quoted ?_ h
    rcases hopened.1 with rfl | rfl <;> decide
  | braced opened outer => exact effect_braced h

/-- What is open after a step is open on its opener. -/
theorem OpenedIn.step (hopened : nest.OpenedIn text) (hget : text[place]? = some c)
    (h : nest.step place c rest = .read next tail) : next.OpenedIn text := by
  cases nest with
  | tag =>
    rcases step_tag_cases h with ⟨-, rfl, -⟩ | ⟨hquote, rfl, -⟩ | ⟨rfl, rfl, -⟩ | ⟨rfl, -⟩
    · trivial
    · exact ⟨hquote, hget⟩
    · exact fun first hfirst => List.mem_singleton.1 hfirst ▸ hget
    · trivial
  | quoted quote opened =>
    rcases step_quoted_cases h with ⟨-, rfl, -⟩ | ⟨-, -, rfl, -⟩ | ⟨-, -, rfl, -⟩
    · exact hopened
    · trivial
    · exact hopened
  | braced opened outer =>
    rcases step_braced_cases h with ⟨rfl, rfl, -⟩ | ⟨-, rfl, -⟩ | ⟨-, -, rfl, -⟩
    · intro first hfirst
      rcases List.mem_cons.1 hfirst with rfl | hfirst
      · exact hget
      · exact hopened first hfirst
    · cases outer with
      | nil => trivial
      | cons => exact fun first hfirst => hopened first (List.mem_cons_of_mem _ hfirst)
    · exact hopened

/-- The account that `nest` gives at a place is right. -/
structure Account (text : List Char) (nest : Nesting) (place : Nat) : Prop where
  /-- What is open stands on its opener. -/
  openedIn : nest.OpenedIn text
  /-- What was opened last is innermost. -/
  sorted : nest.openPlaces.Pairwise (· > ·)
  /-- What is on the account was opened. -/
  opens : ∀ first ∈ nest.openPlaces, first < place ∧ Opens text first
  /-- What is on the account is closed if the text to come closes it. -/
  closedAt_iff : ∀ level first, nest.openPlaces[level]? = some first →
    (ClosedAt text first ↔ nest.ClosesAt level (text.drop place))
  /-- What was opened is on the account or closed. -/
  complete : ∀ first, Opens text first → first < place →
    first ∈ nest.openPlaces ∨ ClosedAt text first

/-- What is opened before the end of a step is opened before the step or by it. -/
theorem Opens.before_step {first : Nat} (h : Opens text first) (hreach : Reaches text nest place)
    (htext : text.drop place = c :: rest) (hstep : nest.step place c rest = .read next tail)
    (hlt : first < place + 1 + tail) : first < place ∨ first = place ∧ nest.Begins c := by
  obtain ⟨nest', d, hfirst, hget, hbegins⟩ := h
  rcases Nat.lt_trichotomy first place with hbefore | rfl | hbehind
  · exact .inl hbefore
  · obtain rfl := eq_of_reaches hfirst hreach
    obtain rfl := Option.some.inj (hget.symm.trans (Text.getElem?_of_drop htext))
    exact .inr ⟨rfl, hbegins⟩
  · have hmove : Moves text (nest, place) (next, place + 1 + tail) :=
      ⟨c, rest, tail, htext, hstep, rfl⟩
    exact absurd hlt (Nat.not_lt.2 (le_of_reaches_behind hreach hmove hfirst hbehind))

/-- What the account says about the text behind a place still holds at the end of a step, and what
the step opens is all that is missing. -/
theorem Account.at_step (h : Account text nest place) (hreach : Reaches text nest place)
    (htext : text.drop place = c :: rest) (hstep : nest.step place c rest = .read next tail) :
    (∀ first ∈ nest.openPlaces, first < place + 1 + tail ∧ Opens text first) ∧
    (∀ level first, nest.openPlaces[level]? = some first → level < nest.openPlaces.length ∧
      (ClosedAt text first ↔ nest.ClosesAt level (c :: rest))) ∧
    ∀ first, Opens text first → first < place + 1 + tail →
      first ∈ nest.openPlaces ∨ ClosedAt text first ∨ first = place ∧ nest.Begins c := by
  refine ⟨fun first hmem => ?_, fun level first hget => ?_, fun first hopens hlt => ?_⟩
  · obtain ⟨hlt, hopens⟩ := h.opens first hmem
    exact ⟨by omega, hopens⟩
  · rw [← htext]
    exact ⟨(List.getElem?_eq_some_iff.1 hget).1, h.closedAt_iff level first hget⟩
  · rcases hopens.before_step hreach htext hstep hlt with hlt | hhere
    · exact (h.complete first hopens hlt).imp_right .inl
    · exact .inr (.inr hhere)

/-- A step keeps the account right. -/
theorem Account.moves (h : Account text nest place) (hreach : Reaches text nest place)
    (htext : text.drop place = c :: rest) (hstep : nest.step place c rest = .read next tail) :
    Account text next (place + 1 + tail) := by
  have hget := Text.getElem?_of_drop htext
  have hbehind := Text.drop_behind htext tail
  have hopenedIn := h.openedIn.step hget hstep
  have hsorted := h.sorted
  obtain ⟨hopens, hclosed, hcomplete⟩ := h.at_step hreach htext hstep
  cases h.openedIn.effect hstep with
  | keeps hbegins hnext hcloses =>
    subst hnext
    constructor
    case openedIn => exact hopenedIn
    case sorted => exact hsorted
    case opens => exact hopens
    case closedAt_iff =>
      intro level first hfirst
      obtain ⟨hlevel, hiff⟩ := hclosed level first hfirst
      rw [hiff, hbehind, hcloses level hlevel]
    case complete =>
      intro first hfirst hlt
      rcases hcomplete first hfirst hlt with hmem | hclosed | ⟨-, hbegins'⟩
      · exact .inl hmem
      · exact .inr hclosed
      · exact absurd hbegins' hbegins
  | adds hbegins hplaces hinner hcloses =>
    constructor
    case openedIn => exact hopenedIn
    case sorted =>
      rw [hplaces]
      exact .cons (fun first hmem => (h.opens first hmem).1) hsorted
    case opens =>
      intro first hmem
      rw [hplaces] at hmem
      rcases List.mem_cons.1 hmem with rfl | hmem
      · exact ⟨by omega, nest, c, hreach, hget, hbegins⟩
      · exact hopens first hmem
    case closedAt_iff =>
      intro level first hfirst
      rw [hplaces] at hfirst
      cases level with
      | zero =>
        cases hfirst
        rw [Nesting.closedAt_iff htext, hbehind, hinner]
      | succ level =>
        obtain ⟨hlevel, hiff⟩ := hclosed level first hfirst
        rw [hiff, hbehind, hcloses level hlevel]
    case complete =>
      intro first hfirst hlt
      rw [hplaces]
      rcases hcomplete first hfirst hlt with hmem | hclosed | ⟨rfl, -⟩
      · exact .inl (List.mem_cons_of_mem _ hmem)
      · exact .inr hclosed
      · exact .inl List.mem_cons_self
  | @takes inner hbegins hplaces hinner hcloses =>
    rw [hplaces] at hsorted hopens hclosed hcomplete
    constructor
    case openedIn => exact hopenedIn
    case sorted => exact hsorted.of_cons
    case opens => exact fun first hmem => hopens first (List.mem_cons_of_mem _ hmem)
    case closedAt_iff =>
      intro level first hfirst
      obtain ⟨hlevel, hiff⟩ := hclosed (level + 1) first hfirst
      rw [hiff, hbehind, hcloses level (Nat.lt_of_succ_lt_succ hlevel)]
    case complete =>
      intro first hfirst hlt
      rcases hcomplete first hfirst hlt with hmem | hclosed' | ⟨-, hbegins'⟩
      · rcases List.mem_cons.1 hmem with rfl | hmem
        · -- the entry that is taken off is closed here
          exact .inr ((hclosed 0 first rfl).2.2 hinner)
        · exact .inl hmem
      · exact .inr hclosed'
      · exact absurd hbegins' hbegins

/-- **The account is right wherever the reading comes to.** -/
theorem account_of_reaches (h : Reaches text nest place) : Account text nest place := by
  unfold Reaches at h
  generalize htarget : (nest, place) = target at h
  induction h generalizing nest place with
  | refl =>
    cases htarget
    constructor
    case openedIn => trivial
    case sorted => exact .nil
    case opens => exact nofun
    case closedAt_iff => exact nofun
    case complete =>
      rintro first ⟨nest, c, hreach, -⟩ hfirst
      have := pos_of_reaches hreach
      omega
  | @tail before _ hpath hmove ih =>
    subst htarget
    obtain ⟨c, rest, tail, htext, hstep, hplace⟩ := hmove
    obtain rfl : place = before.2 + 1 + tail := hplace
    exact (ih rfl).moves hpath htext hstep

/-! ### The innermost -/

/-- Of all that the reading opens and the text does not close, it is opened last at `place`. -/
structure Innermost (text : List Char) (place : Nat) : Prop where
  opens : Opens text place
  not_closedAt : ¬ ClosedAt text place
  closedAt_of_lt : ∀ later, place < later → Opens text later → ClosedAt text later

/-- **A tag that does not end is blamed on the innermost thing that it leaves open.** If it leaves
none open, it is blamed on itself. -/
theorem innermost_of_tagLength (h : tagLength text = .error nest) :
    nest.OpenedIn text ∧
    (nest = .tag → ∀ first, Opens text first → ClosedAt text first) ∧
    (nest ≠ .tag → Innermost text nest.opened) := by
  obtain ⟨stop, hpath, hstop⟩ := exists_path_of_error h
  have haccount := account_of_reaches hpath
  -- everything that is opened is opened in the text, so in front of its end
  have hbefore {first : Nat} (hopens : Opens text first) : first < stop := by
    obtain ⟨nest, c, -, hget, -⟩ := hopens
    have hfirst := (List.getElem?_eq_some_iff.1 hget).1
    have := List.drop_eq_nil_iff.1 hstop
    omega
  -- behind the end of the text nothing is closed
  have hopen (level : Nat) : ¬ nest.ClosesAt level [] := by
    cases nest with
    | tag => exact id
    | quoted quote opened => exact Attribute.not_isQuoteClosed_nil quote
    | braced opened outer => exact Script.not_isClosed_nil level
  refine ⟨haccount.openedIn, ?_⟩
  have hinnermost {inner : Nat} {outer : List Nat} (hplaces : nest.openPlaces = inner :: outer) :
      Innermost text inner := by
    have hsorted := haccount.sorted
    rw [hplaces] at hsorted
    constructor
    case opens => exact (haccount.opens inner (hplaces ▸ List.mem_cons_self)).2
    case not_closedAt =>
      rw [haccount.closedAt_iff 0 inner (by rw [hplaces, List.getElem?_cons_zero]), hstop]
      exact hopen 0
    case closedAt_of_lt =>
      intro later hlt hopens
      refine (haccount.complete later hopens (hbefore hopens)).resolve_left fun hmem => ?_
      rw [hplaces] at hmem
      rcases List.mem_cons.1 hmem with rfl | hmem
      · exact Nat.lt_irrefl _ hlt
      · exact Nat.lt_asymm hlt (List.rel_of_pairwise_cons hsorted hmem)
  constructor
  · rintro rfl first hopens
    exact (haccount.complete first hopens (hbefore hopens)).resolve_left nofun
  · intro hnest
    cases nest with
    | tag => exact absurd rfl hnest
    | quoted quote opened => exact hinnermost rfl
    | braced opened outer => exact hinnermost rfl

/-- A tag that does not end has no `>` at tag level. -/
theorem ne_close_of_tagLength (h : tagLength text = .error nest)
    (hreach : Reaches text .tag place) : text[place]? ≠ some '>' := by
  intro hget
  obtain ⟨hin, hclose⟩ := List.getElem?_eq_some_iff.1 hget
  have hfinish := (finish_of_reaches hreach).trans h
  rw [List.drop_eq_getElem_cons hin, hclose, finish] at hfinish
  cases hfinish

end TagLint.Nesting
