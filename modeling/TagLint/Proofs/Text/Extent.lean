import TagLint.Text.Cut

/-!
# How far a construct of a text reaches

Two ways in which readers look ahead for the end of what they read, and what a cut of the text
does to the answer:

- `through?_eq_some_iff`: the first closer ends at the least place where the closer stands.
- `through?_take`: cutting a text at or behind the end of the first closer changes nothing, and
  no cut makes a closer.
- `Escaped`: a text of escape pairs and of single characters, the shape of what stands between two
  quotes.
-/

namespace TagLint.Text

/-! ### Places -/

theorem getElem?_of_drop {text rest : List Char} {c : Char} {place : Nat}
    (h : text.drop place = c :: rest) : text[place]? = some c := by
  rw [← Nat.add_zero place, ← List.getElem?_drop, h, List.getElem?_cons_zero]

/-- The text behind a character and some more of what follows it. -/
theorem drop_behind {text rest : List Char} {c : Char} {place : Nat}
    (h : text.drop place = c :: rest) (tail : Nat) :
    text.drop (place + 1 + tail) = rest.drop tail := by
  rw [Nat.add_assoc, ← List.drop_drop, h, Nat.add_comm, List.drop_succ_cons]

/-! ### The first closer -/

/-- The accumulator of `through?` is added to the answer. -/
theorem through?_go_eq (closer : List Char) (taken : Nat) (text : List Char) :
    through?.go closer taken text = (through?.go closer 0 text).map (taken + ·) := by
  induction text generalizing taken with
  | nil =>
    unfold through?.go
    split <;> simp
  | cons c rest ih =>
    unfold through?.go
    split
    · simp
    · rw [ih (taken + 1), ih (0 + 1), Option.map_map]
      congr 1
      funext n
      simp only [Function.comp_apply]
      omega

theorem through?_nil {closer : List Char} (hne : closer ≠ []) : through? closer [] = none := by
  simp [through?, through?.go, hne]

theorem through?_cons (closer : List Char) (c : Char) (rest : List Char) :
    through? closer (c :: rest) =
      if closer <+: c :: rest then some closer.length else (through? closer rest).map (1 + ·) := by
  unfold through?
  rw [through?.go, through?_go_eq closer (0 + 1) rest]
  simp only [List.isPrefixOf_iff_prefix, Nat.zero_add]

/-- The first closer ends behind the least place at which the closer stands. -/
theorem through?_eq_some_iff {closer text : List Char} (hne : closer ≠ []) {n : Nat} :
    through? closer text = some n ↔
      ∃ i, n = i + closer.length ∧ closer <+: text.drop i ∧ ∀ j < i, ¬ closer <+: text.drop j := by
  induction text generalizing n with
  | nil =>
    rw [through?_nil hne]
    constructor
    · intro h
      cases h
    · rintro ⟨i, -, hi, -⟩
      rw [List.drop_nil, List.prefix_nil] at hi
      exact absurd hi hne
  | cons c rest ih =>
    rw [through?_cons]
    split
    · next h =>
      constructor
      · rintro ⟨⟩
        exact ⟨0, (Nat.zero_add _).symm, h, fun j hj => absurd hj (Nat.not_lt_zero j)⟩
      · rintro ⟨i, rfl, -, hmin⟩
        cases i with
        | zero => rw [Nat.zero_add]
        | succ i => exact absurd h (hmin 0 (Nat.succ_pos i))
    · next h =>
      rw [Option.map_eq_some_iff]
      constructor
      · rintro ⟨m, hm, rfl⟩
        obtain ⟨i, rfl, hi, hmin⟩ := ih.1 hm
        refine ⟨i + 1, by omega, hi, fun j hj => ?_⟩
        cases j with
        | zero => exact h
        | succ j => exact hmin j (Nat.lt_of_succ_lt_succ hj)
      · rintro ⟨i, rfl, hi, hmin⟩
        cases i with
        | zero => exact absurd hi h
        | succ i =>
          refine ⟨i + closer.length, ih.2 ⟨i, rfl, hi, fun j hj => ?_⟩, by omega⟩
          exact hmin (j + 1) (Nat.succ_lt_succ hj)

/-- A closer that a cut text has stands in the whole text too, and one of the whole text is in the
cut text if it ends before the cut. -/
theorem through?_take {closer text : List Char} (hne : closer ≠ []) {k n : Nat} :
    through? closer (text.take k) = some n ↔ through? closer text = some n ∧ n ≤ k := by
  have hcut : ∀ i, closer <+: (text.take k).drop i ↔
      closer <+: text.drop i ∧ closer.length ≤ k - i := by
    intro i
    rw [List.drop_take, List.prefix_take_iff]
  have hlen : 0 < closer.length := List.length_pos_iff.2 hne
  rw [through?_eq_some_iff hne, through?_eq_some_iff hne]
  simp only [hcut]
  constructor
  · rintro ⟨i, rfl, ⟨hi, hik⟩, hmin⟩
    refine ⟨⟨i, rfl, hi, fun j hj hp => hmin j hj ⟨hp, by omega⟩⟩, by omega⟩
  · rintro ⟨⟨i, rfl, hi, hmin⟩, hik⟩
    exact ⟨i, rfl, ⟨hi, by omega⟩, fun j hj hp => hmin j hj hp.1⟩

/-- Without an end of a closer there is no closer. -/
theorem through?_eq_none_iff {closer text : List Char} (hne : closer ≠ []) :
    through? closer text = none ↔ ¬ closer <:+: text := by
  induction text with
  | nil => simp [through?_nil hne, List.infix_nil, hne]
  | cons c rest ih =>
    rw [through?_cons, List.infix_cons_iff, not_or]
    split
    · next h => simp [h]
    · next h => rw [Option.map_eq_none_iff, ih, and_iff_right h]

/-- What stands in front of the first closer has no closer. -/
theorem exists_of_through? {closer text : List Char} (hne : closer ≠ []) {n : Nat}
    (h : through? closer text = some n) : ∃ body behind, text = body ++ (closer ++ behind) ∧
      ¬ closer <:+: body ∧ n = body.length + closer.length := by
  obtain ⟨i, rfl, ⟨behind, hi⟩, -⟩ := (through?_eq_some_iff hne).1 h
  have hpos := List.length_pos_iff.2 hne
  have hlen := congrArg List.length hi
  rw [List.length_append, List.length_drop] at hlen
  refine ⟨text.take i, behind, by rw [hi, List.take_append_drop], ?_, ?_⟩
  · -- a closer in the cut text would be an earlier one
    rw [← through?_eq_none_iff hne, Option.eq_none_iff_forall_ne_some]
    intro m hm
    obtain ⟨hwhole, hle⟩ := (through?_take hne).1 hm
    cases h.symm.trans hwhole
    omega
  · rw [List.length_take, Nat.min_eq_left (by omega)]

/-- Behind a body without the closer, the closer is the first one, provided that it cannot overlap
with itself. -/
theorem through?_append_closer {closer body : List Char} (hne : closer ≠ [])
    (hself : ∀ m < closer.length, 0 < m → ¬ closer.drop m <+: closer) (hbody : ¬ closer <:+: body)
    (behind : List Char) :
    through? closer (body ++ (closer ++ behind)) = some (body.length + closer.length) := by
  rw [through?_eq_some_iff hne]
  refine ⟨body.length, rfl, ?_, fun j hj hp => ?_⟩
  · rw [List.drop_left]
    exact List.prefix_append closer behind
  · rw [List.drop_append_of_le_length (Nat.le_of_lt hj)] at hp
    by_cases hlong : closer.length ≤ (body.drop j).length
    · -- the closer would stand in the body
      have hin : closer <+: body.drop j :=
        List.prefix_of_prefix_length_le hp (List.prefix_append ..) hlong
      exact hbody (hin.isInfix.trans (List.drop_suffix j body).isInfix)
    · -- the closer would overlap with itself
      have hlen : (body.drop j).length = body.length - j := List.length_drop
      obtain ⟨rest, hrest⟩ := List.prefix_of_prefix_length_le
        (List.prefix_append (body.drop j) _) hp (Nat.le_of_not_le hlong)
      have hdrop : closer.drop (body.drop j).length = rest := by
        rw [← hrest, List.drop_left]
      rw [← hrest, List.prefix_append_right_inj] at hp
      refine hself (body.drop j).length (by omega) (by omega) ?_
      rw [hdrop]
      refine List.prefix_of_prefix_length_le hp (hrest ▸ List.prefix_append ..) ?_
      rw [← hrest, List.length_append]
      exact Nat.le_add_left ..

/-! ### Runs -/

/-- A cut behind a run of characters leaves the run as it is. -/
theorem takeWhile_take {p : Char → Bool} {text : List Char} {k : Nat}
    (h : (text.takeWhile p).length ≤ k) : (text.take k).takeWhile p = text.takeWhile p := by
  induction text generalizing k with
  | nil => rw [List.take_nil]
  | cons c rest ih =>
    rw [List.takeWhile_cons] at h ⊢
    split at h
    · next hc =>
      obtain ⟨m, rfl⟩ : ∃ m, k = m + 1 := ⟨k - 1, by simp only [List.length_cons] at h; omega⟩
      rw [List.take_succ_cons, List.takeWhile_cons_of_pos hc, if_pos hc,
        ih (Nat.le_of_succ_le_succ h)]
    · next hc =>
      rw [if_neg hc]
      cases k with
      | zero => rfl
      | succ k => rw [List.take_succ_cons, List.takeWhile_cons_of_neg hc]

/-- The characters of a run stand in front. -/
theorem take_length_takeWhile (p : Char → Bool) (text : List Char) :
    text.take (text.takeWhile p).length = text.takeWhile p :=
  (List.prefix_iff_eq_take.1 (List.takeWhile_prefix p)).symm

/-- Behind the characters of a run stands what the run leaves. -/
theorem drop_length_takeWhile (p : Char → Bool) (text : List Char) :
    text.drop (text.takeWhile p).length = text.dropWhile p := by
  have hsplit := congrArg (List.drop (text.takeWhile p).length)
    (List.takeWhile_append_dropWhile (p := p) (l := text))
  rw [List.drop_left] at hsplit
  exact hsplit.symm

/-- A run of characters with the property `p` cannot go on in this text. -/
def Ends (p : Char → Bool) (text : List Char) : Prop :=
  ∀ c ∈ text.head?, p c = false

theorem ends_cons {p : Char → Bool} {c : Char} {rest : List Char} (h : p c = false) :
    Ends p (c :: rest) := by
  rintro _ ⟨⟩
  exact h

/-- Behind a run that is taken whole the run cannot go on. -/
theorem ends_dropWhile (p : Char → Bool) (text : List Char) : Ends p (text.dropWhile p) := by
  intro c hc
  have h := List.head?_dropWhile_not p text
  rwa [hc] at h

theorem takeWhile_of_ends {p : Char → Bool} {text : List Char} (h : Ends p text) :
    text.takeWhile p = [] := by
  cases text with
  | nil => rfl
  | cons c rest => exact List.takeWhile_cons_of_neg (by simp [h c rfl])

theorem dropWhile_of_ends {p : Char → Bool} {text : List Char} (h : Ends p text) :
    text.dropWhile p = text := by
  cases text with
  | nil => rfl
  | cons c rest => exact List.dropWhile_cons_of_neg (by simp [h c rfl])

/-- A run reaches to where it cannot go on. -/
theorem takeWhile_append {p : Char → Bool} {run behind : List Char} (hrun : ∀ c ∈ run, p c = true)
    (hends : Ends p behind) : (run ++ behind).takeWhile p = run := by
  rw [List.takeWhile_append_of_pos hrun, takeWhile_of_ends hends, List.append_nil]

theorem dropWhile_append {p : Char → Bool} {run behind : List Char} (hrun : ∀ c ∈ run, p c = true)
    (hends : Ends p behind) : (run ++ behind).dropWhile p = behind := by
  rw [List.dropWhile_append_of_pos hrun, dropWhile_of_ends hends]

theorem Ends.append {p : Char → Bool} {run behind : List Char} (hrun : ∀ c ∈ run, p c = false)
    (hbehind : Ends p behind) : Ends p (run ++ behind) := by
  cases run with
  | nil => exact hbehind
  | cons c run => exact ends_cons (hrun c List.mem_cons_self)

/-! ### Escape pairs -/

/-- A text of escape pairs, each a backslash with any character, and of single characters that
are no backslash and have the property `plain`. -/
inductive Escaped (plain : Char → Prop) : List Char → Prop
  | nil : Escaped plain []
  | pair {rest : List Char} (c : Char) : Escaped plain rest → Escaped plain ('\\' :: c :: rest)
  | single {c : Char} {rest : List Char} :
    c ≠ '\\' → plain c → Escaped plain rest → Escaped plain (c :: rest)

end TagLint.Text
