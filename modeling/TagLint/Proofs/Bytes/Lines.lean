import TagLint.Proofs.Bytes.Places
import TagLint.Proofs.Location.Lines

/-!
# Lines, found byte by byte

- `lineStarts`, `position`: the starts of lines, and the line and column of an index, over bytes.
- `lastUpTo_eq`: the search in ascending numbers ends at the last one that is not greater.
- `lineStarts_eq`, `position_eq`: they do not fail, and find what `Lines.locate` finds, for every
  offset. There is a line at or before every offset, so the search never ends in front of the first
  one.
-/

namespace TagLint.Bytes

open Text (byteSize)

/-! ### Over bytes -/

/-- The indices behind the newlines of some bytes, the first of which is at an index. -/
def startsFrom (i : Nat) : List Char → Checked (List Nat)
  | [] => .ok []
  | c :: rest => do
    let starts ← startsFrom (i + 1) rest
    if c = '\n' then return (← add i 1) :: starts else return starts

/-- The indices where lines start. -/
def lineStarts (bytes : List UInt8) : Checked (List Nat) := do
  return 0 :: (← startsFrom 0 (view bytes))

/-- What a search in ascending numbers answers. -/
inductive Search where
  /-- The number stands at a place. -/
  | found (place : Nat)
  /-- The number is missing, and belongs at a place. -/
  | missing (place : Nat)
  deriving DecidableEq, Repr

/-- Searches for a number. -/
def search (numbers : List Nat) (x : Nat) : Search :=
  match numbers.findIdx? (· = x) with
  | some place => .found place
  | none => .missing (numbers.countP (· < x))

/-- The place of the last of the ascending numbers that is not greater than a number. -/
def lastUpTo (numbers : List Nat) (x : Nat) : Checked Nat :=
  match search numbers x with
  | .found place => .ok place
  | .missing place => sub place 1

/-- The characters between two indices of a text, or the bytes if these cannot be counted. -/
def width (text : List Char) (start stop : Nat) : Checked Nat :=
  match slice? text start stop with
  | some between => .ok between.length
  | none => sub stop start

/-- The line and column of an index, in a text with these starts of lines. -/
def position (text : List Char) (starts : List Nat) (offset : Nat) : Checked Location := do
  let place := min offset (utf8 text).length
  let line ← lastUpTo starts place
  let start ← (starts[line]?).elim (.error .index) .ok
  let column ← width text start place
  return ⟨← add line 1, ← add column 1⟩

/-! ### Ascending numbers -/

variable {numbers : List Nat} {x : Nat}

/-- The numbers up to a bound stand in front of all others. -/
theorem lt_countP_iff (h : numbers.Pairwise (· < ·)) {i : Nat} (hi : i < numbers.length) :
    i < numbers.countP (· ≤ x) ↔ numbers[i] ≤ x := by
  induction numbers generalizing i with
  | nil => exact absurd hi (Nat.not_lt_zero i)
  | cons first rest ih =>
    obtain ⟨hfirst, hrest⟩ := List.pairwise_cons.1 h
    rw [List.countP_cons]
    by_cases hle : first ≤ x
    · rw [if_pos (decide_eq_true hle)]
      cases i with
      | zero => exact iff_of_true (Nat.succ_pos _) hle
      | succ i =>
        rw [List.getElem_cons_succ, ← ih hrest (Nat.lt_of_succ_lt_succ hi)]
        exact Nat.add_lt_add_iff_right
    · -- all others are greater still
      have hnone : rest.countP (· ≤ x) = 0 := by
        rw [List.countP_eq_zero]
        intro next hnext
        have := hfirst next hnext
        simpa using by omega
      rw [if_neg (by simpa using hle), hnone]
      refine iff_of_false (Nat.not_lt_zero i) ?_
      cases i with
      | zero => exact hle
      | succ i =>
        have := hfirst _ (List.getElem_mem (Nat.lt_of_succ_lt_succ hi))
        rw [List.getElem_cons_succ]
        omega

/-- The search ends at the last number that is not greater, if there is one. -/
theorem lastUpTo_eq (h : numbers.Pairwise (· < ·)) (hpos : 0 < numbers.countP (· ≤ x)) :
    lastUpTo numbers x = .ok (numbers.countP (· ≤ x) - 1) := by
  rw [lastUpTo, search]
  cases hfind : numbers.findIdx? (· = x) with
  | some place =>
    obtain ⟨hplace, heq, -⟩ := List.findIdx?_eq_some_iff_getElem.1 hfind
    have hx : numbers[place] = x := of_decide_eq_true heq
    have hlt : place < numbers.countP (· ≤ x) := (lt_countP_iff h hplace).2 (Nat.le_of_eq hx)
    have hlast : ¬place + 1 < numbers.countP (· ≤ x) := by
      intro hnext
      have hlength := Nat.lt_of_lt_of_le hnext List.countP_le_length
      have hle := (lt_countP_iff h hlength).1 hnext
      have hless := List.pairwise_iff_getElem.1 h place (place + 1) hplace hlength
        (Nat.lt_succ_self place)
      omega
    show (Except.ok place : Checked Nat) = _
    congr 1
    omega
  | none =>
    have hmissing : ∀ y ∈ numbers, y ≠ x := by
      intro y hy
      simpa using List.findIdx?_eq_none_iff.1 hfind y hy
    have hcount : numbers.countP (· < x) = numbers.countP (· ≤ x) := by
      refine List.countP_congr fun y hy => ?_
      have := hmissing y hy
      simp only [decide_eq_true_eq]
      omega
    show sub (numbers.countP (· < x)) 1 = _
    rw [hcount, sub_eq_ok hpos]

/-! ### Starts of lines -/

variable {text rest : List Char} {i : Nat}

theorem startsFrom_wide {wide : List Char} (hwide : ∀ d ∈ wide, 128 ≤ d.toNat) (i : Nat)
    (behind : List Char) : startsFrom i (wide ++ behind) = startsFrom (i + wide.length) behind := by
  induction wide generalizing i with
  | nil => rfl
  | cons d wide ih =>
    have hne : d ≠ '\n' := by
      rintro rfl
      have := hwide '\n' List.mem_cons_self
      contradiction
    rw [List.cons_append, startsFrom, ih (fun e he => hwide e (List.mem_cons_of_mem _ he)),
      List.length_cons, Nat.add_assoc, Nat.add_comm 1]
    cases startsFrom (i + (wide.length + 1)) behind with
    | error failure => rfl
    | ok starts =>
      rw [ok_bind, if_neg hne]
      rfl

theorem At.startsFrom (h : At text i rest) : Bytes.startsFrom i (view (utf8 rest)) =
    .ok ((Lines.startsBehind i rest).map LineStart.offset) := by
  induction rest generalizing i with
  | nil => rfl
  | cons c rest ih =>
    rw [Lines.startsBehind]
    by_cases hc : c.toNat < 128
    · have hnext := ih (h.next_of_lt hc)
      rw [view_utf8_of_lt hc, Bytes.startsFrom, hnext, ok_bind, utf8Size_of_lt hc]
      split
      · rw [h.add_one]
        rfl
      · rfl
    · have hc := Nat.not_lt.1 hc
      have hne : c ≠ '\n' := by
        rintro rfl
        contradiction
      obtain ⟨wide, hview, hlength, hwide⟩ := exists_view_utf8 hc rest
      rw [hview, startsFrom_wide hwide, hlength, ih h.next, if_neg hne]

/-- The offsets where the lines of a text start. -/
def startsOf (text : List Char) : List Nat :=
  (Lines.ofText text).starts.toList.map LineStart.offset

/-- **Lines are found where they start.** -/
theorem lineStarts_eq (h : byteSize text ≤ maxTextSize) :
    lineStarts (utf8 text) = .ok (startsOf text) := by
  rw [lineStarts, (At.start h).startsFrom, startsOf, Lines.toList_starts_ofText]
  rfl

/-- The starts of lines ascend. -/
theorem startsBehind_pairwise (offset : Nat) (text : List Char) :
    ((Lines.startsBehind offset text).map LineStart.offset).Pairwise (· < ·) := by
  induction text generalizing offset with
  | nil => exact .nil
  | cons c text ih =>
    rw [Lines.startsBehind]
    split
    · refine .cons ?_ (ih _)
      intro next hnext
      obtain ⟨start, hstart, rfl⟩ := List.mem_map.1 hnext
      exact (Lines.offset_of_mem_startsBehind hstart).1
    · exact ih _

theorem startsOf_pairwise (text : List Char) : (startsOf text).Pairwise (· < ·) := by
  rw [startsOf, Lines.toList_starts_ofText]
  refine .cons ?_ (startsBehind_pairwise 0 text)
  intro next hnext
  obtain ⟨start, hstart, rfl⟩ := List.mem_map.1 hnext
  exact (Lines.offset_of_mem_startsBehind hstart).1

/-- A line has the text from its start on. -/
theorem At.of_mem_startsBehind (h : At text i rest) {start : LineStart}
    (hstart : start ∈ Lines.startsBehind i rest) : At text start.offset start.text := by
  induction rest generalizing i with
  | nil => cases hstart
  | cons c rest ih =>
    rw [Lines.startsBehind] at hstart
    split at hstart
    · rcases List.mem_cons.1 hstart with rfl | hstart
      · exact h.next
      · exact ih h.next hstart
    · exact ih h.next hstart

theorem At.of_mem_starts (h : byteSize text ≤ maxTextSize) {start : LineStart}
    (hstart : start ∈ (Lines.ofText text).starts.toList) : At text start.offset start.text := by
  rw [Lines.toList_starts_ofText] at hstart
  rcases List.mem_cons.1 hstart with rfl | hstart
  · exact .start h
  · exact (At.start h).of_mem_startsBehind hstart

/-! ### Positions -/

/-- Characters are counted in the bytes that are cut off, if these end between characters. -/
theorem charsBefore?_eq (bytes : Nat) (text : List Char) :
    charsBefore? bytes text = (prefix? text bytes).map List.length := by
  have hgo (taken : Nat) :
      charsBefore?.go taken bytes text = (prefix? text bytes).map (taken + ·.length) := by
    induction text generalizing taken bytes with
    | nil =>
      rw [charsBefore?.go, prefix?]
      split <;> rfl
    | cons c text ih =>
      rw [charsBefore?.go, prefix?]
      split
      · rfl
      split
      · rw [ih, Option.map_map]
        congr 1
        funext front
        show taken + 1 + front.length = taken + (front.length + 1)
        omega
      · rfl
  rw [charsBefore?, hgo]
  congr 1
  funext front
  exact Nat.zero_add _

/-- No more characters are cut off than bytes. -/
theorem length_le_of_prefix? {text front : List Char} {size : Nat}
    (h : prefix? text size = some front) : front.length ≤ size := by
  induction text generalizing size front with
  | nil =>
    rw [prefix?] at h
    split at h
    · cases h
      exact Nat.zero_le _
    · cases h
  | cons c text ih =>
    have hpos := c.utf8Size_pos
    rw [prefix?] at h
    split at h
    · cases h
      exact Nat.zero_le _
    split at h
    · obtain ⟨more, hmore, rfl⟩ := Option.map_eq_some_iff.1 h
      have := ih hmore
      rw [List.length_cons]
      omega
    · cases h

theorem charsBefore?_getD_le (bytes : Nat) (text : List Char) :
    (charsBefore? bytes text).getD bytes ≤ bytes := by
  rw [charsBefore?_eq]
  cases hprefix : prefix? text bytes with
  | none => exact Nat.le_refl _
  | some front => exact length_le_of_prefix? hprefix

/-- There is at most one line more than bytes. -/
theorem size_starts_le (text : List Char) :
    (Lines.ofText text).starts.size ≤ byteSize text + 1 := by
  have hcount : text.count '\n' ≤ text.length := List.count_le_length
  have hsize := Text.length_le_byteSize text
  rw [← Array.length_toList, Lines.toList_starts_ofText, List.length_cons,
    Lines.length_startsBehind]
  omega

/-- The first line starts at or before every offset. -/
theorem countP_startsOf_pos (text : List Char) (offset : Nat) :
    0 < (startsOf text).countP (· ≤ offset) := by
  rw [startsOf, Lines.toList_starts_ofText, List.map_cons, List.countP_cons,
    if_pos (decide_eq_true (Nat.zero_le offset))]
  exact Nat.succ_pos _

/-- The line of an offset is the last one that starts at or before it. -/
theorem lineAt_eq (text : List Char) (offset : Nat) :
    (Lines.ofText text).lineAt offset = (startsOf text).countP (· ≤ offset) - 1 := by
  have hlength : (startsOf text).length = (Lines.ofText text).starts.size := by
    rw [startsOf, List.length_map, Array.length_toList]
  have hcount : (startsOf text).countP (· ≤ offset) ≤ (startsOf text).length :=
    List.countP_le_length
  have hpos := countP_startsOf_pos text offset
  have hholds : ∀ i < (Lines.ofText text).starts.size,
      ((Lines.ofText text).starts[i]?.any fun start => start.offset ≤ offset) =
        decide (i < (startsOf text).countP (· ≤ offset)) := by
    intro i hi
    have hlt : i < (startsOf text).length := hlength ▸ hi
    have hstart : (startsOf text)[i] = (Lines.ofText text).starts[i].offset := by
      simp only [startsOf, List.getElem_map, Array.getElem_toList]
    rw [Array.getElem?_eq_getElem hi, Option.any_some, decide_eq_decide,
      lt_countP_iff (startsOf_pairwise text) hlt, hstart]
  refine bisect_eq (Nat.zero_le _) (by omega) (fun i hi => ?_) (fun i hi hlt => ?_)
  · rw [hholds i (by omega), decide_eq_true_eq]
    omega
  · rw [hholds i hlt, decide_eq_false_iff_not]
    omega

/-- The width of what stands between a place and an index at or behind it. -/
theorem At.width (h : At text i rest) {stop : Nat} (hle : i ≤ stop) :
    Bytes.width text i stop = .ok ((charsBefore? (stop - i) rest).getD (stop - i)) := by
  rw [Bytes.width, Bytes.slice?, if_pos hle, h.suffix?, Option.bind_some, charsBefore?_eq]
  cases prefix? rest (stop - i) with
  | some between => rfl
  | none => exact sub_eq_ok hle

/-- **Every index has the position that its offset has.** -/
theorem position_eq (h : byteSize text ≤ maxTextSize) (offset : Nat) :
    position text (startsOf text) offset = .ok ((Lines.ofText text).locate offset) := by
  obtain ⟨place, hplace⟩ : ∃ place, min offset (byteSize text) = place := ⟨_, rfl⟩
  have hle : place ≤ byteSize text := hplace ▸ Nat.min_le_right ..
  have hlt := (Lines.ofText text).lineAt_lt place
  -- the line that is found, and its start, which is at or before the place
  have hline : lastUpTo (startsOf text) place = .ok ((Lines.ofText text).lineAt place) := by
    rw [lastUpTo_eq (startsOf_pairwise text) (countP_startsOf_pos text place), ← lineAt_eq]
  obtain ⟨start, hstart⟩ :
      ∃ start, (Lines.ofText text).starts[(Lines.ofText text).lineAt place] = start := ⟨_, rfl⟩
  have hget : (startsOf text)[(Lines.ofText text).lineAt place]? = some start.offset := by
    rw [startsOf, List.getElem?_map, Array.getElem?_toList, Array.getElem?_eq_getElem hlt, hstart]
    rfl
  have hbefore : start.offset ≤ place := by
    obtain ⟨hlength, hoffset⟩ := List.getElem?_eq_some_iff.1 hget
    have hpos := countP_startsOf_pos text place
    rw [← hoffset, ← lt_countP_iff (startsOf_pairwise text), lineAt_eq]
    omega
  have hat : At text start.offset start.text := by
    refine .of_mem_starts h ?_
    rw [← hstart]
    exact Array.getElem_mem_toList hlt
  have hlocate : (Lines.ofText text).locate offset = ⟨(Lines.ofText text).lineAt place + 1,
      (charsBefore? (place - start.offset) start.text).getD (place - start.offset) + 1⟩ := by
    subst hplace hstart
    rfl
  -- both numbers are far from the greatest index
  have hlines := size_starts_le text
  have hcolumns := charsBefore?_getD_le (place - start.offset) start.text
  rw [maxTextSize] at h
  rw [position, length_utf8, hplace]
  simp only [hline, hget, hat.width hbefore, ok_bind, Option.elim_some]
  rw [add_eq_ok (by rw [maxSize]; omega), ok_bind, add_eq_ok (by rw [maxSize]; omega), ok_bind,
    hlocate]
  rfl

end TagLint.Bytes
