import TagLint.Location.Lines
import TagLint.Proofs.Text.Bytes

/-!
# Where a place of a source is

`Lines.locate` looks an offset up in the starts of the lines. What it answers for the offset of a
place is the location that one comes to by counting the characters before the place.

- `Location.next`, `Location.behind`: counting on from a location, over a character and over a
  text.
- `bisect_eq`: the last number of a range at which a property holds.
- `Lines.startsBehind`: the starts of the lines behind the newlines of a text. The starts behind a
  place are the starts up to it, and then those of what follows (`Lines.startsBehind_append`).
- `Lines.locate_ofText`: looking up is counting.
-/

namespace TagLint

/-! ### Counting -/

namespace Location

/-- The location where a source begins. -/
def first : Location :=
  ⟨1, 1⟩

/-- The location behind a character. -/
def next (place : Location) (c : Char) : Location :=
  if c = '\n' then ⟨place.line + 1, 1⟩ else ⟨place.line, place.column + 1⟩

/-- The location behind a text. -/
def behind (place : Location) (text : List Char) : Location :=
  text.foldl next place

@[simp] theorem behind_nil (place : Location) : place.behind [] = place := rfl

@[simp] theorem behind_cons (place : Location) (c : Char) (text : List Char) :
    place.behind (c :: text) = (place.next c).behind text := rfl

@[simp] theorem behind_append (place : Location) (front text : List Char) :
    place.behind (front ++ text) = (place.behind front).behind text :=
  List.foldl_append

/-- Behind a text without newlines the column has gone on by its characters. -/
theorem behind_of_notMem (place : Location) {text : List Char} (h : '\n' ∉ text) :
    place.behind text = ⟨place.line, place.column + text.length⟩ := by
  induction text generalizing place with
  | nil => rfl
  | cons c rest ih =>
    have hc : c ≠ '\n' := Ne.symm (List.ne_of_not_mem_cons h)
    rw [behind_cons, next, if_neg hc, ih _ (List.not_mem_of_not_mem_cons h), List.length_cons]
    simp only [Nat.add_assoc, Nat.add_comm 1]

/-- Every newline begins a line. -/
theorem line_behind (place : Location) (text : List Char) :
    (place.behind text).line = place.line + text.count '\n' := by
  induction text generalizing place with
  | nil => rfl
  | cons c rest ih =>
    rw [behind_cons, ih, next]
    by_cases hc : c = '\n'
    · rw [if_pos hc, hc, List.count_cons_self]
      simp only [Nat.add_assoc, Nat.add_comm 1]
    · rw [if_neg hc, List.count_cons_of_ne hc]

end Location

/-! ### Bisection -/

/-- The last number of a range at which a property holds is found, if the property holds of the
numbers of the range up to there. -/
theorem bisect_eq {holds : Nat → Bool} {low high last : Nat} (hlow : low ≤ last)
    (hhigh : last < high) (hup : ∀ i ≤ last, holds i = true)
    (hpast : ∀ i, last < i → i < high → holds i = false) : bisect holds low high = last := by
  fun_induction bisect holds low high with
  | case1 low high hlt middle hmiddle ih =>
    refine ih (Nat.le_of_not_lt fun hless => ?_) hhigh hpast
    rw [hpast middle hless (by omega)] at hmiddle
    cases hmiddle
  | case2 low high hlt middle hmiddle ih =>
    have hless : last < middle := Nat.lt_of_not_le fun hle => hmiddle (hup middle hle)
    exact ih hlow hless fun i hi hlt => hpast i hi (by omega)
  | case3 low high hlt => omega

/-! ### Columns -/

/-- The bytes of the first part of a text are its characters. -/
theorem charsBefore?_append (front rest : List Char) :
    charsBefore? (Text.byteSize front) (front ++ rest) = some front.length := by
  have hgo (taken : Nat) : charsBefore?.go taken (Text.byteSize front) (front ++ rest) =
      some (taken + front.length) := by
    induction front generalizing taken with
    | nil => cases rest <;> rfl
    | cons c front ih =>
      have hpos := c.utf8Size_pos
      rw [List.cons_append, charsBefore?.go, Text.byteSize_cons, if_neg (by omega),
        if_pos (Nat.le_add_right ..), Nat.add_sub_cancel_left, ih, List.length_cons, Nat.add_assoc,
        Nat.add_comm 1]
  rw [charsBefore?, hgo, Nat.zero_add]

/-! ### Starts of lines -/

namespace Lines

/-- The starts of the lines behind the newlines of a text at an offset. -/
def startsBehind (offset : Nat) : List Char → List LineStart
  | [] => []
  | c :: rest =>
    if c = '\n' then ⟨offset + c.utf8Size, rest⟩ :: startsBehind (offset + c.utf8Size) rest
    else startsBehind (offset + c.utf8Size) rest

theorem toList_collect (starts : Array LineStart) (offset : Nat) (text : List Char) :
    (collect starts offset text).toList = starts.toList ++ startsBehind offset text := by
  induction text generalizing starts offset with
  | nil => rw [collect, startsBehind, List.append_nil]
  | cons c rest ih =>
    rw [collect, ih, startsBehind]
    split
    · rw [Array.toList_push, List.append_assoc, List.singleton_append]
    · rfl

/-- The lines of a text are that which begins with the text, and those behind its newlines. -/
theorem toList_starts_ofText (text : List Char) :
    (ofText text).starts.toList = ⟨0, text⟩ :: startsBehind 0 text :=
  toList_collect _ _ _

theorem startsBehind_append (offset : Nat) (front rest : List Char) :
    startsBehind offset (front ++ rest) =
      (startsBehind offset front).map (fun start => { start with text := start.text ++ rest }) ++
        startsBehind (offset + Text.byteSize front) rest := by
  induction front generalizing offset with
  | nil => rfl
  | cons c front ih =>
    rw [List.cons_append, startsBehind, startsBehind, ih, Text.byteSize_cons, Nat.add_assoc]
    split
    · rw [List.map_cons, List.cons_append]
    · rfl

theorem length_startsBehind (offset : Nat) (text : List Char) :
    (startsBehind offset text).length = text.count '\n' := by
  induction text generalizing offset with
  | nil => rfl
  | cons c rest ih =>
    rw [startsBehind]
    split
    · next hc => rw [hc, List.length_cons, ih, List.count_cons_self]
    · next hc => rw [ih, List.count_cons_of_ne hc]

/-- The lines behind the newlines of a text start in the text or at its end. -/
theorem offset_of_mem_startsBehind {offset : Nat} {text : List Char} {start : LineStart}
    (h : start ∈ startsBehind offset text) :
    offset < start.offset ∧ start.offset ≤ offset + Text.byteSize text := by
  induction text generalizing offset with
  | nil => cases h
  | cons c rest ih =>
    have hpos := c.utf8Size_pos
    rw [startsBehind] at h
    rw [Text.byteSize_cons]
    split at h
    · rcases List.mem_cons.1 h with rfl | h
      · exact ⟨Nat.lt_add_of_pos_right hpos, by rw [← Nat.add_assoc]; exact Nat.le_add_right ..⟩
      · have := ih h
        omega
    · have := ih h
      omega

theorem startsBehind_of_notMem (offset : Nat) {text : List Char} (h : '\n' ∉ text) :
    startsBehind offset text = [] := by
  rw [← List.length_eq_zero_iff, length_startsBehind, List.count_eq_zero_of_not_mem h]

/-- The last line of a text: all of it, or what stands behind the last newline. -/
theorem exists_last_line (text : List Char) :
    '\n' ∉ text ∨ ∃ front line, text = front ++ '\n' :: line ∧ '\n' ∉ line := by
  induction text with
  | nil => exact .inl List.not_mem_nil
  | cons c rest ih =>
    rcases ih with hrest | ⟨front, line, rfl, hline⟩
    · by_cases hc : c = '\n'
      · exact .inr ⟨[], rest, by rw [hc, List.nil_append], hrest⟩
      · exact .inl (List.not_mem_cons_of_ne_of_not_mem (Ne.symm hc) hrest)
    · exact .inr ⟨c :: front, line, rfl, hline⟩

/-- The start of the line on which a place is: the last of the starts up to the place. It stands
in front of the place by the characters that the place has in front of it on its line. -/
theorem exists_start (before rest : List Char) :
    ∃ earlier front line, before = front ++ line ∧ earlier.length = before.count '\n' ∧
      Location.first.behind before = ⟨before.count '\n' + 1, line.length + 1⟩ ∧
      (ofText (before ++ rest)).starts.toList =
        earlier ++ ⟨Text.byteSize front, line ++ rest⟩ ::
          startsBehind (Text.byteSize before) rest ∧
      ∀ start ∈ earlier, start.offset ≤ Text.byteSize before := by
  rcases exists_last_line before with hline | ⟨front, line, rfl, hline⟩
  · refine ⟨[], [], before, rfl, ?_, ?_, ?_, nofun⟩
    · rw [List.count_eq_zero_of_not_mem hline, List.length_nil]
    · rw [Location.behind_of_notMem _ hline, List.count_eq_zero_of_not_mem hline,
        Location.first, Nat.add_comm 1]
    · rw [toList_starts_ofText, startsBehind_append, startsBehind_of_notMem 0 hline, List.map_nil,
        List.nil_append, Nat.zero_add]
      rfl
  · have hbefore : front ++ '\n' :: line = (front ++ ['\n']) ++ line := by
      rw [List.append_assoc, List.singleton_append]
    have hcount : (front ++ '\n' :: line).count '\n' = front.count '\n' + 1 := by
      rw [List.count_append, List.count_cons_self, List.count_eq_zero_of_not_mem hline]
    have hsplit : startsBehind 0 (front ++ '\n' :: line) =
        (startsBehind 0 front).map
          (fun start => { start with text := start.text ++ '\n' :: line }) ++
          [⟨Text.byteSize (front ++ ['\n']), line⟩] := by
      rw [startsBehind_append, startsBehind, if_pos rfl, startsBehind_of_notMem _ hline,
        Text.byteSize_append, Nat.zero_add]
      rfl
    refine ⟨⟨0, (front ++ '\n' :: line) ++ rest⟩ :: ((startsBehind 0 front).map
        (fun start => { start with text := start.text ++ '\n' :: line })).map
        (fun start => { start with text := start.text ++ rest }),
      front ++ ['\n'], line, hbefore, ?_, ?_, ?_, ?_⟩
    · rw [List.length_cons, List.length_map, List.length_map, length_startsBehind, hcount]
    · rw [hbefore, Location.behind_append, Location.behind_of_notMem _ hline, ← hbefore, hcount,
        Location.behind_append, Location.behind_cons, Location.behind_nil, Location.next,
        if_pos rfl, Location.line_behind, Location.first, Nat.add_comm 1 (front.count '\n'),
        Nat.add_comm 1]
    · rw [toList_starts_ofText, startsBehind_append, hsplit, List.map_append, Nat.zero_add]
      simp only [List.map_cons, List.map_nil, List.append_assoc, List.cons_append, List.nil_append]
    · intro start hstart
      rcases List.mem_cons.1 hstart with rfl | hstart
      · exact Nat.zero_le _
      · obtain ⟨_, hmem, rfl⟩ := List.mem_map.1 hstart
        obtain ⟨inner, hinner, rfl⟩ := List.mem_map.1 hmem
        have hle := (offset_of_mem_startsBehind hinner).2
        rw [Nat.zero_add] at hle
        rw [Text.byteSize_append]
        exact Nat.le_trans hle (Nat.le_add_right ..)

/-- **Looking up is counting.** The offset of a place has the location behind the text before the
place. -/
theorem locate_ofText (before rest : List Char) :
    (ofText (before ++ rest)).locate (Text.byteSize before) = Location.first.behind before := by
  obtain ⟨earlier, front, line, hbefore, hearlier, hbehind, hstarts, hle⟩ :=
    exists_start before rest
  have hplace : min (Text.byteSize before) (ofText (before ++ rest)).size =
      Text.byteSize before := by
    refine Nat.min_eq_left ?_
    rw [ofText, Text.byteSize_append]
    exact Nat.le_add_right ..
  have hsize : (ofText (before ++ rest)).starts.size =
      before.count '\n' + 1 + (startsBehind (Text.byteSize before) rest).length := by
    rw [← Array.length_toList, hstarts, List.length_append, List.length_cons, hearlier]
    omega
  have hstart : (ofText (before ++ rest)).starts[before.count '\n']? =
      some ⟨Text.byteSize front, line ++ rest⟩ := by
    rw [← Array.getElem?_toList, hstarts, List.getElem?_append_right (by omega), hearlier,
      Nat.sub_self, List.getElem?_cons_zero]
  -- the starts up to that one are not behind the place, and the others are
  have hline : (ofText (before ++ rest)).lineAt (Text.byteSize before) = before.count '\n' := by
    refine bisect_eq (Nat.zero_le _) (by omega) (fun i hi => ?_) (fun i hi hlt => ?_)
    · rcases Nat.lt_or_eq_of_le hi with hlt | rfl
      · rw [← Array.getElem?_toList, hstarts, List.getElem?_append_left (by omega),
          List.getElem?_eq_getElem (by omega), Option.any_some, decide_eq_true_iff]
        exact hle _ (List.getElem_mem _)
      · rw [hstart, Option.any_some, decide_eq_true_iff, hbefore, Text.byteSize_append]
        exact Nat.le_add_right ..
    · obtain ⟨j, rfl⟩ : ∃ j, i = before.count '\n' + 1 + j := ⟨i - before.count '\n' - 1, by omega⟩
      rw [← Array.getElem?_toList, hstarts, List.getElem?_append_right (by omega), hearlier,
        Nat.add_assoc, Nat.add_sub_cancel_left, Nat.add_comm 1, List.getElem?_cons_succ,
        List.getElem?_eq_getElem (by omega), Option.any_some, decide_eq_false_iff_not, Nat.not_le]
      exact (offset_of_mem_startsBehind (List.getElem_mem _)).1
  obtain ⟨hlt, hget⟩ := Array.getElem?_eq_some_iff.1 hstart
  have hbytes : Text.byteSize before - Text.byteSize front = Text.byteSize line := by
    rw [hbefore, Text.byteSize_append, Nat.add_sub_cancel_left]
  simp only [locate, hplace, hline, hget, hbytes, charsBefore?_append, Option.getD_some, hbehind]

end Lines

end TagLint
