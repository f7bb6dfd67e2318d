import Mathlib.Data.Finset.Card
import Mathlib.Data.List.Induction
import TagLint.Proofs.Lint.Remarks

/-!
# What is found on one tag

The findings on a tag are the attributes that repeat a name, each once and in order. All of them
that have one name have the same first attribute.

- `Attribute.RepeatsAt`: the attribute at a place repeats the name of an earlier one.
- `Attribute.repeatPlaces`: the places of all such attributes.
- `Tag.Remarked`: what the remarks on a tag say.
- `Tag.remarked_remarks`: they say so of every tag that is not closing, and nothing of one that is.

Repetitions are followed attribute by attribute from the left: behind a new attribute they are those
from before it, and the new one if its name occurred (`Attribute.repetitions_concat`).
-/

namespace TagLint

namespace Attribute

/-- The attribute at a place repeats a name. It is `found`, and `first` stands before it and is the
earliest attribute of its name. -/
structure RepeatsAt (attributes : List Attribute) (place : Nat) (first found : Attribute) :
    Prop where
  stands : attributes[place]? = some found
  same_name : first.name = found.name
  earliest : ∃ i < place, attributes[i]? = some first ∧
    ∀ k < i, ∀ earlier, attributes[k]? = some earlier → earlier.name ≠ found.name

/-- The places of the attributes that have an earlier one of their name, in order. -/
def repeatPlaces (attributes : List Attribute) : List Nat :=
  (List.range attributes.length).filter fun j =>
    ∃ i < j, attributes[i]?.map name = attributes[j]?.map name

variable {attributes : List Attribute} {found first : Attribute} {place : Nat}

/-! ### One more attribute -/

theorem RepeatsAt.append (h : RepeatsAt attributes place first found) (more : List Attribute) :
    RepeatsAt (attributes ++ more) place first found := by
  have hfront {i : Nat} (hi : i ≤ place) : (attributes ++ more)[i]? = attributes[i]? := by
    have hlt := (List.getElem?_eq_some_iff.1 h.stands).1
    exact List.getElem?_append_left (Nat.lt_of_le_of_lt hi hlt)
  obtain ⟨i, hi, hfirst, hearliest⟩ := h.earliest
  constructor
  case stands => rw [hfront (Nat.le_refl _), h.stands]
  case same_name => exact h.same_name
  case earliest =>
    refine ⟨i, hi, ?_, ?_⟩
    · rw [hfront hi.le, hfirst]
    · intro k hk earlier hearlier
      rw [hfront (hk.le.trans hi.le)] at hearlier
      exact hearliest k hk earlier hearlier

/-- The last attribute repeats a name if the first of that name is before it. -/
theorem repeatsAt_length (h : attributes.find? (·.name = found.name) = some first) :
    RepeatsAt (attributes ++ [found]) attributes.length first found := by
  obtain ⟨hname, i, hi, hfirst, hbefore⟩ := List.find?_eq_some_iff_getElem.1 h
  constructor
  case stands => exact List.getElem?_concat_length
  case same_name => exact of_decide_eq_true hname
  case earliest =>
    refine ⟨i, hi, ?_, ?_⟩
    · rw [List.getElem?_append_left hi, List.getElem?_eq_getElem hi, hfirst]
    · intro k hk earlier hearlier
      rw [List.getElem?_append_left (hk.trans hi), List.getElem?_eq_getElem (hk.trans hi)]
        at hearlier
      cases hearlier
      simpa using hbefore k hk

theorem repetitions_concat (attributes : List Attribute) (found : Attribute) :
    repetitions (attributes ++ [found]) = repetitions attributes ++
      ((attributes.find? (·.name = found.name)).map (·, found)).toList := by
  rw [repetitions, List.zipIdx_append, List.filterMap_append]
  congr 1
  · refine List.filterMap_congr ?_
    rintro ⟨other, i⟩ hmem
    have hi : i < attributes.length := by
      simpa using List.snd_lt_add_of_mem_zipIdx hmem
    show Option.map _ (List.find? _ ((attributes ++ [found]).take i)) = _
    rw [List.take_append_of_le_length hi.le]
  · simp only [Nat.zero_add, List.zipIdx_singleton, List.filterMap_cons, List.filterMap_nil,
      List.take_left]
    cases attributes.find? (·.name = found.name) <;> rfl

theorem repeatPlaces_concat (attributes : List Attribute) (found : Attribute) :
    repeatPlaces (attributes ++ [found]) = repeatPlaces attributes ++
      if found.name ∈ attributes.map name then [attributes.length] else [] := by
  have hfront {i : Nat} (hi : i < attributes.length) :
      (attributes ++ [found])[i]? = attributes[i]? := List.getElem?_append_left hi
  rw [repeatPlaces, List.length_append, List.length_singleton, List.range_succ, List.filter_append]
  congr 1
  · refine List.filter_congr fun j hj => ?_
    have hj := List.mem_range.1 hj
    refine decide_eq_decide.2 (exists_congr fun i => and_congr_right fun hi => ?_)
    rw [hfront hj, hfront (hi.trans hj)]
  · have hiff : (∃ i < attributes.length, (attributes ++ [found])[i]?.map name =
        (attributes ++ [found])[attributes.length]?.map name) ↔
        found.name ∈ attributes.map name := by
      rw [List.getElem?_concat_length, List.mem_map]
      constructor
      · rintro ⟨i, hi, hname⟩
        rw [hfront hi, List.getElem?_eq_getElem hi] at hname
        exact ⟨attributes[i], List.getElem_mem hi, Option.some.inj hname⟩
      · rintro ⟨other, hmem, hname⟩
        obtain ⟨i, hi, rfl⟩ := List.getElem_of_mem hmem
        refine ⟨i, hi, ?_⟩
        rw [hfront hi, List.getElem?_eq_getElem hi]
        exact congrArg some hname
    rw [List.filter_cons, List.filter_nil]
    simp only [hiff, decide_eq_true_eq]

/-- **What one more attribute adds.** If its name is new, nothing; otherwise the attribute itself,
which repeats the first one of its name. -/
theorem repetitions_concat_cases (attributes : List Attribute) (found : Attribute) :
    (found.name ∉ attributes.map name ∧
      repetitions (attributes ++ [found]) = repetitions attributes ∧
      repeatPlaces (attributes ++ [found]) = repeatPlaces attributes) ∨
    (found.name ∈ attributes.map name ∧
      ∃ first, attributes.find? (·.name = found.name) = some first ∧
        repetitions (attributes ++ [found]) = repetitions attributes ++ [(first, found)] ∧
        repeatPlaces (attributes ++ [found]) = repeatPlaces attributes ++ [attributes.length]) := by
  rw [repetitions_concat, repeatPlaces_concat]
  rcases hfind : attributes.find? (·.name = found.name) with _ | first
  · have hnew : found.name ∉ attributes.map name := by
      rw [List.mem_map]
      rintro ⟨other, hmem, hname⟩
      exact List.find?_eq_none.1 hfind other hmem (decide_eq_true hname)
    rw [if_neg hnew, hfind]
    exact .inl ⟨hnew, List.append_nil _, List.append_nil _⟩
  · have hname : first.name = found.name := by simpa using List.find?_some hfind
    have hseen : found.name ∈ attributes.map name :=
      List.mem_map.2 ⟨first, List.mem_of_find?_eq_some hfind, hname⟩
    rw [if_pos hseen, hfind]
    exact .inr ⟨hseen, first, rfl, rfl, rfl⟩

/-! ### Every repetition once -/

/-- **The repetitions are the attributes at the places that repeat a name, in order.** -/
theorem forall₂_repetitions (attributes : List Attribute) :
    List.Forall₂ (fun place pair => RepeatsAt attributes place pair.1 pair.2)
      (repeatPlaces attributes) (repetitions attributes) := by
  induction attributes using List.reverseRecOn with
  | nil => exact .nil
  | append_singleton attributes found ih =>
    have hbefore := ih.imp fun _ _ h => h.append [found]
    obtain ⟨-, hpairs, hplaces⟩ | ⟨-, first, hfind, hpairs, hplaces⟩ :=
      repetitions_concat_cases attributes found
    · rw [hpairs, hplaces]
      exact hbefore
    · rw [hpairs, hplaces]
      exact List.rel_append hbefore (.cons (repeatsAt_length hfind) .nil)

-- the third attribute repeats the first, from which the last differs in case
example : repeatPlaces [⟨"id", 3⟩, ⟨"class", 6⟩, ⟨"id", 12⟩, ⟨"ID", 15⟩] = [2] := by decide

/-- Every attribute either has a new name or repeats one. -/
theorem length_repetitions_add (attributes : List Attribute) :
    (repetitions attributes).length + (attributes.map name).toFinset.card = attributes.length := by
  induction attributes using List.reverseRecOn with
  | nil => rfl
  | append_singleton attributes found ih =>
    have hnames : ((attributes ++ [found]).map name).toFinset =
        insert found.name (attributes.map name).toFinset := by
      ext other
      simp
    rw [hnames, List.length_append, List.length_singleton]
    obtain ⟨hnew, hpairs, -⟩ | ⟨hseen, first, -, hpairs, -⟩ :=
      repetitions_concat_cases attributes found
    · rw [Finset.card_insert_of_notMem (by rwa [List.mem_toFinset]), hpairs]
      omega
    · rw [Finset.insert_eq_of_mem (by rwa [List.mem_toFinset]), hpairs, List.length_append,
        List.length_singleton]
      omega

/-- Nothing repeats a name if and only if all names differ. -/
theorem repetitions_eq_nil_iff (attributes : List Attribute) :
    repetitions attributes = [] ↔ (attributes.map name).Nodup := by
  induction attributes using List.reverseRecOn with
  | nil => exact iff_of_true rfl List.nodup_nil
  | append_singleton attributes found ih =>
    rw [List.map_append, List.map_singleton, List.nodup_append_comm, List.singleton_append,
      List.nodup_cons, ← ih]
    obtain ⟨hnew, hpairs, -⟩ | ⟨hseen, first, -, hpairs, -⟩ :=
      repetitions_concat_cases attributes found
    · rw [hpairs]
      exact (and_iff_right hnew).symm
    · rw [hpairs]
      exact iff_of_false (List.concat_ne_nil _ _) fun h => h.1 hseen

/-- All attributes of a name but the first repeat it. -/
theorem countP_repetitions (attributes : List Attribute) (word : String) :
    (repetitions attributes).countP (·.2.name = word) = (attributes.map name).count word - 1 := by
  induction attributes using List.reverseRecOn with
  | nil => rfl
  | append_singleton attributes found ih =>
    rw [List.map_append, List.map_singleton, List.count_append, List.count_singleton]
    obtain ⟨hnew, hpairs, -⟩ | ⟨hseen, first, -, hpairs, -⟩ :=
      repetitions_concat_cases attributes found
    · rw [hpairs, ih]
      by_cases hword : found.name = word
      · subst hword
        rw [List.count_eq_zero_of_not_mem hnew]
        simp
      · simp [hword]
    · rw [hpairs, List.countP_append, ih, List.countP_singleton]
      by_cases hword : found.name = word
      · subst hword
        have hpos := List.count_pos_iff.2 hseen
        simp only [decide_true, if_true, beq_self_eq_true]
        omega
      · simp [hword]

/-- An attribute that repeats a name stands behind the first attribute of the name. -/
theorem first_of_mem_repetitions (h : (first, found) ∈ repetitions attributes) :
    attributes.find? (·.name = found.name) = some first := by
  obtain ⟨⟨other, i⟩, -, hpair⟩ := List.mem_filterMap.1 h
  obtain ⟨earlier, hfind, hpair⟩ := Option.map_eq_some_iff.1 hpair
  cases hpair
  rw [← List.take_append_drop i attributes, List.find?_append, hfind]
  rfl

end Attribute

/-! ### The remarks on a tag -/

/-- A finding on a tag reports the attribute at a place: it repeats the name of an earlier one, and
the spans of both are as long as the name. -/
def Finding.Reports (tag : Tag) (lines : Lines) (place : Nat) (finding : Finding) : Prop :=
  ∃ first found, Attribute.RepeatsAt tag.attributes place first found ∧
    finding.tag = tag ∧ finding.name = found.name ∧
    finding.first = lines.span first.offset (first.offset + found.name.utf8ByteSize) ∧
    finding.duplicate = lines.span found.offset (found.offset + found.name.utf8ByteSize)

namespace Tag

/-- The characters out of place among the attributes of a tag, in order, each with its offset. -/
def strays (tag : Tag) : List (Char × Nat) :=
  tag.occurrences.filterMap fun
    | .declared _ => none
    | .stray found offset => some (found, offset)

/-- What the remarks on a tag say: which names are declared again and where, how often, and which
characters are out of place. -/
structure Remarked (tag : Tag) (lines : Lines) (remarks : Remarks) : Prop where
  findings : List.Forall₂ (Finding.Reports tag lines) (Attribute.repeatPlaces tag.attributes)
    remarks.findings
  length_findings :
    remarks.findings.length + (tag.attributes.map Attribute.name).toFinset.card =
      tag.attributes.length
  findings_eq_nil_iff : remarks.findings = [] ↔ (tag.attributes.map Attribute.name).Nodup
  count_findings : ∀ name, remarks.findings.countP (·.name = name) =
    (tag.attributes.map Attribute.name).count name - 1
  same_first : ∀ finding ∈ remarks.findings, ∀ other ∈ remarks.findings,
    finding.name = other.name → finding.first = other.first
  warnings : remarks.warnings =
    tag.strays.map fun (found, offset) => .ofStray tag lines found offset

/-- **On a tag that is not closing the findings are exactly the attributes that repeat a name**, and
the warnings are the characters out of place. On a closing tag there is nothing to remark. -/
theorem remarked_remarks (tag : Tag) (lines : Lines) :
    if tag.isClosing then tag.remarks lines = ⟨[], []⟩
    else tag.Remarked lines (tag.remarks lines) := by
  by_cases hclosing : tag.isClosing = true
  · rw [if_pos hclosing, remarks, if_pos hclosing]
  rw [if_neg hclosing]
  have hfindings : (tag.remarks lines).findings = (Attribute.repetitions tag.attributes).map
      fun pair => .ofRepeat tag lines pair.1 pair.2 := by
    rw [remarks, if_neg hclosing, ← Attribute.repeats_eq_repetitions]
    rfl
  constructor
  case findings =>
    rw [hfindings, List.forall₂_map_right_iff]
    refine (Attribute.forall₂_repetitions tag.attributes).imp ?_
    rintro place ⟨first, found⟩ hrepeats
    refine ⟨first, found, hrepeats, rfl, rfl, ?_, rfl⟩
    rw [← hrepeats.same_name]
    rfl
  case length_findings =>
    rw [hfindings, List.length_map]
    exact Attribute.length_repetitions_add tag.attributes
  case findings_eq_nil_iff =>
    rw [hfindings, List.map_eq_nil_iff]
    exact Attribute.repetitions_eq_nil_iff tag.attributes
  case count_findings =>
    intro name
    rw [hfindings, List.countP_map]
    exact Attribute.countP_repetitions tag.attributes name
  case same_first =>
    rw [hfindings]
    simp only [List.mem_map]
    rintro _ ⟨⟨first, found⟩, hmem, rfl⟩ _ ⟨⟨other, again⟩, hother, rfl⟩ hname
    have hfirst := Attribute.first_of_mem_repetitions hmem
    have hsecond := Attribute.first_of_mem_repetitions hother
    have hname : found.name = again.name := hname
    rw [hname] at hfirst
    cases hfirst.symm.trans hsecond
    rfl
  case warnings =>
    rw [remarks, if_neg hclosing, strays, List.map_filterMap]
    refine List.filterMap_congr fun found _ => ?_
    cases found <;> rfl

end Tag

end TagLint
