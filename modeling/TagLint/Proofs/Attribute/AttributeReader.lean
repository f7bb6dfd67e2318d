import Mathlib.Logic.Relation
import TagLint.Attribute.AttributeReader

/-!
# The reader of attributes, segment by segment

- `AttributeReader.Moves`, `AttributeReader.Reaches`: one segment, and the places that the reader
  comes to.
- `AttributeReader.exhaust`: the reader where no segment is left. That is where reading on from
  occurrence to occurrence ends (`exhaust_of_next?`, `next?_exhaust`).
- `AttributeReader.occurrences_of_some`: what occurs with the next segment comes first.
-/

namespace TagLint

namespace AttributeReader

open Relation

/-! ### Segment by segment -/

/-- A reader goes on behind its next segment. -/
def Moves (r behind : AttributeReader) : Prop :=
  ∃ segment, r.segment? = some (segment, behind)

/-- The places that a reader comes to. -/
def Reaches : AttributeReader → AttributeReader → Prop :=
  ReflTransGen Moves

/-- The reader where no segment is left. -/
def exhaust (r : AttributeReader) : AttributeReader :=
  match h : r.segment? with
  | none => r
  | some (_, behind) =>
    have := segment?_length_lt h
    behind.exhaust
termination_by r.rest.length

variable {r s behind : AttributeReader} {segment : Segment}

theorem segment?_eq_some_iff :
    r.segment? = some (segment, behind) ↔
      ∃ c rest, r.rest = c :: rest ∧ Segment.front? c rest = some segment ∧
        behind = r.advance segment := by
  unfold segment?
  split
  · next heq => simp [heq]
  · next c rest heq =>
    rw [Option.map_eq_some_iff]
    constructor
    · rintro ⟨found, hfront, hfound⟩
      cases hfound
      exact ⟨c, rest, heq, hfront, rfl⟩
    · rintro ⟨c', rest', heq', hfront, rfl⟩
      cases heq.symm.trans heq'
      exact ⟨segment, hfront, rfl⟩

theorem exhaust_of_some (h : r.segment? = some (segment, behind)) :
    r.exhaust = behind.exhaust := by
  rw [exhaust.eq_def]
  split
  · next heq => cases h.symm.trans heq
  · next heq => cases h.symm.trans heq; rfl

theorem reaches_exhaust (r : AttributeReader) : Reaches r r.exhaust := by
  fun_induction exhaust r with
  | case1 r h => exact .refl
  | case2 r segment behind h hlt ih => exact .head ⟨segment, h⟩ ih

theorem segment?_exhaust (r : AttributeReader) : r.exhaust.segment? = none := by
  fun_induction exhaust r with
  | case1 r h => exact h
  | case2 r segment behind h hlt ih => exact ih

theorem exhaust_of_reaches (h : Reaches r s) : s.exhaust = r.exhaust := by
  induction h with
  | refl => rfl
  | tail _ hmove ih =>
    obtain ⟨segment, hsegment⟩ := hmove
    rw [← ih, exhaust_of_some hsegment]

theorem next?_of_none (h : r.segment? = none) : r.next? = none := by
  rw [next?.eq_def]
  split
  · rfl
  · next heq => cases h.symm.trans heq

theorem next?_of_some (h : r.segment? = some (segment, behind)) :
    r.next? = match segment.occurrence? r.offset with
      | some found => some (found, behind)
      | none => behind.next? := by
  rw [next?.eq_def]
  split
  · next heq => cases h.symm.trans heq
  · next heq => cases h.symm.trans heq; rfl

/-- Behind every occurrence the reader goes on to the same place. -/
theorem exhaust_of_next? {found : Occurrence} (h : r.next? = some (found, behind)) :
    behind.exhaust = r.exhaust := by
  fun_induction next? r with
  | case1 => cases h
  | case2 r segment ahead hsegment hlt found hfound =>
    cases h
    exact (exhaust_of_some hsegment).symm
  | case3 r segment ahead hsegment hlt hnone ih => rw [ih h, exhaust_of_some hsegment]

/-- Nothing occurs where the reader is exhausted. -/
theorem next?_exhaust (r : AttributeReader) : r.exhaust.next? = none :=
  next?_of_none (segment?_exhaust r)

/-! ### Occurrences -/

theorem occurrences_go_of_none {before : List Occurrence} (h : r.next? = none) :
    occurrences.go before r = before.reverse := by
  rw [occurrences.go.eq_def]
  split
  · rfl
  · next heq => cases h.symm.trans heq

theorem occurrences_go_of_some {before : List Occurrence} {found : Occurrence}
    (h : r.next? = some (found, behind)) :
    occurrences.go before r = occurrences.go (found :: before) behind := by
  rw [occurrences.go.eq_def]
  split
  · next heq => cases h.symm.trans heq
  · next heq => cases h.symm.trans heq; rfl

/-- The occurrences before are put in front of the answer. -/
theorem occurrences_go_append (base before : List Occurrence) (r : AttributeReader) :
    occurrences.go (before ++ base) r = base.reverse ++ occurrences.go before r := by
  fun_induction occurrences.go before r with
  | case1 before r h => rw [occurrences_go_of_none h, List.reverse_append]
  | case2 before r found behind h hlt ih =>
    rw [occurrences_go_of_some h, ← ih, List.cons_append]

theorem occurrences_of_next?_none (h : r.next? = none) : r.occurrences = [] := by
  rw [occurrences, occurrences_go_of_none h, List.reverse_nil]

/-- What is read next is the first of the occurrences, and the others are left. -/
theorem occurrences_of_next?_some {found : Occurrence} (h : r.next? = some (found, behind)) :
    r.occurrences = found :: behind.occurrences := by
  rw [occurrences, occurrences_go_of_some h]
  exact occurrences_go_append [found] [] behind

/-- Nothing occurs in the tail of a tag. -/
theorem occurrences_of_none (h : r.segment? = none) : r.occurrences = [] :=
  occurrences_of_next?_none (next?_of_none h)

/-- What occurs with the next segment comes before what occurs behind it. -/
theorem occurrences_of_some (h : r.segment? = some (segment, behind)) :
    r.occurrences = (segment.occurrence? r.offset).toList ++ behind.occurrences := by
  have hnext := next?_of_some h
  rcases hfound : segment.occurrence? r.offset with _ | found
  · rw [hfound] at hnext
    rw [Option.toList_none, List.nil_append]
    rcases hbehind : behind.next? with _ | ⟨found, ahead⟩
    · rw [occurrences_of_next?_none hbehind, occurrences_of_next?_none (hnext.trans hbehind)]
    · rw [occurrences_of_next?_some hbehind, occurrences_of_next?_some (hnext.trans hbehind)]
  · rw [hfound] at hnext
    rw [Option.toList_some, List.singleton_append, occurrences_of_next?_some hnext]

/-- What occurs is what occurs with one of the segments. -/
theorem mem_occurrences_iff {found : Occurrence} :
    found ∈ r.occurrences ↔ ∃ s segment behind, Reaches r s ∧
      s.segment? = some (segment, behind) ∧ segment.occurrence? s.offset = some found := by
  constructor
  · intro h
    induction hn : r.rest.length using Nat.strongRecOn generalizing r with
    | ind n ih =>
      subst hn
      rcases hsegment : r.segment? with _ | ⟨segment, behind⟩
      · rw [occurrences_of_none hsegment] at h
        cases h
      · rw [occurrences_of_some hsegment] at h
        rcases List.mem_append.1 h with h | h
        · exact ⟨r, segment, behind, .refl, hsegment, Option.mem_toList.1 h⟩
        · obtain ⟨s, further, ahead, hreach, hrest⟩ := ih _ (segment?_length_lt hsegment) h rfl
          exact ⟨s, further, ahead, .head ⟨segment, hsegment⟩ hreach, hrest⟩
  · rintro ⟨s, segment, behind, hreach, hsegment, hfound⟩
    induction hreach using ReflTransGen.head_induction_on with
    | refl =>
      rw [occurrences_of_some hsegment, hfound]
      exact List.mem_append_left _ (List.mem_singleton.2 rfl)
    | head hmove _ ih =>
      obtain ⟨first, hfirst⟩ := hmove
      rw [occurrences_of_some hfirst]
      exact List.mem_append_right _ ih

end AttributeReader

end TagLint
