import TagLint.Proofs.Attribute.AttributeReader
import TagLint.Proofs.Markup.Reading

/-!
# Reading on to the end

A reader yields what comes next and the reader behind it, until nothing is left.

- `Yields`: all that a reader still yields, one by one.
- `TagReader.yields_items`, `AttributeReader.yields_occurrences`: the lists that are read at once
  are what the readers yield one by one.
- `TagReader.items_of_next?_error`: behind a fault nothing is yielded.
-/

namespace TagLint

/-- What a reader still yields: reading on again and again gives these, and then nothing. -/
inductive Yields {σ α : Type} (next? : σ → Option (α × σ)) : σ → List α → Prop
  | stop {r : σ} : next? r = none → Yields next? r []
  | read {r behind : σ} {found : α} {more : List α} :
    next? r = some (found, behind) → Yields next? behind more → Yields next? r (found :: more)

section

variable {σ α : Type} {next? : σ → Option (α × σ)}

/-- A reader yields one list only. -/
theorem Yields.unique {r : σ} {found other : List α} (h : Yields next? r found)
    (hother : Yields next? r other) : found = other := by
  induction h generalizing other with
  | stop hnone =>
    cases hother with
    | stop => rfl
    | read hsome => cases hnone.symm.trans hsome
  | read hsome _ ih =>
    cases hother with
    | stop hnone => cases hnone.symm.trans hsome
    | read hsome' hmore =>
      cases hsome.symm.trans hsome'
      rw [ih hmore]

/-- A list that every step of a reader takes the first of is what the reader yields. -/
theorem yields_of {left : σ → List α} (hstop : ∀ r, next? r = none → left r = [])
    (hread : ∀ r found behind, next? r = some (found, behind) → left r = found :: left behind)
    (r : σ) : Yields next? r (left r) := by
  induction hn : left r generalizing r with
  | nil =>
    refine .stop ?_
    rcases hnext : next? r with _ | ⟨found, behind⟩
    · rfl
    · cases (hread r found behind hnext).symm.trans hn
  | cons first more ih =>
    rcases hnext : next? r with _ | ⟨found, behind⟩
    · cases (hstop r hnext).symm.trans hn
    · obtain ⟨rfl, hmore⟩ := List.cons.inj ((hread r found behind hnext).symm.trans hn)
      exact .read hnext (ih behind hmore)

end

/-! ### Tags -/

namespace TagReader

variable {r behind : TagReader} {found : Item}

theorem items_of_next?_none (h : r.next? = none) : r.items = [] := by
  fun_induction next? r with
  | case1 r hnone => exact items_of_landmark?_none hnone
  | case2 => cases h
  | case3 r landmark behind hlandmark hlt hcomment ih =>
    rw [items_of_landmark?_some hlandmark, hcomment, ih h]
    rfl

/-- What is read next is the first of the items, and the others are left. -/
theorem items_of_next?_some (h : r.next? = some (found, behind)) :
    r.items = found :: behind.items := by
  fun_induction next? r with
  | case1 => cases h
  | case2 r landmark ahead hlandmark hlt item hitem =>
    cases h
    rw [items_of_landmark?_some hlandmark, hitem]
    rfl
  | case3 r landmark ahead hlandmark hlt hcomment ih =>
    rw [items_of_landmark?_some hlandmark, hcomment, ih h]
    rfl

theorem next?_of_items_nil (h : r.items = []) : r.next? = none := by
  rcases hnext : r.next? with _ | ⟨found, behind⟩
  · rfl
  · cases (items_of_next?_some hnext).symm.trans h

/-- Reading on stays in the source. -/
theorem lines_of_landmark? {landmark : Landmark} (h : r.landmark? = some (landmark, behind)) :
    behind.lines = r.lines := by
  fun_induction landmark? r with
  | case1 => cases h
  | case2 _ _ _ _ _ ih => exact ih h
  | case3 _ _ _ _ _ ih => exact ih h
  | case4 => cases h; rfl
  | case5 => cases h; rfl
  | case6 => cases h; rfl
  | case7 => cases h; rfl

theorem lines_of_next? (h : r.next? = some (found, behind)) : behind.lines = r.lines := by
  fun_induction next? r with
  | case1 => cases h
  | case2 r landmark ahead hlandmark hlt item hitem =>
    cases h
    exact lines_of_landmark? hlandmark
  | case3 r landmark ahead hlandmark hlt hcomment ih =>
    rw [ih h, lines_of_landmark? hlandmark]

theorem yields_items (r : TagReader) : Yields next? r r.items :=
  yields_of (fun _ => items_of_next?_none) (fun _ _ _ => items_of_next?_some) r

/-- **A fault is the last thing that is read.** -/
theorem items_of_next?_error {cause : Fault} (h : r.next? = some (.error cause, behind)) :
    behind.items = [] := by
  obtain ⟨tags, fault?, hitems⟩ := exists_items_eq r
  rw [items_of_next?_some h] at hitems
  cases tags with
  | cons tag tags => cases (List.cons.inj hitems).1
  | nil =>
    cases fault? with
    | none => cases hitems
    | some fault => exact (List.cons.inj hitems).2

end TagReader

/-! ### Attributes -/

namespace AttributeReader

theorem yields_occurrences (r : AttributeReader) : Yields next? r r.occurrences :=
  yields_of (fun _ => occurrences_of_next?_none) (fun _ _ _ => occurrences_of_next?_some) r

end AttributeReader

end TagLint
