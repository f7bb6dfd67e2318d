import TagLint.Attribute.Repeats

/-!
# Repetitions

`Attribute.repeats` keeps the first attribute of every name that it has come by. What it answers
with can be said without that memory (`Attribute.repeats_eq_repetitions`).
-/

namespace TagLint.Attribute

/-- The attributes that repeat a name: every attribute with an earlier one of its name, behind the
first of these. -/
def repetitions (attributes : List Attribute) : List (Attribute × Attribute) :=
  attributes.zipIdx.filterMap fun (found, i) =>
    ((attributes.take i).find? (·.name = found.name)).map (·, found)

/-- Keeping the first attribute of every name is enough to find the first one of a name. -/
theorem repeats_eq_of_find? (before : List Attribute) {seen rest : List Attribute}
    (h : ∀ name, seen.find? (·.name = name) = before.find? (·.name = name)) :
    repeats seen rest = (rest.zipIdx before.length).filterMap fun (found, i) =>
      (((before ++ rest).take i).find? (·.name = found.name)).map (·, found) := by
  -- the invariant is the hypothesis: both lists have the same first attribute of every name
  induction rest generalizing seen before with
  | nil => rfl
  | cons found rest ih =>
    have hbefore : (before ++ found :: rest).take before.length = before := List.take_left
    have hsplit : before ++ found :: rest = (before ++ [found]) ++ rest := by
      rw [List.append_assoc, List.singleton_append]
    have hlength : before.length + 1 = (before ++ [found]).length := by
      rw [List.length_append, List.length_singleton]
    rw [repeats, List.zipIdx_cons, List.filterMap_cons]
    simp only [hbefore, ← h]
    rw [hsplit, hlength]
    rcases hfind : seen.find? (·.name = found.name) with _ | first
    · simp only [hfind, Option.map_none]
      refine ih _ fun name => ?_
      rw [List.find?_append, ← h]
      by_cases hname : found.name = name
      · subst hname
        rw [List.find?_cons_of_pos (by simp), hfind, List.find?_cons_of_pos (by simp)]
        rfl
      · rw [List.find?_cons_of_neg (by simpa using hname),
          List.find?_cons_of_neg (by simpa using hname), List.find?_nil, Option.or_none]
    · simp only [hfind, Option.map_some]
      refine congrArg _ (ih _ fun name => ?_)
      rw [List.find?_append, ← h]
      by_cases hname : found.name = name
      · subst hname
        rw [hfind]
        rfl
      · rw [List.find?_cons_of_neg (by simpa using hname), List.find?_nil, Option.or_none]

/-- The attributes that are reported are those that repeat a name. -/
theorem repeats_eq_repetitions (attributes : List Attribute) :
    repeats [] attributes = repetitions attributes :=
  repeats_eq_of_find? [] fun _ => rfl

/-- An attribute that repeats a name is one of the attributes, and so is the first of the name. -/
theorem mem_of_mem_repeats {seen attributes : List Attribute} {first found : Attribute}
    (h : (first, found) ∈ repeats seen attributes) :
    (first ∈ seen ∨ first ∈ attributes) ∧ found ∈ attributes := by
  induction attributes generalizing seen with
  | nil => cases h
  | cons next rest ih =>
    rw [repeats] at h
    split at h
    · next earlier hearlier =>
      rcases List.mem_cons.1 h with heq | h
      · cases heq
        exact ⟨.inl (List.mem_of_find?_eq_some hearlier), List.mem_cons_self⟩
      · obtain ⟨hfirst, hfound⟩ := ih h
        exact ⟨hfirst.imp_right (List.mem_cons_of_mem _), List.mem_cons_of_mem _ hfound⟩
    · obtain ⟨hfirst, hfound⟩ := ih h
      refine ⟨?_, List.mem_cons_of_mem _ hfound⟩
      rcases hfirst with hfirst | hfirst
      · rcases List.mem_cons.1 hfirst with rfl | hfirst
        · exact .inr List.mem_cons_self
        · exact .inl hfirst
      · exact .inr (List.mem_cons_of_mem _ hfirst)

end TagLint.Attribute
