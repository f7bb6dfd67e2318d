import TagLint.Proofs.Text.Bytes
import TagLint.Proofs.Text.Extent

/-!
# Texts with another line end

A text may end its lines with a newline or with a carriage return and a newline. `crlf` takes the
first form to the second one. A place of the text has a counterpart behind the counterpart of what
stands before it.

- `crlfPlace`, `crlfOffset`: the counterpart of a place, counted in characters or in bytes.
- `prefix_crlf`, `through?_crlf`, `takeWhile_crlf`: what is looked for in a text is found at the
  counterpart, if it knows nothing of line ends.
-/

namespace TagLint.Text

/-- The text with a carriage return before every newline. -/
def crlf : List Char → List Char
  | [] => []
  | c :: rest => if c = '\n' then '\r' :: '\n' :: crlf rest else c :: crlf rest

@[simp] theorem crlf_nil : crlf [] = [] := rfl

theorem crlf_newline (rest : List Char) : crlf ('\n' :: rest) = '\r' :: '\n' :: crlf rest := rfl

theorem crlf_cons {c : Char} (h : c ≠ '\n') (rest : List Char) :
    crlf (c :: rest) = c :: crlf rest := by
  rw [crlf, if_neg h]

theorem crlf_append (front rest : List Char) : crlf (front ++ rest) = crlf front ++ crlf rest := by
  induction front with
  | nil => rfl
  | cons c front ih =>
    by_cases hc : c = '\n'
    · subst hc
      rw [List.cons_append, crlf_newline, crlf_newline, ih, List.cons_append, List.cons_append]
    · rw [List.cons_append, crlf_cons hc, crlf_cons hc, ih, List.cons_append]

/-- A text of one line is left as it is. -/
theorem crlf_of_notMem {text : List Char} (h : '\n' ∉ text) : crlf text = text := by
  induction text with
  | nil => rfl
  | cons c rest ih =>
    rw [crlf_cons (Ne.symm (List.ne_of_not_mem_cons h)), ih (List.not_mem_of_not_mem_cons h)]

/-! ### Places -/

/-- The counterpart of a place. -/
def crlfPlace (text : List Char) (place : Nat) : Nat :=
  (crlf (text.take place)).length

/-- The counterpart of an offset. -/
def crlfOffset (text : List Char) (offset : Nat) : Nat :=
  byteSize (crlf (takeBytes offset text))

@[simp] theorem crlfPlace_zero (text : List Char) : crlfPlace text 0 = 0 := rfl

theorem crlfPlace_nil (place : Nat) : crlfPlace [] place = 0 := by
  rw [crlfPlace, List.take_nil]
  rfl

theorem crlfPlace_newline (rest : List Char) (place : Nat) :
    crlfPlace ('\n' :: rest) (place + 1) = crlfPlace rest place + 2 := rfl

theorem crlfPlace_cons {c : Char} (h : c ≠ '\n') (rest : List Char) (place : Nat) :
    crlfPlace (c :: rest) (place + 1) = crlfPlace rest place + 1 := by
  rw [crlfPlace, List.take_succ_cons, crlf_cons h]
  rfl

/-- Places behind a place have their counterparts behind its counterpart. -/
theorem crlfPlace_add (text : List Char) (place more : Nat) :
    crlfPlace text (place + more) = crlfPlace text place + crlfPlace (text.drop place) more := by
  rw [crlfPlace, List.take_add, crlf_append, List.length_append]
  rfl

theorem take_crlf (text : List Char) (place : Nat) :
    (crlf text).take (crlfPlace text place) = crlf (text.take place) := by
  have h : crlf text = crlf (text.take place) ++ crlf (text.drop place) := by
    rw [← crlf_append, List.take_append_drop]
  rw [h]
  exact List.take_left

theorem drop_crlf (text : List Char) (place : Nat) :
    (crlf text).drop (crlfPlace text place) = crlf (text.drop place) := by
  have h : crlf text = crlf (text.take place) ++ crlf (text.drop place) := by
    rw [← crlf_append, List.take_append_drop]
  rw [h]
  exact List.drop_left

/-- The place behind the first part of a text has its counterpart behind that of the part. -/
theorem crlfPlace_append (front rest : List Char) :
    crlfPlace (front ++ rest) front.length = (crlf front).length := by
  rw [crlfPlace, List.take_left]

theorem crlfOffset_append (front rest : List Char) :
    crlfOffset (front ++ rest) (byteSize front) = byteSize (crlf front) := by
  rw [crlfOffset, takeBytes_byteSize]

/-! ### What knows nothing of line ends -/

/-- A word without line ends stands in front of a text if it stands in front of the counterpart. -/
theorem prefix_crlf {word : List Char} (hnewline : '\n' ∉ word) (hreturn : '\r' ∉ word)
    (text : List Char) : word <+: crlf text ↔ word <+: text := by
  induction word generalizing text with
  | nil => simp
  | cons d word ih =>
    cases text with
    | nil => rfl
    | cons c rest =>
      by_cases hc : c = '\n'
      · subst hc
        rw [crlf_newline, List.cons_prefix_cons, List.cons_prefix_cons]
        exact iff_of_false (fun h => List.ne_of_not_mem_cons hreturn h.1.symm)
          (fun h => List.ne_of_not_mem_cons hnewline h.1.symm)
      · rw [crlf_cons hc, List.cons_prefix_cons, List.cons_prefix_cons,
          ih (List.not_mem_of_not_mem_cons hnewline) (List.not_mem_of_not_mem_cons hreturn)]

/-- A word without line ends is its own counterpart. -/
theorem crlfPlace_of_prefix {word text : List Char} (hnewline : '\n' ∉ word)
    (h : word <+: text) : crlfPlace text word.length = word.length := by
  rw [crlfPlace, ← List.prefix_iff_eq_take.1 h, crlf_of_notMem hnewline]

theorem dropOptional_crlf {c : Char} (hnewline : c ≠ '\n') (hreturn : c ≠ '\r')
    (text : List Char) : dropOptional c (crlf text) = crlf (dropOptional c text) := by
  rcases text with _ | ⟨d, rest⟩
  · rfl
  by_cases hd : d = '\n'
  · subst hd
    rw [crlf_newline, dropOptional, if_neg (Ne.symm hreturn), dropOptional,
      if_neg (Ne.symm hnewline), crlf_newline]
  rw [crlf_cons hd, dropOptional, dropOptional]
  by_cases hdc : d = c
  · rw [if_pos hdc, if_pos hdc]
  · rw [if_neg hdc, if_neg hdc, crlf_cons hd]

/-- A closer does not begin with a character that it does not have. -/
theorem through?_cons_of_notMem {closer : List Char} (hne : closer ≠ []) {c : Char}
    (h : c ∉ closer) (rest : List Char) :
    through? closer (c :: rest) = (through? closer rest).map (1 + ·) := by
  rw [through?_cons, if_neg]
  intro hopen
  obtain ⟨d, closer, rfl⟩ := List.exists_cons_of_ne_nil hne
  exact List.ne_of_not_mem_cons h (List.cons_prefix_cons.1 hopen).1.symm

/-- The first closer of the counterpart is the counterpart of the first closer. -/
theorem through?_crlf {closer : List Char} (hne : closer ≠ []) (hnewline : '\n' ∉ closer)
    (hreturn : '\r' ∉ closer) (text : List Char) :
    through? closer (crlf text) = (through? closer text).map (crlfPlace text) := by
  induction text with
  | nil => rw [crlf_nil, through?_nil hne, Option.map_none]
  | cons c rest ih =>
    by_cases hc : c = '\n'
    · subst hc
      rw [crlf_newline, through?_cons_of_notMem hne hreturn, through?_cons_of_notMem hne hnewline,
        through?_cons_of_notMem hne hnewline, ih, Option.map_map, Option.map_map, Option.map_map]
      congr 1
      funext n
      simp only [Function.comp_apply, Nat.add_comm 1, crlfPlace_newline]
    · have hopen := prefix_crlf hnewline hreturn (c :: rest)
      rw [crlf_cons hc] at hopen ⊢
      rw [through?_cons, through?_cons]
      by_cases hfirst : closer <+: c :: rest
      · rw [if_pos (hopen.2 hfirst), if_pos hfirst, Option.map_some, crlfPlace,
          ← List.prefix_iff_eq_take.1 hfirst, crlf_of_notMem hnewline]
      · rw [if_neg fun h => hfirst (hopen.1 h), if_neg hfirst, ih, Option.map_map, Option.map_map]
        congr 1
        funext n
        simp only [Function.comp_apply, Nat.add_comm 1, crlfPlace_cons hc]

/-- A run goes on over both line ends or over none. -/
theorem takeWhile_crlf {p : Char → Bool} (h : p '\r' = p '\n') (text : List Char) :
    (crlf text).takeWhile p = crlf (text.takeWhile p) := by
  induction text with
  | nil => rfl
  | cons c rest ih =>
    by_cases hc : c = '\n'
    · subst hc
      by_cases hp : p '\n' = true
      · rw [crlf_newline, List.takeWhile_cons_of_pos (h.trans hp), List.takeWhile_cons_of_pos hp,
          List.takeWhile_cons_of_pos hp, crlf_newline, ih]
      · rw [crlf_newline, List.takeWhile_cons_of_neg (h ▸ hp), List.takeWhile_cons_of_neg hp,
          crlf_nil]
    · rw [crlf_cons hc]
      by_cases hp : p c = true
      · rw [List.takeWhile_cons_of_pos hp, List.takeWhile_cons_of_pos hp, crlf_cons hc, ih]
      · rw [List.takeWhile_cons_of_neg hp, List.takeWhile_cons_of_neg hp, crlf_nil]

/-- Places behind a run have their counterparts behind the counterpart of the run. -/
theorem crlfPlace_takeWhile_add (p : Char → Bool) (text : List Char) (more : Nat) :
    crlfPlace text ((text.takeWhile p).length + more) =
      (crlf (text.takeWhile p)).length + crlfPlace (text.dropWhile p) more := by
  have htake := (take_length_takeWhile p text).symm
  rw [crlfPlace_add, drop_length_takeWhile, crlfPlace, ← htake]

theorem dropWhile_crlf {p : Char → Bool} (h : p '\r' = p '\n') (text : List Char) :
    (crlf text).dropWhile p = crlf (text.dropWhile p) := by
  have hsplit : crlf (text.takeWhile p) ++ (crlf text).dropWhile p =
      crlf (text.takeWhile p) ++ crlf (text.dropWhile p) := by
    rw [← takeWhile_crlf h, List.takeWhile_append_dropWhile, takeWhile_crlf h, ← crlf_append,
      List.takeWhile_append_dropWhile]
  exact List.append_cancel_left hsplit

end TagLint.Text
