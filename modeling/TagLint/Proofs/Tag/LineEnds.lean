import TagLint.Proofs.Attribute.LineEnds
import TagLint.Proofs.Tag.Nesting

/-!
# Tags with another line end

A line end means nothing at tag level, in quotes and in braces, and a backslash that takes only the
carriage return along leaves a newline that means nothing either. So a tag ends at the counterpart
of its end (`tagLength_crlf`), and what is left open was opened at the counterpart of its place, if
the scripts in its braces allow it.

- `Nesting.literals`: the literals in braces that the reading of a tag comes to.
- `Nesting.finish_crlf`: the reading of the counterpart goes along with the reading of the tag.
- `AttributeReader.occurrences_ofText_crlf`: the same occurs in the counterpart of a tag.
-/

namespace TagLint

open Text Script

namespace Nesting

/-- The literal in braces that `c` opens. -/
def frontLiterals (nest : Nesting) (c : Char) (rest : List Char) : List (List Char) :=
  match nest with
  | braced _ _ => (lineLiteral? c rest).toList
  | _ => []

/-- The literals in braces that the reading of a tag comes to. -/
def literals (nest : Nesting) (place : Nat) : List Char → List (List Char)
  | [] => []
  | c :: rest =>
    nest.frontLiterals c rest ++
      match nest.step place c rest with
      | .finish => []
      | .read next tail => next.literals (place + 1 + tail) (rest.drop tail)
termination_by text => text.length
decreasing_by simp only [List.length_drop, List.length_cons]; omega

/-- What is open, at other places. -/
def map (move : Nat → Nat) : Nesting → Nesting
  | tag => tag
  | quoted quote opened => quoted quote (move opened)
  | braced opened outer => braced (move opened) (outer.map move)

/-- A quote that is open in a tag is single or double. -/
def IsProper : Nesting → Prop
  | quoted quote _ => quote = '"' ∨ quote = '\''
  | _ => True

variable {nest next : Nesting} {place tail : Nat} {c : Char} {rest : List Char}

theorem isProper_map (move : Nat → Nat) (h : nest.IsProper) : (nest.map move).IsProper := by
  cases nest with
  | tag => trivial
  | quoted => exact h
  | braced => trivial

theorem isProper_ofOuter (outer : List Nat) : (ofOuter outer).IsProper := by
  cases outer <;> trivial

theorem isProper_of_step (h : nest.IsProper) (hstep : nest.step place c rest = .read next tail) :
    next.IsProper := by
  cases nest with
  | tag =>
    rcases step_tag_cases hstep with ⟨-, rfl, -⟩ | ⟨hquote, rfl, -⟩ | ⟨-, rfl, -⟩ | ⟨rfl, -⟩
    · trivial
    · exact hquote
    · trivial
    · trivial
  | quoted quote opened =>
    rcases step_quoted_cases hstep with ⟨-, rfl, -⟩ | ⟨-, -, rfl, -⟩ | ⟨-, -, rfl, -⟩
    · exact h
    · trivial
    · exact h
  | braced opened outer =>
    rcases step_braced_cases hstep with ⟨-, rfl, -⟩ | ⟨-, rfl, -⟩ | ⟨-, -, rfl, -⟩
    · trivial
    · exact isProper_ofOuter outer
    · trivial

/-! ### Line ends -/

theorem finish_of_step (h : nest.step place c rest = .read next tail) :
    nest.finish place (c :: rest) = next.finish (place + 1 + tail) (rest.drop tail) := by
  rw [finish, h]

/-- A line end means nothing. -/
theorem step_lineEnd (h : nest.IsProper) (hc : c = '\r' ∨ c = '\n') (place : Nat)
    (rest : List Char) : nest.step place c rest = .read nest 0 := by
  cases nest with
  | tag => rcases hc with rfl | rfl <;> rfl
  | quoted quote opened =>
    rcases hc with rfl | rfl <;> rcases h with rfl | rfl <;> rfl
  | braced opened outer =>
    rcases hc with rfl | rfl <;> rfl

theorem finish_lineEnd (h : nest.IsProper) (hc : c = '\r' ∨ c = '\n') (place : Nat)
    (rest : List Char) : nest.finish place (c :: rest) = nest.finish (place + 1) rest :=
  finish_of_step (step_lineEnd h hc place rest)

/-- Behind an escape, and behind the newline that it may leave, the reading is at the
counterpart. -/
theorem finish_escape_crlf (h : nest.IsProper)
    (hstep : ∀ place rest, nest.step place '\\' rest = .read nest 1) (place : Nat)
    (rest : List Char) : nest.finish place (crlf ('\\' :: rest)) =
      nest.finish (place + crlfPlace ('\\' :: rest) 2) (crlf (rest.drop 1)) := by
  rw [crlf_cons (by decide), finish_of_step (hstep place _), crlfPlace_cons (by decide)]
  rcases rest with _ | ⟨d, rest⟩
  · show nest.finish _ [] = nest.finish _ []
    rw [finish, finish]
  by_cases hd : d = '\n'
  · subst hd
    rw [crlf_newline, List.drop_succ_cons, List.drop_zero, finish_lineEnd h (.inr rfl),
      crlfPlace_newline]
    rfl
  · rw [crlf_cons hd, crlfPlace_cons hd]
    rfl

/-- What is open is moved along with the step. -/
theorem map_ofOuter (move : Nat → Nat) (outer : List Nat) :
    (ofOuter outer).map move = ofOuter (outer.map move) := by
  cases outer <;> rfl

/-- At tag level a step depends on its character only. -/
theorem step_tag_map (move : Nat → Nat) (hstep : Nesting.tag.step place c rest = .read next tail)
    (behind : List Char) :
    Nesting.tag.step (move place) c behind = .read (next.map move) tail := by
  rw [step] at hstep ⊢
  by_cases hclose : c = '>'
  · rw [if_pos hclose] at hstep
    cases hstep
  rw [if_neg hclose] at hstep ⊢
  by_cases hslash : c = '\\'
  · rw [if_pos hslash] at hstep ⊢
    cases hstep
    rfl
  rw [if_neg hslash] at hstep ⊢
  by_cases hquote : (decide (c = '"') || decide (c = '\'')) = true
  · rw [if_pos hquote] at hstep ⊢
    cases hstep
    rfl
  rw [if_neg hquote] at hstep ⊢
  by_cases hbrace : c = '{'
  · rw [if_pos hbrace] at hstep ⊢
    cases hstep
    rfl
  · rw [if_neg hbrace] at hstep ⊢
    cases hstep
    rfl

/-- In quotes a step depends on its character only. -/
theorem step_quoted_map (move : Nat → Nat) {quote : Char} {opened : Nat}
    (hstep : (Nesting.quoted quote opened).step place c rest = .read next tail)
    (behind : List Char) :
    (Nesting.quoted quote (move opened)).step (move place) c behind =
      .read (next.map move) tail := by
  rcases step_quoted_cases hstep with ⟨rfl, rfl, rfl⟩ | ⟨hslash, rfl, rfl, rfl⟩ |
    ⟨hslash, hquote, rfl, rfl⟩
  · rfl
  · rw [step, if_neg hslash, if_pos rfl]
    rfl
  · rw [step, if_neg hslash, if_neg hquote]
    rfl

/-- One step of the reading of a tag, and the steps of the reading of its counterpart. -/
theorem finish_crlf_of_step {move : Nat → Nat} (h : nest.IsProper)
    (hstep : nest.step place c rest = .read next tail)
    (hliterals : Portable (nest.frontLiterals c rest)) :
    (nest.map move).finish (move place) (crlf (c :: rest)) =
      (next.map move).finish (move place + crlfPlace (c :: rest) (tail + 1))
        (crlf (rest.drop tail)) := by
  have hproper := isProper_map move h
  by_cases hc : c = '\n'
  · subst hc
    cases hstep.symm.trans (step_lineEnd h (.inr rfl) place rest)
    rw [crlf_newline, finish_lineEnd hproper (.inl rfl), finish_lineEnd hproper (.inr rfl)]
    rfl
  rw [crlfPlace_cons hc]
  cases nest with
  | tag =>
    have hmap := step_tag_map move hstep
    rcases step_tag_cases hstep with ⟨rfl, rfl, rfl⟩ | ⟨-, -, rfl⟩ | ⟨-, -, rfl⟩ | ⟨-, rfl⟩
    · exact finish_escape_crlf hproper (fun _ _ => rfl) _ _
    · rw [crlf_cons hc]
      exact finish_of_step (hmap _)
    · rw [crlf_cons hc]
      exact finish_of_step (hmap _)
    · rw [crlf_cons hc]
      exact finish_of_step (hmap _)
  | quoted quote opened =>
    have hmap := step_quoted_map move hstep
    rcases step_quoted_cases hstep with ⟨rfl, rfl, rfl⟩ | ⟨-, -, -, rfl⟩ | ⟨-, -, -, rfl⟩
    · exact finish_escape_crlf hproper (fun _ _ => rfl) _ _
    · rw [crlf_cons hc]
      exact finish_of_step (hmap _)
    · rw [crlf_cons hc]
      exact finish_of_step (hmap _)
  | braced opened outer =>
    rw [crlf_cons hc]
    rcases step_braced_cases hstep with ⟨rfl, rfl, rfl⟩ | ⟨rfl, rfl, rfl⟩ |
      ⟨hopen, hclose, rfl, rfl⟩
    · have hmap : ((braced opened outer).map move).step (move place) '{' (crlf rest) =
          .read ((braced place (opened :: outer)).map move) 0 := rfl
      exact finish_of_step hmap
    · have hmap : ((braced opened outer).map move).step (move place) '}' (crlf rest) =
          .read ((ofOuter outer).map move) 0 := by
        rw [map_ofOuter]
        rfl
      exact finish_of_step hmap
    · -- behind an atom the readings may be apart by a carriage return, which is passed over
      have hmap : ((braced opened outer).map move).step (move place) c (crlf rest) =
          .read ((braced opened outer).map move) (atomTail c (crlf rest)) := by
        rw [map, step, if_neg hopen, if_neg hclose]
      have hread := read_atomTail_crlf (finish_lineEnd hproper (.inl rfl)) hliterals
        (move place + 1)
      rw [finish_of_step hmap, hread, Nat.add_assoc, Nat.add_comm 1]

/-- The end of a tag, or what is left open of it, at other places. -/
def mapEnd (move : Nat → Nat) : Except Nesting Nat → Except Nesting Nat
  | .ok stop => .ok (move stop)
  | .error nest => .error (nest.map move)

theorem literals_of_step (hstep : nest.step place c rest = .read next tail) :
    nest.literals place (c :: rest) =
      nest.frontLiterals c rest ++ next.literals (place + 1 + tail) (rest.drop tail) := by
  rw [literals, hstep]

/-- **The reading of the counterpart goes along with the reading of the tag.** It ends at the
counterpart of the end, or with what is left open, opened at the counterparts of the places. -/
theorem finish_crlf {whole text : List Char} (h : nest.IsProper)
    (htext : whole.drop place = text) (hliterals : Portable (nest.literals place text)) :
    (nest.map (crlfPlace whole)).finish (crlfPlace whole place) (crlf text) =
      mapEnd (crlfPlace whole) (nest.finish place text) := by
  fun_induction finish nest place text with
  | case1 nest place => rw [crlf_nil, finish, mapEnd]
  | case2 nest place c rest hstep =>
    obtain ⟨rfl, rfl⟩ := step_eq_finish_iff.1 hstep
    have hend : (Nesting.tag.map (crlfPlace whole)).step (crlfPlace whole place) '>' (crlf rest) =
        .finish := rfl
    rw [crlf_cons (by decide), finish, hend]
    show Except.ok (crlfPlace whole place + 1) = Except.ok (crlfPlace whole (place + 1))
    rw [crlfPlace_add, htext]
    rfl
  | case3 nest place c rest next tail hstep ih =>
    rw [literals_of_step hstep] at hliterals
    obtain ⟨hfront, hbehind⟩ := hliterals.of_append
    have hmore := ih (isProper_of_step h hstep) (drop_behind htext tail) hbehind
    rw [finish_crlf_of_step h hstep hfront, ← htext, ← crlfPlace_add, ← Nat.add_assoc,
      Nat.add_right_comm]
    exact hmore

end Nesting

/-- **A tag ends at the counterpart of its end.** -/
theorem tagLength_crlf {c : Char} (hc : c ≠ '\n') {rest : List Char}
    (h : Portable (Nesting.tag.literals 1 rest)) :
    tagLength (crlf (c :: rest)) =
      Nesting.mapEnd (crlfPlace (c :: rest)) (tagLength (c :: rest)) := by
  have hone : crlfPlace (c :: rest) 1 = 1 := crlfPlace_cons hc rest 0
  have hproper : Nesting.tag.IsProper := trivial
  have hdrop : (c :: rest).drop 1 = rest := rfl
  have hfinish := Nesting.finish_crlf hproper hdrop h
  rw [hone] at hfinish
  rw [crlf_cons hc]
  exact hfinish

/-! ### What occurs in a tag -/

namespace Tag

theorem afterOpener_crlf (text : List Char) :
    afterOpener (Text.crlf text) = Text.crlf (afterOpener text) := by
  rw [afterOpener, afterOpener, dropOptional_crlf (by decide) (by decide),
    dropOptional_crlf (by decide) (by decide)]

/-- A name has no line end. -/
theorem nameOf_crlf (text : List Char) : nameOf (Text.crlf text) = nameOf text := by
  rw [nameOf, afterOpener_crlf, takeWhile_crlf rfl, ← nameOf]
  refine crlf_of_notMem fun hmem => ?_
  cases List.mem_takeWhile_imp hmem

theorem afterName_crlf (text : List Char) :
    afterName (Text.crlf text) = Text.crlf (afterName text) := by
  rw [afterName, afterOpener_crlf, dropWhile_crlf rfl, ← afterName]

/-- The literals that the reading of the attributes comes to; a closing tag is not read. -/
def literals (tag : Tag) : List (List Char) :=
  if tag.isClosing then [] else (AttributeReader.ofTag tag).literals

end Tag

namespace AttributeReader

theorem ofText_eq (before : List Char) {front text : List Char}
    (h : front ++ Tag.afterName text = text) :
    ofText (byteSize before) text = ⟨byteSize (before ++ front), Tag.afterName text⟩ := by
  have hsize := congrArg byteSize h
  rw [byteSize_append] at hsize
  rw [ofText, byteSize_append, ← hsize, Nat.add_sub_cancel]

/-- The same occurs in the counterpart of a tag, at the counterparts of the offsets. -/
theorem occurrences_ofText_crlf {before text : List Char} (behind : List Char)
    (h : Portable (ofText (byteSize before) text).literals) :
    (ofText (byteSize (crlf before)) (crlf text)).occurrences =
      (ofText (byteSize before) text).occurrences.map
        (Occurrence.mapOffset (crlfOffset (before ++ (text ++ behind)))) := by
  obtain ⟨front, hfront⟩ := Tag.exists_append_afterName text
  have hcrlf : crlf front ++ Tag.afterName (crlf text) = crlf text := by
    rw [Tag.afterName_crlf, ← crlf_append, hfront]
  have hsource : before ++ (text ++ behind) =
      before ++ front ++ (Tag.afterName text ++ behind) := by
    rw [List.append_assoc, ← List.append_assoc front, hfront]
  rw [ofText_eq before hfront] at h ⊢
  rw [ofText_eq _ hcrlf, Tag.afterName_crlf, ← crlf_append, hsource]
  exact occurrences_crlf h

end AttributeReader

end TagLint
