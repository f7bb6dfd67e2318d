import TagLint.Proofs.Markup.TagReader
import TagLint.Proofs.Tag.Open
import TagLint.Proofs.Tag.Segments
import TagLint.Proofs.Tag.Tidy

/-!
# Both readers abreast

The reader of tags and the reader of attributes go over the same text, each with steps of its own. In
front of a segment the one may be at tag level, as the other takes for granted, or it may not.

- `Tag.quoted_region_iff_quotedTail`, `Tag.braced_region_iff_bracedTail`: over a value in quotes or
  braces, and over a spread, both go alike.
- `Tag.Abreast`: the reader of tags is at tag level at a place, or might as well be.
- `Tag.settles_iff_abreast`: over other characters it comes to be at tag level again exactly if they
  leave nothing open. So both readers keep abreast over a segment exactly if the segment is tidy
  (`Tag.Abreast.isTidy_iff`).
- `Tag.isTidy_iff_abreast`: the reader of attributes is abreast wherever it comes to, exactly if the
  tag is tidy.
-/

namespace TagLint

namespace Tag

open Nesting

variable {source : String} {tag : Tag}

/-! ### Regions -/

/-- What stands at a place of a tag stands there in the text that the tag was read from. -/
theorem exists_drop_readFrom {place : Nat} {c : Char} {rest : List Char}
    (htag : .ok tag ∈ (TagReader.ofString source).items)
    (htext : tag.text.toList.drop place = c :: rest) :
    ∃ behind, tagLength (tag.readFrom source) = .ok tag.text.toList.length ∧
      (tag.readFrom source).drop place = c :: (rest ++ behind) ∧
      tag.text.toList.length = place + 1 + rest.length := by
  obtain ⟨behind, hfrom, -, hlength⟩ := readFrom_of_mem_items htag
  have hlen := congrArg List.length htext
  rw [List.length_drop, List.length_cons] at hlen
  refine ⟨behind, hlength, ?_, by omega⟩
  rw [hfrom, List.drop_append_of_le_length (by omega), htext, List.cons_append]

/-- A quoted region ends where the value ends in the tag's own text: the value ends in the tag, so
the text behind the tag has no say in it. -/
theorem quoted_region_iff_quotedTail {first stop : Nat} {quote : Char} {rest : List Char}
    (htag : .ok tag ∈ (TagReader.ofString source).items)
    (hfirst : Reaches (tag.readFrom source) .tag first)
    (htext : tag.text.toList.drop first = quote :: rest) (hquote : quote = '"' ∨ quote = '\'') :
    Region (tag.readFrom source) first stop ↔
      stop = first + 1 + Attribute.quotedTail quote rest := by
  obtain ⟨behind, hlength, hdrop, hlen⟩ := exists_drop_readFrom htag htext
  have hregion (stop : Nat) : Region (tag.readFrom source) first stop ↔
      stop = first + 1 + Attribute.quotedTail quote (rest ++ behind) :=
    quoted_region_iff hlength hfirst hdrop hquote
  have hin := ((hregion _).2 rfl).lt hlength
  have hvalue : Attribute.quotedTail quote ((rest ++ behind).take rest.length) =
      Attribute.quotedTail quote (rest ++ behind) := Attribute.quotedTail_take (by omega)
  rw [List.take_left] at hvalue
  rw [hregion, hvalue]

/-- A braced region ends where the value ends in the tag's own text. -/
theorem braced_region_iff_bracedTail {first stop : Nat} {rest : List Char}
    (htag : .ok tag ∈ (TagReader.ofString source).items)
    (hfirst : Reaches (tag.readFrom source) .tag first)
    (htext : tag.text.toList.drop first = '{' :: rest) :
    Region (tag.readFrom source) first stop ↔ stop = first + 1 + Script.bracedTail rest := by
  obtain ⟨behind, hlength, hdrop, hlen⟩ := exists_drop_readFrom htag htext
  have hregion (stop : Nat) : Region (tag.readFrom source) first stop ↔
      stop = first + 1 + Script.bracedTail (rest ++ behind) :=
    braced_region_iff hlength hfirst hdrop
  have hin := ((hregion _).2 rfl).lt hlength
  have hvalue : Script.bracedTail ((rest ++ behind).take rest.length) =
      Script.bracedTail (rest ++ behind) := Script.bracedTail_take (by omega)
  rw [List.take_left] at hvalue
  rw [hregion, hvalue]

/-- A region does not begin with a character that opens nothing. -/
theorem ne_of_region {first stop place : Nat} {c : Char}
    (htag : .ok tag ∈ (TagReader.ofString source).items)
    (hregion : Region (tag.readFrom source) first stop) (hget : tag.text.toList[place]? = some c)
    (hc : ¬(c = '"' ∨ c = '\'' ∨ c = '{')) : place ≠ first := by
  rintro rfl
  obtain ⟨behind, hfrom, -, hlength⟩ := readFrom_of_mem_items htag
  obtain ⟨d, hopen, hd⟩ := hregion.opener
  rw [hfrom, List.getElem?_append_left (lt_of_reaches hregion.1 hlength)] at hopen
  cases hget.symm.trans hopen
  exact hc hd

/-! ### At tag level -/

/-- A tag ends with the first `>` that stands at tag level. -/
theorem eq_nil_of_reaches {place : Nat} {rest : List Char}
    (htag : .ok tag ∈ (TagReader.ofString source).items)
    (h : Reaches (tag.readFrom source) .tag place)
    (htext : tag.text.toList.drop place = '>' :: rest) : rest = [] := by
  obtain ⟨behind, hlength, hdrop, hlen⟩ := exists_drop_readFrom htag htext
  have hfinish := (finish_of_reaches h).trans hlength
  rw [hdrop, finish, hlen] at hfinish
  have hend := Except.ok.inj hfinish
  exact List.length_eq_zero_iff.1 (by omega)

/-- At tag level something is left of a tag. -/
theorem drop_ne_nil_of_reaches {place : Nat} (htag : .ok tag ∈ (TagReader.ofString source).items)
    (h : Reaches (tag.readFrom source) .tag place) : tag.text.toList.drop place ≠ [] := by
  obtain ⟨behind, -, -, hlength⟩ := readFrom_of_mem_items htag
  have hlt := lt_of_reaches h hlength
  intro hnil
  exact absurd (List.drop_eq_nil_iff.1 hnil) (Nat.not_le.2 hlt)

section Steps

variable {place : Nat} {c : Char} {rest run behind : List Char}
  (htag : .ok tag ∈ (TagReader.ofString source).items)

include htag

/-- A character that means nothing is read at tag level. -/
theorem reaches_of_plain (h : Reaches (tag.readFrom source) .tag place)
    (htext : tag.text.toList.drop place = c :: rest) (hc : isPlain c = true) :
    Reaches (tag.readFrom source) .tag (place + 1) := by
  obtain ⟨behind, -, hdrop, -⟩ := exists_drop_readFrom htag htext
  exact .tail h ⟨c, rest ++ behind, 0, hdrop, step_tag_of_isPlain hc place _, rfl⟩

/-- A backslash takes the character behind it along. -/
theorem reaches_of_pair (h : Reaches (tag.readFrom source) .tag place)
    (htext : tag.text.toList.drop place = '\\' :: rest) :
    Reaches (tag.readFrom source) .tag (place + 2) := by
  obtain ⟨behind, -, hdrop, -⟩ := exists_drop_readFrom htag htext
  exact .tail h ⟨'\\', rest ++ behind, 1, hdrop, rfl, rfl⟩

/-- Characters that mean nothing are read at tag level. -/
theorem reaches_of_plain_run (h : Reaches (tag.readFrom source) .tag place)
    (htext : tag.text.toList.drop place = run ++ rest) (hrun : ∀ c ∈ run, isPlain c = true) :
    Reaches (tag.readFrom source) .tag (place + run.length) := by
  cases run with
  | nil => exact h
  | cons c run =>
    obtain ⟨behind, -, hdrop, -⟩ := exists_drop_readFrom htag htext
    have hsplit : (tag.readFrom source).drop place = (c :: run) ++ (rest ++ behind) :=
      hdrop.trans (congrArg (c :: ·) (List.append_assoc run rest behind))
    exact reaches_of_isPlain h hsplit (List.all_eq_true.2 hrun)

/-- Behind a value in quotes the reader of tags is back at tag level. -/
theorem reaches_of_quoted {quote : Char} {inner : List Char}
    (h : Reaches (tag.readFrom source) .tag place)
    (htext : tag.text.toList.drop place = quote :: (inner ++ behind))
    (hquote : quote = '"' ∨ quote = '\'')
    (hinner : Attribute.quotedTail quote (inner ++ behind) = inner.length) :
    Reaches (tag.readFrom source) .tag (place + (quote :: inner).length) := by
  have hregion := (quoted_region_iff_quotedTail htag h htext hquote).2 rfl
  rw [hinner] at hregion
  rw [List.length_cons, Nat.add_comm inner.length, ← Nat.add_assoc]
  exact reaches_of_inside hregion

/-- Behind a value in braces, and behind a spread, the reader of tags is back at tag level. -/
theorem reaches_of_braced {inner : List Char} (h : Reaches (tag.readFrom source) .tag place)
    (htext : tag.text.toList.drop place = '{' :: (inner ++ behind))
    (hinner : Script.bracedTail (inner ++ behind) = inner.length) :
    Reaches (tag.readFrom source) .tag (place + ('{' :: inner).length) := by
  have hregion := (braced_region_iff_bracedTail htag h htext).2 rfl
  rw [hinner] at hregion
  rw [List.length_cons, Nat.add_comm inner.length, ← Nat.add_assoc]
  exact reaches_of_inside hregion

end Steps

/-! ### Abreast -/

/-- The reader of tags is abreast of the reader of attributes at a place of a tag: it is at tag level
there, or it has taken along the character there with a backslash, which makes no difference to a
character that means nothing. -/
def Abreast (source : String) (tag : Tag) (place : Nat) : Prop :=
  Reaches (tag.readFrom source) .tag place ∨
  ∃ first c, place = first + 1 ∧ Reaches (tag.readFrom source) .tag first ∧
    tag.text.toList[first]? = some '\\' ∧ tag.text.toList[place]? = some c ∧ isPlain c = true

section Abreast

variable {place : Nat} {c : Char} {rest run behind : List Char}
  (htag : .ok tag ∈ (TagReader.ofString source).items)

include htag

/-- Behind characters that leave nothing open both readers are abreast. -/
theorem abreast_of_settles (h : Reaches (tag.readFrom source) .tag place)
    (hsettles : Attribute.Settles run behind)
    (htext : tag.text.toList.drop place = run ++ behind) :
    Abreast source tag (place + run.length) := by
  induction hsettles generalizing place with
  | nil => exact .inl h
  | @plain c run _ hc _ ih =>
    rw [List.length_cons, Nat.add_comm run.length, ← Nat.add_assoc]
    exact ih (reaches_of_plain htag h htext hc) (Text.drop_behind htext 0)
  | @pair c run behind _ ih =>
    have hlength : place + ('\\' :: c :: run).length = place + 2 + run.length := by
      rw [List.length_cons, List.length_cons]
      omega
    have hbehind : tag.text.toList.drop (place + 2) = run ++ behind := Text.drop_behind htext 1
    rw [hlength]
    exact ih (reaches_of_pair htag h htext) hbehind
  | @slash c behind hc =>
    have hbehind : tag.text.toList.drop (place + 1) = c :: behind := Text.drop_behind htext 0
    exact .inr ⟨place, c, rfl, h, Text.getElem?_of_drop htext, Text.getElem?_of_drop hbehind, hc⟩
  | @quoted quote inner run behind hquote hinner _ ih =>
    rw [List.cons_append, List.append_assoc] at htext
    rw [← List.cons_append, List.length_append, ← Nat.add_assoc]
    refine ih (reaches_of_quoted htag h htext hquote hinner) ?_
    rw [← List.drop_drop, htext, ← List.cons_append, List.drop_left]
  | @braced inner run behind hinner _ ih =>
    rw [List.cons_append, List.append_assoc] at htext
    rw [← List.cons_append, List.length_append, ← Nat.add_assoc]
    refine ih (reaches_of_braced htag h htext hinner) ?_
    rw [← List.drop_drop, htext, ← List.cons_append, List.drop_left]

/-- Both readers are abreast nowhere inside a region. -/
theorem Abreast.le_of_region {first stop : Nat} (h : Abreast source tag place)
    (hregion : Region (tag.readFrom source) first stop) : place ≤ first ∨ stop ≤ place := by
  rcases h with hlevel | ⟨slash, d, rfl, hslash, hget, -, -⟩
  · exact hregion.le_of_reaches hlevel
  · -- no region begins with the backslash
    have hne := ne_of_region htag hregion hget (by decide)
    rcases hregion.le_of_reaches hslash with hle | hle
    · omega
    · omega

/-- A region that begins in front of a place where both readers are abreast ends there or before. -/
theorem exists_append_of_region {n : Nat}
    (hregion : Region (tag.readFrom source) place (place + 1 + n))
    (htext : tag.text.toList.drop place = c :: (run ++ behind))
    (habreast : Abreast source tag (place + (c :: run).length)) :
    ∃ inner more, run = inner ++ more ∧ inner.length = n ∧
      tag.text.toList.drop (place + 1 + n) = more ++ behind ∧
      place + (c :: run).length = place + 1 + n + more.length := by
  rw [List.length_cons] at habreast ⊢
  have hle : n ≤ run.length := by
    rcases habreast.le_of_region htag hregion with hle | hle
    · omega
    · omega
  have hbehind : tag.text.toList.drop (place + 1) = run ++ behind := Text.drop_behind htext 0
  refine ⟨run.take n, run.drop n, (List.take_append_drop n run).symm, List.length_take_of_le hle,
    ?_, ?_⟩
  · rw [← List.drop_drop, hbehind, List.drop_append_of_le_length hle]
  · rw [List.length_drop]
    omega

/-- A tag ends with its first `>` at tag level, so both readers are abreast nowhere behind it. -/
theorem Abreast.ne_close {first : Nat} (h : Abreast source tag place)
    (hfirst : Reaches (tag.readFrom source) .tag first) (hlt : first < place)
    (htext : tag.text.toList.drop first = c :: rest) : c ≠ '>' := by
  rintro rfl
  have hnil := eq_nil_of_reaches htag hfirst htext
  have hend : tag.text.toList.length ≤ place := by
    have hlen := congrArg List.length htext
    rw [hnil, List.length_drop, List.length_singleton] at hlen
    omega
  rcases h with hlevel | ⟨slash, d, -, -, -, hget, -⟩
  · exact drop_ne_nil_of_reaches htag hlevel (List.drop_eq_nil_of_le hend)
  · exact absurd (List.getElem?_eq_some_iff.1 hget).1 (Nat.not_lt.2 hend)

/-- Both readers are abreast behind a backslash only if what it takes along means nothing. -/
theorem Abreast.settles_slash (h : Abreast source tag (place + 1))
    (hplace : Reaches (tag.readFrom source) .tag place)
    (htext : tag.text.toList.drop place = '\\' :: behind) : Attribute.Settles ['\\'] behind := by
  obtain ⟨after, -, hdrop, -⟩ := exists_drop_readFrom htag htext
  have hmove : Moves (tag.readFrom source) (.tag, place) (.tag, place + 2) :=
    ⟨'\\', behind ++ after, 1, hdrop, rfl, rfl⟩
  rcases h with hlevel | ⟨slash, d, -, -, -, hget, hd⟩
  · have hle : place + 2 ≤ place + 1 :=
      le_of_reaches_behind hplace hmove hlevel (Nat.lt_succ_self place)
    omega
  · have hbehind : tag.text.toList.drop (place + 1) = behind := Text.drop_behind htext 0
    rw [← Nat.add_zero (place + 1), ← List.getElem?_drop, hbehind] at hget
    obtain ⟨more, rfl⟩ := List.head?_eq_some_iff.1 (List.head?_eq_getElem? ▸ hget)
    exact .slash hd

/-- Both readers are abreast behind characters only if these leave nothing open. -/
theorem settles_of_abreast (h : Reaches (tag.readFrom source) .tag place)
    (htext : tag.text.toList.drop place = run ++ behind)
    (habreast : Abreast source tag (place + run.length)) : Attribute.Settles run behind := by
  -- on the number of the characters; a quote or a brace takes several of them
  induction hn : run.length using Nat.strongRecOn generalizing place run with
  | ind n ih =>
    subst hn
    cases run with
    | nil => exact .nil
    | cons c run =>
      rw [List.cons_append] at htext
      have hlt : place < place + (c :: run).length := Nat.lt_add_of_pos_right (Nat.succ_pos _)
      have hclose := habreast.ne_close htag h hlt htext
      by_cases hslash : c = '\\'
      · subst hslash
        cases run with
        | nil => exact habreast.settles_slash htag h htext
        | cons d run =>
          have hlength : place + ('\\' :: d :: run).length = place + 2 + run.length := by
            simp only [List.length_cons]
            omega
          have hbehind : tag.text.toList.drop (place + 2) = run ++ behind :=
            Text.drop_behind htext 1
          rw [hlength] at habreast
          refine .pair d (ih run.length ?_ (reaches_of_pair htag h htext) hbehind habreast rfl)
          simp only [List.length_cons]
          omega
      by_cases hquote : c = '"' ∨ c = '\''
      · have hregion := (quoted_region_iff_quotedTail htag h htext hquote).2 rfl
        obtain ⟨inner, more, rfl, hinner, hmore, hlength⟩ :=
          exists_append_of_region htag hregion htext habreast
        rw [hlength] at habreast
        refine .quoted hquote ?_ (ih more.length ?_ (reaches_of_inside hregion) hmore habreast rfl)
        · rw [← List.append_assoc, hinner]
        · simp only [List.length_cons, List.length_append]
          omega
      by_cases hbrace : c = '{'
      · subst hbrace
        have hregion := (braced_region_iff_bracedTail htag h htext).2 rfl
        obtain ⟨inner, more, rfl, hinner, hmore, hlength⟩ :=
          exists_append_of_region htag hregion htext habreast
        rw [hlength] at habreast
        refine .braced ?_ (ih more.length ?_ (reaches_of_inside hregion) hmore habreast rfl)
        · rw [← List.append_assoc, hinner]
        · simp only [List.length_cons, List.length_append]
          omega
      · have hplain : isPlain c = true := by
          obtain ⟨hdouble, hsingle⟩ := not_or.1 hquote
          simp [isPlain, hclose, hslash, hdouble, hsingle, hbrace]
        have hlength : place + (c :: run).length = place + 1 + run.length := by
          rw [List.length_cons]
          omega
        rw [hlength] at habreast
        exact .plain hplain (ih run.length (Nat.lt_succ_self _) (reaches_of_plain htag h htext hplain)
          (Text.drop_behind htext 0) habreast rfl)

/-- **From a place at tag level both readers come to be abreast again exactly behind characters that
leave nothing open.** -/
theorem settles_iff_abreast (h : Reaches (tag.readFrom source) .tag place)
    (htext : tag.text.toList.drop place = run ++ behind) :
    Attribute.Settles run behind ↔ Abreast source tag (place + run.length) :=
  ⟨fun hsettles => abreast_of_settles htag h hsettles htext, settles_of_abreast htag h htext⟩

/-- Over an assignment both readers keep abreast exactly if its unquoted value, if it has one, leaves
nothing open. -/
theorem settles_unquoted_iff {assignment : List Char} (h : Reaches (tag.readFrom source) .tag place)
    (hassignment : Attribute.IsAssignment assignment behind)
    (htext : tag.text.toList.drop place = assignment ++ behind) :
    Attribute.Settles (Attribute.unquoted assignment) behind ↔
      Abreast source tag (place + assignment.length) := by
  cases hassignment with
  | nothing => exact iff_of_true .nil (.inl h)
  | @value before after value _ hbefore hafter hends hvalue =>
    -- the characters in front of the value mean nothing
    have hfront : ∀ c ∈ before ++ '=' :: after, isPlain c = true := by
      intro c hc
      rcases List.mem_append.1 hc with hc | hc
      · exact isPlain_of_isSpace (hbefore c hc)
      · rcases List.mem_cons.1 hc with rfl | hc
        · rfl
        · exact isPlain_of_isSpace (hafter c hc)
    have hsplit : before ++ '=' :: (after ++ value) = (before ++ '=' :: after) ++ value := by
      rw [List.append_assoc, List.cons_append]
    rw [hsplit, List.append_assoc] at htext
    have hopen := reaches_of_plain_run htag h htext hfront
    have hdrop : tag.text.toList.drop (place + (before ++ '=' :: after).length) =
        value ++ behind := by
      rw [← List.drop_drop, htext, List.drop_left]
    rw [hsplit, List.length_append, ← Nat.add_assoc, ← hsplit]
    cases hvalue with
    | quoted hquote hinner =>
      rw [Attribute.unquoted_eq_nil hbefore hafter (hquote.imp_right .inl)]
      exact iff_of_true .nil (.inl (reaches_of_quoted htag hopen hdrop hquote hinner))
    | braced hinner =>
      rw [Attribute.unquoted_eq_nil hbefore hafter (.inr (.inr rfl))]
      exact iff_of_true .nil (.inl (reaches_of_braced htag hopen hdrop hinner))
    | bare hrun _ hhead =>
      rw [Attribute.unquoted_eq hbefore hafter hrun hhead]
      exact settles_iff_abreast htag hopen hdrop

namespace Abreast

variable (h : Abreast source tag place)

include h

/-- Behind a character that means nothing the reader of tags is at tag level. -/
theorem next (htext : tag.text.toList.drop place = c :: rest) (hc : isPlain c = true) :
    Reaches (tag.readFrom source) .tag (place + 1) := by
  rcases h with hlevel | ⟨first, d, rfl, hfirst, hslash, -, -⟩
  · exact reaches_of_plain htag hlevel htext hc
  · obtain ⟨hlt, hslash⟩ := List.getElem?_eq_some_iff.1 hslash
    have hpair := List.drop_eq_getElem_cons hlt
    rw [hslash] at hpair
    exact reaches_of_pair htag hfirst hpair

omit htag in
/-- In front of a character that means something the reader of tags is at tag level. -/
theorem reaches (htext : tag.text.toList.drop place = c :: rest) (hc : isPlain c = false) :
    Reaches (tag.readFrom source) .tag place := by
  rcases h with hlevel | ⟨first, d, -, -, -, hget, hd⟩
  · exact hlevel
  · cases hget.symm.trans (Text.getElem?_of_drop htext)
    cases hc.symm.trans hd

/-- Behind the name of an attribute the reader of tags is at tag level. -/
theorem name {name : List Char} (hne : name ≠ []) (hname : ∀ c ∈ name, isPlain c = true)
    (htext : tag.text.toList.drop place = name ++ rest) :
    Reaches (tag.readFrom source) .tag (place + name.length) := by
  obtain ⟨c, more, rfl⟩ := List.exists_cons_of_ne_nil hne
  obtain ⟨hc, hmore⟩ := List.forall_mem_cons.1 hname
  rw [List.length_cons, Nat.add_comm more.length, ← Nat.add_assoc]
  exact reaches_of_plain_run htag (h.next htag htext hc) (Text.drop_behind htext 0) hmore

omit h in
/-- **Over a segment both readers keep abreast exactly if it is tidy.** -/
theorem isTidy_iff {segment : Segment} (h : Abreast source tag place) (hfits : segment.Fits behind)
    (htext : tag.text.toList.drop place = segment.text ++ behind) :
    segment.IsTidy behind ↔ Abreast source tag (place + segment.text.length) := by
  cases hfits with
  | @blank run _ hne hrun _ =>
    exact iff_of_true .nil
      (.inl (h.name htag hne (fun c hc => isPlain_of_isSpace (hrun c hc)) htext))
  | @spread inner _ hinner =>
    exact iff_of_true .nil (.inl (reaches_of_braced htag (h.reaches htext rfl) htext hinner))
  | @declaration name assignment _ hne hname _ hassignment =>
    rw [Segment.text, List.append_assoc] at htext
    have hnamed := h.name htag hne (fun c hc => isPlain_of_isNameChar (hname c hc)) htext
    rw [Segment.text, List.length_append, ← Nat.add_assoc]
    refine settles_unquoted_iff htag hnamed hassignment ?_
    rw [← List.drop_drop, htext, List.drop_left]
  | @stray found _ _ _ _ _ =>
    by_cases hplain : isPlain found = true
    · exact iff_of_true (.plain hplain .nil) (.inl (h.next htag htext hplain))
    · exact settles_iff_abreast htag (h.reaches htext (Bool.eq_false_iff.2 hplain)) htext

end Abreast

end Abreast

/-! ### The whole tag -/

/-- The text of a tag that is found begins with its `<`. -/
theorem exists_text_eq_of_mem_items (htag : .ok tag ∈ (TagReader.ofString source).items) :
    ∃ rest, tag.text.toList = '<' :: rest := by
  obtain ⟨behind, hfrom, hopens, hlength⟩ := readFrom_of_mem_items htag
  obtain ⟨last, -, hlast, -⟩ := Nesting.getElem?_of_tagLength hlength
  obtain ⟨rest, hrest⟩ := Piece.exists_cons_of_opensTag hopens
  rcases htext : tag.text.toList with _ | ⟨c, more⟩
  · rw [htext] at hlast
    cases hlast
  · rw [hfrom, htext] at hrest
    cases hrest
    exact ⟨more, rfl⟩

/-- Behind the head of a tag the reader of tags is at tag level. -/
theorem Parts.Make.reaches_head {parts : Parts} (h : parts.Make tag.text.toList)
    (htag : .ok tag ∈ (TagReader.ofString source).items) :
    Reaches (tag.readFrom source) .tag parts.head.length := by
  obtain ⟨rest, hopens⟩ := exists_text_eq_of_mem_items htag
  have htext := h.text_eq
  rw [Parts.head, List.append_assoc, List.append_assoc] at htext
  cases hopener : parts.opener with
  | nil =>
    have habsent := h.opener
    rw [hopener] at habsent htext
    cases habsent with
    | absent hhead =>
      rw [List.nil_append, hopens] at htext
      rw [← htext] at hhead
      exact absurd rfl hhead
  | cons c more =>
    have hpresent := h.opener
    rw [hopener] at hpresent
    cases hpresent
    rw [hopener, ← List.append_assoc] at htext
    -- the slash of a closing tag and the characters of the name mean nothing
    have hrun : ∀ c ∈ parts.slash ++ parts.name, isPlain c = true := by
      intro c hc
      rcases List.mem_append.1 hc with hc | hc
      · have hslash := h.slash
        generalize parts.slash = slash at hslash hc
        cases hslash with
        | present =>
          rw [List.mem_singleton.1 hc]
          rfl
        | absent => cases hc
      · exact isPlain_of_isTagNameChar (h.name c hc)
    have hdrop : tag.text.toList.drop 1 = (parts.slash ++ parts.name) ++ parts.body := by
      rw [htext, List.append_assoc, List.append_assoc]
      rfl
    rw [Parts.head, hopener, List.length_append, List.length_singleton]
    exact reaches_of_plain_run htag .refl hdrop hrun

/-- The reader of attributes begins abreast. -/
theorem Parts.Make.abreast_start {parts : Parts} {place : Nat} (h : parts.Make tag.text.toList)
    (htag : .ok tag ∈ (TagReader.ofString source).items)
    (hstands : (AttributeReader.ofTag tag).Stands tag place) : Abreast source tag place := by
  have hlength := congrArg List.length h.text_eq
  have hplace : place = tag.text.toList.length - parts.body.length := by
    rw [h.body_eq]
    exact hstands.place_eq
  rw [List.length_append] at hlength
  obtain rfl : place = parts.head.length := by omega
  exact .inl (h.reaches_head htag)

/-- Wherever the reader of attributes comes to in a tidy tag, both readers are abreast. -/
theorem IsTidy.abreast_of_reaches {r : AttributeReader} {place : Nat} (htidy : tag.IsTidy)
    (htag : .ok tag ∈ (TagReader.ofString source).items)
    (hreach : AttributeReader.Reaches (.ofTag tag) r) (hstands : r.Stands tag place) :
    Abreast source tag place := by
  obtain ⟨parts, hmake, htidy⟩ := htidy
  induction hreach generalizing place with
  | refl => exact hmake.abreast_start htag hstands
  | @tail s r hreach hmove ih =>
    obtain ⟨segment, hsegment⟩ := hmove
    obtain ⟨first, -, hfirst⟩ :=
      AttributeReader.exists_stands_of_reaches hreach (AttributeReader.stands_ofTag tag)
    obtain ⟨before, after, hsegments, hrest⟩ := hmake.exists_append_of_segment? hreach hsegment
    have hrow : Segment.Row (before ++ segment :: after) parts.tail := hsegments ▸ hmake.row
    have hall : Segment.AllTidy (before ++ segment :: after) parts.tail := hsegments ▸ htidy
    rw [hfirst.rest] at hrest
    rw [hstands.place_eq, ← (hfirst.advance hsegment).place_eq]
    cases hrow.of_append with
    | cons hfits => exact ((ih hfirst).isTidy_iff htag hfits hrest).1 hall.of_append.1

theorem IsTidy.abreast_of_hasSegment {place : Nat} {segment : Segment} (htidy : tag.IsTidy)
    (htag : .ok tag ∈ (TagReader.ofString source).items) (h : tag.HasSegment place segment) :
    Abreast source tag place := by
  obtain ⟨r, -, hreach, hstands, -⟩ := h
  exact htidy.abreast_of_reaches htag hreach hstands

/-- The segments in front of which, and behind which, both readers are abreast are tidy. -/
theorem allTidy_of_abreast {segments : List Segment} {tail : List Char} {r : AttributeReader}
    {place : Nat} (htag : .ok tag ∈ (TagReader.ofString source).items)
    (hrow : Segment.Row segments tail) (hreach : AttributeReader.Reaches (.ofTag tag) r)
    (hstands : r.Stands tag place) (hrest : r.rest = segments.flatMap Segment.text ++ tail)
    (habreast : ∀ r place, AttributeReader.Reaches (.ofTag tag) r → r.Stands tag place →
      Abreast source tag place) : Segment.AllTidy segments tail := by
  induction hrow generalizing r place with
  | nil => trivial
  | @cons segment segments tail hfits _ ih =>
    rw [List.flatMap_cons, List.append_assoc] at hrest
    obtain ⟨c, rest, hcons, hfront⟩ := hfits.exists_front?
    have hsegment : r.segment? = some (segment, r.advance segment) :=
      AttributeReader.segment?_eq_some_iff.2 ⟨c, rest, hrest.trans hcons.symm, hfront, rfl⟩
    have hbehind : AttributeReader.Reaches (.ofTag tag) (r.advance segment) :=
      .tail hreach ⟨segment, hsegment⟩
    have hnext := hstands.advance hsegment
    have htext := hstands.rest.symm.trans hrest
    constructor
    · exact ((habreast r place hreach hstands).isTidy_iff htag hfits htext).2
        (habreast _ _ hbehind hnext)
    · refine ih hbehind hnext ?_
      rw [AttributeReader.advance, hrest, List.drop_left]

/-- **A tag is tidy exactly if both readers are abreast wherever the reader of attributes comes
to.** -/
theorem isTidy_iff_abreast (htag : .ok tag ∈ (TagReader.ofString source).items) :
    tag.IsTidy ↔ ∀ r place, AttributeReader.Reaches (.ofTag tag) r → r.Stands tag place →
      Abreast source tag place := by
  constructor
  · exact fun htidy r place => htidy.abreast_of_reaches htag
  · intro habreast
    obtain ⟨parts, hmake⟩ := Parts.exists_make tag.text.toList
    have hrest : (AttributeReader.ofTag tag).rest =
        parts.segments.flatMap Segment.text ++ parts.tail := hmake.body_eq.symm
    exact ⟨parts, hmake, allTidy_of_abreast htag hmake.row .refl (AttributeReader.stands_ofTag tag)
      hrest habreast⟩

end Tag

end TagLint
