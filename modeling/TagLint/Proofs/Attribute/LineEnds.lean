import TagLint.Proofs.Attribute.Offsets
import TagLint.Proofs.Attribute.Value
import TagLint.Proofs.Script.LineEnds

/-!
# Attributes with another line end

White space takes both line ends along, and names and unquoted values end at both. So the reading
of attributes comes to the counterparts of its segments, if the scripts in braces allow it.

- `Attribute.literals`, `AttributeReader.literals`: the literals of the braced expressions that the
  reading of attributes comes to.
- `Attribute.assignmentLength_crlf`: what assigns a value ends at the counterpart of its end.
- `AttributeReader.segment?_crlf`: the next segment is the counterpart of the next segment.
- `AttributeReader.occurrences_crlf`: the same occurs, at the counterparts of the offsets.
-/

namespace TagLint

open Text

/-! ### Values -/

namespace Attribute

open Script

/-- A quoted value ends at the counterpart of its end. -/
theorem quotedTail_crlf {quote : Char} (hslash : quote ≠ '\\') (hnewline : quote ≠ '\n')
    (hreturn : quote ≠ '\r') (text : List Char) :
    quotedTail quote (crlf text) = crlfPlace text (quotedTail quote text) := by
  induction hn : text.length using Nat.strongRecOn generalizing text with
  | ind n ih =>
    subst hn
    rcases text with _ | ⟨c, rest⟩
    · rfl
    by_cases hc : c = '\\'
    · subst hc
      rcases rest with _ | ⟨d, rest⟩
      · rfl
      have hrest : quotedTail quote (crlf rest) = _ :=
        ih rest.length (Nat.lt_succ_of_lt (Nat.lt_succ_self rest.length)) rest rfl
      rw [crlf_cons (by decide), quotedTail_pair, Nat.add_comm 2, crlfPlace_cons (by decide)]
      by_cases hd : d = '\n'
      · subst hd
        rw [crlf_newline, quotedTail_pair, quotedTail_single (by decide) (Ne.symm hnewline), hrest,
          crlfPlace_newline]
        omega
      · rw [crlf_cons hd, quotedTail_pair, hrest, crlfPlace_cons hd]
        omega
    have hrest : quotedTail quote (crlf rest) = _ :=
      ih rest.length (Nat.lt_succ_self rest.length) rest rfl
    by_cases hquote : c = quote
    · subst hquote
      rw [crlf_cons hnewline, quotedTail_quote hslash, quotedTail_quote hslash,
        crlfPlace_cons hnewline, crlfPlace_zero]
    rw [quotedTail_single hc hquote, Nat.add_comm 1]
    by_cases hd : c = '\n'
    · subst hd
      rw [crlf_newline, quotedTail_single (by decide) (Ne.symm hreturn),
        quotedTail_single (by decide) (Ne.symm hnewline), hrest, crlfPlace_newline]
      omega
    · rw [crlf_cons hd, quotedTail_single hc hquote, hrest, crlfPlace_cons hd]
      omega

/-- The literals of the value at the front of a text. -/
def valueLiterals : List Char → List (List Char)
  | '{' :: rest => Script.literals rest
  | _ => []

/-- The literals of the value that the text assigns. -/
def literals (text : List Char) : List (List Char) :=
  match text.dropWhile isSpace with
  | '=' :: rest => valueLiterals (rest.dropWhile isSpace)
  | _ => []

/-- A value ends at the counterpart of its end. -/
theorem valueLength_crlf {text : List Char} (h : Portable (valueLiterals text)) :
    valueLength (crlf text) = crlfPlace text (valueLength text) := by
  rcases text with _ | ⟨c, rest⟩
  · rfl
  by_cases hc : c = '\n'
  · subst hc
    rfl
  rw [crlf_cons hc, valueLength, valueLength]
  by_cases hquote : (decide (c = '"') || decide (c = '\'')) = true
  · rw [if_pos hquote, if_pos hquote, Nat.add_comm 1, Nat.add_comm 1, crlfPlace_cons hc]
    rcases Bool.or_eq_true .. ▸ hquote with hquote | hquote
    · rw [of_decide_eq_true hquote, quotedTail_crlf (by decide) (by decide) (by decide)]
    · rw [of_decide_eq_true hquote, quotedTail_crlf (by decide) (by decide) (by decide)]
  rw [if_neg hquote, if_neg hquote]
  by_cases hbrace : c = '{'
  · subst hbrace
    rw [if_pos rfl, if_pos rfl, bracedTail_crlf h, Nat.add_comm 1, Nat.add_comm 1,
      crlfPlace_cons hc]
  · rw [if_neg hbrace, if_neg hbrace, ← crlf_cons hc, takeWhile_crlf rfl]
    exact (crlfPlace_takeWhile_add isBare (c :: rest) 0).symm

/-- What assigns a value ends at the counterpart of its end. -/
theorem assignmentLength_crlf {text : List Char} (h : Portable (literals text)) :
    assignmentLength (crlf text) = crlfPlace text (assignmentLength text) := by
  have hblank : isSpace '\r' = isSpace '\n' := rfl
  have hbehind := dropWhile_crlf hblank text
  rcases hrest : text.dropWhile isSpace with _ | ⟨c, rest⟩
  · rw [hrest] at hbehind
    rw [assignmentLength_eq_zero (by rw [hbehind]; exact nofun),
      assignmentLength_eq_zero (by rw [hrest]; exact nofun)]
    rfl
  have hc : c ≠ '\n' := by
    rintro rfl
    have hends := ends_dropWhile isSpace text '\n'
    rw [hrest] at hends
    cases hends rfl
  rw [hrest, crlf_cons hc] at hbehind
  by_cases hassign : c = '='
  · subst hassign
    rw [literals, hrest] at h
    rw [assignmentLength_of_dropWhile hrest, assignmentLength_of_dropWhile hbehind,
      takeWhile_crlf hblank, takeWhile_crlf hblank, dropWhile_crlf hblank, valueLength_crlf h,
      Nat.add_assoc, Nat.add_assoc, Nat.add_assoc, Nat.add_assoc, crlfPlace_takeWhile_add, hrest,
      Nat.add_comm 1 (_ + valueLength _), crlfPlace_cons (by decide), crlfPlace_takeWhile_add]
    omega
  · have hhead (rest : List Char) : (c :: rest).head? ≠ some '=' := by
      simpa using hassign
    rw [assignmentLength_eq_zero (by rw [hbehind]; exact hhead _),
      assignmentLength_eq_zero (by rw [hrest]; exact hhead _)]
    rfl

end Attribute

/-! ### Segments -/

namespace Segment

open Script

/-- The literals of the segment at the front of a text. -/
def literals (c : Char) (rest : List Char) : List (List Char) :=
  if c = '{' then Script.literals rest
  else if isNameChar c then Attribute.literals (rest.dropWhile isNameChar)
  else []

/-- The counterpart of a segment. -/
def crlf : Segment → Segment
  | blank text => blank (Text.crlf text)
  | spread text => spread (Text.crlf text)
  | declaration name assignment => declaration (Text.crlf name) (Text.crlf assignment)
  | stray found => stray found

variable {c : Char} {rest : List Char} {segment : Segment}

/-- A name has no line end. -/
theorem crlf_name {name assignment : List Char}
    (h : front? c rest = some (declaration name assignment)) : Text.crlf name = name := by
  refine crlf_of_notMem fun hmem => ?_
  cases (name_of_front? h).2 '\n' hmem

theorem text_crlf (h : front? c rest = some segment) :
    segment.crlf.text = Text.crlf segment.text := by
  rcases front?_cases h with ⟨-, rfl⟩ | ⟨-, rfl⟩ | ⟨-, rfl⟩ | ⟨-, -, rfl⟩
  · rfl
  · rfl
  · exact (crlf_append _ _).symm
  · have hc : c ≠ '\n' := by
      rintro rfl
      cases isSpace_of_front?_stray h
    exact (crlf_cons hc []).symm

/-- The same occurs with the counterpart of a segment. -/
theorem occurrence?_crlf (h : front? c rest = some segment) (offset : Nat) :
    segment.crlf.occurrence? offset = segment.occurrence? offset := by
  cases segment with
  | blank => rfl
  | spread => rfl
  | declaration name assignment => rw [crlf, occurrence?, crlf_name h, occurrence?]
  | stray => rfl

theorem endsTag_crlf (rest : List Char) : endsTag (Text.crlf rest) = endsTag rest := by
  have hblank : isSpace '\r' = isSpace '\n' := rfl
  have hends := ends_dropWhile isSpace rest
  rw [endsTag, endsTag, dropWhile_crlf hblank]
  rcases hrest : rest.dropWhile isSpace with _ | ⟨d, more⟩
  · rfl
  · have hd : d ≠ '\n' := by
      rintro rfl
      rw [hrest] at hends
      cases hends _ rfl
    rw [crlf_cons hd]

/-- The segment at the front of the counterpart is the counterpart of the segment. -/
theorem front?_crlf (hc : c ≠ '\n') (h : Portable (literals c rest)) :
    front? c (Text.crlf rest) = (front? c rest).map crlf := by
  have hblank : isSpace '\r' = isSpace '\n' := rfl
  rw [front?, front?, endsTag_crlf]
  by_cases hspace : isSpace c = true
  · rw [if_pos hspace, if_pos hspace, takeWhile_crlf hblank, Option.map_some, crlf, crlf_cons hc]
  rw [if_neg hspace, if_neg hspace]
  by_cases hclose : c = '>'
  · rw [if_pos hclose, if_pos hclose]
    rfl
  rw [if_neg hclose, if_neg hclose]
  by_cases hslash : (decide (c = '/') && endsTag rest) = true
  · rw [if_pos hslash, if_pos hslash]
    rfl
  rw [if_neg hslash, if_neg hslash]
  by_cases hbrace : c = '{'
  · rw [literals, if_pos hbrace] at h
    rw [if_pos hbrace, if_pos hbrace, bracedTail_crlf h, take_crlf, Option.map_some, crlf,
      crlf_cons hc]
  rw [if_neg hbrace, if_neg hbrace]
  by_cases hname : isNameChar c = true
  · rw [literals, if_neg hbrace, if_pos hname] at h
    rw [if_pos hname, if_pos hname, ofName, ofName, takeWhile_crlf rfl, dropWhile_crlf rfl,
      Attribute.assignmentLength_crlf h, take_crlf, Option.map_some, crlf, crlf_cons hc]
  · rw [if_neg hname, if_neg hname]
    rfl

end Segment

/-! ### Readers -/

namespace AttributeReader

open Script

/-- The literals of the segment that a reader stands at. -/
def frontLiterals (r : AttributeReader) : List (List Char) :=
  match r.rest with
  | [] => []
  | c :: rest => Segment.literals c rest

/-- The literals of the segments that a reader comes to. -/
def literals (r : AttributeReader) : List (List Char) :=
  match h : r.segment? with
  | none => []
  | some (_, behind) =>
    have := segment?_length_lt h
    r.frontLiterals ++ behind.literals
termination_by r.rest.length

variable {r behind : AttributeReader} {segment : Segment}

theorem literals_of_some (h : r.segment? = some (segment, behind)) :
    r.literals = r.frontLiterals ++ behind.literals := by
  rw [literals.eq_def]
  split
  · next heq => cases h.symm.trans heq
  · next heq => cases h.symm.trans heq; rfl

/-- In the tail of a tag there are no literals. -/
theorem frontLiterals_of_none (h : r.segment? = none) : r.frontLiterals = [] := by
  obtain ⟨offset, _ | ⟨c, rest⟩⟩ := r
  · rfl
  rw [segment?, Option.map_eq_none_iff] at h
  rcases Segment.front?_eq_none_iff.1 h with rfl | ⟨rfl, -⟩
  · rfl
  · rfl

/-- The segment at the front of a text that may begin with a line end. -/
theorem exists_front?_crlf {c : Char} {rest : List Char}
    (h : Portable (Segment.literals c rest)) : ∃ d more, crlf (c :: rest) = d :: more ∧
      Segment.front? d more = (Segment.front? c rest).map Segment.crlf := by
  by_cases hc : c = '\n'
  · subst hc
    have hrun : (crlf ('\n' :: rest)).takeWhile isSpace = crlf (('\n' :: rest).takeWhile isSpace) :=
      takeWhile_crlf rfl _
    exact ⟨'\r', '\n' :: crlf rest, rfl, congrArg (fun run => some (Segment.blank run)) hrun⟩
  · exact ⟨c, crlf rest, crlf_cons hc rest, Segment.front?_crlf hc h⟩

/-- Behind the counterpart of a segment stands the counterpart of what stands behind it. -/
theorem advance_crlf {c : Char} {rest : List Char} (offset : Nat)
    (h : Segment.front? c rest = some segment) :
    (⟨offset, crlf (c :: rest)⟩ : AttributeReader).advance segment.crlf =
      ⟨offset + byteSize (crlf segment.text), crlf ((c :: rest).drop segment.text.length)⟩ := by
  have hplace : (crlf segment.text).length = crlfPlace (c :: rest) segment.text.length := by
    rw [crlfPlace, ← List.prefix_iff_eq_take.1 (Segment.text_prefix h)]
  rw [advance, Segment.text_crlf h, hplace, drop_crlf]

/-- The reader of the counterpart comes to the counterpart of the next segment. -/
theorem segment?_crlf (offset : Nat) (h : Portable r.frontLiterals) :
    (⟨offset, crlf r.rest⟩ : AttributeReader).segment? = r.segment?.map fun (segment, behind) =>
      (segment.crlf, ⟨offset + byteSize (crlf segment.text), crlf behind.rest⟩) := by
  obtain ⟨start, _ | ⟨c, rest⟩⟩ := r
  · rfl
  obtain ⟨d, more, hcrlf, hfront⟩ := exists_front?_crlf h
  show (⟨offset, crlf (c :: rest)⟩ : AttributeReader).segment? = _
  rcases hsegment : Segment.front? c rest with _ | segment
  · rw [hsegment] at hfront
    simp only [hcrlf, segment?, hsegment, hfront, Option.map_none]
  · rw [hsegment, Option.map_some] at hfront
    have hadvance := advance_crlf offset hsegment
    rw [hcrlf] at hadvance ⊢
    simp only [segment?, hsegment, hfront, Option.map_some, hadvance]
    rfl

/-- **The same occurs in the counterpart, at the counterparts of the offsets.** -/
theorem occurrences_crlf {before rest behind : List Char}
    (h : Portable (⟨byteSize before, rest⟩ : AttributeReader).literals) :
    (⟨byteSize (crlf before), crlf rest⟩ : AttributeReader).occurrences =
      (⟨byteSize before, rest⟩ : AttributeReader).occurrences.map
        (Occurrence.mapOffset (crlfOffset (before ++ (rest ++ behind)))) := by
  induction hn : rest.length using Nat.strongRecOn generalizing before rest with
  | ind n ih =>
    subst hn
    rcases hsegment : (⟨byteSize before, rest⟩ : AttributeReader).segment? with
      _ | ⟨segment, further⟩
    · have hfront : Portable (⟨byteSize before, rest⟩ : AttributeReader).frontLiterals := by
        rw [frontLiterals_of_none hsegment]
        exact nofun
      have hcrlf := segment?_crlf (byteSize (crlf before)) hfront
      rw [hsegment, Option.map_none] at hcrlf
      rw [occurrences_of_none hsegment]
      exact occurrences_of_none hcrlf
    · rw [literals_of_some hsegment] at h
      obtain ⟨hfront, hbehind⟩ := h.of_append
      have hcrlf := segment?_crlf (byteSize (crlf before)) hfront
      rw [hsegment, Option.map_some] at hcrlf
      have hlt := segment?_length_lt hsegment
      obtain ⟨c, more, hcons, hpiece, rfl⟩ := segment?_eq_some_iff.1 hsegment
      obtain ⟨tail, htail⟩ := Segment.text_prefix hpiece
      obtain rfl : rest = segment.text ++ tail := Eq.trans hcons htail.symm
      have hadvance : (⟨byteSize before, segment.text ++ tail⟩ : AttributeReader).advance segment =
          ⟨byteSize (before ++ segment.text), tail⟩ := by
        rw [advance, List.drop_left, byteSize_append]
      rw [hadvance] at hbehind hcrlf hsegment hlt
      have hmore := ih tail.length hlt hbehind rfl
      rw [crlf_append, byteSize_append] at hmore
      have hoccurs : (segment.crlf.occurrence? (byteSize (crlf before))).toList =
          (segment.occurrence? (byteSize before)).toList.map
            (Occurrence.mapOffset (crlfOffset (before ++ (segment.text ++ tail ++ behind)))) := by
        rw [Segment.occurrence?_crlf hpiece,
          ← crlfOffset_append before (segment.text ++ tail ++ behind),
          Segment.occurrence?_mapOffset, Option.toList_map]
      rw [occurrences_of_some hcrlf, occurrences_of_some hsegment, List.map_append, ← hoccurs,
        List.append_assoc segment.text, ← List.append_assoc before, ← hmore]

end AttributeReader

end TagLint
