import TagLint.Proofs.Location.LineEnds
import TagLint.Proofs.Markup.Reading
import TagLint.Proofs.Tag.LineEnds

/-!
# Sources with another line end

Outside tags a line end means nothing, so a source and its counterpart are read piece by piece
beside each other.

- `Piece.front_crlf`: in front of the counterpart stands the counterpart of the piece.
- `tagLiterals`: the literals in braces of the tags that open in a source.
- `TagReader.items_crlf`: the items of the counterpart are the counterparts of the items.
-/

namespace TagLint

open Text Script

/-! ### Pieces -/

/-- A comment ends at the counterpart of its end. -/
theorem CommentKind.length?_crlf {kind : CommentKind} {text : List Char}
    (h : kind.opener <+: text) :
    kind.length? (crlf text) = (kind.length? text).map (crlfPlace text) := by
  have hopener : '\n' ∉ kind.opener := by cases kind <;> decide
  have hplace := crlfPlace_of_prefix hopener h
  have hclose : through? kind.closer (crlf (text.drop kind.opener.length)) =
      (through? kind.closer (text.drop kind.opener.length)).map
        (crlfPlace (text.drop kind.opener.length)) := by
    cases kind with
    | markup => exact through?_crlf (by decide) (by decide) (by decide) _
    | script => exact through?_crlf (by decide) (by decide) (by decide) _
  rw [length?, length?, ← hplace, drop_crlf, hplace, hclose, Option.map_map, Option.map_map]
  congr 1
  funext n
  simp only [Function.comp_apply, crlfPlace_add, hplace]

namespace Piece

/-- A piece at other places. -/
def map (move : Nat → Nat) : Piece → Piece
  | escape => escape
  | plain => plain
  | comment length => comment (move length)
  | tag length => tag (move length)
  | openComment kind => openComment kind
  | openTag nest => openTag (nest.map move)

/-- The literals in braces of the tag that opens in front of a text, if one does. -/
def literals (c : Char) (rest : List Char) : List (List Char) :=
  if opensTag (c :: rest) then Nesting.tag.literals 1 rest else []

theorem opensTag_crlf (c : Char) (rest : List Char) :
    opensTag (c :: crlf rest) = opensTag (c :: rest) := by
  rcases rest with _ | ⟨d, rest⟩
  · rfl
  by_cases hd : d = '\n'
  · subst hd
    rw [crlf_newline, opensTag_cons_cons, opensTag_cons_cons]
    rfl
  · rw [crlf_cons hd, opensTag_cons_cons, opensTag_cons_cons]

/-- **In front of the counterpart stands the counterpart of the piece.** -/
theorem front_crlf {c : Char} (hc : c ≠ '\n') {rest : List Char}
    (h : Portable (literals c rest)) :
    front c (crlf rest) = (front c rest).map (crlfPlace (c :: rest)) := by
  have hopener (kind : CommentKind) :
      kind.opener <+: c :: crlf rest ↔ kind.opener <+: c :: rest := by
    rw [← crlf_cons hc]
    cases kind with
    | markup => exact prefix_crlf (by decide) (by decide) _
    | script => exact prefix_crlf (by decide) (by decide) _
  rcases front_cases c rest with ⟨rfl, hfront⟩ | ⟨kind, hopening, hfront⟩ |
    ⟨hopening, hopens, hfront⟩ | ⟨hslash, hopening, hopens, hfront⟩
  · rfl
  · rw [front_of_opener ((hopener kind).2 hopening), hfront, ofComment, ofComment, ← crlf_cons hc,
      CommentKind.length?_crlf hopening]
    cases kind.length? (c :: rest) <;> rfl
  · rw [literals, if_pos hopens] at h
    rw [front_of_opensTag (fun kind hkind => hopening kind ((hopener kind).1 hkind))
      (by rw [opensTag_crlf, hopens]), hfront, ofTag, ofTag, ← crlf_cons hc, tagLength_crlf hc h]
    cases tagLength (c :: rest) <;> rfl
  · rw [front_of_not_opens hslash (fun kind hkind => hopening kind ((hopener kind).1 hkind))
      (by rw [opensTag_crlf, hopens]), hfront]
    rfl

end Piece

/-- The literals in braces of the tags that open in a source. -/
def tagLiterals : List Char → List (List Char)
  | [] => []
  | c :: rest =>
    Piece.literals c rest ++
      match h : (Piece.front c rest).length? with
      | none => []
      | some n =>
        have := Piece.length_pos h
        tagLiterals ((c :: rest).drop n)
termination_by text => text.length
decreasing_by simp only [List.length_drop, List.length_cons]; omega

theorem tagLiterals_of_length? {c : Char} {rest : List Char} {n : Nat}
    (h : (Piece.front c rest).length? = some n) :
    tagLiterals (c :: rest) = Piece.literals c rest ++ tagLiterals ((c :: rest).drop n) := by
  rw [tagLiterals]
  split
  · next heq => cases h.symm.trans heq
  · next heq => cases h.symm.trans heq; rfl

theorem portable_front {c : Char} {rest : List Char} (h : Portable (tagLiterals (c :: rest))) :
    Portable (Piece.literals c rest) := by
  rw [tagLiterals] at h
  exact h.of_append.1

/-- The counterpart of an item. -/
def Item.crlf (source : List Char) : Item → Item
  | .ok tag => .ok (tag.crlf source)
  | .error fault => .error (fault.crlf source)

namespace TagReader

variable {before rest : List Char} {c : Char} {n : Nat}

/-- The reader at the place behind the first part of a source. -/
def ofParts (before rest : List Char) : TagReader :=
  ⟨Lines.ofText (before ++ rest), byteSize before, rest⟩

/-- The reader at the counterpart of that place. -/
def ofPartsCrlf (before rest : List Char) : TagReader :=
  ⟨Lines.ofText (crlf (before ++ rest)), byteSize (crlf before), crlf rest⟩

theorem advance_ofParts (before rest : List Char) (n : Nat) :
    (ofParts before rest).advance n = ofParts (before ++ rest.take n) (rest.drop n) := by
  rw [ofParts, ofParts, advance, List.append_assoc, List.take_append_drop, byteSize_append]

theorem advance_ofPartsCrlf (before rest : List Char) (n : Nat) :
    (ofPartsCrlf before rest).advance (crlfPlace rest n) =
      ofPartsCrlf (before ++ rest.take n) (rest.drop n) := by
  rw [ofPartsCrlf, ofPartsCrlf, advance, List.append_assoc, List.take_append_drop, take_crlf,
    drop_crlf, crlf_append before (rest.take n), byteSize_append]

/-! ### Pieces that are passed over -/

/-- Both characters of a line end are passed over. -/
theorem items_newline_crlf (before rest : List Char) :
    (ofPartsCrlf before ('\n' :: rest)).items =
      (ofPartsCrlf (before ++ ('\n' :: rest).take 1) (('\n' :: rest).drop 1)).items := by
  have hreturn : (ofPartsCrlf before ('\n' :: rest)).items =
      ((ofPartsCrlf before ('\n' :: rest)).advance 1).items :=
    items_plain rfl (Piece.front_of_plain (by decide) _)
  have hnewline : ((ofPartsCrlf before ('\n' :: rest)).advance 1).items =
      (((ofPartsCrlf before ('\n' :: rest)).advance 1).advance 1).items :=
    items_plain rfl (Piece.front_of_plain (by decide) (crlf rest))
  rw [hreturn, hnewline, advance_advance, ← advance_ofPartsCrlf]
  rfl

/-- An escape is passed over, with the newline behind it if it has taken a carriage return. -/
theorem items_escape_crlf (before rest : List Char) :
    (ofPartsCrlf before ('\\' :: rest)).items =
      (ofPartsCrlf (before ++ ('\\' :: rest).take 2) (('\\' :: rest).drop 2)).items := by
  have hescape : (ofPartsCrlf before ('\\' :: rest)).items =
      ((ofPartsCrlf before ('\\' :: rest)).advance 2).items := items_escape rfl rfl
  rw [hescape]
  rcases rest with _ | ⟨d, rest⟩
  · rw [items_nil rfl, items_nil rfl]
  by_cases hd : d = '\n'
  · subst hd
    have hnewline : ((ofPartsCrlf before ('\\' :: '\n' :: rest)).advance 2).items =
        (((ofPartsCrlf before ('\\' :: '\n' :: rest)).advance 2).advance 1).items :=
      items_plain rfl (Piece.front_of_plain (by decide) (crlf rest))
    rw [hnewline, advance_advance, ← advance_ofPartsCrlf]
    rfl
  · rw [← advance_ofPartsCrlf, crlfPlace_cons (by decide), crlfPlace_cons hd]
    rfl

/-! ### Tags and faults -/

/-- The tag of the counterpart is the counterpart of the tag. -/
theorem tagOfLength_crlf (before rest : List Char) (length : Nat) :
    (ofPartsCrlf before rest).tagOfLength (crlfPlace rest length) =
      ((ofParts before rest).tagOfLength length).crlf (before ++ rest) := by
  have hspan := Lines.span_crlf before (rest.take length) (rest.drop length)
  rw [List.take_append_drop] at hspan
  rw [tagOfLength, tagOfLength, ofPartsCrlf, ofParts, Tag.crlf]
  simp only [take_crlf, Tag.nameOf_crlf, String.toList_ofList, hspan]

/-- What is left open of the counterpart is the counterpart of what is left open. -/
theorem faultOf?_crlf (before rest : List Char) (piece : Piece) :
    (ofPartsCrlf before rest).faultOf? (piece.map (crlfPlace rest)) =
      ((ofParts before rest).faultOf? piece).map (Fault.crlf (before ++ rest)) := by
  have hfault (unclosed : Unclosed) (count : Nat) :
      (ofPartsCrlf before rest).faultAt unclosed (crlfPlace rest count) =
        ((ofParts before rest).faultAt unclosed count).crlf (before ++ rest) := by
    have hparts : (before ++ rest.take count) ++ rest.drop count = before ++ rest := by
      rw [List.append_assoc, List.take_append_drop]
    have hlocate := Lines.locate_crlf (before ++ rest.take count) (rest.drop count)
    have hoffset := crlfOffset_append (before ++ rest.take count) (rest.drop count)
    rw [hparts] at hlocate hoffset
    rw [faultAt, faultAt, advance_ofPartsCrlf, advance_ofParts, Fault.crlf]
    show Fault.mk unclosed.message (byteSize (crlf (before ++ rest.take count)))
        ((Lines.ofText (crlf (before ++ rest))).locate
          (byteSize (crlf (before ++ rest.take count)))) =
      Fault.mk unclosed.message (crlfOffset (before ++ rest) (byteSize (before ++ rest.take count)))
        ((Lines.ofText (before ++ rest)).locate (byteSize (before ++ rest.take count)))
    rw [hlocate, hoffset]
  have hopened (nest : Nesting) :
      (nest.map (crlfPlace rest)).opened = crlfPlace rest nest.opened := by
    cases nest <;> rfl
  have hunclosed (nest : Nesting) :
      (ofPartsCrlf before rest).unclosedTag (nest.map (crlfPlace rest)) =
        (ofParts before rest).unclosedTag nest := by
    have hlocate := Lines.locate_crlf before rest
    cases nest with
    | tag => exact congrArg (fun name => Unclosed.tag (String.ofList name)) (Tag.nameOf_crlf rest)
    | quoted quote opened => exact congrArg (Unclosed.quoted quote) hlocate
    | braced opened outer => exact congrArg Unclosed.braced hlocate
  cases piece with
  | escape => rfl
  | plain => rfl
  | comment => rfl
  | tag => rfl
  | openComment kind => exact congrArg some (hfault _ 0)
  | openTag nest =>
    rw [Piece.map, faultOf?, hopened, hunclosed, hfault]
    rfl

/-- The items of the counterpart, by the piece that stands in front. -/
theorem items_crlf_of_length? (hlength : (Piece.front c rest).length? = some n)
    (h : Portable (Piece.literals c rest)) :
    (ofPartsCrlf before (c :: rest)).items =
      (((ofParts before (c :: rest)).tagOf? (Piece.front c rest)).toList.map .ok).map
          (Item.crlf (before ++ c :: rest)) ++
        (ofPartsCrlf (before ++ (c :: rest).take n) ((c :: rest).drop n)).items := by
  by_cases hc : c = '\n'
  · subst hc
    have hplain : Piece.front '\n' rest = .plain := Piece.front_of_plain (by decide) rest
    rw [hplain] at hlength ⊢
    cases hlength
    exact items_newline_crlf before rest
  by_cases hslash : c = '\\'
  · subst hslash
    cases hlength
    exact items_escape_crlf before rest
  have hfront := Piece.front_crlf hc h
  have hrest : (ofPartsCrlf before (c :: rest)).rest = c :: crlf rest := crlf_cons hc rest
  -- the characters of a piece, of the two sorts that are left, have their counterparts
  have hcrlf : ((Piece.front c rest).map (crlfPlace (c :: rest))).length? =
      some (crlfPlace (c :: rest) n) ∧
      (ofPartsCrlf before (c :: rest)).tagOf? ((Piece.front c rest).map (crlfPlace (c :: rest))) =
        ((ofParts before (c :: rest)).tagOf? (Piece.front c rest)).map
          (Tag.crlf (before ++ c :: rest)) := by
    rcases hpiece : Piece.front c rest with _ | _ | length | length | kind | nest
    · exact absurd (Piece.eq_slash_of_front hpiece) hslash
    · rw [hpiece] at hlength
      cases hlength
      exact ⟨congrArg some (crlfPlace_cons hc rest 0).symm, rfl⟩
    · rw [hpiece] at hlength
      cases hlength
      exact ⟨rfl, rfl⟩
    · rw [hpiece] at hlength
      cases hlength
      exact ⟨rfl, congrArg some (tagOfLength_crlf before (c :: rest) n)⟩
    · rw [hpiece] at hlength
      cases hlength
    · rw [hpiece] at hlength
      cases hlength
  rw [← hfront] at hcrlf
  rw [items_of_length? hrest hcrlf.1, advance_ofPartsCrlf, hcrlf.2]
  cases (ofParts before (c :: rest)).tagOf? (Piece.front c rest) <;> rfl

/-- The fault of the counterpart, where a piece in front is left open. -/
theorem items_crlf_of_length?_eq_none (hlength : (Piece.front c rest).length? = none)
    (h : Portable (Piece.literals c rest)) :
    (ofPartsCrlf before (c :: rest)).items =
      (ofParts before (c :: rest)).items.map (Item.crlf (before ++ c :: rest)) := by
  have hc : c ≠ '\n' := by
    rintro rfl
    rw [Piece.front_of_plain (by decide)] at hlength
    cases hlength
  have hrest : (ofPartsCrlf before (c :: rest)).rest = c :: crlf rest := crlf_cons hc rest
  have hfront := Piece.front_crlf hc h
  have hcrlf : (Piece.front c (crlf rest)).length? = none := by
    rw [hfront]
    cases hpiece : Piece.front c rest <;> rw [hpiece] at hlength <;> cases hlength <;> rfl
  obtain ⟨cause, hcause, hitems⟩ := items_of_length?_eq_none hrest hcrlf
  obtain ⟨fault, hfault, hsource⟩ :=
    items_of_length?_eq_none (r := ofParts before (c :: rest)) rfl hlength
  rw [hfront, faultOf?_crlf, hfault] at hcause
  cases hcause
  rw [hitems, hsource]
  rfl

/-- **The items of the counterpart are the counterparts of the items.** -/
theorem items_crlf (h : Portable (tagLiterals rest)) :
    (ofPartsCrlf before rest).items =
      (ofParts before rest).items.map (Item.crlf (before ++ rest)) := by
  induction hn : rest.length using Nat.strongRecOn generalizing before rest with
  | ind n ih =>
    subst hn
    rcases rest with _ | ⟨c, rest⟩
    · rw [items_nil rfl, items_nil rfl, List.map_nil]
    have hfront := portable_front h
    rcases hlength : (Piece.front c rest).length? with _ | n
    · exact items_crlf_of_length?_eq_none hlength hfront
    · rw [tagLiterals_of_length? hlength] at h
      have hlt := length_advance_lt (r := ofParts before (c :: rest)) rfl hlength
      have hitems := items_of_length? (r := ofParts before (c :: rest)) rfl hlength
      have hmore : (ofPartsCrlf (before ++ (c :: rest).take n) ((c :: rest).drop n)).items = _ :=
        ih _ hlt h.of_append.2 rfl
      rw [List.append_assoc, List.take_append_drop] at hmore
      rw [items_crlf_of_length? hlength hfront, hmore, hitems, advance_ofParts, List.map_append]

end TagReader

end TagLint
