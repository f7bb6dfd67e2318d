import Mathlib.Data.List.Forall2
import TagLint.Proofs.Location.Origin
import TagLint.Proofs.Markup.Reading

/-!
# Reading a source from a cut on

A source may be cut behind any of its tags, for nothing is remembered from one tag to the next.

- `Item.Rebased`: an item of a piece, and the same item of the source. A fault in a quote or a brace
  says where the tag is, and that place is based on the cut too.
- `TagReader.items_rebase`: reading a piece of a source finds what reading the source from there on
  finds, as far as the piece goes.
- `TagReader.items_cut`: what is cut off behind a tag has the items that follow the tag, and what is
  cut out between the ends of two tags has those up to the second one.
-/

namespace TagLint

/-! ### Items of a piece and of the source -/

/-- Something that is open in a piece, as it is open in the source. -/
def Unclosed.rebase (origin : Location) : Unclosed → Unclosed
  | comment kind => comment kind
  | tag name => tag name
  | quoted quote place => quoted quote (origin.rebase place)
  | braced place => braced (origin.rebase place)

/-- A fault of a piece, and the same fault of the source. -/
def Fault.Rebased (origin : Origin) (inner outer : Fault) : Prop :=
  ∃ unclosed : Unclosed, inner.message = unclosed.message ∧
    outer = ⟨(unclosed.rebase origin.location).message, origin.offset + inner.offset,
      origin.location.rebase inner.location⟩

/-- An item of a piece, and the same item of the source. -/
def Item.Rebased (origin : Origin) : Item → Item → Prop
  | .ok inner, .ok outer => outer = inner.rebase origin
  | .error inner, .error outer => inner.Rebased origin outer
  | _, _ => False

namespace TagReader

variable {inner outer : Lines} {origin : Origin} {text : List Char}

/-- A tag of the piece is the tag of the source that stands there. -/
theorem tagOfLength_rebase (h : inner.IsPiece outer origin text) {passed rest : List Char}
    (htext : text = passed ++ rest) (length : Nat) :
    (⟨outer, origin.offset + Text.byteSize passed, rest⟩ : TagReader).tagOfLength length =
      ((⟨inner, Text.byteSize passed, rest⟩ : TagReader).tagOfLength length).rebase origin := by
  have hplace := h passed (htext ▸ List.prefix_append passed rest)
  simp only [tagOfLength, Tag.rebase, Span.rebase, Lines.span, hplace, Nat.add_assoc]

/-- What is left open of the piece is left open of the source, if nothing follows the piece. -/
theorem faultOf?_rebase (h : inner.IsPiece outer origin text) {passed rest : List Char}
    (htext : text = passed ++ rest) {piece : Piece} {cause : Fault}
    (hcause : (⟨inner, Text.byteSize passed, rest⟩ : TagReader).faultOf? piece = some cause) :
    ∃ fault, (⟨outer, origin.offset + Text.byteSize passed, rest⟩ : TagReader).faultOf? piece =
      some fault ∧ cause.Rebased origin fault := by
  have hplace := h passed (htext ▸ List.prefix_append passed rest)
  -- the offset to blame is that of a place of the piece, too
  have hblame (count : Nat) : outer.locate
      (origin.offset + Text.byteSize passed + Text.byteSize (rest.take count)) =
      origin.location.rebase
        (inner.locate (Text.byteSize passed + Text.byteSize (rest.take count))) := by
    have hpassed : passed ++ rest.take count <+: text := by
      rw [htext, List.prefix_append_right_inj]
      exact List.take_prefix _ _
    rw [Nat.add_assoc, ← Text.byteSize_append]
    exact h _ hpassed
  cases piece with
  | openComment kind =>
    cases hcause
    refine ⟨_, rfl, .comment kind, rfl, ?_⟩
    simp only [faultAt, advance, hblame, Unclosed.rebase]
    rw [Nat.add_assoc]
  | openTag nest =>
    cases hcause
    refine ⟨_, rfl, (⟨inner, Text.byteSize passed, rest⟩ : TagReader).unclosedTag nest, rfl, ?_⟩
    have hunclosed :
        (⟨outer, origin.offset + Text.byteSize passed, rest⟩ : TagReader).unclosedTag nest =
          ((⟨inner, Text.byteSize passed, rest⟩ : TagReader).unclosedTag nest).rebase
            origin.location := by
      rw [unclosedTag, unclosedTag, hplace]
      cases nest <;> rfl
    simp only [faultAt, advance, hblame, hunclosed]
    rw [Nat.add_assoc]
  | escape => cases hcause
  | plain => cases hcause
  | comment => cases hcause
  | tag => cases hcause

/-- **The items of a piece are those that the source has there.** -/
theorem items_rebase (h : inner.IsPiece outer origin text) {passed rest : List Char}
    (htext : text = passed ++ rest) :
    List.Forall₂ (Item.Rebased origin) (⟨inner, Text.byteSize passed, rest⟩ : TagReader).items
      (⟨outer, origin.offset + Text.byteSize passed, rest⟩ : TagReader).items := by
  induction hn : rest.length using Nat.strongRecOn generalizing passed rest with
  | ind n ih =>
    subst hn
    rcases rest with _ | ⟨c, rest⟩
    · have hinner : (⟨inner, Text.byteSize passed, []⟩ : TagReader).items = [] := items_nil rfl
      rw [hinner, items_nil rfl]
      exact .nil
    rcases hlength : (Piece.front c rest).length? with _ | n
    · obtain ⟨cause, hcause, hinner⟩ := items_of_length?_eq_none
        (r := ⟨inner, Text.byteSize passed, c :: rest⟩) rfl hlength
      obtain ⟨fault, hfault, houter⟩ := items_of_length?_eq_none
        (r := ⟨outer, origin.offset + Text.byteSize passed, c :: rest⟩) rfl hlength
      obtain ⟨fault', hfault', hrebased⟩ := faultOf?_rebase h htext hcause
      cases hfault.symm.trans hfault'
      rw [hinner, houter]
      exact .cons hrebased .nil
    · have hpos := Piece.length_pos hlength
      have hpassed : text = (passed ++ (c :: rest).take n) ++ (c :: rest).drop n := by
        rw [List.append_assoc, List.take_append_drop, htext]
      have hlt : ((c :: rest).drop n).length < (c :: rest).length := by
        rw [List.length_drop, List.length_cons]
        omega
      have hmore := ih _ hlt hpassed rfl
      rw [Text.byteSize_append, ← Nat.add_assoc] at hmore
      rw [items_of_length? (r := ⟨inner, Text.byteSize passed, c :: rest⟩) rfl hlength,
        items_of_length? (r := ⟨outer, origin.offset + Text.byteSize passed, c :: rest⟩) rfl
          hlength]
      -- a tag in front is rebased, and what follows is so by induction
      rcases hfront : Piece.front c rest with _ | _ | length | length | kind | nest
      · exact hmore
      · exact hmore
      · exact hmore
      · exact .cons (tagOfLength_rebase h htext length) hmore
      · exact hmore
      · exact hmore

/-- Items that are tags of the source are tags of the piece. -/
theorem isOk_of_rebased {items : List Item} {tags : List Tag}
    (h : List.Forall₂ (Item.Rebased origin) items (tags.map .ok)) :
    ∀ item ∈ items, item.isOk = true := by
  induction tags generalizing items with
  | nil =>
    cases h
    exact nofun
  | cons tag tags ih =>
    rcases h with _ | @⟨item, _, items, _, hitem, hitems⟩
    intro other hother
    rcases List.mem_cons.1 hother with rfl | hother
    · cases other with
      | error => exact hitem.elim
      | ok => rfl
    · exact ih hitems other hother

/-- **A source can be cut behind any of its tags.** What is cut off behind a tag has the items that
follow the tag. What is cut out between the ends of two tags has the items up to the second tag,
and no fault. -/
theorem items_cut {source : String} {before after : List Item} {tag : Tag}
    (h : (ofString source).items = before ++ .ok tag :: after) :
    List.Forall₂ (Item.Rebased ((Lines.ofString source).origin tag.span.stop))
      (ofText (Text.dropBytes tag.span.stop source.toList)).items after ∧
    ∀ between last more, after = between ++ .ok last :: more →
      List.Forall₂ (Item.Rebased ((Lines.ofString source).origin tag.span.stop))
        (ofText (Text.slice tag.span.stop last.span.stop source.toList)).items
        (between ++ [.ok last]) ∧
      ∀ item ∈ (ofText (Text.slice tag.span.stop last.span.stop source.toList)).items,
        item.isOk = true := by
  obtain ⟨tags, s, -, hreads, hstop, hafter⟩ := exists_reads_behind h
  obtain ⟨front, htext, hoffset, hlines⟩ := hreads.exists_append
  have hsource : source.toList = front ++ s.rest := htext
  have hsize : s.offset = Text.byteSize front := hoffset.trans (Nat.zero_add _)
  have horigin : (Lines.ofString source).origin tag.span.stop = .behind front := by
    rw [Lines.ofString, hsource, ← hstop, hsize, Lines.origin_ofText]
  have hreader : s = ⟨Lines.ofText (front ++ s.rest), (Origin.behind front).offset, s.rest⟩ := by
    have hwhole : s.lines = Lines.ofText (front ++ s.rest) := hlines.trans (by rw [← hsource]; rfl)
    rw [← hwhole]
    exact congrArg (TagReader.mk s.lines · s.rest) hsize
  rw [horigin, ← hstop, hsize, hsource, Text.dropBytes_byteSize]
  constructor
  · -- nothing follows the piece in the source
    have hpiece := Lines.isPiece_ofText front s.rest []
    rw [List.append_nil] at hpiece
    have hitems := items_rebase hpiece (List.nil_append s.rest).symm
    rw [hafter, hreader]
    exact hitems
  · intro between last more hbetween
    obtain ⟨tags', t, hbefore, hway, hlast, -⟩ := exists_reads_behind (hafter.symm.trans hbetween)
    obtain ⟨text, hrest, hend, -⟩ := hway.exists_append
    have hslice : Text.slice (Text.byteSize front) last.span.stop (front ++ s.rest) = text := by
      rw [hrest, ← hlast, hend, hsize, Text.slice_byteSize]
    -- reading the source up to the cut finds the tags up to there
    have hcut : (⟨s.lines, s.offset, text⟩ : TagReader).items = (tags' ++ [last]).map .ok := by
      have hlength : s.rest.length - t.rest.length + 0 = text.length := by
        rw [hrest, List.length_append, Nat.add_sub_cancel, Nat.add_zero]
      have hnone : (t.cut 0).items = [] := items_nil rfl
      have hitems := (hway.cut 0).items_eq
      rw [hlength, hnone, List.append_nil, TagReader.cut, hrest, List.take_left] at hitems
      exact hitems
    have hpiece := Lines.isPiece_ofText front text t.rest
    have hitems := items_rebase hpiece (List.nil_append text).symm
    rw [← hrest] at hitems
    rw [hreader] at hcut
    have hfound : List.Forall₂ (Item.Rebased (.behind front)) (ofText text).items
        ((tags' ++ [last]).map .ok) := by
      rw [← hcut]
      exact hitems
    rw [hslice, hbefore, ← List.map_singleton, ← List.map_append]
    exact ⟨hfound, isOk_of_rebased hfound⟩

/-- Behind the first tag of this source the second one follows, and then a fault whose message says
on which line and in which column of the source its tag is. -/
theorem items_cut_of_open_quote :
    (ofString "<p>\né<a\nb> <q c=\"\nd").items =
        [] ++ .ok ⟨"<p>", "p", ⟨0, 3, ⟨1, 1⟩⟩⟩ :: [.ok ⟨"<a\nb>", "a", ⟨6, 11, ⟨2, 2⟩⟩⟩,
          .error ⟨"unterminated double-quoted value in tag opened at line 3, column 4", 17,
            ⟨3, 9⟩⟩] ∧
      List.Forall₂ (Item.Rebased ((Lines.ofString "<p>\né<a\nb> <q c=\"\nd").origin 3))
        (ofText (Text.dropBytes 3 "<p>\né<a\nb> <q c=\"\nd".toList)).items
        [.ok ⟨"<a\nb>", "a", ⟨6, 11, ⟨2, 2⟩⟩⟩,
          .error ⟨"unterminated double-quoted value in tag opened at line 3, column 4", 17,
            ⟨3, 9⟩⟩] := by
  have hitems : (ofString "<p>\né<a\nb> <q c=\"\nd").items =
      [] ++ .ok ⟨"<p>", "p", ⟨0, 3, ⟨1, 1⟩⟩⟩ :: [.ok ⟨"<a\nb>", "a", ⟨6, 11, ⟨2, 2⟩⟩⟩,
        .error ⟨"unterminated double-quoted value in tag opened at line 3, column 4", 17,
          ⟨3, 9⟩⟩] := by decide +kernel
  exact ⟨hitems, (items_cut hitems).1⟩

end TagReader

end TagLint
