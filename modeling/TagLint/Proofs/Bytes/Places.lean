import TagLint.Proofs.Bytes.Checked
import TagLint.Proofs.Text.Extent

/-!
# Places and indices

A place of a text has an index: the bytes in front of it. What a reader of bytes finds there is the
character at the place, if that is ASCII, and else bytes from 128 on.

- `Tail`: what some bytes are from an index on, be they UTF-8 or not.
- `At`: an index is that of a place, and what stands there.
- `At.peek`, `At.suffix`, `At.slice`: what is found at the index of a place, without failure.
- `StandsFor`: what the byte at a place tells of the character there.
- `At.run_over`, `At.run_inside`, `At.run_escape`: a loop that passes over bytes outside ASCII passes
  over characters. It does so also when a jump has taken it into a character.
- `At.run_skipWhile`, `exists_find_view`: runs and closers are found among bytes where they are among
  characters.
- `At.drain`: a reader that finds the right thing at every place finds all things.
-/

namespace TagLint.Bytes

open Text (byteSize)

/-! ### The bytes of a character -/

/-- An ASCII character has one byte. -/
theorem utf8Size_of_lt {c : Char} (h : c.toNat < 128) : c.utf8Size = 1 :=
  Char.utf8Size_eq_one_iff.2 (UInt32.le_iff_toNat_le.2 (Nat.le_of_lt_succ h))

theorem view_append (first second : List UInt8) :
    view (first ++ second) = view first ++ view second :=
  List.map_append

theorem utf8_cons (c : Char) (text : List Char) :
    utf8 (c :: text) = String.utf8EncodeChar c ++ utf8 text := rfl

theorem utf8_append (first second : List Char) :
    utf8 (first ++ second) = utf8 first ++ utf8 second :=
  List.flatMap_append

/-- The bytes of a text are counted by its size. -/
theorem length_utf8 (text : List Char) : (utf8 text).length = byteSize text := by
  induction text with
  | nil => rfl
  | cons c text ih =>
    rw [utf8_cons, List.length_append, String.length_utf8EncodeChar, ih, Text.byteSize_cons]

theorem length_view (bytes : List UInt8) : (view bytes).length = bytes.length :=
  List.length_map ..

/-- The byte of an ASCII character is the character. -/
theorem view_utf8_of_lt {c : Char} (h : c.toNat < 128) (text : List Char) :
    view (utf8 (c :: text)) = c :: view (utf8 text) := by
  have hchar : Char.ofUInt8 c.val.toUInt8 = c := by
    apply Char.ext
    apply UInt32.toNat_inj.1
    show (c.val.toUInt8.toUInt32).toNat = c.val.toNat
    rw [UInt8.toNat_toUInt32, UInt32.toNat_toUInt8]
    exact Nat.mod_eq_of_lt (Nat.lt_trans h (by decide))
  rw [utf8_cons, String.utf8EncodeChar_eq_singleton (utf8Size_of_lt h), view_append]
  show Char.ofUInt8 c.val.toUInt8 :: _ = _
  rw [hchar]
  rfl

/-- The bytes of another character are not ASCII. -/
theorem le_toNat_of_mem_utf8EncodeChar {c : Char} (h : 128 ≤ c.toNat) {b : UInt8}
    (hb : b ∈ String.utf8EncodeChar c) : 128 ≤ (Char.ofUInt8 b).toNat := by
  have hnot : ¬ c.val.toNat ≤ 127 := Nat.not_le.2 h
  have hbyte : 128 ≤ b.toNat := by
    unfold String.utf8EncodeChar at hb
    simp only [if_neg hnot] at hb
    split at hb
    · simp only [List.mem_cons, List.not_mem_nil, or_false] at hb
      rcases hb with rfl | rfl <;> rw [UInt8.toNat_ofNat'] <;> omega
    split at hb
    · simp only [List.mem_cons, List.not_mem_nil, or_false] at hb
      rcases hb with rfl | rfl | rfl <;> rw [UInt8.toNat_ofNat'] <;> omega
    · simp only [List.mem_cons, List.not_mem_nil, or_false] at hb
      rcases hb with rfl | rfl | rfl | rfl <;> rw [UInt8.toNat_ofNat'] <;> omega
  show 128 ≤ (b.toUInt32).toNat
  rw [UInt8.toNat_toUInt32]
  exact hbyte

/-- The bytes of a character outside ASCII, in front of those of a text. -/
theorem exists_view_utf8 {c : Char} (h : 128 ≤ c.toNat) (text : List Char) :
    ∃ wide, view (utf8 (c :: text)) = wide ++ view (utf8 text) ∧ wide.length = c.utf8Size ∧
      ∀ d ∈ wide, 128 ≤ d.toNat := by
  refine ⟨view (String.utf8EncodeChar c), view_append _ _, ?_, ?_⟩
  · rw [length_view, String.length_utf8EncodeChar]
  · intro d hd
    obtain ⟨b, hb, rfl⟩ := List.mem_map.1 hd
    exact le_toNat_of_mem_utf8EncodeChar h hb

/-- The bytes behind some characters of a text. -/
theorem view_utf8_append_drop (front rest : List Char) :
    (view (utf8 (front ++ rest))).drop (byteSize front) = view (utf8 rest) := by
  rw [utf8_append, view_append, ← length_utf8, ← length_view, List.drop_left]

theorem view_utf8_drop (text : List Char) (n : Nat) :
    (view (utf8 text)).drop (byteSize (text.take n)) = view (utf8 (text.drop n)) := by
  have hdrop := view_utf8_append_drop (text.take n) (text.drop n)
  rwa [List.take_append_drop] at hdrop

/-! ### Bytes from an index on -/

/-- From an index on, some bytes are `rest`. There are no more of them than a text can have. -/
structure Tail (bytes : List UInt8) (i : Nat) (rest : List Char) : Prop where
  size : bytes.length ≤ maxTextSize
  view_drop : (view bytes).drop i = rest

namespace Tail

variable {bytes : List UInt8} {i k : Nat} {c quote : Char} {rest : List Char}

theorem of_peek (hsize : bytes.length ≤ maxTextSize) (h : Bytes.peek bytes i = some c) :
    Tail bytes i (c :: (view bytes).drop (i + 1)) := by
  obtain ⟨hlt, rfl⟩ := List.getElem?_eq_some_iff.1 h
  exact ⟨hsize, List.drop_eq_getElem_cons hlt⟩

theorem peek (h : Tail bytes i (c :: rest)) : Bytes.peek bytes i = some c :=
  Text.getElem?_of_drop h.view_drop

theorem peek_nil (h : Tail bytes i []) : Bytes.peek bytes i = none :=
  List.getElem?_eq_none (List.drop_eq_nil_iff.1 h.view_drop)

theorem drop (h : Tail bytes i rest) (n : Nat) : Tail bytes (i + n) (rest.drop n) :=
  ⟨h.size, by rw [← List.drop_drop, h.view_drop]⟩

theorem next (h : Tail bytes i (c :: rest)) : Tail bytes (i + 1) rest :=
  h.drop 1

/-- Bytes from an index on are those behind it. -/
theorem length_eq (h : Tail bytes i rest) (hi : i ≤ bytes.length) :
    i + rest.length = bytes.length := by
  rw [← h.view_drop, List.length_drop, length_view]
  omega

theorem lt_length (h : Tail bytes i (c :: rest)) : i < bytes.length :=
  Loop.lt_length_of_peek h.peek

/-- The index of a byte is far from the greatest index. -/
theorem add_le (h : Tail bytes i (c :: rest)) (hk : k ≤ maxTextSize) : i + k ≤ maxSize := by
  have hsize := h.size
  have hlt := h.lt_length
  rw [maxTextSize] at hsize hk
  rw [maxSize]
  omega

theorem add_eq_ok (h : Tail bytes i (c :: rest)) (hk : k ≤ maxTextSize) :
    add i k = .ok (i + k) :=
  Bytes.add_eq_ok (h.add_le hk)

/-- A loop goes on behind a byte, or a few more. -/
theorem run_go {σ α : Type} {loop : Loop σ α} {state next : σ} (h : Tail bytes i (c :: rest))
    (hstep : loop.step state i c = .ok (.go next (i + k))) (hpos : 0 < k) (hk : k ≤ maxTextSize) :
    loop.run bytes state i = loop.run bytes next (i + k) :=
  Loop.run_go h.peek hstep (by omega) (h.add_le hk)

theorem sliceFrom (h : Tail bytes i rest) (hi : i ≤ bytes.length) :
    Bytes.sliceFrom bytes i = .ok rest := by
  rw [Bytes.sliceFrom, if_pos hi, h.view_drop]

/-- What ends in the bytes has an index. -/
theorem le_maxSize (h : Tail bytes i rest) (hle : k ≤ bytes.length) : k ≤ maxSize := by
  have hsize := h.size
  have hmax : maxTextSize ≤ maxSize := by decide
  omega

end Tail

/-! ### Places -/

/-- An index is that of a place where a text goes on with `rest`. The text has no more bytes than a
text can have. -/
structure At (text : List Char) (i : Nat) (rest : List Char) : Prop where
  split : ∃ front, text = front ++ rest ∧ i = byteSize front
  size : byteSize text ≤ maxTextSize

/-- The index `n` characters further on. -/
def ahead (i : Nat) (rest : List Char) (n : Nat) : Nat :=
  i + byteSize (rest.take n)

@[simp] theorem ahead_zero (i : Nat) (rest : List Char) : ahead i rest 0 = i := rfl

theorem ahead_succ (i : Nat) (c : Char) (rest : List Char) (n : Nat) :
    ahead i (c :: rest) (n + 1) = ahead (i + c.utf8Size) rest n := by
  rw [ahead, List.take_succ_cons, Text.byteSize_cons, ← Nat.add_assoc]
  rfl

theorem ahead_ahead (i : Nat) (rest : List Char) (m n : Nat) :
    ahead (ahead i rest m) (rest.drop m) n = ahead i rest (m + n) := by
  rw [ahead, ahead, ahead, List.take_add, Text.byteSize_append, Nat.add_assoc]

theorem le_ahead (i : Nat) (rest : List Char) (n : Nat) : i ≤ ahead i rest n :=
  Nat.le_add_right ..

/-- A number of characters counts no further than the text goes. -/
theorem ahead_length_take (i : Nat) (rest : List Char) (n : Nat) :
    ahead i rest (rest.take n).length = ahead i rest n := by
  rw [ahead, ahead, ← List.prefix_iff_eq_take.1 (List.take_prefix n rest)]

theorem drop_length_take (rest : List Char) (n : Nat) :
    rest.drop (rest.take n).length = rest.drop n := by
  rw [List.length_take, List.drop_eq_drop_iff, Nat.min_assoc, Nat.min_self]

theorem lt_ahead (i : Nat) (c : Char) (rest : List Char) {n : Nat} (hn : 0 < n) :
    i < ahead i (c :: rest) n := by
  obtain ⟨m, rfl⟩ := Nat.exists_eq_add_of_lt hn
  rw [Nat.zero_add, ahead_succ]
  exact Nat.lt_of_lt_of_le (Nat.lt_add_of_pos_right c.utf8Size_pos) (le_ahead ..)

namespace At

variable {text rest : List Char} {i : Nat} {c : Char}

theorem start (h : byteSize text ≤ maxTextSize) : At text 0 text :=
  ⟨⟨[], rfl, rfl⟩, h⟩

/-- The bytes of a text are those in front of a place and those behind it. -/
theorem add_byteSize (h : At text i rest) : i + byteSize rest = byteSize text := by
  obtain ⟨front, rfl, rfl⟩ := h.split
  exact (Text.byteSize_append ..).symm

theorem le_maxTextSize (h : At text i rest) : i + byteSize rest ≤ maxTextSize :=
  h.add_byteSize ▸ h.size

theorem drop (h : At text i rest) (n : Nat) : At text (ahead i rest n) (rest.drop n) := by
  obtain ⟨front, rfl, rfl⟩ := h.split
  refine ⟨⟨front ++ rest.take n, ?_, ?_⟩, h.size⟩
  · rw [List.append_assoc, List.take_append_drop]
  · rw [ahead, Text.byteSize_append]

theorem next (h : At text i (c :: rest)) : At text (i + c.utf8Size) rest :=
  h.drop 1

theorem next_of_lt (h : At text i (c :: rest)) (hc : c.toNat < 128) : At text (i + 1) rest := by
  have hnext := h.next
  rwa [utf8Size_of_lt hc] at hnext

theorem ahead_le (h : At text i rest) (n : Nat) : ahead i rest n ≤ maxTextSize := by
  have := (h.drop n).le_maxTextSize
  omega

/-- The index of a place is far from the greatest index. -/
theorem add_le (h : At text i rest) {k : Nat} (hk : k ≤ maxTextSize) : i + k ≤ maxSize := by
  have := h.le_maxTextSize
  rw [maxTextSize] at this hk
  rw [maxSize]
  omega

theorem le_maxSize (h : At text i rest) : i ≤ maxSize :=
  h.add_le (Nat.zero_le maxTextSize)

theorem add_eq_ok (h : At text i rest) {k : Nat} (hk : k ≤ maxTextSize) :
    add i k = .ok (i + k) :=
  Bytes.add_eq_ok (h.add_le hk)

theorem add_one (h : At text i rest) : add i 1 = .ok (i + 1) :=
  h.add_eq_ok (by decide)

/-! ### Bytes at a place -/

theorem view_drop (h : At text i rest) : (view (utf8 text)).drop i = view (utf8 rest) := by
  obtain ⟨front, rfl, rfl⟩ := h.split
  exact view_utf8_append_drop front rest

/-- From the index of a place on, the bytes are those of the text there. -/
theorem tail (h : At text i rest) : Tail (utf8 text) i (view (utf8 rest)) :=
  ⟨by rw [length_utf8]; exact h.size, h.view_drop⟩

theorem le_length (h : At text i rest) : i ≤ (utf8 text).length := by
  rw [length_utf8, ← h.add_byteSize]
  exact Nat.le_add_right ..

theorem peek_add (h : At text i rest) (k : Nat) :
    peek (utf8 text) (i + k) = (view (utf8 rest))[k]? := by
  rw [Bytes.peek, ← List.getElem?_drop, h.view_drop]

/-- At the end of a text and behind it there is no byte. -/
theorem peek_end (h : At text i []) (k : Nat) : Bytes.peek (utf8 text) (i + k) = none :=
  h.peek_add k

theorem peek_nil (h : At text i []) : Bytes.peek (utf8 text) i = none :=
  h.peek_end 0

/-- The byte at the place of an ASCII character is the character. -/
theorem peek (h : At text i (c :: rest)) (hc : c.toNat < 128) :
    Bytes.peek (utf8 text) i = some c := by
  have hzero := h.peek_add 0
  rw [view_utf8_of_lt hc] at hzero
  exact hzero

/-- The bytes at the place of another character are not ASCII. -/
theorem exists_peek (h : At text i (c :: rest)) (hc : 128 ≤ c.toNat) {k : Nat}
    (hk : k < c.utf8Size) : ∃ d, Bytes.peek (utf8 text) (i + k) = some d ∧ 128 ≤ d.toNat := by
  obtain ⟨wide, hview, hlength, hwide⟩ := exists_view_utf8 hc rest
  have hlt : k < wide.length := hlength ▸ hk
  refine ⟨wide[k], ?_, hwide _ (List.getElem_mem hlt)⟩
  rw [h.peek_add, hview, List.getElem?_append_left hlt, List.getElem?_eq_getElem hlt]

theorem sliceFrom (h : At text i rest) : Bytes.sliceFrom (utf8 text) i = .ok (view (utf8 rest)) :=
  h.tail.sliceFrom h.le_length

/-! ### Texts at a place -/

theorem suffix? (h : At text i rest) : Bytes.suffix? text i = some rest := by
  obtain ⟨front, rfl, rfl⟩ := h.split
  induction front with
  | nil => cases rest <;> rfl
  | cons c front ih =>
    have hpos := c.utf8Size_pos
    have hsize := h.size
    rw [List.cons_append, Text.byteSize_cons] at hsize
    rw [List.cons_append, Bytes.suffix?, Text.byteSize_cons, if_neg (by omega),
      if_pos (Nat.le_add_right ..), Nat.add_sub_cancel_left]
    exact ih ⟨⟨front, rfl, rfl⟩, by omega⟩

/-- A text may be cut at the index of a place. -/
theorem suffix (h : At text i rest) : Bytes.suffix text i = .ok rest := by
  rw [Bytes.suffix, h.suffix?]
  rfl

theorem prefix?_byteSize (front rest : List Char) :
    prefix? (front ++ rest) (byteSize front) = some front := by
  induction front with
  | nil => cases rest <;> rfl
  | cons c front ih =>
    have hpos := c.utf8Size_pos
    rw [List.cons_append, prefix?, Text.byteSize_cons, if_neg (by omega),
      if_pos (Nat.le_add_right ..), Nat.add_sub_cancel_left, ih]
    rfl

theorem slice? (h : At text i rest) (n : Nat) :
    Bytes.slice? text i (ahead i rest n) = some (rest.take n) := by
  have hprefix := prefix?_byteSize (rest.take n) (rest.drop n)
  rw [List.take_append_drop] at hprefix
  rw [Bytes.slice?, if_pos (le_ahead i rest n), h.suffix?, Option.bind_some, ahead,
    Nat.add_sub_cancel_left, hprefix]

/-- The text between two places may be cut out. -/
theorem slice (h : At text i rest) (n : Nat) :
    Bytes.slice text i (ahead i rest n) = .ok (rest.take n) := by
  rw [Bytes.slice, h.slice? n]
  rfl

end At

/-! ### Loops at a place -/

/-- In a state a loop passes over bytes outside ASCII one at a time. -/
def Loop.Passes {σ α : Type} (loop : Loop σ α) (state : σ) : Prop :=
  ∀ i c, 128 ≤ c.toNat → loop.step state i c = .ok (.go state (i + 1))

namespace At

variable {text rest : List Char} {i : Nat} {c : Char} {σ α : Type} {loop : Loop σ α} {state : σ}

/-- A loop that is inside a character passes over the bytes that are left of it. -/
theorem run_wide (h : At text i (c :: rest)) (hc : 128 ≤ c.toNat) (hpasses : loop.Passes state)
    {k : Nat} (hk : k ≤ c.utf8Size) :
    loop.run (utf8 text) state (i + k) = loop.run (utf8 text) state (i + c.utf8Size) := by
  induction hn : c.utf8Size - k generalizing k with
  | zero =>
    have heq : k = c.utf8Size := by omega
    rw [heq]
  | succ n ih =>
    obtain ⟨d, hpeek, hd⟩ := h.exists_peek hc (k := k) (by omega)
    have hsize := h.le_maxTextSize
    rw [Text.byteSize_cons] at hsize
    rw [Loop.run_go hpeek (hpasses _ d hd) (Nat.lt_succ_self _)
      (h.add_le (k := k + 1) (by omega))]
    exact ih (k := k + 1) (by omega) (by omega)

/-- At the end of a text a loop is finished. -/
theorem run_end (h : At text i []) (state : σ) :
    loop.run (utf8 text) state i = loop.finish state i :=
  Loop.run_end h.peek_nil

/-- A loop goes on behind an ASCII character. -/
theorem run_next (h : At text i (c :: rest)) (hc : c.toNat < 128) {next : σ}
    (hstep : loop.step state i c = .ok (.go next (i + 1))) :
    loop.run (utf8 text) state i = loop.run (utf8 text) next (i + 1) :=
  Loop.run_go (h.peek hc) hstep (Nat.lt_succ_self _) (h.add_le (by decide))

/-- A loop that passes over a character goes on behind all of its bytes. -/
theorem run_over (h : At text i (c :: rest)) (hpasses : loop.Passes state)
    (hstep : loop.step state i c = .ok (.go state (i + 1))) :
    loop.run (utf8 text) state i = loop.run (utf8 text) state (i + c.utf8Size) := by
  by_cases hc : c.toNat < 128
  · rw [h.run_next hc hstep, utf8Size_of_lt hc]
  · exact h.run_wide (Nat.not_lt.1 hc) hpasses (k := 0) (Nat.zero_le _)

/-- A jump behind the first byte of a character ends behind all of them. -/
theorem run_inside (h : At text i (c :: rest)) (hpasses : loop.Passes state) :
    loop.run (utf8 text) state (i + 1) = loop.run (utf8 text) state (i + c.utf8Size) := by
  by_cases hc : c.toNat < 128
  · rw [utf8Size_of_lt hc]
  · exact h.run_wide (Nat.not_lt.1 hc) hpasses c.utf8Size_pos

/-- A loop that passes over a backslash with the byte behind it passes over the character there. At
the end of a text it jumps too far, so it must not matter where it is finished. -/
theorem run_escape (h : At text i ('\\' :: rest)) (hpasses : loop.Passes state)
    (hstep : loop.step state i '\\' = .ok (.go state (i + 2)))
    (hfinish : ∀ i j, loop.finish state i = loop.finish state j) :
    loop.run (utf8 text) state i = loop.run (utf8 text) state (ahead i ('\\' :: rest) 2) := by
  have hnext : At text (i + 1) rest := h.next_of_lt (by decide)
  have hjump : loop.run (utf8 text) state i = loop.run (utf8 text) state (i + 1 + 1) :=
    Loop.run_go (h.peek (by decide)) hstep (by omega) (h.add_le (k := 2) (by decide))
  rw [hjump]
  cases rest with
  | nil =>
    rw [Loop.run_end (hnext.peek_end 1), hfinish (i + 1 + 1) (i + 1)]
    exact (hnext.run_end state).symm
  | cons d rest =>
    rw [hnext.run_inside hpasses, ahead_succ, ahead_succ, ahead_zero]
    rfl

end At

/-! ### Bytes for characters -/

/-- A property that tells no characters outside ASCII apart. -/
def Uniform (p : Char → Bool) : Prop :=
  ∃ wide, ∀ c : Char, 128 ≤ c.toNat → p c = wide

/-- A byte stands for a character: it is the character, or neither is ASCII. -/
def StandsFor (d c : Char) : Prop :=
  d = c ∨ 128 ≤ d.toNat ∧ 128 ≤ c.toNat

theorem ne_of_le_toNat {c d : Char} (hc : 128 ≤ c.toNat) (hd : d.toNat < 128) : c ≠ d := by
  rintro rfl
  omega

theorem uniform_ne {d : Char} (hd : d.toNat < 128) : Uniform (· != d) :=
  ⟨true, fun _ hc => bne_iff_ne.2 (ne_of_le_toNat hc hd)⟩

namespace StandsFor

variable {c d : Char} (h : StandsFor d c)

include h

/-- A byte is an ASCII character if the character that it stands for is. -/
theorem eq_iff {a : Char} (ha : a.toNat < 128) : d = a ↔ c = a := by
  rcases h with rfl | ⟨hd, hc⟩
  · rfl
  · exact iff_of_false (ne_of_le_toNat hd ha) (ne_of_le_toNat hc ha)

/-- A byte has the properties of the character that it stands for. -/
theorem uniform {p : Char → Bool} (hp : Uniform p) : p d = p c := by
  obtain ⟨wide, hwide⟩ := hp
  rcases h with rfl | ⟨hd, hc⟩
  · rfl
  · rw [hwide d hd, hwide c hc]

end StandsFor

/-- The first byte of a text stands for its first character, and what is left of the character is not
ASCII. -/
theorem exists_view_cons (c : Char) (text : List Char) :
    ∃ d wide, view (utf8 (c :: text)) = d :: (wide ++ view (utf8 text)) ∧ StandsFor d c ∧
      wide.length + 1 = c.utf8Size ∧ ∀ e ∈ wide, 128 ≤ e.toNat := by
  by_cases hc : c.toNat < 128
  · refine ⟨c, [], view_utf8_of_lt hc text, .inl rfl, ?_, fun e he => absurd he List.not_mem_nil⟩
    rw [utf8Size_of_lt hc]
    rfl
  · have hc := Nat.not_lt.1 hc
    obtain ⟨wide, hview, hlength, hwide⟩ := exists_view_utf8 hc text
    obtain ⟨d, more, rfl⟩ := List.exists_cons_of_length_pos (hlength ▸ c.utf8Size_pos)
    obtain ⟨hd, hmore⟩ := List.forall_mem_cons.1 hwide
    exact ⟨d, more, hview, .inr ⟨hd, hc⟩, hlength, hmore⟩

/-- The byte at a place stands for the character there. -/
theorem At.exists_byte {text rest : List Char} {i : Nat} {c : Char} (h : At text i (c :: rest)) :
    ∃ d, Bytes.peek (utf8 text) i = some d ∧ StandsFor d c := by
  obtain ⟨d, wide, hview, hd, -⟩ := exists_view_cons c rest
  have hzero := h.peek_add 0
  rw [hview] at hzero
  exact ⟨d, hzero, hd⟩

/-- An ASCII character stands at a place if its byte stands at the index. -/
theorem At.peek_eq_iff {text rest : List Char} {i : Nat} {c : Char} (h : At text i rest)
    (hc : c.toNat < 128) : Bytes.peek (utf8 text) i = some c ↔ rest.head? = some c := by
  cases rest with
  | nil =>
    rw [h.peek_nil]
    rfl
  | cons a rest =>
    obtain ⟨d, hpeek, hd⟩ := h.exists_byte
    rw [hpeek, List.head?_cons, Option.some.injEq, Option.some.injEq]
    exact hd.eq_iff hc

/-! ### Runs -/

/-- A run among the bytes of a text is as long as the run among its characters. -/
theorem length_takeWhile_view {p : Char → Bool} (hp : Uniform p) (text : List Char) :
    ((view (utf8 text)).takeWhile p).length = byteSize (text.takeWhile p) := by
  obtain ⟨wide, hwide⟩ := hp
  induction text with
  | nil => rfl
  | cons c text ih =>
    by_cases hc : c.toNat < 128
    · rw [view_utf8_of_lt hc, List.takeWhile_cons, List.takeWhile_cons]
      split
      · rw [List.length_cons, ih, Text.byteSize_cons, utf8Size_of_lt hc, Nat.add_comm]
      · rfl
    · obtain ⟨front, hview, hlength, hfront⟩ := exists_view_utf8 (Nat.not_lt.1 hc) text
      have hpc := hwide c (Nat.not_lt.1 hc)
      rw [hview, List.takeWhile_cons, hpc]
      cases wide with
      | true =>
        rw [List.takeWhile_append_of_pos fun d hd => hwide d (hfront d hd), List.length_append,
          ih, hlength]
        rfl
      | false =>
        have hpos := c.utf8Size_pos
        obtain ⟨d, more, rfl⟩ := List.exists_cons_of_length_pos (hlength ▸ hpos)
        have hd := hwide d (hfront d List.mem_cons_self)
        rw [List.cons_append, List.takeWhile_cons, hd]
        rfl

theorem skipWhile_step {p : Char → Bool} {c : Char} (h : p c = true) (i : Nat) :
    (skipWhile p).step () i c = .ok (.go () (i + 1)) := by
  show Except.ok (if p c then Move.go () (i + 1) else Move.stop i) = _
  rw [if_pos h]

theorem skipWhile_stop {p : Char → Bool} {c : Char} (h : p c = false) (i : Nat) :
    (skipWhile p).step () i c = .ok (.stop i) := by
  show Except.ok (if p c then Move.go () (i + 1) else Move.stop i) = _
  rw [if_neg (Bool.eq_false_iff.1 h)]

/-- A run of characters is skipped whole, and nothing else is. -/
theorem At.run_skipWhile {text rest : List Char} {i : Nat} (h : At text i rest) {p : Char → Bool}
    (hp : Uniform p) : (skipWhile p).run (utf8 text) () i =
      .ok (ahead i rest (rest.takeWhile p).length) := by
  obtain ⟨wide, hwide⟩ := hp
  induction rest generalizing i with
  | nil => exact h.run_end ()
  | cons c rest ih =>
    by_cases hpc : p c = true
    · have hover : (skipWhile p).run (utf8 text) () i =
          (skipWhile p).run (utf8 text) () (i + c.utf8Size) := by
        by_cases hc : c.toNat < 128
        · rw [utf8Size_of_lt hc]
          exact h.run_next hc (skipWhile_step hpc i)
        · have hc := Nat.not_lt.1 hc
          refine h.run_wide hc (fun j d hd => skipWhile_step ?_ j) (k := 0) (Nat.zero_le _)
          rw [hwide d hd, ← hwide c hc, hpc]
      rw [hover, ih h.next, List.takeWhile_cons_of_pos hpc, List.length_cons, ahead_succ]
    · obtain ⟨d, hpeek, hd⟩ := h.exists_byte
      have hstop : p d = false := (hd.uniform ⟨wide, hwide⟩).trans (Bool.eq_false_iff.2 hpc)
      rw [Loop.run_stop hpeek (skipWhile_stop hstop i), List.takeWhile_cons_of_neg hpc]
      rfl

/-! ### Closers -/

theorem forall_lt_of_all {text : List Char} (h : text.all (·.toNat < 128) = true) :
    ∀ c ∈ text, c.toNat < 128 := by
  intro c hc
  exact of_decide_eq_true (List.all_eq_true.1 h c hc)

theorem byteSize_of_ascii {text : List Char} (h : ∀ c ∈ text, c.toNat < 128) :
    byteSize text = text.length := by
  induction text with
  | nil => rfl
  | cons c text ih =>
    rw [Text.byteSize_cons, utf8Size_of_lt (h c List.mem_cons_self),
      ih fun d hd => h d (List.mem_cons_of_mem _ hd), List.length_cons, Nat.add_comm]

/-- ASCII characters do not begin where a byte outside ASCII stands. -/
theorem not_prefix_of_wide {needle : List Char} (hne : needle ≠ [])
    (hneedle : ∀ c ∈ needle, c.toNat < 128) {c : Char} (hc : 128 ≤ c.toNat) (text : List Char) :
    ¬needle <+: c :: text := by
  obtain ⟨d, needle, rfl⟩ := List.exists_cons_of_ne_nil hne
  intro h
  have hd := hneedle d List.mem_cons_self
  rw [(List.cons_prefix_cons.1 h).1] at hd
  omega

/-- ASCII characters stand in front of the bytes of a text where they stand in front of it. -/
theorem prefix_view_iff {needle : List Char} (hneedle : ∀ c ∈ needle, c.toNat < 128)
    (text : List Char) : needle <+: view (utf8 text) ↔ needle <+: text := by
  induction needle generalizing text with
  | nil => exact iff_of_true (List.nil_prefix) (List.nil_prefix)
  | cons d needle ih =>
    cases text with
    | nil => rfl
    | cons c text =>
      by_cases hc : c.toNat < 128
      · rw [view_utf8_of_lt hc, List.cons_prefix_cons, List.cons_prefix_cons,
          ih fun e he => hneedle e (List.mem_cons_of_mem _ he)]
      · have hc := Nat.not_lt.1 hc
        obtain ⟨wide, hview, hlength, hwide⟩ := exists_view_utf8 hc text
        obtain ⟨e, more, rfl⟩ := List.exists_cons_of_length_pos (hlength ▸ c.utf8Size_pos)
        rw [hview, List.cons_append]
        exact iff_of_false
          (not_prefix_of_wide (List.cons_ne_nil _ _) hneedle (hwide e List.mem_cons_self) _)
          (not_prefix_of_wide (List.cons_ne_nil _ _) hneedle hc _)

/-- A closer is not found where bytes outside ASCII stand. -/
theorem through?_wide {closer : List Char} (hne : closer ≠ [])
    (hcloser : ∀ c ∈ closer, c.toNat < 128) {wide : List Char} (hwide : ∀ d ∈ wide, 128 ≤ d.toNat)
    (behind : List Char) :
    Text.through? closer (wide ++ behind) =
      (Text.through? closer behind).map (wide.length + ·) := by
  induction wide with
  | nil =>
    rw [List.nil_append]
    cases Text.through? closer behind with
    | none => rfl
    | some n => exact congrArg some (Nat.zero_add n).symm
  | cons d wide ih =>
    have hnot := not_prefix_of_wide hne hcloser (hwide d List.mem_cons_self) (wide ++ behind)
    rw [List.cons_append, Text.through?_cons, if_neg hnot,
      ih fun e he => hwide e (List.mem_cons_of_mem _ he), Option.map_map]
    congr 1
    funext n
    show 1 + (wide.length + n) = wide.length + 1 + n
    omega

/-- Counting a character more is counting its bytes. -/
theorem map_byteSize_take (c : Char) (text : List Char) (found : Option Nat) :
    (found.map fun n => byteSize (text.take n)).map (c.utf8Size + ·) =
      (found.map (1 + ·)).map fun n => byteSize ((c :: text).take n) := by
  rw [Option.map_map, Option.map_map]
  congr 1
  funext n
  show c.utf8Size + byteSize (text.take n) = byteSize ((c :: text).take (1 + n))
  rw [Nat.add_comm 1, List.take_succ_cons, Text.byteSize_cons]

/-- A closer ends among the bytes of a text where it ends among its characters. -/
theorem through?_view {closer : List Char} (hne : closer ≠ [])
    (hcloser : ∀ c ∈ closer, c.toNat < 128) (text : List Char) :
    Text.through? closer (view (utf8 text)) =
      (Text.through? closer text).map fun n => byteSize (text.take n) := by
  induction text with
  | nil =>
    show Text.through? closer [] = _
    rw [Text.through?_nil hne]
    rfl
  | cons c text ih =>
    by_cases hc : c.toNat < 128
    · have hiff : closer <+: c :: view (utf8 text) ↔ closer <+: c :: text := by
        rw [← view_utf8_of_lt hc]
        exact prefix_view_iff hcloser _
      rw [view_utf8_of_lt hc, Text.through?_cons, Text.through?_cons]
      by_cases hprefix : closer <+: c :: text
      · rw [if_pos hprefix, if_pos (hiff.2 hprefix), Option.map_some,
          ← List.prefix_iff_eq_take.1 hprefix, byteSize_of_ascii hcloser]
      · rw [if_neg hprefix, if_neg (hiff.not.2 hprefix), ← map_byteSize_take, ih,
          utf8Size_of_lt hc]
    · have hc := Nat.not_lt.1 hc
      obtain ⟨wide, hview, hlength, hwide⟩ := exists_view_utf8 hc text
      rw [hview, through?_wide hne hcloser hwide, hlength, ih, Text.through?_cons,
        if_neg (not_prefix_of_wide hne hcloser hc text), map_byteSize_take]

/-- A closer that ends in a text is found among its bytes. -/
theorem exists_find_view {closer : List Char} (hne : closer ≠ [])
    (hcloser : ∀ c ∈ closer, c.toNat < 128) {text : List Char} {n : Nat}
    (h : Text.through? closer text = some n) :
    ∃ place, find closer (view (utf8 text)) = some place ∧
      place + closer.length = byteSize (text.take n) := by
  obtain ⟨body, behind, htext, -, hn⟩ := Text.exists_of_through? hne h
  have htake : text.take n = body ++ closer := by
    rw [htext, hn, ← List.append_assoc, ← List.length_append, List.take_left]
  refine ⟨byteSize (text.take n) - closer.length, ?_, ?_⟩
  · rw [find, through?_view hne hcloser, h]
    rfl
  · rw [htake, Text.byteSize_append, byteSize_of_ascii hcloser, Nat.add_sub_cancel]

/-- A closer that does not stand in a text is not found among its bytes. -/
theorem find_view_eq_none {closer : List Char} (hne : closer ≠ [])
    (hcloser : ∀ c ∈ closer, c.toNat < 128) {text : List Char}
    (h : Text.through? closer text = none) : find closer (view (utf8 text)) = none := by
  rw [find, through?_view hne hcloser, h]
  rfl

/-! ### Readers at a place -/

/-- What a reader finds at a place, if from each place on it finds what `all` says. -/
def Finds {α : Type} (text : List Char) (all : Nat → List Char → List α) (i : Nat)
    (rest : List Char) : Found α → Prop
  | none => all i rest = []
  | some (found, none) => all i rest = [found]
  | some (found, some j) =>
    i < j ∧ ∃ behind, At text j behind ∧ all i rest = found :: all j behind

/-- A reader finds the same at a place from which it only goes on to another one. -/
theorem Finds.of_eq {α : Type} {text rest behind : List Char} {all : Nat → List Char → List α}
    {i j : Nat} {answer : Found α} (h : Finds text all j behind answer) (hle : i ≤ j)
    (heq : all i rest = all j behind) : Finds text all i rest answer := by
  match answer with
  | none => exact heq.trans h
  | some (found, none) => exact heq.trans h
  | some (found, some k) =>
    obtain ⟨hlt, more, hmore, hall⟩ := h
    exact ⟨Nat.lt_of_le_of_lt hle hlt, more, hmore, heq.trans hall⟩

/-- At a place a reader finds the right thing, or it reads on at another place behind. -/
def Proceeds {α : Type} (text : List Char) (all : Nat → List Char → List α)
    (next : Nat → Checked (Found α)) (i : Nat) (rest : List Char) : Prop :=
  (∃ answer, next i = .ok answer ∧ Finds text all i rest answer) ∨
    ∃ j behind, i < j ∧ At text j behind ∧ next i = next j ∧ all i rest = all j behind

/-- A reader that proceeds at every place finds the right thing from every place. -/
theorem At.exists_found {α : Type} {text rest : List Char} {i : Nat}
    {all : Nat → List Char → List α} {next : Nat → Checked (Found α)} (h : At text i rest)
    (hnext : ∀ {i rest}, At text i rest → Proceeds text all next i rest) :
    ∃ answer, next i = .ok answer ∧ Finds text all i rest answer := by
  induction hn : byteSize rest using Nat.strongRecOn generalizing i rest with
  | ind n ih =>
    subst hn
    rcases hnext h with hfound | ⟨j, behind, hlt, hbehind, hrun, hall⟩
    · exact hfound
    · have hsize := h.add_byteSize
      have hsizeBehind := hbehind.add_byteSize
      obtain ⟨answer, hanswer, hfinds⟩ := ih (byteSize behind) (by omega) hbehind rfl
      exact ⟨answer, hrun.trans hanswer, hfinds.of_eq (Nat.le_of_lt hlt) hall⟩

/-- A reader that finds the right thing at every place finds all things. -/
theorem At.drain {α : Type} {text rest : List Char} {i : Nat} {next : Nat → Checked (Found α)}
    {all : Nat → List Char → List α} (h : At text i rest)
    (hnext : ∀ {i rest}, At text i rest → ∃ answer, next i = .ok answer ∧ Finds text all i rest answer) :
    Bytes.drain next (utf8 text).length i = .ok (all i rest) := by
  induction hn : byteSize rest using Nat.strongRecOn generalizing i rest with
  | ind n ih =>
    subst hn
    obtain ⟨answer, hanswer, hfinds⟩ := hnext h
    match answer with
    | none =>
      rw [drain_none hanswer]
      exact congrArg Except.ok hfinds.symm
    | some (found, none) =>
      rw [drain_last hanswer]
      exact congrArg Except.ok hfinds.symm
    | some (found, some j) =>
      obtain ⟨hlt, behind, hbehind, hall⟩ := hfinds
      have hsize := h.add_byteSize
      have hsizeBehind := hbehind.add_byteSize
      have hle : j ≤ (utf8 text).length := by
        rw [length_utf8]
        omega
      rw [drain_some hanswer hlt hle, ih (byteSize behind) (by omega) hbehind rfl, hall]
      rfl

end TagLint.Bytes
