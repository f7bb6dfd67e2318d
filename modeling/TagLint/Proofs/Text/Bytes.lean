import TagLint.Text.Size

/-!
# Bytes and places

Offsets count bytes and places count characters. `byteSize` of the characters before a place takes
the one to the other and keeps the order (`byteSize_take_le_iff`); `dropBytes` goes back from an
offset to the text that stands there, and `slice` cuts out what stands between two offsets.
-/

namespace TagLint.Text

theorem utf8ByteSize_ofList (text : List Char) :
    (String.ofList text).utf8ByteSize = byteSize text := by
  induction text with
  | nil => rfl
  | cons c rest ih =>
    rw [String.ofList_cons, String.utf8ByteSize_append, String.utf8ByteSize_singleton, ih,
      byteSize_cons]

/-- A text without its first characters, as many as have so many bytes. -/
def dropBytes (bytes : Nat) : List Char → List Char
  | [] => []
  | c :: rest => if bytes = 0 then c :: rest else dropBytes (bytes - c.utf8Size) rest

/-- Behind the bytes of the first part of a text stands the second part. -/
theorem dropBytes_byteSize (before rest : List Char) :
    dropBytes (byteSize before) (before ++ rest) = rest := by
  induction before with
  | nil => cases rest <;> rfl
  | cons c before ih =>
    have := c.utf8Size_pos
    rw [List.cons_append, dropBytes, byteSize_cons, if_neg (by omega), Nat.add_sub_cancel_left, ih]

theorem dropBytes_byteSize_take (n : Nat) (text : List Char) :
    dropBytes (byteSize (text.take n)) text = text.drop n := by
  have h := dropBytes_byteSize (text.take n) (text.drop n)
  rwa [List.take_append_drop] at h

/-- The first characters of a text, as many as have so many bytes. -/
def takeBytes (bytes : Nat) : List Char → List Char
  | [] => []
  | c :: rest => if bytes = 0 then [] else c :: takeBytes (bytes - c.utf8Size) rest

/-- The first bytes of a text are those of its first part. -/
theorem takeBytes_byteSize (before rest : List Char) :
    takeBytes (byteSize before) (before ++ rest) = before := by
  induction before with
  | nil => cases rest <;> rfl
  | cons c before ih =>
    have := c.utf8Size_pos
    rw [List.cons_append, takeBytes, byteSize_cons, if_neg (by omega), Nat.add_sub_cancel_left, ih]

/-- The text between two offsets. -/
def slice (start stop : Nat) (text : List Char) : List Char :=
  takeBytes (stop - start) (dropBytes start text)

theorem slice_byteSize (before text rest : List Char) :
    slice (byteSize before) (byteSize before + byteSize text) (before ++ (text ++ rest)) =
      text := by
  rw [slice, dropBytes_byteSize, Nat.add_sub_cancel_left, takeBytes_byteSize]

/-- A place behind another one has the greater offset. -/
theorem byteSize_take_lt {text : List Char} {i j : Nat} (hlt : i < j) (hi : i < text.length) :
    byteSize (text.take i) < byteSize (text.take j) := by
  obtain ⟨m, rfl⟩ : ∃ m, j = i + (m + 1) := ⟨j - i - 1, by omega⟩
  have hpos := length_le_byteSize ((text.drop i).take (m + 1))
  rw [List.length_take, List.length_drop] at hpos
  rw [List.take_add, byteSize_append]
  omega

/-- The order of places is the order of their offsets. -/
theorem byteSize_take_le_iff {text : List Char} {i j : Nat} (hi : i ≤ text.length)
    (hj : j ≤ text.length) : byteSize (text.take i) ≤ byteSize (text.take j) ↔ i ≤ j := by
  rcases Nat.lt_trichotomy i j with h | rfl | h
  · have := byteSize_take_lt h (Nat.lt_of_lt_of_le h hj)
    omega
  · simp
  · have := byteSize_take_lt h (Nat.lt_of_lt_of_le h hi)
    omega

end TagLint.Text
