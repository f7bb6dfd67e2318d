import Mathlib.Data.List.Basic
import TagLint.Text.Cut
import TagLint.Text.Size

/-!
# Steps that can fail

The readers of this library take texts apart character by character and cannot fail. A reader of
the bytes of a text can: an index may be past the end, a slice may begin inside a character, a
number may leave the range of an index. Here are the steps of such a reader, each with the check
that it needs. With them the readers are written once more, over bytes and indices.

- `Failure`: what a step can fail with.
- `add`, `sub`, `byteAt`, `sliceFrom`, `suffix`, `slice`: the steps.
- `Loop`, `Loop.run`: a loop over the bytes of a text, whose index must grow.
- `drain`: all that a reader finds from an index on, which must grow too.

A byte is compared as the character with its code. So a byte of a character outside ASCII is a
character with a code from 128 to 255.
-/

namespace TagLint.Bytes

/-- What a step can fail with. -/
inductive Failure where
  /-- An index is past the end. -/
  | index
  /-- A slice is out of range, or not between characters. -/
  | slice
  /-- A number would be negative. -/
  | negative
  /-- A number is too large. -/
  | overflow
  /-- Nothing is open inside a tag. -/
  | noneOpen
  /-- No character stands at a place. -/
  | noCharacter
  /-- The index of a loop does not grow. -/
  | stuck
  deriving DecidableEq, Repr

/-- The result of a step. -/
abbrev Checked (α : Type) := Except Failure α

@[simp] theorem ok_bind {α β : Type} (a : α) (f : α → Checked β) :
    (Except.ok a : Checked α) >>= f = f a := rfl

/-! ### Numbers -/

/-- The greatest index that there is. -/
def maxSize : Nat := 18446744073709551615

/-- The most bytes that a text can have: no block of memory is larger. -/
def maxTextSize : Nat := 9223372036854775807

/-- A sum, which must be an index. -/
def add (a b : Nat) : Checked Nat :=
  if a + b ≤ maxSize then .ok (a + b) else .error .overflow

/-- A difference, which must not be negative. -/
def sub (a b : Nat) : Checked Nat :=
  if b ≤ a then .ok (a - b) else .error .negative

theorem add_eq_ok {a b : Nat} (h : a + b ≤ maxSize) : add a b = .ok (a + b) :=
  if_pos h

theorem sub_eq_ok {a b : Nat} (h : b ≤ a) : sub a b = .ok (a - b) :=
  if_pos h

/-! ### Bytes -/

/-- The bytes of a text in UTF-8. -/
def utf8 (text : List Char) : List UInt8 :=
  text.flatMap String.utf8EncodeChar

/-- These are the bytes that a string of this text has. -/
theorem toUTF8_ofList (text : List Char) :
    (String.ofList text).toUTF8.data.toList = utf8 text := by
  rw [String.toUTF8, String.toByteArray_ofList, List.utf8Encode, List.data_toByteArray]
  rfl

/-- Bytes as the characters with their codes. -/
def view (bytes : List UInt8) : List Char :=
  bytes.map Char.ofUInt8

/-- The byte at an index, if the index is not past the end. -/
def peek (bytes : List UInt8) (i : Nat) : Option Char :=
  (view bytes)[i]?

/-- The byte at an index. -/
def byteAt (bytes : List UInt8) (i : Nat) : Checked Char :=
  match peek bytes i with
  | some c => .ok c
  | none => .error .index

/-- The bytes from an index on. -/
def sliceFrom (bytes : List UInt8) (i : Nat) : Checked (List Char) :=
  if i ≤ bytes.length then .ok ((view bytes).drop i) else .error .slice

/-- The index of the first place where some characters stand among others. -/
def find (needle text : List Char) : Option Nat :=
  (Text.through? needle text).map (· - needle.length)

/-! ### Texts -/

/-- The text from an index on, if a character begins there or the text ends there. -/
def suffix? (text : List Char) (i : Nat) : Option (List Char) :=
  match text with
  | [] => if i = 0 then some [] else none
  | c :: rest =>
    if i = 0 then some (c :: rest)
    else if c.utf8Size ≤ i then suffix? rest (i - c.utf8Size)
    else none

/-- The first bytes of a text, if they are those of its first characters. -/
def prefix? (text : List Char) (size : Nat) : Option (List Char) :=
  match text with
  | [] => if size = 0 then some [] else none
  | c :: rest =>
    if size = 0 then some []
    else if c.utf8Size ≤ size then (prefix? rest (size - c.utf8Size)).map (c :: ·)
    else none

/-- The text between two indices, if both are between characters and in order. -/
def slice? (text : List Char) (start stop : Nat) : Option (List Char) :=
  if start ≤ stop then (suffix? text start).bind (prefix? · (stop - start)) else none

/-- The text from an index on. -/
def suffix (text : List Char) (i : Nat) : Checked (List Char) :=
  (suffix? text i).elim (.error .slice) .ok

/-- The text between two indices. -/
def slice (text : List Char) (start stop : Nat) : Checked (List Char) :=
  (slice? text start stop).elim (.error .slice) .ok

/-! ### Loops -/

/-- What a loop does next. -/
inductive Move (σ α : Type) where
  /-- It goes on at an index. -/
  | go (next : σ) (index : Nat)
  /-- It has an answer. -/
  | stop (answer : α)

/-- A loop over bytes, with a state. -/
structure Loop (σ α : Type) where
  /-- What it does with the byte at an index. -/
  step : σ → Nat → Char → Checked (Move σ α)
  /-- Its answer at the end of the bytes. -/
  finish : σ → Nat → Checked α

namespace Loop

variable {σ α : Type} (loop : Loop σ α) (bytes : List UInt8)

theorem lt_length_of_peek {bytes : List UInt8} {i : Nat} {c : Char} (h : peek bytes i = some c) :
    i < bytes.length := by
  obtain ⟨hlt, -⟩ := List.getElem?_eq_some_iff.1 h
  rwa [view, List.length_map] at hlt

/-- Runs from an index on. The index must grow in every step. -/
def run (state : σ) (i : Nat) : Checked α :=
  match h : peek bytes i with
  | none => loop.finish state i
  | some c =>
    match loop.step state i c with
    | .error failure => .error failure
    | .ok (.stop answer) => .ok answer
    | .ok (.go next j) =>
      have := lt_length_of_peek h
      if j ≤ maxSize then
        if _ : i < j then run next j else .error .stuck
      else .error .overflow
termination_by bytes.length - i

variable {loop bytes} {state next : σ} {i j : Nat} {c : Char} {answer : α}

/-- At the end of the bytes a loop is finished. -/
theorem run_end (h : peek bytes i = none) : loop.run bytes state i = loop.finish state i := by
  rw [run]
  split
  · rfl
  · next hsome => cases h.symm.trans hsome

/-- In front of a byte a loop does its step. -/
theorem run_step (h : peek bytes i = some c) : loop.run bytes state i =
    match loop.step state i c with
    | .error failure => .error failure
    | .ok (.stop answer) => .ok answer
    | .ok (.go next j) =>
      if j ≤ maxSize then
        if i < j then loop.run bytes next j else .error .stuck
      else .error .overflow := by
  rw [run]
  split
  · next hnone => cases h.symm.trans hnone
  · next d hsome =>
    obtain rfl := Option.some.inj (h.symm.trans hsome)
    rfl

/-- A loop stops where it has an answer. -/
theorem run_stop (h : peek bytes i = some c) (hstep : loop.step state i c = .ok (.stop answer)) :
    loop.run bytes state i = .ok answer := by
  rw [run_step h, hstep]

/-- A loop goes on where its index grows. -/
theorem run_go (h : peek bytes i = some c) (hstep : loop.step state i c = .ok (.go next j))
    (hlt : i < j) (hle : j ≤ maxSize) : loop.run bytes state i = loop.run bytes next j := by
  rw [run_step h, hstep]
  simp only [if_pos hle, if_pos hlt]

end Loop

/-- Passes over bytes that have a property. -/
def skipWhile (p : Char → Bool) : Loop Unit Nat where
  step _ i c := .ok (if p c then .go () (i + 1) else .stop i)
  finish _ i := .ok i

/-! ### Readers -/

/-- What a reader finds from an index on: nothing more, or the next thing and the index from which
it reads on, if it does. -/
abbrev Found (α : Type) := Option (α × Option Nat)

/-- All that a reader finds from an index on. The index must grow, up to a bound. -/
def drain {α : Type} (next : Nat → Checked (Found α)) (bound i : Nat) : Checked (List α) :=
  match next i with
  | .error failure => .error failure
  | .ok none => .ok []
  | .ok (some (found, none)) => .ok [found]
  | .ok (some (found, some j)) =>
    if _ : i < j ∧ j ≤ bound then (found :: ·) <$> drain next bound j else .error .stuck
termination_by bound - i

section Drain

variable {α : Type} {next : Nat → Checked (Found α)} {bound i j : Nat} {found : α}

theorem drain_none (h : next i = .ok none) : drain next bound i = .ok [] := by
  rw [drain, h]

theorem drain_last (h : next i = .ok (some (found, none))) : drain next bound i = .ok [found] := by
  rw [drain, h]

theorem drain_some (h : next i = .ok (some (found, some j))) (hlt : i < j) (hle : j ≤ bound) :
    drain next bound i = (found :: ·) <$> drain next bound j := by
  rw [drain, h]
  exact dif_pos ⟨hlt, hle⟩

/-- A reader finds no more things than it passes over bytes, and one more at the end. -/
theorem length_le_of_drain {all : List α} (h : drain next bound i = .ok all) :
    all.length ≤ bound - i + 1 := by
  induction hn : bound - i using Nat.strongRecOn generalizing i all with
  | ind n ih =>
    subst hn
    rw [drain] at h
    split at h
    · cases h
    · cases h
      exact Nat.zero_le _
    · cases h
      exact Nat.le_add_left ..
    · split at h
      · next found j _ hj =>
        cases hrest : drain next bound j with
        | error failure =>
          rw [hrest] at h
          cases h
        | ok more =>
          rw [hrest] at h
          cases h
          have := ih (bound - j) (by omega) hrest rfl
          rw [List.length_cons]
          omega
      · cases h

end Drain

end TagLint.Bytes
