import TagLint.Proofs.Bytes.Progress
import TagLint.Proofs.Bytes.Source

/-!
# The loops over bytes advance

A loop moves its index by a number of its own or to where a helper ends. So every helper has to end
behind the place where it starts, whether what it skips is closed or not.

- `lt_of_skipString`, `lt_of_skipComment`, `lt_of_skipBraced`, `lt_of_commentStop`: a helper that
  answers ends behind its start.
- `allLead_literal`, `allLead_quoted`, `allLead_braced`, `allLead_insideTag`, `allLead_occurrence`,
  `allLead_nextItem`: so each loop over the bytes of a source or of a tag advances.
-/

namespace TagLint.Bytes

open Script
open Loop (Leads)

variable {bytes : List UInt8} {start stop i j : Nat} {c : Char}

/-! ### Steps that have answered -/

/-- Of steps one after the other that do not fail, each has answered. -/
theorem exists_of_bind_eq_ok {α β : Type} {step : Checked α} {more : α → Checked β} {answer : β}
    (h : step >>= more = .ok answer) : ∃ a, step = .ok a ∧ more a = .ok answer := by
  cases step with
  | error failure => cases h
  | ok a => exact ⟨a, rfl, h⟩

theorem eq_of_add_eq_ok {a b sum : Nat} (h : add a b = .ok sum) : sum = a + b := by
  rw [add] at h
  split at h
  · cases h
    rfl
  · cases h

/-! ### Literals and comments -/

theorem allLead_literal (quote : Char) :
    (literal quote).AllLead fun i stop? => ∀ stop ∈ stop?, i < stop := by
  intro state i c move hstep
  have hmove : (literal quote).step state i c = .ok (if c = '\\' then .go () (i + 2)
    else if c = '\n' && quote != templateQuote then .stop none
    else if c = quote then .stop (some (i + 1))
    else .go () (i + 1)) := rfl
  cases hmove.symm.trans hstep
  split
  · exact Nat.lt_add_of_pos_right (by decide)
  split
  · exact nofun
  split
  · rintro stop ⟨⟩
    exact Nat.lt_succ_self i
  · exact Nat.lt_succ_self i

theorem lt_of_skipString (h : skipString bytes start = .ok (some stop)) : start < stop := by
  obtain ⟨quote, -, h⟩ := exists_of_bind_eq_ok h
  obtain ⟨body, hbody, h⟩ := exists_of_bind_eq_ok h
  obtain rfl := eq_of_add_eq_ok hbody
  have hstop := (allLead_literal quote).of_run (by rintro _ _ _ ⟨⟩; exact nofun)
    (fun i j stop? hlt hstop stop hmem => Nat.lt_trans hlt (hstop stop hmem)) h
  exact Nat.lt_of_succ_lt (hstop stop rfl)

theorem lt_of_skipComment (h : skipComment bytes start = .ok (some stop)) : start < stop := by
  obtain ⟨next, -, h⟩ := exists_of_bind_eq_ok h
  split at h
  · obtain ⟨body, hbody, h⟩ := exists_of_bind_eq_ok h
    obtain ⟨rest, -, h⟩ := exists_of_bind_eq_ok h
    obtain ⟨last, hlast, h⟩ := exists_of_bind_eq_ok h
    cases h
    rw [eq_of_add_eq_ok hlast, eq_of_add_eq_ok hbody]
    omega
  · obtain ⟨body, hbody, h⟩ := exists_of_bind_eq_ok h
    obtain ⟨rest, -, h⟩ := exists_of_bind_eq_ok h
    split at h
    · obtain ⟨closer, hcloser, h⟩ := exists_of_bind_eq_ok h
      obtain ⟨last, hlast, h⟩ := exists_of_bind_eq_ok h
      cases h
      rw [eq_of_add_eq_ok hlast, eq_of_add_eq_ok hcloser, eq_of_add_eq_ok hbody]
      omega
    · cases h
  · cases h

theorem lt_of_skipAtom (h : skipAtom bytes start c = .ok (some stop)) : start < stop := by
  rw [skipAtom] at h
  split at h
  · exact lt_of_skipComment h
  split at h
  · exact lt_of_skipString h
  · cases h

/-! ### Braced expressions -/

theorem allLead_braced (bytes : List UInt8) :
    (braced bytes).AllLead fun i stop => i < stop ∨ bytes.length ≤ stop := by
  intro depth i c move hstep
  obtain ⟨behind?, hskip, h⟩ := exists_of_bind_eq_ok hstep
  cases behind? with
  | some behind =>
    cases h
    exact lt_of_skipAtom hskip
  | none =>
    by_cases hopen : c = '{'
    · subst hopen
      obtain ⟨more, -, h⟩ := exists_of_bind_eq_ok h
      cases h
      exact Nat.lt_succ_self i
    by_cases hclose : c = '}'
    · subst hclose
      obtain ⟨left, -, h⟩ := exists_of_bind_eq_ok h
      cases h
      show Leads _ i (if left = 0 then _ else _)
      split
      · exact .inl (Nat.lt_succ_self i)
      · exact Nat.lt_succ_self i
    · simp only [if_neg hopen, if_neg hclose] at h
      cases h
      exact Nat.lt_succ_self i

/-- A braced expression that nothing closes ends with the bytes, and so behind its brace too. -/
theorem lt_of_skipBraced (hstart : start < bytes.length) (h : skipBraced bytes start = .ok stop) :
    start < stop := by
  have hfinish : ∀ (depth i stop : Nat), (braced bytes).finish depth i = .ok stop →
      i < stop ∨ bytes.length ≤ stop := by
    rintro depth i stop ⟨⟩
    exact .inr (Nat.le_refl _)
  have hmono : ∀ i j stop, i < j → j < stop ∨ bytes.length ≤ stop →
      i < stop ∨ bytes.length ≤ stop :=
    fun i j stop hlt hstop => hstop.imp_left (Nat.lt_trans hlt)
  have hstop := (allLead_braced bytes).of_run hfinish hmono h
  omega

/-! ### Attributes -/

theorem allLead_quoted (quote : Char) (size : Nat) : (quoted quote size).AllLead fun _ _ => True := by
  intro state i c move hstep
  have hmove : (quoted quote size).step state i c = .ok (if c = '\\' then .go () (i + 2)
    else if c = quote then .stop (i + 1)
    else .go () (i + 1)) := rfl
  cases hmove.symm.trans hstep
  split
  · exact Nat.lt_add_of_pos_right (by decide)
  split
  · trivial
  · exact Nat.lt_succ_self i

/-- A run of characters ends where it begins, or behind that. -/
theorem le_of_skipSpace (h : skipSpace bytes start = .ok stop) : start ≤ stop := by
  have hlead : (skipWhile Text.isSpace).AllLead fun i stop => i ≤ stop := by
    intro state i c move hstep
    have hmove : (skipWhile Text.isSpace).step state i c =
      .ok (if Text.isSpace c then .go () (i + 1) else .stop i) := rfl
    cases hmove.symm.trans hstep
    split
    · exact Nat.lt_succ_self i
    · exact Nat.le_refl i
  exact hlead.of_run (by rintro _ i _ ⟨⟩; exact Nat.le_refl i)
    (fun i j stop hlt hle => Nat.le_trans (Nat.le_of_lt hlt) hle) h

/-- Between two attributes the loop goes on behind white space and a spread. -/
theorem allLead_occurrence (base : Nat) (text : List Char) :
    (occurrence base text).AllLead fun _ _ => True := by
  intro state i c move hstep
  obtain ⟨place, hplace, h⟩ := exists_of_bind_eq_ok hstep
  have hle := le_of_skipSpace hplace
  split at h
  · next d hpeek =>
    rw [segmentAt] at h
    split at h
    · cases h
      trivial
    split at h
    · obtain ⟨ends, -, h⟩ := exists_of_bind_eq_ok h
      split at h
      · cases h
        trivial
      · obtain ⟨found, -, h⟩ := exists_of_bind_eq_ok h
        cases h
        trivial
    split at h
    · obtain ⟨behind, hbehind, h⟩ := exists_of_bind_eq_ok h
      cases h
      exact Nat.lt_of_le_of_lt hle (lt_of_skipBraced (Loop.lt_length_of_peek hpeek) hbehind)
    split at h
    · obtain ⟨found, -, h⟩ := exists_of_bind_eq_ok h
      cases h
      trivial
    · obtain ⟨found, -, h⟩ := exists_of_bind_eq_ok h
      cases h
      trivial
  · cases h
    trivial

/-! ### Tags -/

theorem allLead_insideTag (bytes : List UInt8) : (insideTag bytes).AllLead fun _ _ => True := by
  intro stack i c move hstep
  rcases insideTag_step_cases hstep with ⟨opened, outer, -, -, rfl⟩ | ⟨next, j, rfl, -, hj⟩
  · trivial
  · show i < j
    rcases hj with rfl | rfl | hskip
    · exact Nat.lt_succ_self i
    · exact Nat.lt_add_of_pos_right (by decide)
    · exact lt_of_skipAtom hskip

theorem lt_of_commentStop {source : List Char} {kind : CommentKind}
    (h : commentStop source kind start = .ok (some stop)) : start < stop := by
  obtain ⟨body, hbody, h⟩ := exists_of_bind_eq_ok h
  obtain ⟨rest, -, h⟩ := exists_of_bind_eq_ok h
  have hopener : 0 < kind.opener.length := by cases kind <;> decide
  split at h
  · obtain ⟨closer, hcloser, h⟩ := exists_of_bind_eq_ok h
    obtain ⟨last, hlast, h⟩ := exists_of_bind_eq_ok h
    cases h
    rw [eq_of_add_eq_ok hlast, eq_of_add_eq_ok hcloser, eq_of_add_eq_ok hbody]
    omega
  · cases h

/-- Between two tags the loop goes on behind an escape, a comment or a character. -/
theorem allLead_nextItem (source : List Char) (starts : List Nat) :
    (nextItem source starts).AllLead fun _ _ => True := by
  intro state i c move hstep
  by_cases hslash : c = '\\'
  · subst hslash
    cases hstep
    exact Nat.lt_add_of_pos_right (by decide)
  simp only [nextItem, if_neg hslash] at hstep
  obtain ⟨kind?, -, h⟩ := exists_of_bind_eq_ok hstep
  cases kind? with
  | some kind =>
    obtain ⟨stop?, hstop, h⟩ := exists_of_bind_eq_ok h
    cases stop? with
    | some stop =>
      cases h
      exact lt_of_commentStop hstop
    | none =>
      obtain ⟨fault, -, h⟩ := exists_of_bind_eq_ok h
      cases h
      trivial
  | none =>
    obtain ⟨opens, -, h⟩ := exists_of_bind_eq_ok h
    cases opens with
    | true =>
      obtain ⟨item, -, h⟩ := exists_of_bind_eq_ok h
      cases h
      trivial
    | false =>
      cases h
      exact Nat.lt_succ_self i

end TagLint.Bytes
