import Mathlib.Data.List.Count
import TagLint.Proofs.Script.Braced

/-!
# Braces that are closed

A braced expression is closed by the brace that balances it, if there is one. Only braces that are
atoms by themselves count.

- `atoms`: a script, cut into its atoms.
- `IsClosed`: among the atoms of a text is a brace that closes a braced expression in which the
  text stands, and the braces around that, as many as are asked for.
- `bracedTail_go_of_open`: an expression that is not closed reaches to the end of the text.
-/

namespace TagLint.Script

/-- The atoms of a script, in order. -/
def atoms : List Char → List (List Char)
  | [] => []
  | c :: rest => (c :: rest.take (atomTail c rest)) :: atoms (rest.drop (atomTail c rest))
termination_by text => text.length
decreasing_by
  rw [List.length_drop, List.length_cons]
  omega

theorem atoms_nil : atoms [] = [] := by
  rw [atoms]

theorem atoms_cons (c : Char) (rest : List Char) :
    atoms (c :: rest) =
      (c :: rest.take (atomTail c rest)) :: atoms (rest.drop (atomTail c rest)) := by
  rw [atoms]

/-- A brace is an atom by itself. -/
theorem atoms_brace {c : Char} (hc : c = '{' ∨ c = '}') (rest : List Char) :
    atoms (c :: rest) = [c] :: atoms rest := by
  have htail : atomTail c rest = 0 := by
    rcases hc with rfl | rfl <;> rfl
  rw [atoms_cons, htail, List.take_zero, List.drop_zero]

/-- Of the atoms of a text one is a closing brace, in front of which as many braces are closed as
opened, and `outer` more. -/
def IsClosed (outer : Nat) (text : List Char) : Prop :=
  ∃ inner behind, atoms text = inner ++ ['}'] :: behind ∧
    inner.count ['}'] = inner.count ['{'] + outer

variable {outer : Nat} {rest : List Char}

theorem not_isClosed_nil (outer : Nat) : ¬ IsClosed outer [] := by
  rintro ⟨inner, behind, hatoms, -⟩
  rw [atoms_nil] at hatoms
  cases inner <;> cases hatoms

theorem isClosed_close_zero (rest : List Char) : IsClosed 0 ('}' :: rest) :=
  ⟨[], atoms rest, atoms_brace (.inr rfl) rest, rfl⟩

/-- A first atom that is no closing brace is in front of the closing brace. -/
theorem isClosed_iff_of_atoms {text behind : List Char} {first : List Char}
    (hatoms : atoms text = first :: atoms behind) (hfirst : first ≠ ['}'] ∨ outer ≠ 0) :
    IsClosed outer text ↔ ∃ inner after, atoms behind = inner ++ ['}'] :: after ∧
      (first :: inner).count ['}'] = (first :: inner).count ['{'] + outer := by
  constructor
  · rintro ⟨inner, after, htext, hcount⟩
    rw [hatoms] at htext
    rcases inner with _ | ⟨next, inner⟩
    · obtain ⟨rfl, -⟩ := List.cons.inj htext
      rw [List.count_nil, List.count_nil, Nat.zero_add] at hcount
      rcases hfirst with hne | hne
      · exact absurd rfl hne
      · exact absurd hcount.symm hne
    · obtain ⟨rfl, hbehind⟩ := List.cons.inj htext
      exact ⟨inner, after, hbehind, hcount⟩
  · rintro ⟨inner, after, hbehind, hcount⟩
    exact ⟨first :: inner, after, by rw [hatoms, hbehind, List.cons_append], hcount⟩

theorem isClosed_open : IsClosed outer ('{' :: rest) ↔ IsClosed (outer + 1) rest := by
  rw [isClosed_iff_of_atoms (atoms_brace (.inl rfl) rest) (.inl (by decide)), IsClosed]
  refine exists₂_congr fun inner after => and_congr_right fun _ => ?_
  rw [List.count_cons_of_ne (by decide), List.count_cons_self]
  omega

theorem isClosed_close_succ : IsClosed (outer + 1) ('}' :: rest) ↔ IsClosed outer rest := by
  rw [isClosed_iff_of_atoms (atoms_brace (.inr rfl) rest) (.inr (Nat.succ_ne_zero outer)),
    IsClosed]
  refine exists₂_congr fun inner after => and_congr_right fun _ => ?_
  rw [List.count_cons_self, List.count_cons_of_ne (by decide)]
  omega

theorem isClosed_atom {c : Char} (hopen : c ≠ '{') (hclose : c ≠ '}') :
    IsClosed outer (c :: rest) ↔ IsClosed outer (rest.drop (atomTail c rest)) := by
  have hne {brace : Char} (h : c ≠ brace) : c :: rest.take (atomTail c rest) ≠ [brace] :=
    fun heq => h (List.cons.inj heq).1
  rw [isClosed_iff_of_atoms (atoms_cons c rest) (.inl (hne hclose)), IsClosed]
  refine exists₂_congr fun inner after => and_congr_right fun _ => ?_
  rw [List.count_cons_of_ne (hne hclose), List.count_cons_of_ne (hne hopen)]

/-- An expression that is not closed reaches to the end of the text. -/
theorem bracedTail_go_of_open {taken : Nat} {text : List Char} (h : ¬ IsClosed outer text) :
    bracedTail.go outer taken text = taken + text.length := by
  fun_induction bracedTail.go outer taken text with
  | case1 => rfl
  | case2 outer taken rest ih =>
    rw [ih (mt isClosed_open.2 h), List.length_cons]
    omega
  | case3 taken rest => exact absurd (isClosed_close_zero rest) h
  | case4 taken rest outer hopen ih =>
    rw [ih (mt isClosed_close_succ.2 h), List.length_cons]
    omega
  | case5 outer taken c rest hopen hclose tail ih =>
    have hle : tail ≤ rest.length := atomTail_le c rest
    rw [ih (mt (isClosed_atom hopen hclose).2 h), List.length_drop, List.length_cons]
    omega

theorem bracedTail_of_open {text : List Char} (h : ¬ IsClosed 0 text) :
    bracedTail text = text.length := by
  rw [bracedTail, bracedTail_go_of_open h, Nat.zero_add]

end TagLint.Script
