import Mathlib.Logic.Relation
import TagLint.Proofs.Bytes.Checked

/-!
# The progress of a loop

- `Loop.Moves`: one iteration of a loop that neither answers nor fails.
- `Loop.Reaches`: what a loop comes to in any number of iterations.
- `Loop.Advances`: every iteration moves the index ahead, whatever the state.
- `Loop.exists_answers_of_run`, `Loop.run_eq_of_reaches`: a run answers where it comes to an answer.
- `Loop.AllLead`: what is asked of single moves to have this, and to know where a run answers
  (`Loop.AllLead.of_run`).
-/

namespace TagLint.Bytes

namespace Loop

variable {σ α : Type} {loop : Loop σ α} {bytes : List UInt8} {state : σ} {i : Nat}

/-- From a state at an index, the loop goes on in another state at another index. -/
def Moves (loop : Loop σ α) (bytes : List UInt8) (here next : σ × Nat) : Prop :=
  ∃ c, peek bytes here.2 = some c ∧ loop.step here.1 here.2 c = .ok (.go next.1 next.2)

/-- The loop comes from a state at an index to another state at another index. -/
def Reaches (loop : Loop σ α) (bytes : List UInt8) : σ × Nat → σ × Nat → Prop :=
  Relation.ReflTransGen (loop.Moves bytes)

/-- The index grows in every iteration. -/
def Advances (loop : Loop σ α) (bytes : List UInt8) : Prop :=
  ∀ here next : σ × Nat, loop.Moves bytes here next → here.2 < next.2

/-- There is one way to go on. -/
theorem Moves.unique {here next other : σ × Nat} (h : loop.Moves bytes here next)
    (hother : loop.Moves bytes here other) : other = next := by
  obtain ⟨c, hpeek, hstep⟩ := h
  obtain ⟨d, hpeek', hstep'⟩ := hother
  obtain rfl := Option.some.inj (hpeek'.symm.trans hpeek)
  injection hstep'.symm.trans hstep with hmove
  injection hmove with hstate hindex
  exact Prod.ext hstate hindex

/-- In a state at an index the loop has an answer: an iteration gives it, or the bytes end there. -/
def Answers (loop : Loop σ α) (bytes : List UInt8) (here : σ × Nat) (answer : α) : Prop :=
  (∃ c, peek bytes here.2 = some c ∧ loop.step here.1 here.2 c = .ok (.stop answer)) ∨
    peek bytes here.2 = none ∧ loop.finish here.1 here.2 = .ok answer

theorem Answers.run_eq {here : σ × Nat} {answer : α} (h : loop.Answers bytes here answer) :
    loop.run bytes here.1 here.2 = .ok answer := by
  rcases h with ⟨c, hpeek, hstep⟩ | ⟨hend, hfinish⟩
  · exact run_stop hpeek hstep
  · exact (run_end hend).trans hfinish

/-- A run that does not fail comes to where the loop has its answer. -/
theorem exists_answers_of_run {answer : α} (h : loop.run bytes state i = .ok answer) :
    ∃ there, loop.Reaches bytes (state, i) there ∧ loop.Answers bytes there answer := by
  fun_induction loop.run bytes state i with
  | case1 state i hnone => exact ⟨_, .refl, .inr ⟨hnone, h⟩⟩
  | case2 => cases h
  | case3 state i c hsome found hfound =>
    cases h
    exact ⟨_, .refl, .inl ⟨c, hsome, hfound⟩⟩
  | case4 state i c hsome next j hgo hlt hle hgrows ih =>
    obtain ⟨there, hpath, hanswers⟩ := ih h
    exact ⟨there, .head ⟨c, hsome, hgo⟩ hpath, hanswers⟩
  | case5 => cases h
  | case6 => cases h

/-- A run is the same from everywhere that it comes to, if its index grows in range. -/
theorem run_eq_of_reaches {here there : σ × Nat} (hadvances : loop.Advances bytes)
    (hrange : ∀ here next : σ × Nat, loop.Moves bytes here next → next.2 ≤ maxSize)
    (h : loop.Reaches bytes here there) :
    loop.run bytes here.1 here.2 = loop.run bytes there.1 there.2 := by
  induction h with
  | refl => rfl
  | @tail before after _ hmove ih =>
    obtain ⟨c, hpeek, hstep⟩ := hmove
    rw [ih, run_go hpeek hstep (hadvances before after ⟨c, hpeek, hstep⟩)
      (hrange before after ⟨c, hpeek, hstep⟩)]

/-- From an index a move goes on ahead of it, or it answers as `p` says. -/
def Leads (p : Nat → α → Prop) (i : Nat) : Move σ α → Prop
  | .go _ j => i < j
  | .stop answer => p i answer

/-- All moves of a loop go on ahead of their index or answer as `p` says. -/
def AllLead (loop : Loop σ α) (p : Nat → α → Prop) : Prop :=
  ∀ state i c move, loop.step state i c = .ok move → Leads p i move

variable {p : Nat → α → Prop}

theorem AllLead.advances (h : loop.AllLead p) (bytes : List UInt8) : loop.Advances bytes := by
  rintro ⟨state, i⟩ ⟨next, j⟩ ⟨c, -, hstep⟩
  exact h state i c _ hstep

/-- What is so of every answer that is given at an index is so of the answer of a run, if it is the
less asked of an answer the further on the run begins. -/
theorem AllLead.of_run (h : loop.AllLead p)
    (hfinish : ∀ state i answer, loop.finish state i = .ok answer → p i answer)
    (hmono : ∀ i j answer, i < j → p j answer → p i answer) {answer : α}
    (hrun : loop.run bytes state i = .ok answer) : p i answer := by
  fun_induction loop.run bytes state i with
  | case1 state i hnone => exact hfinish state i answer hrun
  | case2 => cases hrun
  | case3 state i c hsome found hfound =>
    cases hrun
    exact h state i c _ hfound
  | case4 state i c hsome next j hgo hlt hle hgrows ih => exact hmono i j answer hgrows (ih hrun)
  | case5 => cases hrun
  | case6 => cases hrun

end Loop

end TagLint.Bytes
