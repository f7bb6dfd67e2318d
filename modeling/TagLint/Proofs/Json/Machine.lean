import TagLint.Proofs.Json.Grammar

/-!
# Reading a value from its tokens

The tokens of a value are read one at a time by a machine with a stack. Each frame of the stack is
an array or an object that is not closed yet.

- `State.tokens_step`, `State.tokens_run`: a state knows the tokens that it comes from.
- `State.run_tokens`: the machine takes the tokens of a value whole.
- `parse_eq_some_iff`: a value is read from its tokens, and from no others.
-/

namespace TagLint.Json

open Value (itemTokens memberTokens)

/-- An array or an object that is not closed yet. -/
inductive Frame where
  /-- An array, with the items that a comma follows. -/
  | items (done : List Value)
  /-- An object, with the members that a comma follows. -/
  | members (done : List (String × Value))
  /-- An object as above, and the name of a member whose value is due. -/
  | member (done : List (String × Value)) (name : String)

/-- What comes next. -/
inductive Mode where
  /-- A value. -/
  | value
  /-- The name of a member. -/
  | name
  /-- The colon behind the name of a member. -/
  | colon (name : String)
  /-- What stands behind a value. -/
  | behind (value : Value)

/-- A state of the machine. The innermost frame is the first. -/
structure State where
  mode : Mode
  frames : List Frame

namespace State

/-- The machine takes one token. Behind a comma neither an array nor an object is closed. -/
def step (s : State) (token : Token) : Option State :=
  match s.mode, token, s.frames with
  | .value, .literal value, frames => some ⟨.behind (.bool value), frames⟩
  | .value, .number value, frames => some ⟨.behind (.number value), frames⟩
  | .value, .string value, frames => some ⟨.behind (.string value), frames⟩
  | .value, .mark '[', frames => some ⟨.value, .items [] :: frames⟩
  | .value, .mark ']', .items [] :: frames => some ⟨.behind (.array []), frames⟩
  | .value, .mark '{', frames => some ⟨.name, .members [] :: frames⟩
  | .name, .mark '}', .members [] :: frames => some ⟨.behind (.object []), frames⟩
  | .name, .string name, frames => some ⟨.colon name, frames⟩
  | .colon name, .mark ':', .members done :: frames => some ⟨.value, .member done name :: frames⟩
  | .behind value, .mark ',', .items done :: frames =>
    some ⟨.value, .items (done ++ [value]) :: frames⟩
  | .behind value, .mark ']', .items done :: frames =>
    some ⟨.behind (.array (done ++ [value])), frames⟩
  | .behind value, .mark ',', .member done name :: frames =>
    some ⟨.name, .members (done ++ [(name, value)]) :: frames⟩
  | .behind value, .mark '}', .member done name :: frames =>
    some ⟨.behind (.object (done ++ [(name, value)])), frames⟩
  | _, _, _ => none

/-- The machine takes one token after the other. -/
def run (s : State) (tokens : List Token) : Option State :=
  tokens.foldlM step s

theorem run_cons (s : State) (token : Token) (tokens : List Token) :
    s.run (token :: tokens) = (s.step token).bind (·.run tokens) :=
  List.foldlM_cons

theorem run_append (s : State) (tokens more : List Token) :
    s.run (tokens ++ more) = (s.run tokens).bind (·.run more) :=
  List.foldlM_append

/-- The value that is read, if the machine is behind it and nothing is open. -/
def value? : State → Option Value
  | ⟨.behind value, []⟩ => some value
  | _ => none

end State

/-- The value of a sequence of tokens. -/
def parse (tokens : List Token) : Option Value :=
  (State.run ⟨.value, []⟩ tokens).bind State.value?

/-! ### What the machine has read -/

/-- The tokens of items that a comma follows. -/
def itemsAndComma (done : List Value) : List Token :=
  done.flatMap fun item => item.tokens ++ [.mark ',']

/-- The tokens of members that a comma follows. -/
def membersAndComma (done : List (String × Value)) : List Token :=
  done.flatMap fun (name, value) => .string name :: .mark ':' :: (value.tokens ++ [.mark ','])

/-- The tokens of an open array or object. -/
def Frame.tokens : Frame → List Token
  | items done => .mark '[' :: itemsAndComma done
  | members done => .mark '{' :: membersAndComma done
  | member done name => .mark '{' :: (membersAndComma done ++ [.string name, .mark ':'])

/-- The tokens since the innermost frame. -/
def Mode.tokens : Mode → List Token
  | .value => []
  | .name => []
  | .colon member => [.string member]
  | .behind found => found.tokens

/-- The tokens that a state comes from. -/
def State.tokens (s : State) : List Token :=
  s.frames.reverse.flatMap Frame.tokens ++ s.mode.tokens

/-- A comma stands between two items. -/
theorem Value.itemTokens_cons (item : Value) {items : List Value} (h : items ≠ []) :
    itemTokens (item :: items) = item.tokens ++ .mark ',' :: itemTokens items := by
  cases items with
  | nil => cases h rfl
  | cons => rw [itemTokens]; exact List.cons_ne_nil _ _

/-- A comma stands between two members. -/
theorem Value.memberTokens_cons (name : String) (value : Value) {members : List (String × Value)}
    (h : members ≠ []) : memberTokens ((name, value) :: members) =
      .string name :: .mark ':' :: (value.tokens ++ .mark ',' :: memberTokens members) := by
  cases members with
  | nil => cases h rfl
  | cons => rw [memberTokens]; exact List.cons_ne_nil _ _

/-- The last item has no comma. -/
theorem itemTokens_append (done : List Value) (item : Value) :
    itemTokens (done ++ [item]) = itemsAndComma done ++ item.tokens := by
  induction done with
  | nil => rfl
  | cons first done ih =>
    rw [List.cons_append, Value.itemTokens_cons first (by simp), ih, itemsAndComma,
      itemsAndComma, List.flatMap_cons]
    simp only [List.append_assoc, List.cons_append, List.nil_append]

/-- The last member has no comma. -/
theorem memberTokens_append (done : List (String × Value)) (name : String) (value : Value) :
    memberTokens (done ++ [(name, value)]) =
      membersAndComma done ++ .string name :: .mark ':' :: value.tokens := by
  induction done with
  | nil => rfl
  | cons first done ih =>
    obtain ⟨firstName, firstValue⟩ := first
    rw [List.cons_append, Value.memberTokens_cons firstName firstValue (by simp), ih,
      membersAndComma, membersAndComma, List.flatMap_cons]
    simp only [List.append_assoc, List.cons_append, List.nil_append]

namespace State

variable {s s' : State}

/-- **A token is added to those that a state comes from.** -/
theorem tokens_step {token : Token} (h : s.step token = some s') :
    s'.tokens = s.tokens ++ [token] := by
  obtain ⟨mode, frames⟩ := s
  simp only [step] at h
  split at h
  case h_14 => cases h
  all_goals
    cases h
    simp [tokens, Frame.tokens, Mode.tokens, Value.tokens, itemTokens, memberTokens,
      itemTokens_append, memberTokens_append, itemsAndComma, membersAndComma]

/-- So are all tokens of a run. -/
theorem tokens_run {tokens : List Token} (h : s.run tokens = some s') :
    s'.tokens = s.tokens ++ tokens := by
  induction tokens generalizing s with
  | nil =>
    cases h
    rw [List.append_nil]
  | cons token tokens ih =>
    rw [run_cons] at h
    obtain ⟨next, hstep, hrun⟩ := Option.bind_eq_some_iff.1 h
    rw [ih hrun, tokens_step hstep, List.append_assoc, List.singleton_append]

/-! ### What the machine reads -/

mutual

/-- **The machine takes the tokens of a value** from where a value is due to where it is behind
this value. -/
theorem run_tokens (value : Value) (frames : List Frame) :
    run ⟨.value, frames⟩ value.tokens = some ⟨.behind value, frames⟩ :=
  match value with
  | .bool _ => rfl
  | .number _ => rfl
  | .string _ => rfl
  | .array [] => rfl
  | .array (item :: items) => run_itemTokens (item :: items) (List.cons_ne_nil _ _) [] frames
  | .object [] => rfl
  | .object (member :: members) =>
    run_memberTokens (member :: members) (List.cons_ne_nil _ _) [] frames

/-- The machine takes the items that are left of an array. -/
theorem run_itemTokens (items : List Value) (hne : items ≠ []) (done : List Value)
    (frames : List Frame) :
    run ⟨.value, .items done :: frames⟩ (itemTokens items ++ [.mark ']']) =
      some ⟨.behind (.array (done ++ items)), frames⟩ :=
  match items with
  | [] => absurd rfl hne
  | [item] => by
    rw [itemTokens, run_append, run_tokens item]
    rfl
  | item :: next :: items => by
    have htail := run_itemTokens (next :: items) (List.cons_ne_nil _ _) (done ++ [item]) frames
    rw [List.append_assoc, List.singleton_append] at htail
    rw [Value.itemTokens_cons item (List.cons_ne_nil _ _), List.append_assoc, run_append,
      run_tokens item]
    exact htail

/-- The machine takes the members that are left of an object. -/
theorem run_memberTokens (members : List (String × Value)) (hne : members ≠ [])
    (done : List (String × Value)) (frames : List Frame) :
    run ⟨.name, .members done :: frames⟩ (memberTokens members ++ [.mark '}']) =
      some ⟨.behind (.object (done ++ members)), frames⟩ :=
  match members with
  | [] => absurd rfl hne
  | [(name, value)] => by
    rw [memberTokens]
    show run ⟨.value, .member done name :: frames⟩ (value.tokens ++ [.mark '}']) = _
    rw [run_append, run_tokens value]
    rfl
  | (name, value) :: next :: members => by
    have htail := run_memberTokens (next :: members) (List.cons_ne_nil _ _)
      (done ++ [(name, value)]) frames
    rw [List.append_assoc, List.singleton_append] at htail
    rw [Value.memberTokens_cons name value (List.cons_ne_nil _ _)]
    show run ⟨.value, .member done name :: frames⟩
      ((value.tokens ++ .mark ',' :: memberTokens (next :: members)) ++ [.mark '}']) = _
    rw [List.append_assoc, run_append, run_tokens value]
    exact htail

end

end State

/-- **A value is read from its tokens**, and from no others. -/
theorem parse_eq_some_iff {tokens : List Token} {value : Value} :
    parse tokens = some value ↔ tokens = value.tokens := by
  constructor
  · intro h
    obtain ⟨⟨mode, frames⟩, hrun, hvalue⟩ := Option.bind_eq_some_iff.1 h
    have htokens := State.tokens_run hrun
    cases frames with
    | nil =>
      cases mode with
      | behind value =>
        cases hvalue
        rw [State.tokens, State.tokens] at htokens
        exact htokens.symm
      | _ => cases hvalue
    | cons => cases mode <;> cases hvalue
  · rintro rfl
    rw [parse, State.run_tokens]
    rfl

end TagLint.Json
