import TagLint.Json.Printer
import TagLint.Proofs.Json.Machine
import TagLint.Proofs.Json.Words

/-!
# Reading what is printed

A JSON text is read in two steps, as it is made: its tokens, and then the value of the tokens. What
is printed is a text of the value, so the value is read back.

- `read?_eq_some_iff`: the texts of a value are read as this value, and no others are.
- `spells_print`: what is printed spells the tokens of the value.
- `Value.isText_render`, `read?_render`: a printed value is a text of the value, which is read back.
-/

namespace TagLint.Json

open Value (itemTokens memberTokens printItems printMembers)

/-- The value of a JSON text, if it is one. -/
def read? (text : String) : Option Value :=
  (tokens? text.toList).bind parse

/-- **The texts of a value are read as this value**, and no others are. -/
theorem read?_eq_some_iff {text : String} {value : Value} :
    read? text = some value ↔ value.IsText text := by
  rw [read?, Option.bind_eq_some_iff]
  constructor
  · rintro ⟨tokens, htokens, hparse⟩
    rw [parse_eq_some_iff] at hparse
    rw [Value.IsText, ← hparse]
    exact tokens?_eq_some_iff.1 htokens
  · intro h
    exact ⟨value.tokens, tokens?_eq_some_iff.2 h, parse_eq_some_iff.2 rfl⟩

/-! ### Strings -/

/-- The escape of a control character holds its code. -/
theorem code?_of_lt {code : Nat} (h : code < 0x20) :
    code? '0' '0' (Nat.digitChar (code / 16)) (Nat.digitChar (code % 16)) = some code := by
  revert code
  decide

/-- A character is escaped in one of its forms. -/
theorem writes_escape (c : Char) : Writes (escape c) c := by
  unfold escape
  -- the short escapes
  iterate 7
    split
    · subst c
      exact .short rfl
  split
  case isTrue hcontrol =>
    have hcode := code?_of_lt hcontrol
    have hhigh : isHigh c.toNat = false := by
      simp only [isHigh, decide_eq_false_iff_not]
      omega
    have hlow : isLow c.toNat = false := by
      simp only [isLow, decide_eq_false_iff_not]
      omega
    have hwrites := Writes.code hcode hhigh hlow
    rwa [Char.ofNat_toNat] at hwrites
  case isFalse hquote hbackslash _ _ _ _ _ hcontrol =>
    refine .plain ?_
    simp only [isPlain, Bool.and_eq_true, decide_eq_true_eq, bne_iff_ne]
    exact ⟨⟨Nat.not_lt.1 hcontrol, hquote⟩, hbackslash⟩

theorem writesAll_escape (text : List Char) : WritesAll (text.flatMap escape) text := by
  induction text with
  | nil => exact .nil
  | cons c text ih => exact .cons (writes_escape c) ih

/-- A quoted text is a token. -/
theorem word_quote (value : String) : Word (quote value.toList) (.string value) :=
  .string (writesAll_escape value.toList)

/-! ### Lines -/

variable {text : List Char} {tokens : List Token}

/-- A token that is no number may stand in front of anything. -/
theorem Spells.mark {c : Char} (h : c ∈ marks) (htext : Spells text tokens) :
    Spells (c :: text) (.mark c :: tokens) :=
  .token (.mark h) nofun htext

/-- So may a string. -/
theorem Spells.quote (value : String) (htext : Spells text tokens) :
    Spells (quote value.toList ++ text) (.string value :: tokens) :=
  .token (word_quote value) nofun htext

/-- The start of a line is white space. -/
theorem Spells.newline (depth : Nat) (htext : Spells text tokens) :
    Spells (newline depth ++ text) tokens := by
  refine .space rfl ?_
  show Spells (List.replicate (2 * depth) ' ' ++ text) tokens
  induction 2 * depth with
  | zero => exact htext
  | succ count ih =>
    rw [List.replicate_succ]
    exact .space rfl ih

theorem ends_newline (depth : Nat) (text : List Char) :
    Text.Ends Char.isDigit (newline depth ++ text) :=
  Text.ends_cons rfl

/-! ### Values -/

mutual

/-- **What is printed spells the tokens of the value.** A digit must not stand behind it. -/
theorem spells_print (value : Value) (depth : Nat) {text : List Char} {tokens : List Token}
    (hends : Text.Ends Char.isDigit text) (htext : Spells text tokens) :
    Spells (value.print depth ++ text) (value.tokens ++ tokens) :=
  match value with
  | .bool true => .token .yes nofun htext
  | .bool false => .token .no nofun htext
  | .number value => .token (.number value) (fun _ _ => hends) htext
  | .string value => .quote value htext
  | .array [] => .mark (by decide) (.mark (by decide) htext)
  | .array (item :: items) => by
    have hclose : Spells (newline depth ++ (']' :: text)) (.mark ']' :: tokens) :=
      .newline depth (.mark (by decide) htext)
    have hitems := spells_printItems (item :: items) (depth + 1) (ends_newline _ _) hclose
    rw [Value.print, Value.tokens]
    simp only [List.cons_append, List.append_assoc, List.nil_append]
    exact .mark (by decide) hitems
  | .object [] => .mark (by decide) (.mark (by decide) htext)
  | .object (member :: members) => by
    have hclose : Spells (newline depth ++ ('}' :: text)) (.mark '}' :: tokens) :=
      .newline depth (.mark (by decide) htext)
    have hmembers := spells_printMembers (member :: members) (depth + 1) (ends_newline _ _) hclose
    rw [Value.print, Value.tokens]
    simp only [List.cons_append, List.append_assoc, List.nil_append]
    exact .mark (by decide) hmembers

/-- The lines of items spell the tokens of the items. -/
theorem spells_printItems (items : List Value) (depth : Nat) {text : List Char}
    {tokens : List Token} (hends : Text.Ends Char.isDigit text) (htext : Spells text tokens) :
    Spells (printItems depth items ++ text) (itemTokens items ++ tokens) :=
  match items with
  | [] => htext
  | [item] => by
    rw [printItems, itemTokens, List.append_assoc]
    exact .newline depth (spells_print item depth hends htext)
  | item :: next :: items => by
    have htail := spells_printItems (next :: items) depth hends htext
    have hcomma := Spells.mark (c := ',') (by decide) htail
    rw [Value.itemTokens_cons item (List.cons_ne_nil _ _)]
    show Spells ((newline depth ++ item.print depth ++ ',' :: printItems depth (next :: items)) ++
      text) _
    simp only [List.cons_append, List.append_assoc]
    exact .newline depth (spells_print item depth (Text.ends_cons rfl) hcomma)

/-- The lines of members spell the tokens of the members. -/
theorem spells_printMembers (members : List (String × Value)) (depth : Nat) {text : List Char}
    {tokens : List Token} (hends : Text.Ends Char.isDigit text) (htext : Spells text tokens) :
    Spells (printMembers depth members ++ text) (memberTokens members ++ tokens) :=
  match members with
  | [] => htext
  | [(name, value)] => by
    have hvalue := spells_print value depth hends htext
    rw [printMembers, memberTokens]
    simp only [List.cons_append, List.append_assoc]
    exact .newline depth (.quote name (.mark (by decide) (.space rfl hvalue)))
  | (name, value) :: next :: members => by
    have htail := spells_printMembers (next :: members) depth hends htext
    have hcomma := Spells.mark (c := ',') (by decide) htail
    have hvalue := spells_print value depth (Text.ends_cons rfl) hcomma
    rw [Value.memberTokens_cons name value (List.cons_ne_nil _ _)]
    show Spells ((newline depth ++ quote name.toList ++ ':' :: ' ' :: value.print depth
      ++ ',' :: printMembers depth (next :: members)) ++ text) _
    simp only [List.cons_append, List.append_assoc]
    exact .newline depth (.quote name (.mark (by decide) (.space rfl hvalue)))

end

/-- A printed value is a text of the value. -/
theorem Value.isText_render (value : Value) : value.IsText value.render := by
  have h : Spells (value.print 0 ++ []) (value.tokens ++ []) := spells_print value 0 nofun .nil
  rw [List.append_nil, List.append_nil] at h
  rw [IsText, render, String.toList_ofList]
  exact h

/-- **A printed value is read back.** -/
theorem read?_render (value : Value) : read? value.render = some value :=
  read?_eq_some_iff.2 value.isText_render

end TagLint.Json
