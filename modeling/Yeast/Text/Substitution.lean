import Yeast.Text.Basic

set_option autoImplicit false

/-! # Substitution

Replacing fixed sequences by other texts in one scan from left to right. At each position the
first rule whose sequence begins there is applied and the scan goes on behind the sequence, so
what a rule has written is never read again. Characters where no rule applies are kept.
-/

namespace Yeast

/-- A sequence of characters and what is written in its place. -/
structure Rule where
  sequence : Text
  replacement : Text

namespace Text

/-- The first rule whose sequence begins the text. -/
def rule? (rules : List Rule) (text : Text) : Option Rule :=
  rules.find? fun rule => rule.sequence.isPrefixOf text

/-- The scan, where the first `covered` characters belong to a sequence already replaced. -/
def substituteFrom (rules : List Rule) : Nat → Text → Text
  | _, [] => []
  | covered + 1, _ :: rest => substituteFrom rules covered rest
  -- no sequence is under way, so a rule may apply here
  | 0, c :: rest =>
    match rule? rules (c :: rest) with
    | some rule => rule.replacement ++ substituteFrom rules (rule.sequence.length - 1) rest
    | none => c :: substituteFrom rules 0 rest

def substitute (rules : List Rule) (text : Text) : Text := substituteFrom rules 0 text

@[simp]
theorem substitute_nil (rules : List Rule) : substitute rules [] = [] := rfl

/-- The characters covered by a replaced sequence are dropped. -/
theorem substituteFrom_eq_drop (rules : List Rule) (covered : Nat) (text : Text) :
    substituteFrom rules covered text = substitute rules (text.drop covered) := by
  induction covered generalizing text with
  | zero => rfl
  | succ covered ih =>
    cases text with
    | nil => rfl
    | cons c rest => simpa [substituteFrom] using ih rest

/-- Where no rule applies the character is kept. -/
theorem substitute_of_rule?_eq_none {rules : List Rule} {c : Char} {rest : Text}
    (h : rule? rules (c :: rest) = none) :
    substitute rules (c :: rest) = c :: substitute rules rest := by
  simp [substitute, substituteFrom, h]

/-- Where a rule applies its replacement is written and the scan goes on behind its sequence. -/
theorem substitute_of_rule?_eq_some {rules : List Rule} {rule : Rule} {text : Text}
    (h : rule? rules text = some rule) (ne : rule.sequence ≠ []) :
    substitute rules text =
      rule.replacement ++ substitute rules (text.drop rule.sequence.length) := by
  cases text with
  | nil =>
    have found := List.find?_some h
    cases hs : rule.sequence with
    | nil => exact absurd hs ne
    | cons a s => simp [hs] at found
  | cons c rest =>
    cases hs : rule.sequence with
    | nil => exact absurd hs ne
    | cons a s =>
      simp [substitute, substituteFrom, h, hs, substituteFrom_eq_drop rules s.length]

end Text

end Yeast
