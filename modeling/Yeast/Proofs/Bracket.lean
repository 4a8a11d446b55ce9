import Mathlib.Data.List.Basic
import Mathlib.Tactic.Common

set_option autoImplicit false

/-! # Bracket words

A word of letters that open, letters that close and letters that stand alone. A closing letter
must fit the opening letter it ends, so that words over titles, over tags or over the entries of
a document are all bracket words, with a relation `fits` of their own.

`Balanced` is the language of well-bracketed words, given by its grammar. `remaining` reads a
word with a stack. The two agree: a word is balanced iff the stack is empty behind it
(`balanced_iff`), and it begins a balanced word iff it can be read at all
(`isSome_remaining_iff`). The stack has a meaning of its own: its top is the last opening letter
behind which the word is balanced (`remaining_eq_cons_iff`).
-/

namespace Yeast

/-- A letter of a bracket word. -/
inductive Bracket (α β : Type) where
  | opening (label : α)
  | single (label : α)
  | closing (label : β)
  deriving DecidableEq

namespace Bracket

variable {α β : Type} (fits : α → β → Prop)

/-- The well-bracketed words. -/
inductive Balanced : List (Bracket α β) → Prop
  | nil : Balanced []
  | single {a : α} {w : List (Bracket α β)} : Balanced w → Balanced (.single a :: w)
  | scope {a : α} {b : β} {inner rest : List (Bracket α β)} : fits a b → Balanced inner →
      Balanced rest → Balanced (.opening a :: (inner ++ .closing b :: rest))

variable {fits}

theorem Balanced.append {u v : List (Bracket α β)} (hu : Balanced fits u)
    (hv : Balanced fits v) : Balanced fits (u ++ v) := by
  induction hu with
  | nil => exact hv
  | single _ ih => exact .single ih
  | scope hab hinner _ _ ih =>
      rw [List.cons_append, List.append_assoc, List.cons_append]
      exact .scope hab hinner ih

variable (fits) [DecidableRel fits]

/-- Reads a word with the opening letters in `s` open before it, the innermost first: what is
open behind it, unless a closing letter meets none or one that it does not fit. -/
def remaining : List α → List (Bracket α β) → Option (List α)
  | s, [] => some s
  | s, .single _ :: w => remaining s w
  | s, .opening a :: w => remaining (a :: s) w
  | [], .closing _ :: _ => none
  | a :: s, .closing b :: w => if fits a b then remaining s w else none

variable {fits}

@[simp]
theorem remaining_nil (s : List α) : remaining fits s [] = some s := by
  cases s <;> rfl

@[simp]
theorem remaining_single (s : List α) (a : α) (w : List (Bracket α β)) :
    remaining fits s (.single a :: w) = remaining fits s w := by
  cases s <;> rfl

@[simp]
theorem remaining_opening (s : List α) (a : α) (w : List (Bracket α β)) :
    remaining fits s (.opening a :: w) = remaining fits (a :: s) w := by
  cases s <;> rfl

@[simp]
theorem remaining_closing_nil (b : β) (w : List (Bracket α β)) :
    remaining fits [] (.closing b :: w) = none := rfl

@[simp]
theorem remaining_closing_cons (a : α) (s : List α) (b : β) (w : List (Bracket α β)) :
    remaining fits (a :: s) (.closing b :: w) = if fits a b then remaining fits s w else none :=
  rfl

theorem remaining_append (s : List α) (u v : List (Bracket α β)) :
    remaining fits s (u ++ v) = (remaining fits s u).bind fun t => remaining fits t v := by
  induction u generalizing s with
  | nil => simp
  | cons x u ih =>
      cases x with
      | single a => simpa using ih s
      | opening a => simpa using ih (a :: s)
      | closing b =>
          cases s with
          | nil => rfl
          | cons a s =>
              rw [List.cons_append, remaining_closing_cons, remaining_closing_cons]
              split
              · exact ih s
              · rfl

theorem remaining_of_balanced {w : List (Bracket α β)} (h : Balanced fits w) (s : List α) :
    remaining fits s w = some s := by
  induction h generalizing s with
  | nil => simp
  | single _ ih => simpa using ih s
  | scope hab _ _ ih ih' => simp [remaining_append, ih, ih', hab]

/-- What is open below the letters that a word is read with stays open. -/
theorem remaining_append_stack {s s' : List α} {w : List (Bracket α β)}
    (h : remaining fits s w = some s') (t : List α) :
    remaining fits (s ++ t) w = some (s' ++ t) := by
  induction w generalizing s with
  | nil =>
      rw [remaining_nil, Option.some.injEq] at h
      rw [remaining_nil, h]
  | cons x w ih =>
      cases x with
      | single a => simpa using ih (by simpa using h)
      | opening a => simpa using ih (s := a :: s) (by simpa using h)
      | closing b =>
          cases s with
          | nil => simp at h
          | cons a s =>
              rw [remaining_closing_cons] at h
              rw [List.cons_append, remaining_closing_cons]
              split at h
              · rw [if_pos ‹_›]
                exact ih h
              · simp at h

/-- A word that is read with more open is read without it, or closes the last letter of what it
should do with at some point. -/
theorem remaining_cons_cases {s s' t : List α} {a : α} {w : List (Bracket α β)}
    (h : remaining fits (s ++ a :: t) w = some s') :
    (∃ s₁, remaining fits s w = some s₁ ∧ s' = s₁ ++ a :: t) ∨
      ∃ inner b rest, w = inner ++ .closing b :: rest ∧
        remaining fits s inner = some [] ∧ fits a b := by
  -- The first letter is read in both ways alike, unless it closes `a` itself.
  induction w generalizing s with
  | nil => exact Or.inl ⟨s, by simp, by simpa using h.symm⟩
  | cons x w ih =>
      cases x with
      | single c =>
          rw [remaining_single] at h
          rcases ih h with ⟨s₁, h₁, rfl⟩ | ⟨inner, b, rest, rfl, h₁, hab⟩
          · exact Or.inl ⟨s₁, by simpa using h₁, rfl⟩
          · exact Or.inr ⟨.single c :: inner, b, rest, rfl, by simpa using h₁, hab⟩
      | opening c =>
          rw [remaining_opening] at h
          rcases ih (s := c :: s) h with ⟨s₁, h₁, rfl⟩ | ⟨inner, b, rest, rfl, h₁, hab⟩
          · exact Or.inl ⟨s₁, by simpa using h₁, rfl⟩
          · exact Or.inr ⟨.opening c :: inner, b, rest, rfl, by simpa using h₁, hab⟩
      | closing c =>
          cases s with
          | nil =>
              rw [List.nil_append, remaining_closing_cons] at h
              split at h
              · exact Or.inr ⟨[], c, w, rfl, by simp, ‹_›⟩
              · simp at h
          | cons d s =>
              rw [List.cons_append, remaining_closing_cons] at h
              split at h
              · rename_i hd
                rcases ih h with ⟨s₁, h₁, rfl⟩ | ⟨inner, b, rest, rfl, h₁, hab⟩
                · exact Or.inl ⟨s₁, by simpa [hd] using h₁, rfl⟩
                · exact Or.inr ⟨.closing c :: inner, b, rest, rfl, by simpa [hd] using h₁, hab⟩
              · simp at h

/-! ## The stack and the grammar agree -/

/-- Behind a word that is read from nothing, the word is balanced behind the innermost letter
still open; where none is, the word is balanced. -/
theorem split_of_remaining (w : List (Bracket α β)) :
    (remaining fits [] w = some [] → Balanced fits w) ∧
      ∀ a s, remaining fits [] w = some (a :: s) →
        ∃ u v, w = u ++ .opening a :: v ∧ remaining fits [] u = some s ∧ Balanced fits v := by
  -- The last letter decides. A closing one ends the innermost open letter of the word before
  -- it, and what stands before that letter is shorter still.
  induction h : w.length using Nat.strongRecOn generalizing w with
  | ind n ih =>
      rcases List.eq_nil_or_concat w with rfl | ⟨w, x, rfl⟩
      · exact ⟨fun _ => .nil, by simp⟩
      have hlen : w.length < n := by simp at h; omega
      rw [List.concat_eq_append, remaining_append]
      cases hw : remaining fits [] w with
      | none => simp
      | some t =>
          obtain ⟨ih₀, ih₁⟩ := ih w.length hlen w rfl
          simp only [Option.bind_some]
          cases x with
          | single c =>
              have hsingle : Balanced fits [.single c] := .single .nil
              simp only [remaining_single, remaining_nil, Option.some.injEq]
              constructor
              · rintro rfl
                exact (ih₀ hw).append hsingle
              · rintro a s rfl
                obtain ⟨u, v, rfl, hu, hv⟩ := ih₁ a s hw
                exact ⟨u, v ++ [.single c], by simp, hu, hv.append hsingle⟩
          | opening c =>
              simp only [remaining_opening, remaining_nil, Option.some.injEq]
              refine ⟨by simp, ?_⟩
              rintro a s ⟨rfl, rfl⟩
              exact ⟨w, [], by simp, hw, .nil⟩
          | closing c =>
              cases t with
              | nil => simp
              | cons d t =>
                  obtain ⟨u, v, rfl, hu, hv⟩ := ih₁ d t hw
                  have hshort : u.length < n := by
                    rw [List.length_append] at hlen; omega
                  obtain ⟨ihu₀, ihu₁⟩ := ih u.length hshort u rfl
                  by_cases hd : fits d c
                  · have hscope : Balanced fits (.opening d :: (v ++ [.closing c])) :=
                      .scope hd hv .nil
                    simp only [remaining_closing_cons, if_pos hd, remaining_nil,
                      Option.some.injEq]
                    constructor
                    · rintro rfl
                      simpa using (ihu₀ hu).append hscope
                    · rintro a s rfl
                      obtain ⟨u', v', rfl, hu', hv'⟩ := ihu₁ a s hu
                      refine ⟨u', v' ++ .opening d :: (v ++ [.closing c]), by simp, hu', ?_⟩
                      exact hv'.append hscope
                  · simp [hd]

theorem balanced_iff {w : List (Bracket α β)} :
    Balanced fits w ↔ remaining fits [] w = some [] :=
  ⟨fun h => remaining_of_balanced h [], (split_of_remaining w).1⟩

/-- The innermost letter still open is the last one behind which the word is balanced. -/
theorem remaining_eq_cons_iff {w : List (Bracket α β)} {a : α} {s : List α} :
    remaining fits [] w = some (a :: s) ↔
      ∃ u v, w = u ++ .opening a :: v ∧ remaining fits [] u = some s ∧ Balanced fits v := by
  constructor
  · exact (split_of_remaining w).2 a s
  · rintro ⟨u, v, rfl, hu, hv⟩
    rw [remaining_append, hu, Option.bind_some, remaining_opening]
    exact remaining_of_balanced hv _

/-- A word that can be read begins a balanced word, and only such a word can be read, provided
that there is a closing letter for every opening one. -/
theorem isSome_remaining_iff (closable : ∀ a, ∃ b, fits a b) {w : List (Bracket α β)} :
    (remaining fits [] w).isSome ↔ ∃ v, Balanced fits (w ++ v) := by
  -- Whatever is open, some letters close it.
  have closers : ∀ s : List α, ∃ v : List (Bracket α β), remaining fits s v = some [] := by
    intro s
    induction s with
    | nil => exact ⟨[], rfl⟩
    | cons a s ih =>
        obtain ⟨v, hv⟩ := ih
        obtain ⟨b, hab⟩ := closable a
        exact ⟨.closing b :: v, by simp [hab, hv]⟩
  constructor
  · intro h
    obtain ⟨s, hs⟩ := Option.isSome_iff_exists.mp h
    obtain ⟨v, hv⟩ := closers s
    exact ⟨v, balanced_iff.mpr (by rw [remaining_append, hs, Option.bind_some, hv])⟩
  · rintro ⟨v, hv⟩
    rw [balanced_iff, remaining_append] at hv
    cases hw : remaining fits [] w with
    | none => simp [hw] at hv
    | some s => rfl

end Bracket

end Yeast
