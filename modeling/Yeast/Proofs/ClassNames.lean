import Mathlib.Data.List.Basic
import Mathlib.Tactic.Common
import Yeast.Pane.Correlation

set_option autoImplicit false

/-! # Class names

The class name of a title is made of the words of its lower case, which are non-empty runs of
`a`-`z` and `0`-`9`, joined by single hyphens (`Text.IsClassName`). None of its characters ends an
attribute value or parts the classes in one, so it can be written there as it is and adds one class
at most. A page is in fact the same with and without escaping class names and ids
(`Page.renderRaw_eq_render`).

Cutting a name into words gives back the words that it was joined of (`Text.words_joined`). So a
name keeps the words of its title, and a name of a name is the name itself, provided that lower case
leaves names alone (`Text.KeepsClassNames`). What it does to other characters is of no account, even
if it makes several characters of one or depends on what stands around it.
-/

namespace Yeast

namespace Text

/-- Non-empty runs of `a`-`z` and `0`-`9`, joined by single hyphens; nothing, if there is none. -/
def IsClassName (name : Text) : Prop :=
  ∃ runs : List Text, name = joined ['-'] runs ∧
    ∀ run ∈ runs, run ≠ [] ∧ ∀ c ∈ run, ('a' ≤ c ∧ c ≤ 'z') ∨ ('0' ≤ c ∧ c ≤ '9')

/-- The characters that part the classes in the value of an attribute. -/
def classSeparators : List Char := ['\t', '\n', '\x0c', '\r', ' ']

/-- The characters that may end the value of an attribute, with quotation marks or without, or that
stand for something else in it. -/
def valueDelimiters : List Char := ['"', '\'', '=', '<', '>', '`', '&'] ++ classSeparators

def listedClasses (value : Text) : List Text :=
  (pieces (fun c => classSeparators.contains c) value).filter fun name => !name.isEmpty

/-- The class name of a title for another lower case. -/
def classNameUnder (lower : Text → Text) (title : Text) : Text := joined ['-'] (words (lower title))

/-- Small letters, digits and hyphens are their own lower case. -/
def KeepsClassNames (lower : Text → Text) : Prop := ∀ name, IsClassName name → lower name = name

/-- The naming gives the title a class name. -/
structure Canonical (lower naming : Text → Text) (title : Text) : Prop where
  shape : IsClassName (naming title)
  /-- It has the words of the title. -/
  words : words (naming title) = words (lower title)
  /-- It is written in an attribute as it is, with quotation marks or without. -/
  unescaped : Markup.escaped (naming title) = naming title
  undelimited : ∀ c ∈ naming title, c ∉ valueDelimiters
  /-- Behind other classes it adds one, or none if it is empty. -/
  listed : ∀ others : List Text, (∀ other ∈ others, other ≠ [] ∧ ∀ c ∈ other, c ∉ classSeparators) →
    listedClasses (Markup.classes (others ++ [naming title])).value =
      others ++ if naming title = [] then [] else [naming title]
  /-- It is its own name. -/
  fixed : naming (naming title) = naming title

/-! ## Pieces and what they are joined to -/

theorem pieces_eq_splitOnP (parts : Char → Bool) (text : Text) :
    pieces parts text = text.splitOnP parts := by
  induction text with
  | nil => rfl
  | cons c rest ih => rw [pieces, List.splitOnP_cons_eq_if_modifyHead, ih]

/-- No character of a piece parts pieces. -/
theorem not_parts_of_mem_pieces {parts : Char → Bool} {text piece : Text}
    (h : piece ∈ pieces parts text) : ∀ c ∈ piece, parts c = false := by
  induction text generalizing piece with
  | nil =>
      rw [pieces, List.mem_singleton] at h
      simp [h]
  | cons c rest ih =>
      rw [pieces] at h
      by_cases hc : parts c = true
      · rw [if_pos hc] at h
        rcases List.mem_cons.mp h with rfl | hrest
        · simp
        · exact ih hrest
      · rw [if_neg hc] at h
        cases hpieces : pieces parts rest with
        | nil => simp [hpieces] at h
        | cons first others =>
            rw [hpieces] at h ih
            rcases List.mem_cons.mp h with rfl | hothers
            · -- The character itself is the one before the first piece of the rest.
              refine List.forall_mem_cons.mpr ⟨by simpa using hc, ?_⟩
              exact ih List.mem_cons_self
            · exact ih (List.mem_cons_of_mem first hothers)

/-- Texts that are joined by a character which parts them are the pieces again. -/
theorem pieces_joined {parts : Char → Bool} {separator : Char} (hseparator : parts separator = true)
    {texts : List Text} (htexts : texts ≠ [])
    (h : ∀ text ∈ texts, ∀ c ∈ text, parts c = false) :
    pieces parts (joined [separator] texts) = texts := by
  induction texts with
  | nil => exact absurd rfl htexts
  | cons text texts ih =>
      obtain ⟨htext, hmore⟩ := List.forall_mem_cons.mp h
      cases texts with
      | nil =>
          rw [joined, List.intercalate_singleton, pieces_eq_splitOnP,
            List.splitOnP_eq_singleton htext]
      | cons next others =>
          have hnext := ih (List.cons_ne_nil next others) hmore
          rw [joined, List.intercalate_cons_cons, List.append_assoc, List.singleton_append,
            pieces_eq_splitOnP,
            List.splitOnP_append_cons_of_forall_mem htext separator hseparator,
            ← pieces_eq_splitOnP]
          exact congrArg (text :: ·) hnext

/-- So the texts that are not empty are the pieces that are not. -/
theorem filter_pieces_joined {parts : Char → Bool} {separator : Char}
    (hseparator : parts separator = true) {texts : List Text}
    (h : ∀ text ∈ texts, ∀ c ∈ text, parts c = false) :
    (pieces parts (joined [separator] texts)).filter (fun text => !text.isEmpty) =
      texts.filter fun text => !text.isEmpty := by
  cases texts with
  | nil => rfl
  | cons text texts => rw [pieces_joined hseparator (List.cons_ne_nil text texts) h]

/-! ## Words -/

theorem isWordChar_iff (c : Char) :
    isWordChar c = true ↔ ('a' ≤ c ∧ c ≤ 'z') ∨ ('0' ≤ c ∧ c ≤ '9') := by
  have hranges : isWordChar c = (decide ('a' ≤ c) && decide (c ≤ 'z') ||
      decide ('0' ≤ c) && decide (c ≤ '9')) := rfl
  rw [hranges]
  simp only [Bool.or_eq_true, Bool.and_eq_true, decide_eq_true_eq]

theorem mem_words {text word : Text} (h : word ∈ words text) :
    word ≠ [] ∧ ∀ c ∈ word, isWordChar c = true := by
  obtain ⟨hpiece, hne⟩ := List.mem_filter.mp h
  constructor
  · rintro rfl
    simp at hne
  · intro c hc
    simpa using not_parts_of_mem_pieces hpiece c hc

/-- The words that a name is joined of are its words. -/
theorem words_joined {runs : List Text}
    (h : ∀ run ∈ runs, run ≠ [] ∧ ∀ c ∈ run, isWordChar c = true) :
    words (joined ['-'] runs) = runs := by
  have hparts : ∀ run ∈ runs, ∀ c ∈ run, (!isWordChar c) = false := by
    intro run hrun c hc
    simp [(h run hrun).2 c hc]
  rw [words, filter_pieces_joined (by decide) hparts, List.filter_eq_self]
  intro run hrun
  simpa using (h run hrun).1

theorem isClassName_joined_words (text : Text) : IsClassName (joined ['-'] (words text)) := by
  refine ⟨words text, rfl, fun run hrun => ?_⟩
  obtain ⟨hne, hchars⟩ := mem_words hrun
  exact ⟨hne, fun c hc => (isWordChar_iff c).mp (hchars c hc)⟩

theorem isClassName_iff {name : Text} : IsClassName name ↔ joined ['-'] (words name) = name := by
  constructor
  · rintro ⟨runs, rfl, hruns⟩
    have hwords : words (joined ['-'] runs) = runs :=
      words_joined fun run hrun =>
        ⟨(hruns run hrun).1, fun c hc => (isWordChar_iff c).mpr ((hruns run hrun).2 c hc)⟩
    rw [hwords]
  · intro h
    rw [← h]
    exact isClassName_joined_words name

instance (name : Text) : Decidable (IsClassName name) := decidable_of_iff _ isClassName_iff.symm

/-! ## Characters of names -/

theorem mem_joined {separator : Text} {texts : List Text} {c : Char}
    (h : c ∈ joined separator texts) : c ∈ separator ∨ ∃ text ∈ texts, c ∈ text := by
  induction texts with
  | nil => simp [joined] at h
  | cons text texts ih =>
      cases texts with
      | nil =>
          rw [joined, List.intercalate_singleton] at h
          exact Or.inr ⟨text, List.mem_cons_self, h⟩
      | cons next others =>
          rw [joined, List.intercalate_cons_cons, List.mem_append, List.mem_append] at h
          rcases h with (htext | hseparator) | hmore
          · exact Or.inr ⟨text, List.mem_cons_self, htext⟩
          · exact Or.inl hseparator
          · rcases ih hmore with hseparator | ⟨other, hother, hc⟩
            · exact Or.inl hseparator
            · exact Or.inr ⟨other, List.mem_cons_of_mem text hother, hc⟩

/-- A character of a name is a hyphen, or stands in a word. -/
theorem IsClassName.mem {name : Text} (h : IsClassName name) {c : Char} (hc : c ∈ name) :
    c = '-' ∨ isWordChar c = true := by
  obtain ⟨runs, rfl, hruns⟩ := h
  rcases mem_joined hc with hhyphen | ⟨run, hrun, hc⟩
  · exact Or.inl (List.mem_singleton.mp hhyphen)
  · exact Or.inr ((isWordChar_iff c).mpr ((hruns run hrun).2 c hc))

/-- So no character outside words and hyphens is in a name. -/
theorem IsClassName.not_mem {name : Text} (h : IsClassName name) {chars : Text}
    (houtside : chars.all fun d => !isWordChar d && d != '-') : ∀ c ∈ name, c ∉ chars := by
  intro c hc hmem
  have hd := List.all_eq_true.mp houtside c hmem
  simp only [Bool.and_eq_true, Bool.not_eq_true', bne_iff_ne] at hd
  rcases h.mem hc with hhyphen | hword
  · exact hd.2 hhyphen
  · simp [hd.1] at hword

theorem IsClassName.not_mem_valueDelimiters {name : Text} (h : IsClassName name) :
    ∀ c ∈ name, c ∉ valueDelimiters :=
  h.not_mem (by decide)

/-- A text without the characters that are escaped is written as it is. -/
theorem escaped_eq_self {text : Text} (h : ∀ c ∈ text, c ∉ ['&', '<', '>', '"', '\'']) :
    Markup.escaped text = text := by
  have hchar : ∀ c ∈ text, Markup.escapedChar c = [c] := by
    intro c hc
    have hne := h c hc
    simp only [List.mem_cons, not_or] at hne
    obtain ⟨hand, hless, hgreater, hquote, hsingle, -⟩ := hne
    rw [Markup.escapedChar, if_neg hand, if_neg hless, if_neg hgreater, if_neg hquote,
      if_neg hsingle]
  rw [Markup.escaped, List.flatMap_congr hchar, List.flatMap_singleton']

theorem IsClassName.escaped {name : Text} (h : IsClassName name) : Markup.escaped name = name :=
  escaped_eq_self (h.not_mem (by decide))

/-- A character of a word is no capital, and none of the two others that have such characters in
their lower case. -/
theorem lowered_of_isWordChar {c : Char} (h : isWordChar c = true) : lowered c = [c] := by
  have hupper : ¬ (c.val ≥ 'A'.val ∧ c.val ≤ 'Z'.val) := by
    have hranges := (isWordChar_iff c).mp h
    simp only [Char.le_def, ge_iff_le, UInt32.le_iff_toNat_le, Char.reduceVal,
      UInt32.reduceToNat] at hranges ⊢
    omega
  have hkept : c.toLower = c := dif_neg hupper
  have hkelvin : c ≠ '\u212A' := by
    rintro rfl
    exact absurd h (by decide)
  have hdotted : c ≠ '\u0130' := by
    rintro rfl
    exact absurd h (by decide)
  rw [lowered, if_neg hkelvin, if_neg hdotted, hkept]

/-- Lower case leaves class names alone. -/
theorem keepsClassNames_lowered : KeepsClassNames (·.flatMap lowered) := by
  intro name h
  have hchar : ∀ c ∈ name, lowered c = [c] := by
    intro c hc
    rcases h.mem hc with rfl | hword
    · decide
    · exact lowered_of_isWordChar hword
  show name.flatMap lowered = name
  rw [List.flatMap_congr hchar, List.flatMap_singleton']

/-! ## The classes of an attribute -/

/-- Names that no separator stands in are listed as they were given, without an empty one. -/
theorem listedClasses_classes {names : List Text}
    (h : ∀ name ∈ names, ∀ c ∈ name, c ∉ classSeparators) :
    listedClasses (Markup.classes names).value = names.filter fun name => !name.isEmpty := by
  have hparts : ∀ name ∈ names, ∀ c ∈ name, classSeparators.contains c = false := by
    intro name hname c hc
    simpa using h name hname c hc
  exact filter_pieces_joined (by decide) hparts

theorem listedClasses_concat {others : List Text} {name : Text}
    (hothers : ∀ other ∈ others, other ≠ [] ∧ ∀ c ∈ other, c ∉ classSeparators)
    (hname : ∀ c ∈ name, c ∉ classSeparators) :
    listedClasses (Markup.classes (others ++ [name])).value =
      others ++ if name = [] then [] else [name] := by
  have hall : ∀ given ∈ others ++ [name], ∀ c ∈ given, c ∉ classSeparators := by
    intro given hgiven
    rcases List.mem_append.mp hgiven with hother | hlast
    · exact (hothers given hother).2
    · rw [List.mem_singleton.mp hlast]
      exact hname
  have hkept : others.filter (fun other => !other.isEmpty) = others := by
    rw [List.filter_eq_self]
    intro other hother
    simpa using (hothers other hother).1
  rw [listedClasses_classes hall, List.filter_append, hkept]
  cases name <;> rfl

/-! ## The name of a title -/

/-- Whatever lower case does, the name of a title is a class name, if it leaves class names
alone. -/
theorem canonical_of_keepsClassNames {lower : Text → Text} (hlower : KeepsClassNames lower)
    (title : Text) : Canonical lower (classNameUnder lower) title := by
  have hshape : IsClassName (classNameUnder lower title) := isClassName_joined_words (lower title)
  have hwords : words (classNameUnder lower title) = words (lower title) :=
    words_joined fun run hrun => mem_words hrun
  have hsafe := hshape.not_mem_valueDelimiters
  refine ⟨hshape, hwords, hshape.escaped, hsafe, fun others hothers => ?_, ?_⟩
  · refine listedClasses_concat hothers fun c hc hseparator => hsafe c hc ?_
    exact List.mem_append_right _ hseparator
  · calc classNameUnder lower (classNameUnder lower title)
        = joined ['-'] (words (classNameUnder lower title)) := by
          rw [classNameUnder, hlower _ hshape]
      _ = classNameUnder lower title := by rw [hwords, classNameUnder]

/-- **Every title has a class name in canonical form, whatever characters it is made of, and it has
one for every lower case that leaves class names alone.** -/
theorem canonical_className (title : Text) :
    Canonical (·.flatMap lowered) className title ∧
      ∀ lower, KeepsClassNames lower → Canonical lower (classNameUnder lower) title :=
  ⟨canonical_of_keepsClassNames keepsClassNames_lowered title,
    fun _ hlower => canonical_of_keepsClassNames hlower title⟩

/-- A title of which only the Kelvin sign and a dotted capital make words. -/
example : className "\u212A & <\u0130>".toList = "k-i".toList := by decide

end Text

end Yeast
