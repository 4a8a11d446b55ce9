import Mathlib.Tactic.Common
import Yeast.Markup.Basic
import Yeast.Text.Substitution

set_option autoImplicit false

/-! # Reading markup

A reader of markup that knows nothing of the pages it reads. `tokens?` cuts a text into tags and
characters, with attribute values and characters as they are written; `unescaped` replaces the
character references in them. What has been written from pieces is read back as those pieces,
character by character (`tokens?_render`), provided that none of them is verbatim and that the
names in them are names. No text can disturb this, since a text is written without the characters
that end a text or a value (`special_not_mem_escaped`), and is recovered from what is written
(`unescaped_escaped`).
-/

namespace Yeast

namespace Markup

inductive Token where
  | start (name : Text) (attributes : List Attribute)
  | stop (name : Text)
  | void (name : Text) (attributes : List Attribute)
  | char (c : Char)
  deriving DecidableEq

/-! ## The reader -/

/-- The text before the first `mark`, and the text behind it. -/
def cut (mark : Char) : Text → Option (Text × Text)
  | [] => none
  | c :: rest =>
    if c = mark then some ([], rest)
    else (cut mark rest).map fun (before, behind) => (c :: before, behind)

theorem length_lt_of_cut {mark : Char} {text before behind : Text}
    (h : cut mark text = some (before, behind)) : behind.length < text.length := by
  induction text generalizing before behind with
  | nil => simp [cut] at h
  | cons c rest ih =>
      rw [cut] at h
      split at h
      · rw [Option.some.injEq, Prod.mk.injEq] at h
        rw [← h.2, List.length_cons]
        omega
      · obtain ⟨⟨before', behind'⟩, hcut, heq⟩ := Option.map_eq_some_iff.mp h
        rw [Prod.mk.injEq] at heq
        have := ih hcut
        rw [← heq.2, List.length_cons]
        omega

/-- The attribute that begins the text, and the text behind it. -/
def attribute? : Text → Option (Attribute × Text)
  | ' ' :: rest =>
    match cut '=' rest with
    | some (name, '"' :: rest) =>
      (cut '"' rest).map fun (value, behind) => (⟨name, value⟩, behind)
    | _ => none
  | _ => none

theorem length_lt_of_attribute? {text behind : Text} {a : Attribute}
    (h : attribute? text = some (a, behind)) : behind.length < text.length := by
  rw [attribute?.eq_def] at h
  split at h
  · split at h
    · rename_i hname
      obtain ⟨⟨value, behind'⟩, hvalue, heq⟩ := Option.map_eq_some_iff.mp h
      obtain ⟨-, rfl⟩ := Prod.mk.inj heq
      have hname := length_lt_of_cut hname
      have hvalue := length_lt_of_cut hvalue
      simp only [List.length_cons] at hname ⊢
      omega
    · simp at h
  · simp at h

/-- The attributes up to the end of a tag, whether the tag is empty, and the text behind it. -/
def attributes? (text : Text) : Option (List Attribute × Bool × Text) :=
  match text with
  | '>' :: behind => some ([], false, behind)
  | '/' :: '>' :: behind => some ([], true, behind)
  | text =>
    match _h : attribute? text with
    | some (a, rest) =>
      (attributes? rest).map fun (others, isVoid, behind) => (a :: others, isVoid, behind)
    | none => none
termination_by text.length
decreasing_by exact length_lt_of_attribute? _h

theorem length_lt_of_attributes? {text behind : Text} {attributes : List Attribute}
    {isVoid : Bool} (h : attributes? text = some (attributes, isVoid, behind)) :
    behind.length < text.length := by
  induction hn : text.length using Nat.strongRecOn generalizing text attributes with
  | ind n ih =>
      rw [attributes?.eq_def] at h
      split at h
      -- the end of a tag
      · simp only [Option.some.injEq, Prod.mk.injEq] at h
        rw [← hn, ← h.2.2, List.length_cons]
        omega
      -- the end of a void tag
      · simp only [Option.some.injEq, Prod.mk.injEq] at h
        rw [← hn, ← h.2.2, List.length_cons, List.length_cons]
        omega
      -- one more attribute
      · split at h
        · rename_i a rest hattribute
          obtain ⟨⟨others, isVoid', behind'⟩, hrest, heq⟩ := Option.map_eq_some_iff.mp h
          simp only [Prod.mk.injEq] at heq
          obtain ⟨-, rfl, rfl⟩ := heq
          have hlt := length_lt_of_attribute? hattribute
          have := ih rest.length (by omega) hrest rfl
          omega
        · simp at h

/-- The character can be part of the name of a tag. -/
def isNameChar (c : Char) : Bool := c.isAlphanum || c == '-'

/-- The tag whose bracket stands before the text, and the text behind the tag. -/
def tag? : Text → Option (Token × Text)
  | '/' :: rest => (cut '>' rest).map fun (name, behind) => (.stop name, behind)
  | text =>
    (attributes? (text.dropWhile isNameChar)).map fun (attributes, isVoid, behind) =>
      let name := text.takeWhile isNameChar
      (if isVoid then .void name attributes else .start name attributes, behind)

theorem length_lt_of_tag? {text behind : Text} {token : Token}
    (h : tag? text = some (token, behind)) : behind.length < text.length := by
  rw [tag?.eq_def] at h
  split at h
  · obtain ⟨⟨name, behind'⟩, hcut, heq⟩ := Option.map_eq_some_iff.mp h
    simp only [Prod.mk.injEq] at heq
    have := length_lt_of_cut hcut
    rw [← heq.2, List.length_cons]
    omega
  · obtain ⟨⟨attributes, isVoid, behind'⟩, hattributes, heq⟩ := Option.map_eq_some_iff.mp h
    simp only [Prod.mk.injEq] at heq
    have := length_lt_of_attributes? hattributes
    have := (List.dropWhile_sublist isNameChar (l := text)).length_le
    rw [← heq.2]
    omega

/-- The tags and characters of a text, unless a tag in it cannot be read. -/
def tokens? (text : Text) : Option (List Token) :=
  match text with
  | [] => some []
  | c :: rest =>
    if c = '<' then
      match _htag : tag? rest with
      | some (token, behind) => (tokens? behind).map (token :: ·)
      | none => none
    else (tokens? rest).map (.char c :: ·)
termination_by text.length
decreasing_by
  · have := length_lt_of_tag? _htag
    simp only [List.length_cons]
    omega
  · simp

def references : List Rule :=
  [ ⟨"&amp;".toList, ['&']⟩,
    ⟨"&lt;".toList, ['<']⟩,
    ⟨"&gt;".toList, ['>']⟩,
    ⟨"&quot;".toList, ['"']⟩,
    ⟨"&#x27;".toList, ['\'']⟩ ]

/-- The text that a text with character references stands for. -/
def unescaped (text : Text) : Text := Text.substitute references text

/-! ## What is written is read back -/

/-- No text brings a bracket or a quotation mark into a page. -/
theorem special_not_mem_escaped {c : Char} (h : c = '<' ∨ c = '>' ∨ c = '"' ∨ c = '\'')
    (text : Text) : c ∉ escaped text := by
  intro hmem
  obtain ⟨d, -, hd⟩ := List.mem_flatMap.mp hmem
  unfold escapedChar at hd
  split_ifs at hd
  · revert hd; rcases h with rfl | rfl | rfl | rfl <;> decide
  · revert hd; rcases h with rfl | rfl | rfl | rfl <;> decide
  · revert hd; rcases h with rfl | rfl | rfl | rfl <;> decide
  · revert hd; rcases h with rfl | rfl | rfl | rfl <;> decide
  · revert hd; rcases h with rfl | rfl | rfl | rfl <;> decide
  · rw [List.mem_singleton] at hd
    subst hd
    tauto

theorem unescaped_cons {c : Char} (h : c ≠ '&') (text : Text) :
    unescaped (c :: text) = c :: unescaped text := by
  refine Text.substitute_of_rule?_eq_none ?_
  simp [Text.rule?, references, List.isPrefixOf, Ne.symm h]

theorem unescaped_escapedChar (c : Char) (text : Text) :
    unescaped (escapedChar c ++ text) = c :: unescaped text := by
  unfold escapedChar
  split_ifs with hamp hlt hgt hquot hapos
  · subst hamp; rfl
  · subst hlt; rfl
  · subst hgt; rfl
  · subst hquot; rfl
  · subst hapos; rfl
  · exact unescaped_cons hamp text

/-- Whatever is written is recovered. -/
@[simp]
theorem unescaped_escaped (text : Text) : unescaped (escaped text) = text := by
  induction text with
  | nil => rfl
  | cons c text ih =>
      have hcons : escaped (c :: text) = escapedChar c ++ escaped text := rfl
      rw [hcons, unescaped_escapedChar, ih]

theorem cut_append {mark : Char} {before : Text} (h : mark ∉ before) (behind : Text) :
    cut mark (before ++ mark :: behind) = some (before, behind) := by
  induction before with
  | nil => simp [cut]
  | cons c before ih =>
      obtain ⟨hc, hbefore⟩ := List.ne_and_not_mem_of_not_mem_cons h
      rw [List.cons_append, cut, if_neg (Ne.symm hc), ih hbefore]
      rfl

/-- The names in a piece are names, and the piece is not verbatim. -/
def Piece.Readable : Piece → Prop
  | .start name attributes =>
    (name ≠ [] ∧ name.all isNameChar) ∧ ∀ a ∈ attributes, '=' ∉ a.name
  | .void name attributes =>
    (name ≠ [] ∧ name.all isNameChar) ∧ ∀ a ∈ attributes, '=' ∉ a.name
  | .stop name => '>' ∉ name
  | .text _ => True
  | .verbatim _ => False

def Attribute.written (a : Attribute) : Attribute := ⟨a.name, escaped a.value⟩

/-- What is read where the piece has been written. -/
def Piece.tokens : Piece → List Token
  | .start name attributes => [.start name (attributes.map Attribute.written)]
  | .void name attributes => [.void name (attributes.map Attribute.written)]
  | .stop name => [.stop name]
  | .text content => (escaped content).map .char
  | .verbatim content => content.map .char

@[simp]
theorem Piece.tokens_start (name : Text) (attributes : List Attribute) :
    (Piece.start name attributes).tokens = [.start name (attributes.map Attribute.written)] := rfl

@[simp]
theorem Piece.tokens_stop (name : Text) : (Piece.stop name).tokens = [.stop name] := rfl

@[simp]
theorem Piece.tokens_text (content : Text) :
    (Piece.text content).tokens = (escaped content).map .char := rfl

@[simp]
theorem Piece.tokens_newline : Piece.newline.tokens = [.char '\n'] := rfl

theorem attribute?_render {a : Attribute} (h : '=' ∉ a.name) (behind : Text) :
    attribute? (a.render ++ behind) = some (a.written, behind) := by
  have hrender : a.render ++ behind =
      ' ' :: (a.name ++ '=' :: ('"' :: (escaped a.value ++ '"' :: behind))) := by
    simp [Attribute.render]
  have hvalue : '"' ∉ escaped a.value := special_not_mem_escaped (by simp) _
  simp only [hrender, attribute?, cut_append h, cut_append hvalue]
  rfl

def tagEnd (isVoid : Bool) : Text := if isVoid then ['/', '>'] else ['>']

theorem attributes?_render {attributes : List Attribute}
    (h : ∀ a ∈ attributes, '=' ∉ a.name) (isVoid : Bool) (behind : Text) :
    attributes? (attributes.flatMap Attribute.render ++ (tagEnd isVoid ++ behind)) =
      some (attributes.map Attribute.written, isVoid, behind) := by
  induction attributes with
  | nil => cases isVoid <;> simp [attributes?, tagEnd]
  | cons a attributes ih =>
      rw [List.forall_mem_cons] at h
      rw [List.flatMap_cons, List.append_assoc, attributes?.eq_def]
      have hattribute := attribute?_render h.1
        (attributes.flatMap Attribute.render ++ (tagEnd isVoid ++ behind))
      -- An attribute begins with a blank, as no end of a tag does.
      have hblank : ∀ rest, a.render ++ rest = ' ' :: (a.render ++ rest).tail := fun _ => rfl
      split
      · rename_i heq
        rw [hblank] at heq
        simp at heq
      · rename_i heq
        rw [hblank] at heq
        simp at heq
      · split
        · rename_i a' rest heq
          rw [hattribute, Option.some.injEq, Prod.mk.injEq] at heq
          rw [← heq.1, ← heq.2, ih h.2]
          rfl
        · rename_i heq
          simp [hattribute] at heq

theorem tag?_render {name : Text} (hne : name ≠ []) (hname : name.all isNameChar)
    {attributes : List Attribute} (h : ∀ a ∈ attributes, '=' ∉ a.name) (isVoid : Bool)
    (behind : Text) :
    tag? (name ++ (attributes.flatMap Attribute.render ++ (tagEnd isVoid ++ behind))) =
      some (if isVoid then .void name (attributes.map Attribute.written)
        else .start name (attributes.map Attribute.written), behind) := by
  rw [List.all_eq_true] at hname
  -- The first character behind the name is none of a name.
  have hrest : ∃ c rest, attributes.flatMap Attribute.render ++ (tagEnd isVoid ++ behind) =
      c :: rest ∧ isNameChar c = false := by
    cases attributes with
    | nil => cases isVoid <;> exact ⟨_, _, rfl, by decide⟩
    | cons a attributes => exact ⟨' ', _, rfl, by decide⟩
  obtain ⟨c, rest, hrest, hc⟩ := hrest
  have htake : (name ++ c :: rest).takeWhile isNameChar = name := by
    rw [List.takeWhile_append_of_pos hname, List.takeWhile_cons_of_neg (by simp [hc]),
      List.append_nil]
  have hdrop : (name ++ c :: rest).dropWhile isNameChar = c :: rest := by
    rw [List.dropWhile_append_of_pos hname, List.dropWhile_cons_of_neg (by simp [hc])]
  have hattributes := attributes?_render h isVoid behind
  rw [hrest] at hattributes ⊢
  rw [tag?.eq_def]
  split
  · rename_i heq
    obtain ⟨d, name, rfl⟩ := List.exists_cons_of_ne_nil hne
    have hd : isNameChar '/' = true := by
      rw [← (List.cons_eq_cons.mp heq).1]
      exact hname d List.mem_cons_self
    exact absurd hd (by decide)
  · rw [htake, hdrop, hattributes]
    rfl

theorem tokens?_tag {rest behind : Text} {token : Token} (h : tag? rest = some (token, behind)) :
    tokens? ('<' :: rest) = (tokens? behind).map (token :: ·) := by
  rw [tokens?, if_pos rfl]
  split
  · rename_i heq
    rw [h, Option.some.injEq, Prod.mk.injEq] at heq
    rw [heq.1, heq.2]
  · rename_i heq
    simp [h] at heq

theorem tokens?_chars {content : Text} (h : '<' ∉ content) (behind : Text) :
    tokens? (content ++ behind) = (tokens? behind).map (content.map .char ++ ·) := by
  induction content with
  | nil => simp
  | cons c content ih =>
      obtain ⟨hc, hcontent⟩ := List.ne_and_not_mem_of_not_mem_cons h
      rw [List.cons_append, tokens?, if_neg (Ne.symm hc), ih hcontent, Option.map_map]
      rfl

/-- **What is written from pieces is read back as these pieces.** -/
theorem tokens?_render {pieces : List Piece} (h : ∀ p ∈ pieces, p.Readable) :
    tokens? (render pieces) = some (pieces.flatMap Piece.tokens) := by
  induction pieces with
  | nil => simp [tokens?]
  | cons p pieces ih =>
      rw [List.forall_mem_cons] at h
      obtain ⟨hp, hpieces⟩ := h
      have ih := ih hpieces
      rw [render_cons, List.flatMap_cons]
      cases p with
      | start name attributes =>
          obtain ⟨⟨hne, hname⟩, hattributes⟩ := hp
          have htag := tag?_render hne hname hattributes false (render pieces)
          have hrender : (Piece.start name attributes).render ++ render pieces =
              '<' :: (name ++ (attributes.flatMap Attribute.render ++
                (tagEnd false ++ render pieces))) := by
            simp [Piece.render, tagEnd]
          rw [hrender, tokens?_tag htag, ih]
          rfl
      | void name attributes =>
          obtain ⟨⟨hne, hname⟩, hattributes⟩ := hp
          have htag := tag?_render hne hname hattributes true (render pieces)
          have hrender : (Piece.void name attributes).render ++ render pieces =
              '<' :: (name ++ (attributes.flatMap Attribute.render ++
                (tagEnd true ++ render pieces))) := by
            simp [Piece.render, tagEnd]
          rw [hrender, tokens?_tag htag, ih]
          rfl
      | stop name =>
          have hcut := cut_append hp (render pieces)
          have htag : tag? ('/' :: (name ++ '>' :: render pieces)) =
              some (.stop name, render pieces) := by
            rw [tag?, hcut]
            rfl
          have hrender : (Piece.stop name).render ++ render pieces =
              '<' :: '/' :: (name ++ '>' :: render pieces) := by
            simp [Piece.render]
          rw [hrender, tokens?_tag htag, ih]
          rfl
      | text content =>
          -- escaped, the text has no bracket left that could begin a tag
          have hcontent : '<' ∉ escaped content := special_not_mem_escaped (by simp) _
          rw [Piece.render, tokens?_chars hcontent, ih]
          rfl
      | verbatim content => exact absurd hp id

end Markup

end Yeast
