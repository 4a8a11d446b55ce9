import Mathlib.Tactic.Common
import Yeast.Text.Placeholder

set_option autoImplicit false

/-! # Texts shown and spelled out

Showing a text reads it in units: an escaped backslash, a sequence of the table, a backslash that
begins no escape, or any other character (`scan_induction`). Spelling out is done character by
character (`spelledOut_eq_flatMap`).

A text that is shown, spelled out and shown again is shown as before, provided that no backslash
can join an escape that spelling out writes. A backslash that begins no escape is the last of a run
of odd length, and what stands behind it is spelled out with a backslash only if it is a tab or one
of the symbols other than that of a space (`Entangled`). No other escape can arise, because what
spelling out writes begins with a backslash or a blank, and no escape has one of these further in.
-/

namespace Yeast

namespace Text

/-- The characters that are shown and spelled out as an escape. -/
def spelledAsEscape : List Char :=
  ['\t', Placeholder.carriageReturn, Placeholder.lineFeed, Placeholder.nextLine,
    Placeholder.lineSeparator, Placeholder.paragraphSeparator, Placeholder.tab,
    Placeholder.noBreak]

/-- Somewhere a run of backslashes, odd in number, stands right before a character that is spelled
out as an escape. -/
def Entangled (text : Text) : Prop :=
  ∃ before n c after, text = before ++ List.replicate (2 * n + 1) '\\' ++ c :: after ∧
    before.getLast? ≠ some '\\' ∧ c ∈ spelledAsEscape

theorem entangled_iff (text : Text) : Entangled text ↔
    ∃ i ∈ List.range (text.length + 1), ∃ n ∈ List.range text.length,
      (text.take i).getLast? ≠ some '\\' ∧ spelledAsEscape.any fun c =>
        (List.replicate (2 * n + 1) '\\' ++ [c]).isPrefixOf (text.drop i) := by
  constructor
  · rintro ⟨before, n, c, after, rfl, hbefore, hc⟩
    have hlength : (before ++ List.replicate (2 * n + 1) '\\' ++ c :: after).length =
        before.length + (2 * n + 1) + (after.length + 1) := by
      rw [List.length_append, List.length_append, List.length_replicate, List.length_cons]
    refine ⟨before.length, List.mem_range.mpr (by omega), n, List.mem_range.mpr (by omega),
      by simpa using hbefore, List.any_eq_true.mpr ⟨c, hc, ?_⟩⟩
    exact List.isPrefixOf_iff_prefix.mpr ⟨after, by simp⟩
  · rintro ⟨i, -, n, -, hbefore, hany⟩
    obtain ⟨c, hc, hprefix⟩ := List.any_eq_true.mp hany
    obtain ⟨after, hafter⟩ := List.isPrefixOf_iff_prefix.mp hprefix
    refine ⟨text.take i, n, c, after, ?_, hbefore, hc⟩
    rw [List.append_assoc, List.singleton_append] at hafter
    rw [List.append_assoc, hafter, List.take_append_drop]

instance (text : Text) : Decidable (Entangled text) := decidable_of_iff' _ (entangled_iff text)

def spelling (c : Char) : Text :=
  match Placeholder.table.find? fun p => p.symbol = c with
  | some p => p.sequence
  | none => [c]

/-- What stands behind the backslash in an escape. -/
def escapeEnds : List Text :=
  ["\\".toList, "r".toList, "n".toList, "x85".toList, "u2028".toList, "u2029".toList, "t".toList,
    "uFEFF".toList, "ufeff".toList]

/-! ## Spelling out -/

@[simp]
theorem spelledOut_nil : spelledOut [] = [] := rfl

theorem spelledOut_cons (c : Char) (text : Text) :
    spelledOut (c :: text) = spelling c ++ spelledOut text := by
  have hrule : rule? Placeholder.spellings (c :: text) =
      (Placeholder.table.find? fun p => p.symbol = c).map fun p => ⟨[p.symbol], p.sequence⟩ := by
    rw [rule?, Placeholder.spellings, List.find?_map]
    congr 2
    funext p
    simp only [Function.comp_apply, List.isPrefixOf, Bool.and_true]
    rfl
  unfold spelling
  cases hfind : Placeholder.table.find? fun p => p.symbol = c with
  | none =>
      rw [hfind] at hrule
      exact substitute_of_rule?_eq_none hrule
  | some p =>
      rw [hfind] at hrule
      exact substitute_of_rule?_eq_some hrule (by simp)

theorem spelledOut_eq_flatMap (text : Text) : spelledOut text = text.flatMap spelling := by
  induction text with
  | nil => rfl
  | cons c text ih => rw [spelledOut_cons, ih, List.flatMap_cons]

/-- The symbols are spelled out, each as a sequence that it is shown for. -/
theorem spelling_of_symbol {c : Char} (h : c ∈ Placeholder.table.map Placeholder.symbol) :
    ∃ p ∈ Placeholder.table, p.symbol = c ∧ spelling c = p.sequence := by
  unfold spelling
  obtain ⟨q, hq, hqc⟩ := List.mem_map.mp h
  cases hfind : Placeholder.table.find? fun p => p.symbol = c with
  | none => exact absurd hqc (by simpa using List.find?_eq_none.mp hfind q hq)
  | some p =>
      exact ⟨p, List.mem_of_find?_eq_some hfind, by simpa using List.find?_some hfind, rfl⟩

theorem spelling_of_not_symbol {c : Char} (h : c ∉ Placeholder.table.map Placeholder.symbol) :
    spelling c = [c] := by
  have hfind : (Placeholder.table.find? fun p => p.symbol = c) = none := by
    refine List.find?_eq_none.mpr fun p hp hpc => h (List.mem_map.mpr ⟨p, hp, ?_⟩)
    simpa using hpc
  rw [spelling, hfind]

theorem spelledOut_append (s t : Text) : spelledOut (s ++ t) = spelledOut s ++ spelledOut t := by
  rw [spelledOut_eq_flatMap, spelledOut_eq_flatMap, spelledOut_eq_flatMap, List.flatMap_append]

/-- Letters and digits are no symbols and spelled out as themselves. -/
theorem spelledOut_of_all_isAlphanum {w : Text} (h : w.all Char.isAlphanum) : w.spelledOut = w := by
  have htable : (Placeholder.table.map Placeholder.symbol).all fun a => !a.isAlphanum := by decide
  induction w with
  | nil => rfl
  | cons c w ih =>
      rw [List.all_cons, Bool.and_eq_true] at h
      have hsymbol : c ∉ Placeholder.table.map Placeholder.symbol := by
        intro hc
        have hnot := List.all_eq_true.mp htable c hc
        rw [h.1] at hnot
        exact absurd hnot (by decide)
      rw [spelledOut_cons, spelling_of_not_symbol hsymbol, ih h.2]
      rfl

theorem spelledOut_replicate (n : Nat) :
    spelledOut (List.replicate n '\\') = List.replicate n '\\' := by
  have hspelling : spelling '\\' = ['\\'] := by decide
  induction n with
  | zero => rfl
  | succ n ih =>
      rw [List.replicate_succ, spelledOut_cons, hspelling, ih]
      rfl

/-! ## Showing, unit by unit -/

@[simp]
theorem withPlaceholders_nil : withPlaceholders [] = [] := rfl

@[simp]
theorem withPlaceholders_pair (text : Text) :
    withPlaceholders ('\\' :: '\\' :: text) = '\\' :: '\\' :: withPlaceholders text := rfl

theorem withPlaceholders_sequence {p : Placeholder} (h : p ∈ Placeholder.table) (text : Text) :
    withPlaceholders (p.sequence ++ text) = p.symbol :: withPlaceholders text := by
  simp only [Placeholder.table, List.mem_cons, List.not_mem_nil, or_false] at h
  rcases h with rfl | rfl | rfl | rfl | rfl | rfl | rfl | rfl | rfl | rfl <;> rfl

/-- The spelling of a symbol is shown as the symbol. -/
theorem withPlaceholders_spelling {c : Char} (h : c ∈ Placeholder.table.map Placeholder.symbol)
    (text : Text) : withPlaceholders (spelling c ++ text) = c :: withPlaceholders text := by
  obtain ⟨p, hp, rfl, hspelling⟩ := spelling_of_symbol h
  rw [hspelling, withPlaceholders_sequence hp]

theorem withPlaceholders_of_rule?_eq_none {c : Char} {text : Text}
    (h : rule? Placeholder.rules (c :: text) = none) :
    withPlaceholders (c :: text) = c :: withPlaceholders text :=
  substitute_of_rule?_eq_none h

/-- Sequences begin with a backslash or are a blank. -/
theorem rule?_eq_none_of_plain {c : Char} (hb : c ≠ '\\') (ht : c ≠ '\t') (hs : c ≠ ' ')
    (text : Text) : rule? Placeholder.rules (c :: text) = none := by
  simp [rule?, Placeholder.rules, Placeholder.table, Placeholder.escapedBackslash,
    List.isPrefixOf, Ne.symm hb, Ne.symm ht, Ne.symm hs]

theorem withPlaceholders_plain {c : Char} (hb : c ≠ '\\') (ht : c ≠ '\t') (hs : c ≠ ' ')
    (text : Text) : withPlaceholders (c :: text) = c :: withPlaceholders text :=
  withPlaceholders_of_rule?_eq_none (rule?_eq_none_of_plain hb ht hs text)

/-- A backslash begins no escape iff none of the ends follows. -/
theorem rule?_backslash_eq_none_iff (text : Text) :
    rule? Placeholder.rules ('\\' :: text) = none ↔ ∀ w ∈ escapeEnds, ¬ w <+: text := by
  simp [rule?, Placeholder.rules, Placeholder.table, Placeholder.escapedBackslash, escapeEnds,
    List.isPrefixOf, ← List.isPrefixOf_iff_prefix]

/-- Behind a backslash that begins no escape stands no other one. -/
theorem head?_ne_of_rule?_eq_none {text : Text}
    (h : rule? Placeholder.rules ('\\' :: text) = none) : text.head? ≠ some '\\' := by
  intro hhead
  obtain ⟨rest, rfl⟩ := List.head?_eq_some_iff.mp hhead
  exact absurd h (by simp [rule?, Placeholder.rules, Placeholder.escapedBackslash])

/-- What holds of a text if it holds of the text behind its first unit holds of every text. -/
@[elab_as_elim]
theorem scan_induction {motive : Text → Prop} (nil : motive [])
    (pair : ∀ text, motive text → motive ('\\' :: '\\' :: text))
    (sequence : ∀ p ∈ Placeholder.table, ∀ text, motive text → motive (p.sequence ++ text))
    (lone : ∀ text, rule? Placeholder.rules ('\\' :: text) = none → motive text →
      motive ('\\' :: text))
    (plain : ∀ c text, c ≠ '\\' → c ≠ '\t' → c ≠ ' ' → motive text → motive (c :: text))
    (text : Text) : motive text := by
  induction hn : text.length using Nat.strongRecOn generalizing text with
  | ind n ih =>
      cases text with
      | nil => exact nil
      | cons c rest =>
          subst hn
          cases hrule : rule? Placeholder.rules (c :: rest) with
          | some rule =>
              -- The sequence of the rule is the unit.
              have hbegins : rule.sequence.isPrefixOf (c :: rest) = true := by
                simpa using List.find?_some hrule
              obtain ⟨behind, hbehind⟩ := List.isPrefixOf_iff_prefix.mp hbegins
              have hlen := congrArg List.length hbehind
              rw [List.length_append] at hlen
              rw [← hbehind]
              rcases List.mem_cons.mp (List.mem_of_find?_eq_some hrule) with rfl | hmem
              · have htwo : Placeholder.escapedBackslash.sequence.length = 2 := rfl
                exact pair _ (ih _ (by omega) behind rfl)
              · obtain ⟨p, hp, rfl⟩ := List.mem_map.mp hmem
                have hpos : ∀ p ∈ Placeholder.table, 0 < p.sequence.length := by decide
                have := hpos p hp
                dsimp only at hlen
                exact sequence p hp _ (ih _ (by omega) behind rfl)
          | none =>
              have hrest : motive rest := ih _ (by simp) rest rfl
              by_cases hb : c = '\\'
              · subst hb
                exact lone rest hrule hrest
              · refine plain c rest hb ?_ ?_ hrest
                · rintro rfl
                  simp [rule?, Placeholder.rules, Placeholder.table,
                    Placeholder.escapedBackslash, List.isPrefixOf] at hrule
                · rintro rfl
                  simp [rule?, Placeholder.rules, Placeholder.table,
                    Placeholder.escapedBackslash, List.isPrefixOf] at hrule

/-- A text that is not empty is shown. -/
theorem withPlaceholders_eq_nil_iff (text : Text) : withPlaceholders text = [] ↔ text = [] := by
  constructor
  · intro h
    induction text using scan_induction with
    | nil => rfl
    | pair text _ =>
        rw [withPlaceholders_pair] at h
        simp at h
    | sequence p hp text _ =>
        rw [withPlaceholders_sequence hp] at h
        simp at h
    | lone text hrule _ =>
        rw [withPlaceholders_of_rule?_eq_none hrule] at h
        simp at h
    | plain c text hb ht hs _ =>
        rw [withPlaceholders_plain hb ht hs] at h
        simp at h
  · rintro rfl
    rfl

/-! ## Entangled texts -/

/-- A text behind one that does not end in a backslash. -/
theorem Entangled.append {text before : Text} (h : Entangled text)
    (hlast : before.getLast? ≠ some '\\') : Entangled (before ++ text) := by
  obtain ⟨u, n, c, v, rfl, hu, hc⟩ := h
  refine ⟨before ++ u, n, c, v, by simp, ?_, hc⟩
  rcases List.eq_nil_or_concat u with rfl | ⟨u, d, rfl⟩
  · rwa [List.append_nil]
  · simpa using hu

/-- A pair of backslashes makes a run longer by two. -/
theorem Entangled.pair {text : Text} (h : Entangled text) :
    Entangled ('\\' :: '\\' :: text) := by
  obtain ⟨u, n, c, v, rfl, hu, hc⟩ := h
  cases u with
  | nil =>
      refine ⟨[], n + 1, c, v, ?_, by simp, hc⟩
      rw [show 2 * (n + 1) + 1 = (2 * n + 1) + 1 + 1 by omega]
      simp [List.replicate_succ]
  | cons d u => exact ⟨'\\' :: '\\' :: d :: u, n, c, v, by simp, by simpa using hu, hc⟩

/-- A backslash before a text that begins with none. -/
theorem Entangled.lone {text : Text} (h : Entangled text) (hhead : text.head? ≠ some '\\') :
    Entangled ('\\' :: text) := by
  obtain ⟨u, n, c, v, rfl, hu, hc⟩ := h
  cases u with
  | nil => simp [List.replicate_succ] at hhead
  | cons d u => exact ⟨'\\' :: d :: u, n, c, v, by simp, by simpa using hu, hc⟩

theorem entangled_of_spelledAsEscape {c : Char} (h : c ∈ spelledAsEscape) (text : Text) :
    Entangled ('\\' :: c :: text) :=
  ⟨[], 0, c, text, rfl, by simp, h⟩

/-! ## What is shown again -/

/-- The text as it is shown and spelled out. -/
def respelled (text : Text) : Text := (withPlaceholders text).spelledOut

theorem respelled_sequence {p : Placeholder} (h : p ∈ Placeholder.table) (text : Text) :
    respelled (p.sequence ++ text) = spelling p.symbol ++ respelled text := by
  rw [respelled, withPlaceholders_sequence h, spelledOut_cons, respelled]

theorem respelled_lone {text : Text} (h : rule? Placeholder.rules ('\\' :: text) = none) :
    respelled ('\\' :: text) = '\\' :: respelled text := by
  have hspelling : spelling '\\' = ['\\'] := by decide
  rw [respelled, withPlaceholders_of_rule?_eq_none h, spelledOut_cons, hspelling, respelled]
  rfl

theorem respelled_pair (text : Text) :
    respelled ('\\' :: '\\' :: text) = '\\' :: '\\' :: respelled text := by
  have hspelling : spelling '\\' = ['\\'] := by decide
  rw [respelled, withPlaceholders_pair, spelledOut_cons, spelledOut_cons, hspelling, respelled]
  rfl

theorem respelled_plain {c : Char} (hb : c ≠ '\\') (ht : c ≠ '\t') (hs : c ≠ ' ')
    (text : Text) : respelled (c :: text) = spelling c ++ respelled text := by
  rw [respelled, withPlaceholders_plain hb ht hs, spelledOut_cons, respelled]

/-- The character that the spelling of a text begins with, by the one that the text begins
with. -/
def firstSpelled (c : Char) : Char :=
  if c = '\\' ∨ c ∈ spelledAsEscape then '\\'
  else if c = ' ' ∨ c = Placeholder.space then ' '
  else c

theorem head?_spelling {c : Char} (ht : c ≠ '\t') (hs : c ≠ ' ') :
    (spelling c).head? = some (firstSpelled c) := by
  by_cases hsymbol : c ∈ Placeholder.table.map Placeholder.symbol
  · have htable : ∀ p ∈ Placeholder.table,
        (spelling p.symbol).head? = some (firstSpelled p.symbol) := by decide
    obtain ⟨p, hp, rfl⟩ := List.mem_map.mp hsymbol
    exact htable p hp
  · have hescape : c ∉ spelledAsEscape := by
      -- what is spelled as an escape is a tab or a symbol
      have htable : spelledAsEscape.all fun d =>
          d = '\t' ∨ d ∈ Placeholder.table.map Placeholder.symbol := by decide
      intro hc
      rcases of_decide_eq_true (List.all_eq_true.mp htable c hc) with h | h
      · exact ht h
      · exact hsymbol h
    have hspace : c ≠ Placeholder.space := by
      rintro rfl
      exact hsymbol (by decide)
    rw [spelling_of_not_symbol hsymbol, firstSpelled]
    by_cases hb : c = '\\'
    · rw [if_pos (Or.inl hb), hb]
      rfl
    · rw [if_neg (by simp [hb, hescape]), if_neg (by simp [hs, hspace])]
      rfl

/-- What is spelled out begins with a backslash or a blank, unless it begins with a character that
was there before. -/
theorem head?_respelled (text : Text) : (respelled text).head? = text.head?.map firstSpelled := by
  induction text using scan_induction with
  | nil => rfl
  | pair text => rw [respelled_pair]; rfl
  | lone text h => rw [respelled_lone h]; rfl
  | sequence p hp text =>
      have hsequence : ∀ p ∈ Placeholder.table,
          (spelling p.symbol).head? = p.sequence.head?.map firstSpelled ∧
            p.sequence.head?.isSome := by decide
      obtain ⟨hspelling, hsome⟩ := hsequence p hp
      obtain ⟨c, hc⟩ := Option.isSome_iff_exists.mp hsome
      rw [respelled_sequence hp, List.head?_append, List.head?_append, hspelling, hc]
      rfl
  | plain c text hb ht hs =>
      rw [respelled_plain hb ht hs, List.head?_append, head?_spelling ht hs]
      rfl

/-- Letters and digits are spelled out only where they were. -/
theorem prefix_of_prefix_respelled {w : Text} (hw : w.all Char.isAlphanum) {text : Text}
    (h : w <+: respelled text) : w <+: text := by
  have hspecial : ('\\' :: ' ' :: Placeholder.table.map Placeholder.symbol).all fun a =>
      !a.isAlphanum := by decide
  induction w generalizing text with
  | nil => exact List.nil_prefix
  | cons a w ih =>
      rw [List.all_cons, Bool.and_eq_true] at hw
      obtain ⟨ha, htail⟩ := hw
      cases text with
      | nil => simp [respelled] at h
      | cons c text =>
          have hfirst : firstSpelled c = a := by
            obtain ⟨rest, hrest⟩ := h
            have hhead := head?_respelled (c :: text)
            rw [← hrest] at hhead
            exact (Option.some.inj hhead).symm
          have hne : ∀ d ∈ '\\' :: ' ' :: Placeholder.table.map Placeholder.symbol, a ≠ d := by
            rintro d hd rfl
            have hnot := List.all_eq_true.mp hspecial a hd
            rw [ha] at hnot
            exact absurd hnot (by decide)
          -- a character that is spelled otherwise begins with a backslash or a blank
          have hca : c = a := by
            unfold firstSpelled at hfirst
            split_ifs at hfirst
            · exact absurd hfirst.symm (hne _ (by simp))
            · exact absurd hfirst.symm (hne _ (by simp))
            · exact hfirst
          subst hca
          have hsymbol : c ∉ Placeholder.table.map Placeholder.symbol := fun hc =>
            hne c (by simp [hc]) rfl
          have htab : c ≠ '\t' := by
            rintro rfl
            exact absurd ha (by decide)
          rw [respelled_plain (hne _ (by simp)) htab (hne _ (by simp)),
            spelling_of_not_symbol hsymbol, List.singleton_append, List.cons_prefix_cons] at h
          exact List.cons_prefix_cons.mpr ⟨rfl, ih htail h.2⟩

theorem rule?_respelled_eq_none {text : Text}
    (h : rule? Placeholder.rules ('\\' :: text) = none)
    (hnext : ∀ c ∈ text.head?, c ∉ spelledAsEscape) :
    rule? Placeholder.rules ('\\' :: respelled text) = none := by
  have hends : ∀ w ∈ escapeEnds, w = ['\\'] ∨ w.all Char.isAlphanum := by decide
  rw [rule?_backslash_eq_none_iff] at h ⊢
  intro w hw hprefix
  rcases hends w hw with rfl | halnum
  · -- Only another backslash or what is spelled as an escape could give the second one.
    cases text with
    | nil => simp [respelled] at hprefix
    | cons c text =>
        have hfirst : firstSpelled c = '\\' := by
          obtain ⟨rest, hrest⟩ := hprefix
          have hhead := head?_respelled (c :: text)
          rw [← hrest] at hhead
          exact (Option.some.inj hhead).symm
        have hescape : c ∉ spelledAsEscape := hnext c rfl
        have hc : c = '\\' := by
          unfold firstSpelled at hfirst
          split_ifs at hfirst with hb hs
          · exact hb.resolve_right hescape
          · exact absurd hfirst (by decide)
          · exact hfirst
        rw [hc] at h
        exact h _ hw ⟨text, rfl⟩
  · exact h w hw (prefix_of_prefix_respelled halnum hprefix)

/-- **What is shown, spelled out and shown again is shown as before**, unless a backslash can join
an escape that is written behind it. -/
theorem withPlaceholders_respelled {text : Text} (h : ¬ Entangled text) :
    withPlaceholders (respelled text) = withPlaceholders text := by
  induction text using scan_induction with
  | nil => rfl
  | pair text ih =>
      rw [respelled_pair, withPlaceholders_pair, withPlaceholders_pair, ih fun he => h he.pair]
  | sequence p hp text ih =>
      have hlast : ∀ p ∈ Placeholder.table, p.sequence.getLast? ≠ some '\\' := by decide
      have ih := ih fun he => h (he.append (hlast p hp))
      rw [respelled_sequence hp, withPlaceholders_sequence hp, withPlaceholders_spelling, ih]
      exact List.mem_map_of_mem hp
  | lone text hrule ih =>
      -- an escape spelled behind the lone backslash would entangle the text
      have hhead := head?_ne_of_rule?_eq_none hrule
      have hnext : ∀ c ∈ text.head?, c ∉ spelledAsEscape := by
        intro c hc hescape
        obtain ⟨rest, rfl⟩ := List.head?_eq_some_iff.mp hc
        exact h (entangled_of_spelledAsEscape hescape rest)
      have ih := ih fun he => h (he.lone hhead)
      rw [respelled_lone hrule, withPlaceholders_of_rule?_eq_none hrule,
        withPlaceholders_of_rule?_eq_none (rule?_respelled_eq_none hrule hnext), ih]
  | plain c text hb ht hs ih =>
      have hlast : [c].getLast? ≠ some '\\' := by simp [hb]
      have ih := ih fun he => h (he.append hlast)
      rw [respelled_plain hb ht hs, withPlaceholders_plain hb ht hs]
      by_cases hsymbol : c ∈ Placeholder.table.map Placeholder.symbol
      · rw [withPlaceholders_spelling hsymbol, ih]
      · rw [spelling_of_not_symbol hsymbol, List.singleton_append,
          withPlaceholders_plain hb ht hs, ih]

end Text

end Yeast
