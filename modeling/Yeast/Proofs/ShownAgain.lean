import Yeast.Proofs.Parity

set_option autoImplicit false

/-! # Texts shown again

What is shown holds neither blanks nor an escape that would be replaced: a symbol is no part of any
escape, so nothing new begins where one has been written, and a pair of backslashes is shown as a
pair. Showing a text a second time therefore changes nothing (`Text.shownOnce`).

Spelling it out in between writes escapes again, and these are shown as before unless the backslash
of one is read as the second half of a pair. This happens exactly in the texts that are entangled:
there the lone backslash at the end of a run takes the one that is written behind it, the letters of
the escape remain as they are, and what is shown has grown (`Text.reshown`).
-/

namespace Yeast

namespace Text

/-- What holds of a text once it has been shown. -/
structure ShownOnce (text : Text) : Prop where
  /-- It is shown as itself. -/
  again : text.withPlaceholders.withPlaceholders = text.withPlaceholders
  /-- No sequence that would be replaced stands in it, made by what was written or left over. -/
  begins : ∀ i p, ¬ Begins text.withPlaceholders i p
  /-- A pair of backslashes stands in it as a pair, behind a run that is even in number. -/
  pairs : ∀ before rest : Text, Even (trailingBackslashes before) →
    text = before ++ '\\' :: '\\' :: rest →
    text.withPlaceholders = before.withPlaceholders ++ '\\' :: '\\' :: rest.withPlaceholders ∧
      Even (trailingBackslashes before.withPlaceholders)

/-- What becomes of a text that is shown, spelled out and shown again. -/
structure Reshown (text : Text) : Prop where
  /-- It is shown as before unless a run of backslashes, odd in number, stands right before a
  character that is spelled out as an escape. -/
  same_iff : text.withPlaceholders.spelledOut.withPlaceholders = text.withPlaceholders ↔
    ¬ Entangled text
  /-- There the last backslash of the run is joined to a pair by the escape, whose other characters
  are shown instead of the symbol. -/
  joined : ∀ (before : Text) (n : Nat) (c : Char) (after : Text),
    before.getLast? ≠ some '\\' → c ∈ spelledAsEscape →
    text = before ++ List.replicate (2 * n + 1) '\\' ++ c :: after →
    ∃ s w, spelling s = '\\' :: w ∧
      text.withPlaceholders = before.withPlaceholders ++
        (List.replicate (2 * n + 1) '\\' ++ s :: after.withPlaceholders) ∧
      text.withPlaceholders.spelledOut.withPlaceholders =
        before.withPlaceholders.spelledOut.withPlaceholders ++
          (List.replicate (2 * (n + 1)) '\\' ++
            (w ++ after.withPlaceholders.spelledOut.withPlaceholders))

/-! ## What is shown -/

/-- What is shown begins with a backslash only where the text does. -/
theorem head?_of_head?_withPlaceholders {text : Text}
    (h : text.withPlaceholders.head? = some '\\') : text.head? = some '\\' := by
  have hsymbol : ∀ p ∈ Placeholder.table, p.symbol ≠ '\\' := by decide
  induction text using scan_induction with
  | nil => exact absurd h (by simp)
  | pair rest => rfl
  | sequence p hp rest =>
      rw [withPlaceholders_sequence hp] at h
      exact absurd (Option.some.inj h) (hsymbol p hp)
  | lone rest => rfl
  | plain c rest hb ht hs =>
      rw [withPlaceholders_plain hb ht hs] at h
      exact absurd (Option.some.inj h) hb

/-- No blank is shown as itself. -/
theorem ne_blank_of_mem_withPlaceholders {text : Text} {c : Char}
    (h : c ∈ text.withPlaceholders) : c ≠ '\t' ∧ c ≠ ' ' := by
  have hsymbol : ∀ p ∈ Placeholder.table, p.symbol ≠ '\t' ∧ p.symbol ≠ ' ' := by decide
  have hbackslash : '\\' ≠ '\t' ∧ '\\' ≠ ' ' := by decide
  induction text using scan_induction with
  | nil => exact absurd h List.not_mem_nil
  | pair rest ih =>
      rw [withPlaceholders_pair] at h
      rcases List.mem_cons.mp h with rfl | h
      · exact hbackslash
      rcases List.mem_cons.mp h with rfl | h
      · exact hbackslash
      · exact ih h
  | sequence p hp rest ih =>
      rw [withPlaceholders_sequence hp] at h
      rcases List.mem_cons.mp h with rfl | h
      · exact hsymbol p hp
      · exact ih h
  | lone rest hrule ih =>
      rw [withPlaceholders_of_rule?_eq_none hrule] at h
      rcases List.mem_cons.mp h with rfl | h
      · exact hbackslash
      · exact ih h
  | plain d rest hb ht hs ih =>
      rw [withPlaceholders_plain hb ht hs] at h
      rcases List.mem_cons.mp h with rfl | h
      · exact ⟨ht, hs⟩
      · exact ih h

/-- Showing a text never makes it longer. -/
theorem length_withPlaceholders_le (text : Text) :
    text.withPlaceholders.length ≤ text.length := by
  induction text using scan_induction with
  | nil => exact Nat.le_refl 0
  | pair rest ih =>
      simp only [withPlaceholders_pair, List.length_cons]
      omega
  | sequence p hp rest ih =>
      have hpos : ∀ p ∈ Placeholder.table, 0 < p.sequence.length := by decide
      have := hpos p hp
      rw [withPlaceholders_sequence hp, List.length_cons, List.length_append]
      omega
  | lone rest hrule ih =>
      rw [withPlaceholders_of_rule?_eq_none hrule, List.length_cons, List.length_cons]
      omega
  | plain c rest hb ht hs ih =>
      rw [withPlaceholders_plain hb ht hs, List.length_cons, List.length_cons]
      omega

/-- In a text that is shown as itself no sequence stands that would be replaced. -/
theorem not_begins_of_withPlaceholders_eq_self {text : Text} (h : text.withPlaceholders = text)
    (i : Nat) (p : Placeholder) : ¬ Begins text i p := by
  intro hp
  obtain ⟨c, hc, hhead, hi⟩ := hp.exists_beginning
  by_cases hb : c = '\\'
  · -- An escape is longer than its symbol, and nothing else makes up for what is lost.
    subst hb
    have htable : ∀ p ∈ Placeholder.table, p.sequence.head? = some '\\' →
        2 ≤ p.sequence.length := by decide
    have hlong := htable p hp.mem hhead
    obtain ⟨after, hafter⟩ := hp.sequence
    obtain ⟨tail, htail⟩ := List.head?_eq_some_iff.mp hhead
    have htext : text = text.take i ++ '\\' :: (tail ++ after) := by
      rw [← List.cons_append, ← htail, hafter, List.take_append_drop]
    have hshown : text.withPlaceholders =
        withPlaceholders (text.take i) ++ p.symbol :: withPlaceholders after := by
      conv_lhs => rw [htext]
      rw [withPlaceholders_append (hp.even hhead), ← List.cons_append, ← htail,
        withPlaceholders_sequence hp.mem]
    have hlength := congrArg List.length (hshown.symm.trans (h.trans htext))
    have hbefore := length_withPlaceholders_le (text.take i)
    have hbehind := length_withPlaceholders_le after
    rw [htail, List.length_cons] at hlong
    simp only [List.length_append, List.length_cons] at hlength
    omega
  · have hmem : c ∈ text.withPlaceholders := h.symm ▸ List.mem_of_getElem? hi
    obtain ⟨ht, hs⟩ := ne_blank_of_mem_withPlaceholders hmem
    simp only [beginnings, List.mem_cons, List.not_mem_nil, or_false] at hc
    rcases hc with rfl | rfl | rfl
    · exact hb rfl
    · exact ht rfl
    · exact hs rfl

/-! ## Showing what is shown -/

/-- What is shown behind a backslash completes no escape that was not there. -/
theorem rule?_withPlaceholders_eq_none {text : Text}
    (h : rule? Placeholder.rules ('\\' :: text) = none) :
    rule? Placeholder.rules ('\\' :: text.withPlaceholders) = none := by
  have hends : ∀ w ∈ escapeEnds, w = ['\\'] ∨ w.all Char.isAlphanum := by decide
  rw [rule?_backslash_eq_none_iff] at h ⊢
  rintro w hw ⟨rest, hrest⟩
  rcases hends w hw with rfl | halnum
  · have hhead : text.head? = some '\\' := head?_of_head?_withPlaceholders (by rw [← hrest]; rfl)
    obtain ⟨more, rfl⟩ := List.head?_eq_some_iff.mp hhead
    exact h _ hw ⟨more, rfl⟩
  · -- Letters and digits that are shown are spelled out, and these were there before.
    refine h w hw (prefix_of_prefix_respelled halnum ⟨spelledOut rest, ?_⟩)
    rw [respelled, ← hrest, spelledOut_append, spelledOut_of_all_isAlphanum halnum]

theorem withPlaceholders_withPlaceholders (text : Text) :
    text.withPlaceholders.withPlaceholders = text.withPlaceholders := by
  induction text using scan_induction with
  | nil => rfl
  | pair rest ih => rw [withPlaceholders_pair, withPlaceholders_pair, ih]
  | sequence p hp rest ih =>
      have hsymbol : ∀ p ∈ Placeholder.table,
          p.symbol ≠ '\\' ∧ p.symbol ≠ '\t' ∧ p.symbol ≠ ' ' := by decide
      obtain ⟨hb, ht, hs⟩ := hsymbol p hp
      rw [withPlaceholders_sequence hp, withPlaceholders_plain hb ht hs, ih]
  | lone rest hrule ih =>
      rw [withPlaceholders_of_rule?_eq_none hrule,
        withPlaceholders_of_rule?_eq_none (rule?_withPlaceholders_eq_none hrule), ih]
  | plain c rest hb ht hs ih =>
      rw [withPlaceholders_plain hb ht hs, withPlaceholders_plain hb ht hs, ih]

/-! ## Pairs of backslashes -/

/-- The run of backslashes at the end is shown as one of the same parity. -/
theorem even_trailingBackslashes_withPlaceholders (text : Text) :
    Even (trailingBackslashes text.withPlaceholders) ↔ Even (trailingBackslashes text) := by
  induction text using scan_induction with
  | nil => exact Iff.rfl
  | pair rest ih =>
      rw [withPlaceholders_pair, even_trailingBackslashes_pair, even_trailingBackslashes_pair, ih]
  | sequence p hp rest ih =>
      -- no sequence ends in a backslash, and no symbol is one
      have htable : ∀ p ∈ Placeholder.table,
          [p.symbol].getLast? ≠ some '\\' ∧ p.sequence.getLast? ≠ some '\\' := by decide
      obtain ⟨hsymbol, hsequence⟩ := htable p hp
      rw [withPlaceholders_sequence hp, ← List.singleton_append,
        trailingBackslashes_append_of_left hsymbol, trailingBackslashes_append_of_left hsequence,
        ih]
  | lone rest hrule ih =>
      rw [withPlaceholders_of_rule?_eq_none hrule]
      by_cases hrest : rest = []
      · subst hrest
        exact Iff.rfl
      · have hshown : withPlaceholders rest ≠ [] := mt (withPlaceholders_eq_nil_iff rest).mp hrest
        -- no backslash follows a lone one, and showing the rest puts none there
        have hhead := head?_ne_of_rule?_eq_none hrule
        rw [trailingBackslashes_cons hshown (mt head?_of_head?_withPlaceholders hhead),
          trailingBackslashes_cons hrest hhead, ih]
  | plain c rest hb ht hs ih =>
      have hone : [c].getLast? ≠ some '\\' := by simpa using hb
      rw [withPlaceholders_plain hb ht hs, ← List.singleton_append,
        trailingBackslashes_append_of_left hone, ← List.singleton_append (l := rest),
        trailingBackslashes_append_of_left hone, ih]

/-- **A text that has been shown is shown as itself**, and its pairs of backslashes stand where
they did. -/
theorem shownOnce (text : Text) : text.ShownOnce where
  again := withPlaceholders_withPlaceholders text
  begins := not_begins_of_withPlaceholders_eq_self (withPlaceholders_withPlaceholders text)
  pairs := by
    rintro before rest heven rfl
    rw [withPlaceholders_append heven, withPlaceholders_pair]
    exact ⟨rfl, (even_trailingBackslashes_withPlaceholders before).mpr heven⟩

/-! ## Spelled out in between -/

/-- What a character of an entangled text is shown as. -/
def shownSymbol (c : Char) : Char := if c = '\t' then Placeholder.tab else c

theorem withPlaceholders_cons_of_spelledAsEscape {c : Char} (h : c ∈ spelledAsEscape)
    (rest : Text) : withPlaceholders (c :: rest) = shownSymbol c :: withPlaceholders rest := by
  simp only [spelledAsEscape, List.mem_cons, List.not_mem_nil, or_false] at h
  rcases h with rfl | rfl | rfl | rfl | rfl | rfl | rfl | rfl <;> rfl

/-- The escape that is written for it: letters and digits behind a backslash. -/
theorem exists_spelling_shownSymbol {c : Char} (h : c ∈ spelledAsEscape) :
    ∃ w, spelling (shownSymbol c) = '\\' :: w ∧ w.all Char.isAlphanum ∧ w ≠ [] := by
  have htable : spelledAsEscape.all fun c =>
      (spelling (shownSymbol c)).head? = some '\\' ∧
        (spelling (shownSymbol c)).tail.all Char.isAlphanum ∧
          (spelling (shownSymbol c)).tail ≠ [] := by decide
  obtain ⟨hhead, htail⟩ := of_decide_eq_true (List.all_eq_true.mp htable c h)
  obtain ⟨w, hw⟩ := List.head?_eq_some_iff.mp hhead
  rw [hw] at htail
  exact ⟨w, hw, htail⟩

theorem withPlaceholders_append_of_all_isAlphanum {w : Text} (h : w.all Char.isAlphanum)
    (rest : Text) : withPlaceholders (w ++ rest) = w ++ withPlaceholders rest := by
  induction w with
  | nil => rfl
  | cons c w ih =>
      rw [List.all_cons, Bool.and_eq_true] at h
      obtain ⟨hb, ht, hs⟩ : c ≠ '\\' ∧ c ≠ '\t' ∧ c ≠ ' ' := by
        refine ⟨?_, ?_, ?_⟩ <;>
        · rintro rfl
          exact absurd h.1 (by decide)
      rw [List.cons_append, withPlaceholders_plain hb ht hs, ih h.2]
      rfl

theorem respelled_eq_nil_iff (text : Text) : respelled text = [] ↔ text = [] := by
  rw [← List.head?_eq_none_iff, head?_respelled, Option.map_eq_none_iff, List.head?_eq_none_iff]

/-- Only a backslash is spelled out with one at the end. -/
theorem getLast?_spelling_ne {c : Char} (h : c ≠ '\\') : (spelling c).getLast? ≠ some '\\' := by
  have htable : ∀ p ∈ Placeholder.table, p.sequence.getLast? ≠ some '\\' := by decide
  by_cases hsymbol : c ∈ Placeholder.table.map Placeholder.symbol
  · obtain ⟨p, hp, -, hspelling⟩ := spelling_of_symbol hsymbol
    rw [hspelling]
    exact htable p hp
  · rw [spelling_of_not_symbol hsymbol]
    simpa using h

theorem getLast?_append_respelled_ne {u r rest : Text}
    (hunit : u.getLast? ≠ some '\\' → r.getLast? ≠ some '\\')
    (hrest : rest.getLast? ≠ some '\\' → (respelled rest).getLast? ≠ some '\\')
    (h : (u ++ rest).getLast? ≠ some '\\') : (r ++ respelled rest).getLast? ≠ some '\\' := by
  by_cases hnil : rest = []
  · subst hnil
    rw [List.append_nil] at h
    rw [(respelled_eq_nil_iff []).mpr rfl, List.append_nil]
    exact hunit h
  · rw [List.getLast?_append_of_ne_nil _ hnil] at h
    rw [List.getLast?_append_of_ne_nil _ (mt (respelled_eq_nil_iff rest).mp hnil)]
    exact hrest h

/-- A text that does not end in a backslash is not spelled out with one at the end. -/
theorem getLast?_respelled_ne {text : Text} (h : text.getLast? ≠ some '\\') :
    (respelled text).getLast? ≠ some '\\' := by
  induction text using scan_induction with
  | nil => exact h
  | pair rest ih =>
      rw [respelled_pair]
      exact getLast?_append_respelled_ne (u := ['\\', '\\']) (r := ['\\', '\\']) id ih h
  | sequence p hp rest ih =>
      have hsymbol : ∀ p ∈ Placeholder.table, p.symbol ≠ '\\' := by decide
      rw [respelled_sequence hp]
      exact getLast?_append_respelled_ne (fun _ => getLast?_spelling_ne (hsymbol p hp)) ih h
  | lone rest hrule ih =>
      rw [respelled_lone hrule]
      exact getLast?_append_respelled_ne (u := ['\\']) (r := ['\\']) id ih h
  | plain c rest hb ht hs ih =>
      rw [respelled_plain hb ht hs]
      exact getLast?_append_respelled_ne (u := [c]) (fun _ => getLast?_spelling_ne hb) ih h

theorem respelled_cons_of_spelledAsEscape {c : Char} (h : c ∈ spelledAsEscape) (rest : Text) :
    respelled (c :: rest) = spelling (shownSymbol c) ++ respelled rest := by
  rw [respelled, withPlaceholders_cons_of_spelledAsEscape h, spelledOut_cons, respelled]

theorem withPlaceholders_respelled_cons {c : Char} (h : c ∈ spelledAsEscape) (rest : Text) :
    withPlaceholders (respelled (c :: rest)) =
      shownSymbol c :: withPlaceholders (respelled rest) := by
  have htable : spelledAsEscape.all fun c =>
      shownSymbol c ∈ Placeholder.table.map Placeholder.symbol := by decide
  have hsymbol := of_decide_eq_true (List.all_eq_true.mp htable c h)
  rw [respelled_cons_of_spelledAsEscape h, withPlaceholders_spelling hsymbol]

/-- Spelling out what is shown, and showing it again, loses no character. -/
theorem length_withPlaceholders_le_respelled (text : Text) :
    text.withPlaceholders.length ≤ (withPlaceholders (respelled text)).length := by
  induction text using scan_induction with
  | nil => exact Nat.le_refl 0
  | pair rest ih =>
      rw [respelled_pair, withPlaceholders_pair, withPlaceholders_pair]
      simp only [List.length_cons]
      omega
  | sequence p hp rest ih =>
      rw [respelled_sequence hp, withPlaceholders_sequence hp,
        withPlaceholders_spelling (List.mem_map_of_mem hp), List.length_cons, List.length_cons]
      omega
  | lone rest hrule ih =>
      by_cases hagain : rule? Placeholder.rules ('\\' :: respelled rest) = none
      · rw [respelled_lone hrule, withPlaceholders_of_rule?_eq_none hrule,
          withPlaceholders_of_rule?_eq_none hagain, List.length_cons, List.length_cons]
        omega
      · -- The backslash is joined by an escape, and the symbol is shown as several characters.
        have hnext : ¬ ∀ c ∈ rest.head?, c ∉ spelledAsEscape := fun hnext =>
          hagain (rule?_respelled_eq_none hrule hnext)
        push Not at hnext
        obtain ⟨c, hhead, hc⟩ := hnext
        obtain ⟨more, rfl⟩ := List.head?_eq_some_iff.mp hhead
        obtain ⟨w, hw, halnum, hne⟩ := exists_spelling_shownSymbol hc
        rw [withPlaceholders_cons_of_spelledAsEscape hc, withPlaceholders_respelled_cons hc,
          List.length_cons, List.length_cons] at ih
        have hpos : 0 < w.length := List.length_pos_iff.mpr hne
        rw [respelled_lone hrule, withPlaceholders_of_rule?_eq_none hrule,
          withPlaceholders_cons_of_spelledAsEscape hc, respelled_cons_of_spelledAsEscape hc, hw,
          List.cons_append, withPlaceholders_pair,
          withPlaceholders_append_of_all_isAlphanum halnum]
        simp only [List.length_cons, List.length_append]
        omega
  | plain c rest hb ht hs ih =>
      rw [respelled_plain hb ht hs, withPlaceholders_plain hb ht hs]
      by_cases hsymbol : c ∈ Placeholder.table.map Placeholder.symbol
      · rw [withPlaceholders_spelling hsymbol, List.length_cons, List.length_cons]
        omega
      · rw [spelling_of_not_symbol hsymbol, List.singleton_append,
          withPlaceholders_plain hb ht hs, List.length_cons, List.length_cons]
        omega

/-! ## The backslash that is joined -/

section Joined

variable {before after : Text} {n : Nat} {c : Char}

/-- The last backslash of the run stands alone, before a symbol. -/
theorem withPlaceholders_entangled (hbefore : before.getLast? ≠ some '\\')
    (hc : c ∈ spelledAsEscape) :
    withPlaceholders (before ++ List.replicate (2 * n + 1) '\\' ++ c :: after) =
      withPlaceholders before ++
        (List.replicate (2 * n + 1) '\\' ++ shownSymbol c :: withPlaceholders after) := by
  have hrule : rule? Placeholder.rules ('\\' :: c :: after) = none := by
    -- no escape has `c` right behind its backslash
    have htable : spelledAsEscape.all fun c =>
        ∀ w ∈ escapeEnds, w ≠ [] ∧ w.head? ≠ some c := by decide
    rw [rule?_backslash_eq_none_iff]
    intro w hw hprefix
    obtain ⟨hne, hhead⟩ := of_decide_eq_true (List.all_eq_true.mp htable c hc) w hw
    obtain ⟨a, more, rfl⟩ := List.exists_cons_of_ne_nil hne
    exact hhead (congrArg some (List.cons_prefix_cons.mp hprefix).1)
  have hrun : ∀ rest : Text, List.replicate (2 * n + 1) '\\' ++ rest =
      List.replicate (2 * n) '\\' ++ '\\' :: rest := by
    intro rest
    rw [List.replicate_succ', List.append_assoc]
    rfl
  calc withPlaceholders (before ++ List.replicate (2 * n + 1) '\\' ++ c :: after)
      = withPlaceholders (before ++ (List.replicate (2 * n) '\\' ++ '\\' :: c :: after)) := by
        rw [List.append_assoc, hrun]
    _ = withPlaceholders before ++
          (List.replicate (2 * n) '\\' ++ withPlaceholders ('\\' :: c :: after)) :=
        withPlaceholders_append_pairs hbefore n _ (.inr rfl)
    _ = withPlaceholders before ++
          (List.replicate (2 * n + 1) '\\' ++ shownSymbol c :: withPlaceholders after) := by
        rw [withPlaceholders_of_rule?_eq_none hrule,
          withPlaceholders_cons_of_spelledAsEscape hc, hrun]

/-- Spelled out, it is followed by another one, and the two are shown as a pair. -/
theorem withPlaceholders_respelled_entangled (hbefore : before.getLast? ≠ some '\\')
    (hc : c ∈ spelledAsEscape) {w : Text} (hw : spelling (shownSymbol c) = '\\' :: w)
    (halnum : w.all Char.isAlphanum) :
    withPlaceholders (respelled (before ++ List.replicate (2 * n + 1) '\\' ++ c :: after)) =
      withPlaceholders (respelled before) ++
        (List.replicate (2 * (n + 1)) '\\' ++ (w ++ withPlaceholders (respelled after))) := by
  have hrespelled : respelled (before ++ List.replicate (2 * n + 1) '\\' ++ c :: after) =
      respelled before ++ (List.replicate (2 * (n + 1)) '\\' ++ (w ++ respelled after)) := by
    have hpair : List.replicate (2 * (n + 1)) '\\' =
        List.replicate (2 * n + 1) '\\' ++ ['\\'] := List.replicate_succ'
    rw [respelled, withPlaceholders_entangled hbefore hc, spelledOut_append, spelledOut_append,
      spelledOut_replicate, spelledOut_cons, hw, hpair, respelled, respelled]
    simp
  rw [hrespelled,
    withPlaceholders_append_pairs (getLast?_respelled_ne hbefore) (n + 1) _ (.inl n.succ_pos),
    withPlaceholders_append_of_all_isAlphanum halnum]

end Joined

/-- An entangled text is not shown as before: it has become longer. -/
theorem withPlaceholders_respelled_ne {text : Text} (h : Entangled text) :
    withPlaceholders (respelled text) ≠ text.withPlaceholders := by
  obtain ⟨before, n, c, after, rfl, hbefore, hc⟩ := h
  obtain ⟨w, hw, halnum, hne⟩ := exists_spelling_shownSymbol hc
  rw [withPlaceholders_entangled hbefore hc,
    withPlaceholders_respelled_entangled hbefore hc hw halnum]
  intro heq
  have hlength := congrArg List.length heq
  have hpos : 0 < w.length := List.length_pos_iff.mpr hne
  have hleft := length_withPlaceholders_le_respelled before
  have hright := length_withPlaceholders_le_respelled after
  simp only [List.length_append, List.length_replicate, List.length_cons] at hlength
  omega

/-- **A text is shown as before, after it has been shown and spelled out, exactly if it is not
entangled.** -/
theorem reshown (text : Text) : text.Reshown where
  same_iff := ⟨fun hsame h => withPlaceholders_respelled_ne h hsame, withPlaceholders_respelled⟩
  joined := by
    rintro before n c after hbefore hc rfl
    obtain ⟨w, hw, halnum, -⟩ := exists_spelling_shownSymbol hc
    exact ⟨shownSymbol c, w, hw, withPlaceholders_entangled hbefore hc,
      withPlaceholders_respelled_entangled hbefore hc hw halnum⟩

/-- A lone backslash before a tab: the escape of the tab gives it a second half, and its letter is
shown. -/
example : withPlaceholders ['\\', '\t'] = ['\\', '→'] ∧
    spelledOut ['\\', '→'] = ['\\', '\\', 't'] ∧
    withPlaceholders ['\\', '\\', 't'] = ['\\', '\\', 't'] := by
  decide

end Text

end Yeast
