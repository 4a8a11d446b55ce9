import Yeast.Proofs.Parity

set_option autoImplicit false

/-! # What spelling out gives back

A text that is shown and spelled out again is nearly what it was. A tab comes back as its escape, a
symbol that the text itself holds as the sequence it stands for, and the escape of U+FEFF in capital
letters; all else comes back as it was (`Text.respelledByPosition`). What stands in place of a
character can be told from its position (`Text.RespelledAt`), as with what is shown.

In place of each character at least one comes back. Where the whole is as long as the text, each
therefore gives exactly one, and two changes cannot make up for each other.
-/

namespace Yeast

namespace Placeholder

/-- The sequence that each symbol is spelled out as. -/
def canonical : List Placeholder :=
  [ ⟨['\\', 'r'], carriageReturn⟩,
    ⟨['\\', 'n'], lineFeed⟩,
    ⟨['\\', 'x', '8', '5'], nextLine⟩,
    ⟨['\\', 'u', '2', '0', '2', '8'], lineSeparator⟩,
    ⟨['\\', 'u', '2', '0', '2', '9'], paragraphSeparator⟩,
    ⟨['\\', 't'], tab⟩,
    ⟨[' '], space⟩,
    ⟨['\\', 'u', 'F', 'E', 'F', 'F'], noBreak⟩ ]

def smallNoBreak : Placeholder := ⟨['\\', 'u', 'f', 'e', 'f', 'f'], noBreak⟩

def capitalNoBreak : Text := ['\\', 'u', 'F', 'E', 'F', 'F']

end Placeholder

namespace Text

open Placeholder

/-- What comes back in place of the character at the position. -/
inductive RespelledAt (text : Text) (i : Nat) : Text → Prop
  /-- For a tab its escape. -/
  | tab : text[i]? = some '\t' → RespelledAt text i ['\\', 't']
  /-- For a symbol its sequence. -/
  | symbol {p : Placeholder} : p ∈ canonical → text[i]? = some p.symbol →
      RespelledAt text i p.sequence
  /-- Within an escape in small letters the character at the same place in capital letters. -/
  | small {j k : Nat} {d : Char} : Begins text j smallNoBreak → i = j + k →
      capitalNoBreak[k]? = some d → RespelledAt text i [d]
  /-- For any other character itself. -/
  | kept {c : Char} : text[i]? = some c → c ≠ '\t' → (∀ p ∈ canonical, p.symbol ≠ c) →
      (∀ j, Begins text j smallNoBreak → j ≤ i → j + 6 ≤ i) → RespelledAt text i [c]

/-- What comes back of a text that is shown and spelled out. -/
structure RespelledByPosition (text : Text) : Prop where
  /-- It is put together from what comes back in place of each character. -/
  positions : ∃ parts, List.Forall₂ (RespelledAt text) (List.range text.length) parts ∧
    text.withPlaceholders.spelledOut = parts.flatten
  /-- And this is determined by the position. -/
  unique : ∀ i part part', RespelledAt text i part → RespelledAt text i part' → part = part'
  /-- It is the text itself iff there was nothing to change. -/
  unchanged_iff : text.withPlaceholders.spelledOut = text ↔
    '\t' ∉ text ∧ (∀ p ∈ canonical, p.symbol ∉ text) ∧ ∀ i, ¬ Begins text i smallNoBreak

/-! ## Positions -/

section Positions

variable {text rest : Text} {i : Nat} {part : Text}

theorem Begins.getElem?_add {p : Placeholder} (h : Begins text i p) {k : Nat} {c : Char}
    (hc : p.sequence[k]? = some c) : text[i + k]? = some c := by
  obtain ⟨after, hafter⟩ := h.sequence
  obtain ⟨hk, -⟩ := List.getElem?_eq_some_iff.mp hc
  rw [← List.getElem?_drop, ← hafter, List.getElem?_append_left hk, hc]

/-- Within an escape in small letters stand only its own characters, no tabs and no symbols. -/
theorem Begins.exists_small {j k : Nat} {d : Char} (h : Begins text j smallNoBreak)
    (hd : capitalNoBreak[k]? = some d) :
    k < 6 ∧ ∃ c, text[j + k]? = some c ∧ c ≠ '\t' ∧ ∀ p ∈ canonical, p.symbol ≠ c := by
  have hplain : smallNoBreak.sequence.all fun c =>
      c ≠ '\t' ∧ ∀ p ∈ canonical, p.symbol ≠ c := by decide
  have hk : k < smallNoBreak.sequence.length := (List.getElem?_eq_some_iff.mp hd).1
  exact ⟨hk, _, h.getElem?_add (List.getElem?_eq_getElem hk),
    of_decide_eq_true (List.all_eq_true.mp hplain _ (List.getElem_mem hk))⟩

theorem RespelledAt.eq_of_tab (h : RespelledAt text i part) (hi : text[i]? = some '\t') :
    part = ['\\', 't'] := by
  cases h with
  | tab => rfl
  | symbol hp hi' =>
      have htable : ∀ p ∈ canonical, p.symbol ≠ '\t' := by decide
      exact absurd (Option.some.inj (hi'.symm.trans hi)) (htable _ hp)
  | small hj hij hd =>
      obtain ⟨-, c, hc, ht, -⟩ := hj.exists_small hd
      exact absurd (Option.some.inj (hc.symm.trans (hij ▸ hi))) ht
  | kept hi' ht _ _ => exact absurd (Option.some.inj (hi'.symm.trans hi)) ht

theorem RespelledAt.eq_of_symbol (h : RespelledAt text i part) {p : Placeholder}
    (hp : p ∈ canonical) (hi : text[i]? = some p.symbol) : part = p.sequence := by
  cases h with
  | tab hi' =>
      have htable : ∀ p ∈ canonical, p.symbol ≠ '\t' := by decide
      exact absurd (Option.some.inj (hi.symm.trans hi')) (htable p hp)
  | symbol hq hi' =>
      have htable : ∀ p ∈ canonical, ∀ q ∈ canonical, q.symbol = p.symbol →
          q.sequence = p.sequence := by decide
      exact htable p hp _ hq (Option.some.inj (hi'.symm.trans hi))
  | small hj hij hd =>
      obtain ⟨-, c, hc, -, hs⟩ := hj.exists_small hd
      exact absurd (Option.some.inj (hi.symm.trans (hij ▸ hc))) (hs p hp)
  | kept hi' _ hs _ => exact absurd (Option.some.inj (hi.symm.trans hi')) (hs p hp)

theorem RespelledAt.eq_of_small {j k : Nat} {d : Char} (h : RespelledAt text (j + k) part)
    (hj : Begins text j smallNoBreak) (hd : capitalNoBreak[k]? = some d) : part = [d] := by
  obtain ⟨hk, c, hc, ht, hs⟩ := hj.exists_small hd
  cases h with
  | tab hi => exact absurd (Option.some.inj (hc.symm.trans hi)) ht
  | symbol hp hi => exact absurd (Option.some.inj (hi.symm.trans hc)) (hs _ hp)
  | @small j' k' d' hj' hij hd' =>
      obtain ⟨hk', -⟩ := hj'.exists_small hd'
      have hlength : smallNoBreak.sequence.length = 6 := rfl
      -- Two of these escapes cannot overlap, so it is one and the same.
      rcases Nat.lt_trichotomy j j' with hlt | rfl | hgt
      · exact absurd hj' (hj.not_within hlt (by omega))
      · obtain rfl := Nat.add_left_cancel hij
        rw [Option.some.inj (hd'.symm.trans hd)]
      · exact absurd hj (hj'.not_within hgt (by omega))
  | kept _ _ _ hfree =>
      have := hfree j hj (Nat.le_add_right j k)
      omega

/-- What comes back in place of a character is determined by its position. -/
theorem RespelledAt.unique {part' : Text} (h : RespelledAt text i part)
    (h' : RespelledAt text i part') : part = part' := by
  cases h' with
  | tab hi => exact h.eq_of_tab hi
  | symbol hp hi => exact h.eq_of_symbol hp hi
  | small hj hij hd =>
      subst hij
      exact h.eq_of_small hj hd
  | kept hi ht hs hfree =>
      cases h with
      | tab hi' => exact absurd (Option.some.inj (hi.symm.trans hi')) ht
      | symbol hp hi' => exact absurd (Option.some.inj (hi'.symm.trans hi)) (hs _ hp)
      | small hj hij hd =>
          obtain ⟨hk, -⟩ := hj.exists_small hd
          have := hfree _ hj (by omega)
          omega
      | kept hi' _ _ _ => rw [Option.some.inj (hi'.symm.trans hi)]

theorem RespelledAt.ne_nil (h : RespelledAt text i part) : part ≠ [] := by
  have htable : ∀ p ∈ canonical, p.sequence ≠ [] := by decide
  cases h with
  | tab _ => exact List.cons_ne_nil _ _
  | symbol hp _ => exact htable _ hp
  | small _ _ _ => exact List.cons_ne_nil _ _
  | kept _ _ _ _ => exact List.cons_ne_nil _ _

/-! ## What comes back, position by position -/

/-- Each character at its position. -/
theorem forall₂_singletons_iff (R : Nat → Text → Prop) (i : Nat) (v : Text) :
    List.Forall₂ R (List.range' i v.length) (v.map fun c => [c]) ↔
      ∀ k c, v[k]? = some c → R (i + k) [c] := by
  induction v generalizing i with
  | nil => simp
  | cons c v ih =>
      rw [List.length_cons, List.range'_succ, List.map_cons, List.forall₂_cons, ih]
      constructor
      · rintro ⟨hfirst, hrest⟩ k d hd
        cases k with
        | zero =>
            rw [← Option.some.inj hd]
            exact hfirst
        | succ k =>
            have := hrest k d hd
            rwa [Nat.add_right_comm, Nat.add_assoc] at this
      · intro h
        refine ⟨h 0 c rfl, fun k d hd => ?_⟩
        have := h (k + 1) d hd
        rwa [← Nat.add_assoc, Nat.add_right_comm] at this

/-- The rest of the text comes back as its positions say. -/
def RespelledFrom (text : Text) (i : Nat) (rest : Text) : Prop :=
  ∃ parts, List.Forall₂ (RespelledAt text) (List.range' i rest.length) parts ∧
    respelled rest = parts.flatten

/-- A character for which something comes back. -/
theorem RespelledFrom.cons {c : Char} (hpart : RespelledAt text i part)
    (hrest : RespelledFrom text (i + 1) rest)
    (hrespelled : respelled (c :: rest) = part ++ respelled rest) :
    RespelledFrom text i (c :: rest) := by
  obtain ⟨parts, hparts, hflatten⟩ := hrest
  refine ⟨part :: parts, .cons hpart hparts, ?_⟩
  rw [hrespelled, hflatten]
  rfl

/-- Characters for each of which one comes back. -/
theorem RespelledFrom.append {u v : Text} (hlength : u.length = v.length)
    (hparts : ∀ k c, v[k]? = some c → RespelledAt text (i + k) [c])
    (hrest : RespelledFrom text (i + u.length) rest)
    (hrespelled : respelled (u ++ rest) = v ++ respelled rest) :
    RespelledFrom text i (u ++ rest) := by
  obtain ⟨parts, hrest, hflatten⟩ := hrest
  refine ⟨(v.map fun c => [c]) ++ parts, ?_, ?_⟩
  · rw [List.length_append, ← List.range'_append_1]
    refine List.rel_append ?_ hrest
    rw [hlength]
    exact (forall₂_singletons_iff _ _ _).mpr hparts
  · rw [hrespelled, hflatten, List.flatten_append, ← List.flatMap_def, List.flatMap_singleton']

/-- Where no sequence is replaced, a character comes back that is no tab and no symbol. -/
theorem RespelledAt.of_not_begins {c : Char} (hi : text[i]? = some c)
    (hplain : c ≠ '\t' ∧ ∀ p ∈ canonical, p.symbol ≠ c) (huncut : Uncut text i)
    (hnone : ∀ p, ¬ Begins text i p) : RespelledAt text i [c] := by
  refine .kept hi hplain.1 hplain.2 fun j hj hle => ?_
  rcases Nat.lt_or_eq_of_le hle with hlt | rfl
  · exact huncut j _ hj hlt
  · exact absurd hj (hnone _)

/-- Within a sequence that is replaced, and is no escape in small letters, a character comes back
as well. -/
theorem RespelledAt.of_within {p : Placeholder} {k : Nat} {c : Char} (hp : Begins text i p)
    (hne : p.sequence ≠ smallNoBreak.sequence) (hc : p.sequence[k]? = some c)
    (hplain : c ≠ '\t' ∧ ∀ p ∈ canonical, p.symbol ≠ c) (huncut : Uncut text i) :
    RespelledAt text (i + k) [c] := by
  refine .kept (hp.getElem?_add hc) hplain.1 hplain.2 fun j hj hle => ?_
  obtain ⟨hk, -⟩ := List.getElem?_eq_some_iff.mp hc
  rcases Nat.lt_trichotomy j i with hlt | rfl | hgt
  · exact Nat.le_trans (huncut j _ hj hlt) (Nat.le_add_right i k)
  · exact absurd (hp.unique hj).2 hne
  · exact absurd hj (hp.not_within hgt (by omega))

/-- A sequence that is replaced. -/
theorem RespelledFrom.sequence {p : Placeholder} (hp : Begins text i p) (huncut : Uncut text i)
    (hrest : RespelledFrom text (i + p.sequence.length) rest) :
    RespelledFrom text i (p.sequence ++ rest) := by
  have hrespelled := respelled_sequence hp.mem rest
  -- a tab comes back as its escape and the small no-break escape in capitals
  by_cases htab : p.sequence = ['\t']
  · have htable : ∀ p ∈ table, p.sequence = ['\t'] → spelling p.symbol = ['\\', 't'] := by decide
    rw [htable p hp.mem htab] at hrespelled
    rw [htab] at hrest hrespelled ⊢
    refine .cons (.tab ?_) hrest hrespelled
    exact hp.getElem?_add (k := 0) (by rw [htab]; rfl)
  by_cases hsmall : p.sequence = smallNoBreak.sequence
  · have htable : ∀ p ∈ table, p.sequence = smallNoBreak.sequence →
        spelling p.symbol = capitalNoBreak := by decide
    have hbegins : Begins text i smallNoBreak := by
      refine ⟨?_, hsmall ▸ hp.sequence, hsmall ▸ hp.even⟩
      simp [table, smallNoBreak]
    rw [htable p hp.mem hsmall] at hrespelled
    rw [hsmall] at hrest hrespelled ⊢
    exact .append (v := capitalNoBreak) rfl (fun k c hc => .small hbegins rfl hc) hrest
      hrespelled
  -- every other sequence comes back as it was
  · have htable : ∀ p ∈ table, p.sequence ≠ ['\t'] → p.sequence ≠ smallNoBreak.sequence →
        spelling p.symbol = p.sequence ∧
          p.sequence.all fun c => c ≠ '\t' ∧ ∀ q ∈ canonical, q.symbol ≠ c := by decide
    obtain ⟨hspelling, hplain⟩ := htable p hp.mem htab hsmall
    rw [hspelling] at hrespelled
    refine .append rfl (fun k c hc => ?_) hrest hrespelled
    exact .of_within hp hsmall hc
      (of_decide_eq_true (List.all_eq_true.mp hplain c (List.mem_of_getElem? hc))) huncut

/-- **From between two units on, the text comes back as its positions say.** -/
theorem Between.respelledFrom (h : Between text i rest) : RespelledFrom text i rest := by
  have hbackslash : '\\' ≠ '\t' ∧ ∀ p ∈ canonical, p.symbol ≠ '\\' := by decide
  induction rest using scan_induction generalizing i with
  | nil => exact ⟨[], .nil, rfl⟩
  | pair rest ih =>
      obtain ⟨hfirst, hsecond, hnext⟩ := h.pair
      have hone : RespelledAt text i ['\\'] :=
        .of_not_begins h.getElem? hbackslash h.uncut hfirst
      have htwo : RespelledAt text (i + 1) ['\\'] :=
        .of_not_begins h.getElem?_succ hbackslash (h.uncut.succ hfirst) hsecond
      obtain ⟨parts, hparts, hflatten⟩ := ih hnext
      refine ⟨['\\'] :: ['\\'] :: parts, .cons hone (.cons htwo hparts), ?_⟩
      rw [respelled_pair, hflatten]
      rfl
  | sequence p hp rest ih =>
      obtain ⟨hbegins, hnext⟩ := h.sequence hp
      exact .sequence hbegins h.uncut (ih hnext)
  | lone rest hrule ih =>
      obtain ⟨hnone, hnext⟩ := h.lone hrule
      exact .cons (.of_not_begins h.getElem? hbackslash h.uncut hnone) (ih hnext)
        (respelled_lone hrule)
  | plain c rest hb ht hs ih =>
      obtain ⟨hnone, hnext⟩ := h.plain hb ht hs
      have hrespelled := respelled_plain hb ht hs rest
      -- a symbol that was in the text before is spelled out as well
      by_cases hsymbol : ∃ p ∈ canonical, p.symbol = c
      · obtain ⟨p, hp, rfl⟩ := hsymbol
        have htable : ∀ p ∈ canonical, spelling p.symbol = p.sequence := by decide
        rw [htable p hp] at hrespelled
        exact .cons (.symbol hp h.getElem?) (ih hnext) hrespelled
      · have hfree : ∀ p ∈ canonical, p.symbol ≠ c := fun p hp he => hsymbol ⟨p, hp, he⟩
        have hspelling : spelling c = [c] := by
          have htable : ∀ p ∈ table, ∃ q ∈ canonical, q.symbol = p.symbol := by decide
          refine spelling_of_not_symbol fun hc => ?_
          obtain ⟨p, hp, rfl⟩ := List.mem_map.mp hc
          exact hsymbol (htable p hp)
        rw [hspelling] at hrespelled
        exact .cons (.of_not_begins h.getElem? ⟨ht, hfree⟩ h.uncut hnone) (ih hnext) hrespelled

end Positions

/-! ## Texts that come back unchanged -/

theorem length_le_length_flatten {parts : List Text} (h : ∀ part ∈ parts, part ≠ []) :
    parts.length ≤ parts.flatten.length := by
  induction parts with
  | nil => exact Nat.le_refl 0
  | cons part parts ih =>
      obtain ⟨hpart, hparts⟩ := List.forall_mem_cons.mp h
      have hpos := List.length_pos_iff.mpr hpart
      have := ih hparts
      rw [List.flatten_cons, List.length_append, List.length_cons]
      omega

/-- As many parts as characters, and none of them empty: each part is one character. -/
theorem eq_singletons_of_flatten {parts : List Text} {text : Text}
    (h : ∀ part ∈ parts, part ≠ []) (hlength : parts.length = text.length)
    (hflatten : parts.flatten = text) : parts = text.map fun c => [c] := by
  induction parts generalizing text with
  | nil =>
      subst hflatten
      rfl
  | cons part parts ih =>
      obtain ⟨hpart, hparts⟩ := List.forall_mem_cons.mp h
      obtain ⟨c, part, rfl⟩ := List.exists_cons_of_ne_nil hpart
      subst hflatten
      have hle := length_le_length_flatten hparts
      simp only [List.flatten_cons, List.length_append, List.length_cons] at hlength
      have hrest := ih hparts (by omega) rfl
      obtain rfl : part = [] := List.eq_nil_of_length_eq_zero (by omega)
      simpa using hrest

/-- The text is the same iff each of its characters comes back for itself. -/
theorem respelled_eq_self_iff (text : Text) :
    respelled text = text ↔ ∀ i c, text[i]? = some c → RespelledAt text i [c] := by
  obtain ⟨parts, hparts, hflatten⟩ := (Between.start text).respelledFrom
  have hsingles := forall₂_singletons_iff (RespelledAt text) 0 text
  simp only [Nat.zero_add] at hsingles
  rw [hflatten, ← hsingles]
  constructor
  · intro hsame
    have hne : ∀ part ∈ parts, part ≠ [] := by
      intro part hpart
      obtain ⟨k, hk, rfl⟩ := List.getElem_of_mem hpart
      exact (hparts.get (by rwa [hparts.length_eq]) hk).ne_nil
    have hlength : parts.length = text.length := by
      rw [← hparts.length_eq, List.length_range']
    rw [← eq_singletons_of_flatten hne hlength hsame]
    exact hparts
  · intro hkept
    have hunique : Relator.RightUnique (RespelledAt text) := fun _ _ _ h h' => h.unique h'
    rw [List.right_unique_forall₂' hunique hparts hkept, ← List.flatMap_def,
      List.flatMap_singleton']

/-- **What comes back of a text that is shown and spelled out is told by its positions.** -/
theorem respelledByPosition (text : Text) : text.RespelledByPosition where
  positions := by
    rw [List.range_eq_range']
    exact (Between.start text).respelledFrom
  unique _ _ _ := RespelledAt.unique
  unchanged_iff := by
    refine (respelled_eq_self_iff text).trans ⟨fun h => ⟨?_, ?_, ?_⟩, ?_⟩
    · intro hmem
      obtain ⟨i, hi⟩ := List.mem_iff_getElem?.mp hmem
      exact absurd ((h i _ hi).eq_of_tab hi) (by decide)
    · intro p hp hmem
      have htable : ∀ p ∈ canonical, [p.symbol] ≠ p.sequence := by decide
      obtain ⟨i, hi⟩ := List.mem_iff_getElem?.mp hmem
      exact htable p hp ((h i _ hi).eq_of_symbol hp hi)
    · -- The first letter in which the two escapes differ is the third character.
      intro i hi
      have hthird : text[i + 2]? = some 'f' := hi.getElem?_add rfl
      have hcapital : capitalNoBreak[2]? = some 'F' := rfl
      exact absurd ((h _ _ hthird).eq_of_small hi hcapital) (by decide)
    · rintro ⟨htab, hsymbol, hsmall⟩ i c hi
      have hmem := List.mem_of_getElem? hi
      exact .kept hi (fun hc => htab (hc ▸ hmem)) (fun p hp hc => hsymbol p hp (hc ▸ hmem))
        fun j hj => absurd hj (hsmall j)

/-- The escape in small letters behind a pair of backslashes comes back in capital letters, the one
behind a lone backslash does not; a tab comes back as its escape. -/
example : spelledOut (withPlaceholders
    ['\\', '\\', '\\', 'u', 'f', 'e', 'f', 'f', '\\', '\\', 'u', 'f', 'e', 'f', 'f', '\t']) =
    ['\\', '\\', '\\', 'u', 'F', 'E', 'F', 'F', '\\', '\\', 'u', 'f', 'e', 'f', 'f', '\\',
      't'] := by
  decide

end Text

end Yeast
