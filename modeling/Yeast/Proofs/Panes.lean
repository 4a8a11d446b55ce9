import Yeast.Pane.Correlation
import Yeast.Proofs.Elements
import Yeast.Proofs.Marker

set_option autoImplicit false

/-! # The forest of a model in a pane

A pane has one element for each entry that does not close, in order, and the element of an entry
lies in that of another iff the entry lies in the scope that the other begins (`ShownBy`). Two
models with the same elements therefore have the same forest, with whatever the elements tell of
their entries (`ShownBy.sameForest`).
-/

namespace Yeast

/-- Numerals tell their numbers. -/
theorem Text.ofInt_injective : Function.Injective Text.ofInt := by
  have hnat : Function.Injective Text.ofNat := by
    intro m n h
    rw [← Nat.ofDigitChars_ten_toDigits (n := m), ← Nat.ofDigitChars_ten_toDigits (n := n)]
    exact congrArg (Nat.ofDigitChars 10 · 0) h
  have hminus : ∀ m n, Text.ofNat m ≠ '-' :: Text.ofNat n := by
    intro m n h
    have hmem : '-' ∈ Nat.toDigits 10 m := by
      rw [show Nat.toDigits 10 m = '-' :: Text.ofNat n from h]
      exact List.mem_cons_self
    exact absurd (Nat.isDigit_of_mem_toDigits (by decide) (by decide) hmem) (by decide)
  intro i j h
  -- a sign tells the negative numbers, which are shown by their absolute values
  cases i with
  | ofNat m =>
      cases j with
      | ofNat n => exact congrArg Int.ofNat (hnat h)
      | negSucc n => exact absurd h (hminus _ _)
  | negSucc m =>
      cases j with
      | ofNat n => exact absurd h.symm (hminus _ _)
      | negSucc n =>
          have hsucc := hnat ((List.cons_inj_right _).mp h)
          rw [Nat.add_right_cancel hsucc]

open Markup

namespace Model

/-- The entry at `j` is `e`, which does not close and thus is shown. -/
def Shows (m : Model) (j : Nat) (e : Entry) : Prop := m.entries[j]? = some e ∧ e.kind ≠ .closing

/-- How many entries that are shown stand before the position `j`. -/
def number (m : Model) (j : Nat) : Nat :=
  ((m.entries.take j).filter fun e => e.kind ≠ .closing).length

/-- The entry at `j` lies in the scope that the one at `i` begins: behind it, and before the
entry that ends the scope or, where none does, anywhere up to the end of the model. -/
def Encloses (m : Model) (i j : Nat) : Prop := Bracket.Encloses Entry.EndedBy m.brackets i j

/-- The places from the number `first` on are those of the entries shown, and `Suits` says what
their elements tell. -/
structure ShownBy (m : Model) (Suits : Element → Entry → Prop) (first : Nat)
    (places : List (Bracket.Place Element)) : Prop where
  length : places.length = first + m.number m.entries.length
  place : ∀ j e, m.Shows j e → ∃ p, places[first + m.number j]? = some p ∧ Suits p.label e ∧
    (∀ i o, m.Shows i o → (first + m.number i ∈ p.around ↔ m.Encloses i j)) ∧
    ∀ k ∈ p.around, ∃ i, k = first + m.number i ∧ m.Encloses i j

/-- Two models show as many entries; those of the same number agree in what `part` takes of them,
and they enclose one another alike. -/
structure SameForest {γ : Type} (part : Entry → γ) (m m' : Model) : Prop where
  length : m.number m.entries.length = m'.number m'.entries.length
  part : ∀ j j' e e', m.Shows j e → m'.Shows j' e' → m.number j = m'.number j' →
    part e = part e'
  encloses : ∀ i i' j j' o o' e e', m.Shows i o → m'.Shows i' o' → m.number i = m'.number i' →
    m.Shows j e → m'.Shows j' e' → m.number j = m'.number j' →
    (m.Encloses i j ↔ m'.Encloses i' j')

/-! ## Numbers -/

theorem filterMap_label_brackets (entries : List Entry) :
    (entries.map Entry.bracket).filterMap Bracket.label? =
      entries.filter fun e => e.kind ≠ .closing := by
  induction entries with
  | nil => rfl
  | cons e entries ih =>
      rw [List.map_cons, List.filterMap_cons, List.filter_cons, ih]
      by_cases ho : e.kind = .opening
      · simp [Entry.bracket_of_opening ho, Bracket.label?, ho]
      by_cases hc : e.kind = .closing
      · simp [Entry.bracket_of_closing hc, Bracket.label?, hc]
      · simp [Entry.bracket_of_leaf ho hc, Bracket.label?, hc]

theorem rank_brackets (m : Model) (j : Nat) : Bracket.rank m.brackets j = m.number j := by
  rw [Bracket.rank, brackets, ← List.map_take, filterMap_label_brackets, number]

theorem Shows.letter {m : Model} {j : Nat} {e : Entry} (h : m.Shows j e) :
    ∃ x, m.brackets[j]? = some x ∧ Bracket.label? x = some e := by
  refine ⟨e.bracket, by rw [brackets_getElem?, h.1]; rfl, ?_⟩
  by_cases ho : e.kind = .opening
  · rw [Entry.bracket_of_opening ho]
    rfl
  · rw [Entry.bracket_of_leaf ho h.2]
    rfl

/-! ## The elements of a model -/

/-- Behind some other places, the forest of the entries with an element for each shows the
model. -/
theorem ShownBy.of_forest {m : Model} {Suits : Element → Entry → Prop}
    {element : Entry → Element}
    (hword : (Bracket.remaining Entry.EndedBy [] m.brackets).isSome)
    (hsuits : ∀ e ∈ m.entries, e.kind ≠ .closing → Suits (element e) e)
    (front : List (Bracket.Place Element)) :
    m.ShownBy Suits front.length
      (front ++ (Bracket.forest m.brackets).map (Bracket.Place.relabel element front.length)) where
  length := by
    rw [List.length_append, List.length_map, Bracket.length_forest, brackets,
      filterMap_label_brackets, number, List.take_length]
  place := by
    intro j e hj
    obtain ⟨x, hx, he⟩ := hj.letter
    have hplace := Bracket.forest_getElem?_rank hx he
    rw [rank_brackets] at hplace
    refine ⟨Bracket.Place.relabel element front.length
      ⟨e, Bracket.openFrom 0 [] (m.brackets.take j)⟩, ?_,
      hsuits e (List.mem_of_getElem? hj.1) hj.2, ?_, ?_⟩
    · rw [List.getElem?_append_right (by omega), Nat.add_sub_cancel_left, List.getElem?_map,
        hplace]
      rfl
    · intro i o hi
      obtain ⟨y, hy, ho⟩ := hi.letter
      have haround := Bracket.mem_around_iff hword hy ho hx he
      rw [rank_brackets] at haround
      rw [Encloses, ← haround]
      simp [Bracket.Place.relabel]
    · intro k hk
      -- What is around the entry is open before it, and thus an opening entry.
      obtain ⟨q, hq, rfl⟩ := List.mem_map.mp hk
      have htake : (Bracket.remaining Entry.EndedBy [] (m.brackets.take j)).isSome := by
        rw [← List.take_append_drop j m.brackets, Bracket.remaining_append] at hword
        exact Option.isSome_of_isSome_bind hword
      obtain ⟨u, o, v, hsplit, rfl, -⟩ := (Bracket.mem_openFrom_iff htake q).mp hq
      have hw : m.brackets = u ++ .opening o :: (v ++ m.brackets.drop j) := by
        conv_lhs => rw [← List.take_append_drop j m.brackets, hsplit]
        simp
      have hletter : m.brackets[u.length]? = some (.opening o) := by rw [hw]; simp
      have hrank : Bracket.rank m.brackets u.length = (u.filterMap Bracket.label?).length := by
        rw [Bracket.rank, hw]
        simp
      refine ⟨u.length, by rw [← rank_brackets, hrank], ?_⟩
      exact (Bracket.mem_around_iff hword hletter rfl hx he).mp (by rw [hrank]; exact hq)

/-- **Models with the same elements have the same forest.** -/
theorem ShownBy.sameForest {γ : Type} {part : Entry → γ} {m m' : Model}
    {Suits : Element → Entry → Prop} {first : Nat} {places : List (Bracket.Place Element)}
    (h : m.ShownBy Suits first places) (h' : m'.ShownBy Suits first places)
    (hpart : ∀ x, ∀ e ∈ m.entries, ∀ e' ∈ m'.entries, e.kind ≠ .closing → e'.kind ≠ .closing →
      Suits x e → Suits x e' → part e = part e') : SameForest part m m' where
  length := by
    have := h.length
    have := h'.length
    omega
  part := by
    intro j j' e e' hj hj' hnumber
    -- The numbers agree, so it is one and the same place.
    obtain ⟨p, hp, hsuits, -⟩ := h.place j e hj
    obtain ⟨p', hp', hsuits', -⟩ := h'.place j' e' hj'
    rw [hnumber, hp', Option.some.injEq] at hp
    subst hp
    exact hpart _ e (List.mem_of_getElem? hj.1) e' (List.mem_of_getElem? hj'.1) hj.2 hj'.2 hsuits
      hsuits'
  encloses := by
    intro i i' j j' o o' e e' hi hi' hinumber hj hj' hjnumber
    obtain ⟨p, hp, -, hwithin, -⟩ := h.place j e hj
    obtain ⟨p', hp', -, hwithin', -⟩ := h'.place j' e' hj'
    rw [hjnumber, hp', Option.some.injEq] at hp
    subst hp
    rw [← hwithin i o hi, ← hwithin' i' o' hi', hinumber]

end Model

/-! ## What an entry writes -/

theorem Entry.Regular.title_of_byteOrderMark {e : Entry} (h : e.Regular)
    (hkind : e.kind = .byteOrderMark) : e.title = "BOM".toList := by
  have htable : ∀ d ∈ CodeTable.descriptors, d.kind = .byteOrderMark → d.title = "BOM".toList := by
    decide
  cases hs : e.synthetic with
  | false => exact htable _ (h.of_table hs) hkind
  | true =>
      rw [Entry.kind, (h.of_marker hs).1] at hkind
      exact absurd hkind (by decide)

/-- The class name of a title tells the title, among those that entries have. -/
theorem Entry.Regular.title_of_className {e e' : Entry} (h : e.Regular) (h' : e'.Regular)
    (hname : e.className = e'.className) : e.title = e'.title := by
  have htable : ∀ d ∈ CodeTable.empty :: CodeTable.descriptors,
      ∀ d' ∈ CodeTable.empty :: CodeTable.descriptors,
        d.title.className = d'.title.className → d.title = d'.title := by decide +kernel
  have hmem : ∀ {e : Entry}, e.Regular →
      e.descriptor ∈ CodeTable.empty :: CodeTable.descriptors := by
    intro e h
    cases hs : e.synthetic with
    | false => exact List.mem_cons_of_mem _ (h.of_table hs)
    | true =>
        rw [(h.of_marker hs).1]
        exact List.mem_cons_self
  exact htable _ (hmem h) _ (hmem h') hname

end Yeast
