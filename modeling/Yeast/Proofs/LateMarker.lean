import Yeast.Proofs.Events
import Yeast.Proofs.Marker

set_option autoImplicit false

/-! # Late markers

A scope that one of the first entries of a model begins can end behind these entries, and then its
marker, if it has one, is a late one. There is at most one: the end of a scope is content of all
scopes around it, so that none of these gets a marker as well (`Model.LateMarker.unique`). An entry
that is added makes no late marker, except where it ends a scope and a marker comes before it
(`Model.lateMarker_ended_iff`).

Where the first entries have content that they do not have elsewhere, the late marker is all that
the entries behind them lose (`Model.AddedAlike`).
-/

namespace Yeast

/-- The entry without its id and its line. -/
def Entry.bare (e : Entry) : Event × Bool := (e.event, e.synthetic)

namespace Model

/-- The entry at `p` is the marker of a scope that is begun by one of the first `n` entries, and
stands behind these. -/
def LateMarker (m : Model) (n p : Nat) : Prop :=
  n ≤ p ∧ (∃ e, m.entries[p]? = some e ∧ e.synthetic = true) ∧ ∃ i, i < n ∧ m.Matches i (p + 1)

/-- Of the entries `added` to the first `n` ones of the model, those `added'` elsewhere differ in
ids and lines alone and, if `touched` says so, lack the late marker. -/
structure AddedAlike (m : Model) (n : Nat) (touched : Prop) (added added' : List Entry) :
    Prop where
  same : (¬ touched ∨ ∀ p, ¬ m.LateMarker n p) → added'.map Entry.bare = added.map Entry.bare
  dropped : touched → ∀ p, m.LateMarker n p →
    added'.map Entry.bare = (added.map Entry.bare).eraseIdx (p - n)

variable {m m' : Model} {n p : Nat}

/-! ## Markers and entries added -/

theorem brackets_append {xs : List Entry} (h : m'.entries = m.entries ++ xs) :
    m'.brackets = m.brackets ++ xs.map Entry.bracket := by
  rw [brackets, brackets, h, List.map_append]

theorem length_brackets (m : Model) : m.brackets.length = m.entries.length := List.length_map _

namespace LateMarker

theorem lt_length (h : m.LateMarker n p) : p + 1 < m.entries.length := by
  obtain ⟨-, -, i, -, hi⟩ := h
  obtain ⟨b, hb⟩ := Bracket.Matches.closing hi
  rw [← length_brackets]
  exact (List.getElem?_eq_some_iff.mp hb).1

theorem append (h : m.LateMarker n p) {xs : List Entry} (h' : m'.entries = m.entries ++ xs) :
    m'.LateMarker n p := by
  have hlt := h.lt_length
  obtain ⟨hn, ⟨e, he, hs⟩, i, hi, hmatches⟩ := h
  refine ⟨hn, ⟨e, ?_, hs⟩, i, hi, ?_⟩
  · rw [h', List.getElem?_append_left (by omega), he]
  · unfold Matches
    rw [brackets_append h']
    exact Bracket.Matches.append hmatches _

theorem of_append (h : m'.LateMarker n p) {xs : List Entry} (h' : m'.entries = m.entries ++ xs)
    (hp : p + 1 < m.entries.length) : m.LateMarker n p := by
  obtain ⟨hn, ⟨e, he, hs⟩, i, hi, hmatches⟩ := h
  refine ⟨hn, ⟨e, ?_, hs⟩, i, hi, ?_⟩
  · rwa [h', List.getElem?_append_left (by omega)] at he
  · unfold Matches at hmatches
    rw [brackets_append h'] at hmatches
    exact Bracket.Matches.of_append hmatches (by rwa [length_brackets])

/-- The last entry of a tidy model is no marker, since a marker is followed by an end. -/
theorem ne_last (h : m'.LateMarker n p) {xs : List Entry} (h' : m'.entries = m.entries ++ xs)
    (htidy : Tidy m.entries) : p + 1 ≠ m.entries.length := by
  intro hlast
  obtain ⟨-, ⟨e, he, hs⟩, -⟩ := h
  rw [h', List.getElem?_append_left (by omega)] at he
  obtain ⟨c, hc, -⟩ := htidy.followed p e he hs
  have := (List.getElem?_eq_some_iff.mp hc).1
  omega

end LateMarker

/-- One more entry does not make a marker of one that was none. -/
theorem lateMarker_concat_iff (htidy : Tidy m.entries) {x : Entry}
    (h' : m'.entries = m.entries ++ [x]) : m'.LateMarker n p ↔ m.LateMarker n p := by
  constructor
  · intro h
    have hlt := h.lt_length
    have hne := h.ne_last h' htidy
    rw [h', List.length_append, List.length_singleton] at hlt
    exact h.of_append h' (by omega)
  · intro h
    exact h.append h'

/-- The letter that ends a scope is that of a closing entry. -/
theorem Matches.exists_closing {i j : Nat} (h : m.Matches i j) :
    ∃ c, m.entries[j]? = some c ∧ c.kind = .closing := by
  obtain ⟨b, hb⟩ := Bracket.Matches.closing h
  rw [brackets_getElem?, Option.map_eq_some_iff] at hb
  obtain ⟨c, hc, hbracket⟩ := hb
  obtain ⟨rfl, hkind⟩ := Entry.eq_of_bracket_closing hbracket
  exact ⟨c, hc, hkind⟩

/-- Ending a scope with a marker adds the marker, if the scope is one of those around. -/
theorem lateMarker_ended_iff (htidy : Tidy m.entries) {before inner : List Entry} {o e c : Entry}
    (hentries : m.entries = before ++ o :: inner) (ho : o.kind = .opening)
    (hinner : Entry.Balanced inner) (hs : e.synthetic = true) (he : e.kind = .text)
    (hc : c.kind = .closing) (hn : n ≤ m.entries.length) (h' : m'.entries = m.entries ++ [e, c]) :
    m'.LateMarker n p ↔ m.LateMarker n p ∨ p = m.entries.length ∧ before.length < n := by
  -- The scope that ends is the innermost one.
  have hended : m'.Matches before.length (m.entries.length + 1) := by
    have hleaf : e.bracket = .single e := Entry.bracket_of_leaf (by simp [he]) (by simp [he])
    have hinner' : Entry.Balanced (inner ++ [e]) := by
      rw [Entry.Balanced, List.map_append, List.map_singleton, hleaf]
      exact Bracket.balanced_concat_single.mpr hinner
    refine ⟨before.map Entry.bracket, o, (inner ++ [e]).map Entry.bracket, c, [], ?_, hinner',
      List.length_map _, ?_⟩
    · rw [brackets, h', hentries]
      simp [Entry.bracket_of_opening ho, Entry.bracket_of_closing hc]
    · rw [hentries]
      simp
      omega
  constructor
  · intro h
    have hlt := h.lt_length
    have hne := h.ne_last h' htidy
    rw [h', List.length_append, List.length_cons, List.length_singleton] at hlt
    rcases Nat.lt_or_ge (p + 1) m.entries.length with hearlier | hlater
    · exact Or.inl (h.of_append h' hearlier)
    · have hp : p = m.entries.length := by omega
      obtain ⟨-, -, i, hi, hmatches⟩ := h
      rw [hp] at hmatches
      have hsame : i = before.length := Bracket.Directly.unique
        (Bracket.Matches.directly hmatches) (Bracket.Matches.directly hended)
      exact Or.inr ⟨hp, by omega⟩
  · rintro (h | ⟨rfl, hlt⟩)
    · exact h.append h'
    · exact ⟨hn, ⟨e, by rw [h']; simp, hs⟩, before.length, hlt, hended⟩

/-- An entry between two positions. -/
theorem mem_extract {entries : List Entry} {e : Entry} {i j k : Nat} (hi : i ≤ k) (hj : k < j)
    (h : entries[k]? = some e) : e ∈ entries.extract i j := by
  rw [List.extract_eq_take_drop]
  refine List.mem_of_getElem? (i := k - i) ?_
  rw [List.getElem?_take_of_lt (by omega), List.getElem?_drop, Nat.add_sub_cancel' hi, h]

namespace AddedAlike

variable {touched : Prop} {added added' : List Entry}

theorem nil (h : m.entries.length ≤ n) : m.AddedAlike n touched [] [] where
  same := fun _ => rfl
  dropped := by
    intro _ p hp
    have hlt := hp.lt_length
    have hle := hp.1
    omega

/-- Entries that are added in both places, none of which is a late marker. -/
theorem append (h : m.AddedAlike n touched added added')
    (hlength : m.entries.length = n + added.length) {xs xs' : List Entry}
    (hlate : ∀ p, m'.LateMarker n p ↔ m.LateMarker n p)
    (hbare : xs'.map Entry.bare = xs.map Entry.bare) :
    m'.AddedAlike n touched (added ++ xs) (added' ++ xs') where
  same := by
    simp only [hlate]
    intro hnone
    rw [List.map_append, List.map_append, h.same hnone, hbare]
  dropped := by
    simp only [hlate]
    intro htouched p hp
    have hlt := hp.lt_length
    have hle := hp.1
    rw [List.map_append, List.map_append, h.dropped htouched p hp, hbare,
      List.eraseIdx_append_of_lt_length]
    rw [List.length_map]
    omega

/-- A block without content changes no marker. -/
theorem append_of_not_touched (h : m.AddedAlike n touched added added') (htouched : ¬ touched)
    {xs xs' : List Entry} (hbare : xs'.map Entry.bare = xs.map Entry.bare) :
    m'.AddedAlike n touched (added ++ xs) (added' ++ xs') where
  same := by
    intro _
    rw [List.map_append, List.map_append, h.same (Or.inl htouched), hbare]
  dropped := fun h => absurd h htouched

/-- A scope around that ends without content of its own has that of the block. -/
theorem ended (h : m.AddedAlike n touched added added')
    (hlength : m.entries.length = n + added.length) (hnone : ∀ p, ¬ m.LateMarker n p)
    (hlate : ∀ p, m'.LateMarker n p ↔ p = m.entries.length) (e : Entry) {c c' : Entry}
    (hbare : c'.bare = c.bare) (htouched : touched) :
    m'.AddedAlike n touched (added ++ [e, c]) (added' ++ [c']) where
  same := by
    rintro (hnot | hnone')
    · exact absurd htouched hnot
    · exact absurd ((hlate _).mpr rfl) (hnone' _)
  dropped := by
    intro _ p hp
    have hp : p = n + added.length := by rw [(hlate p).mp hp, hlength]
    have hindex : p - n = (added.map Entry.bare).length := by
      rw [hp, List.length_map]
      omega
    rw [List.map_append, List.map_append, h.same (Or.inr hnone), hindex,
      List.eraseIdx_append_of_length_le (Nat.le_refl _)]
    simp [hbare]

end AddedAlike

/-- **There is at most one late marker**, as it ends a scope, which is content of those around. -/
theorem LateMarker.unique {lines : List Text} (h : ofLines lines = .ok m) {p' : Nat}
    (hp : m.LateMarker n p) (hp' : m.LateMarker n p') : p = p' := by
  have key : ∀ q q', m.LateMarker n q → m.LateMarker n q' → ¬ q < q' := by
    intro q q' hq hq' hlt
    obtain ⟨hn, -, i, -, hi⟩ := hq
    obtain ⟨-, ⟨e, he, hs⟩, i', hi', hmatches⟩ := hq'
    obtain ⟨-, -, hmarked⟩ := matches_of_synthetic h he hs
    obtain ⟨c, hc, hkind⟩ := hi.exists_closing
    have hplain := (hmatches.markedAt_iff (tidy_of_ofLines h)).mp hmarked
    exact (hplain c (mem_extract (by omega) (by omega) hc)).2.1 hkind
  have hle := key p p' hp hp'
  have hge := key p' p hp' hp
  omega

end Model

end Yeast
