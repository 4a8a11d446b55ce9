import Yeast.Proofs.Trace

set_option autoImplicit false

/-! # Markers of empty scopes

A scope that ends without content, neither a text that is not empty nor a scope, has a marker as
its last entry. There are no other markers, so that every scope that ends holds something and
none holds two markers (`Model.WellMarked`).

The builder decides by the innermost mark. What it has written so far is *tidy* at all times:
each scope that has ended ends with a marker iff nothing else in it is content, and each marker
stands before the entry that ends its scope. An entry that does not close keeps this
(`Tidy.concat_shown`); one that closes keeps it because the innermost mark says whether there is
content behind the innermost opening entry (`Tidy.concat_content`, `Tidy.concat_empty`).
-/

namespace Yeast

namespace Entry

/-- The entry is the marker of the scope that `c` ends. -/
def Marks (e c : Entry) : Prop :=
  e.synthetic = true ∧ e.descriptor = CodeTable.empty ∧ e.text = [Placeholder.empty] ∧
    e.line = c.line

/-- The entry neither begins nor ends a scope, nor is it a text, unless a synthetic one. -/
def Plain (e : Entry) : Prop :=
  e.kind ≠ .opening ∧ e.kind ≠ .closing ∧ (e.synthetic = false → e.text = [])

end Entry

namespace Model

/-- The entry at `j` ends the scope that the entry at `i` begins. -/
def Matches (m : Model) (i j : Nat) : Prop := Bracket.Matches Entry.EndedBy m.brackets i j

/-- The innermost scope around the entry at `p` is the one that the entry at `i` begins. -/
def Directly (m : Model) (i p : Nat) : Prop := Bracket.Directly Entry.EndedBy m.brackets i p

/-- The entry before the one at `j` is the marker of the scope that the latter ends. -/
def MarkedAt (m : Model) (j : Nat) : Prop :=
  ∃ e c, m.entries[j - 1]? = some e ∧ m.entries[j]? = some c ∧ e.Marks c

/-- Markers stand where they are needed and nowhere else. -/
structure WellMarked (m : Model) : Prop where
  /-- Every closing entry ends a scope, of its own title. -/
  ends : ∀ j c, m.entries[j]? = some c → c.kind = .closing →
    ∃ i o, m.Matches i j ∧ m.entries[i]? = some o ∧ o.title = c.title
  /-- A scope has a marker iff nothing else in it is content. -/
  markedAt_iff : ∀ i j, m.Matches i j →
    (m.MarkedAt j ↔ ∀ e ∈ m.entries.extract (i + 1) j, e.Plain)
  /-- A synthetic entry is the marker of a scope that ends behind it. -/
  synthetic : ∀ p e, m.entries[p]? = some e → e.synthetic = true →
    ∃ i, m.Matches i (p + 1) ∧ m.MarkedAt (p + 1)
  /-- No other entry has the descriptor of a marker. -/
  descriptor : ∀ e ∈ m.entries, e.synthetic = false → e.descriptor ≠ CodeTable.empty
  /-- A scope that does not end has no marker of its own. -/
  unended : ∀ i, (∀ j, ¬ m.Matches i j) → ∀ p e, m.Directly i p → m.entries[p]? = some e →
    e.synthetic = false
  /-- A scope that ends holds a scope or a text. -/
  inhabited : ∀ i j, m.Matches i j → ∃ p e, p < j ∧ m.Directly i p ∧ m.entries[p]? = some e ∧
    (e.kind = .opening ∨ e.kind ≠ .closing ∧ e.text ≠ [])
  /-- A scope holds at most one marker of its own. -/
  unique : ∀ i p p' e e', m.Directly i p → m.entries[p]? = some e → e.synthetic = true →
    m.Directly i p' → m.entries[p']? = some e' → e'.synthetic = true → p = p'

end Model

/-! ## Content of a balanced part -/

namespace Entry

/-- What is no content holds neither scopes nor text. -/
theorem forall_leaf_of_not_content {entries : List Entry} (h : Balanced entries)
    (hcontent : entries.any isContent = false) :
    ∀ e ∈ entries, e.kind ≠ .opening ∧ e.kind ≠ .closing ∧ e.text = [] := by
  induction h using Balanced.rec_entries with
  | nil => simp
  | leaf e entries ho hc _ ih =>
      rw [List.any_cons, Bool.or_eq_false_iff] at hcontent
      have htext : e.text = [] := by simpa [isContent, hc] using hcontent.1
      intro e' he'
      rcases List.mem_cons.mp he' with rfl | he'
      · exact ⟨ho, hc, htext⟩
      · exact ih hcontent.2 e' he'
  | scope o inner c rest ho hc _ _ _ _ _ => simp [isContent, hc] at hcontent

/-- Content of a balanced part is a scope or a text that lies in no scope of the part. -/
theorem exists_direct_content {entries : List Entry} (h : Balanced entries)
    (hcontent : entries.any isContent = true) :
    ∃ before e after, entries = before ++ e :: after ∧ Balanced before ∧
      (e.kind = .opening ∨ e.kind ≠ .closing ∧ e.text ≠ []) := by
  induction h using Balanced.rec_entries with
  | nil => simp at hcontent
  | leaf e entries ho hc _ ih =>
      by_cases htext : e.text = []
      · have hrest : entries.any isContent = true := by
          simpa [isContent, hc, htext] using hcontent
        obtain ⟨before, e', after, rfl, hbefore, he'⟩ := ih hrest
        exact ⟨e :: before, e', after, rfl, hbefore.leaf ho hc, he'⟩
      · exact ⟨[], e, entries, rfl, .nil, Or.inr ⟨hc, htext⟩⟩
  | scope o inner c rest ho hc _ _ _ _ _ =>
      exact ⟨[], o, inner ++ c :: rest, rfl, .nil, Or.inl ho⟩

end Entry

/-! ## Tidy entries -/

/-- Each scope that has ended is marked iff nothing else in it is content, and each marker stands
before the entry that ends its scope. -/
structure Tidy (entries : List Entry) : Prop where
  marked : ∀ before o inner c after, entries = before ++ o :: (inner ++ c :: after) →
    o.kind = .opening → c.kind = .closing → Entry.Balanced inner →
      ((∃ inner' e, inner = inner' ++ [e] ∧ e.Marks c) ↔ ∀ e ∈ inner, e.Plain)
  followed : ∀ p e, entries[p]? = some e → e.synthetic = true →
    ∃ c, entries[p + 1]? = some c ∧ c.kind = .closing ∧ e.Marks c

namespace Tidy

theorem nil : Tidy [] where
  marked := fun before _ _ _ _ h => by simp at h
  followed := by simp

/-- The letter that ends a scope is the new one, or the scope ended before. -/
theorem split_concat {entries before inner after : List Entry} {a o c : Entry}
    (h : entries ++ [a] = before ++ o :: (inner ++ c :: after)) :
    (a = c ∧ entries = before ++ o :: inner) ∨
      ∃ after', entries = before ++ o :: (inner ++ c :: after') := by
  rcases List.eq_nil_or_concat after with rfl | ⟨after, x, rfl⟩
  · have h' : entries ++ [a] = (before ++ o :: inner) ++ [c] := by simpa using h
    obtain ⟨hentries, ha⟩ := List.append_inj' h' rfl
    exact Or.inl ⟨(List.cons_eq_cons.mp ha).1, hentries⟩
  · have h' : entries ++ [a] = (before ++ o :: (inner ++ c :: after)) ++ [x] := by simpa using h
    exact Or.inr ⟨after, (List.append_inj' h' rfl).1⟩

theorem marked_concat {entries : List Entry} (h : Tidy entries) {a : Entry}
    (ha : ∀ before o inner, entries = before ++ o :: inner → o.kind = .opening →
      a.kind = .closing → Entry.Balanced inner →
        ((∃ inner' e, inner = inner' ++ [e] ∧ e.Marks a) ↔ ∀ e ∈ inner, e.Plain)) :
    ∀ before o inner c after, entries ++ [a] = before ++ o :: (inner ++ c :: after) →
      o.kind = .opening → c.kind = .closing → Entry.Balanced inner →
        ((∃ inner' e, inner = inner' ++ [e] ∧ e.Marks c) ↔ ∀ e ∈ inner, e.Plain) := by
  intro before o inner c after hsplit ho hc hinner
  rcases split_concat hsplit with ⟨rfl, hentries⟩ | ⟨after', hentries⟩
  · exact ha before o inner hentries ho hc hinner
  · exact h.marked before o inner c after' hentries ho hc hinner

theorem followed_concat {entries : List Entry} (h : Tidy entries) {a : Entry}
    (ha : a.synthetic = false) : ∀ p e, (entries ++ [a])[p]? = some e → e.synthetic = true →
      ∃ c, (entries ++ [a])[p + 1]? = some c ∧ c.kind = .closing ∧ e.Marks c := by
  intro p e hp he
  rcases Nat.lt_or_ge p entries.length with hlt | hge
  · rw [List.getElem?_append_left hlt] at hp
    obtain ⟨c, hc, hkind, hmarks⟩ := h.followed p e hp he
    have hlt' : p + 1 < entries.length := (List.getElem?_eq_some_iff.mp hc).1
    exact ⟨c, by rw [List.getElem?_append_left hlt']; exact hc, hkind, hmarks⟩
  · rw [List.getElem?_append_right hge, List.getElem?_singleton] at hp
    split at hp
    · rw [Option.some.injEq] at hp
      simp [← hp, ha] at he
    · simp at hp

theorem concat_shown {entries : List Entry} (h : Tidy entries) {e : Entry}
    (he : e.kind ≠ .closing) (hs : e.synthetic = false) : Tidy (entries ++ [e]) where
  marked := h.marked_concat fun _ _ _ _ _ hc => absurd hc he
  followed := h.followed_concat hs

/-- The scope that an entry behind a balanced part ends is the innermost one. -/
theorem inner_unique {before before' inner inner' : List Entry} {o o' : Entry}
    (ho : o.kind = .opening) (ho' : o'.kind = .opening) (hinner : Entry.Balanced inner)
    (hinner' : Entry.Balanced inner') (h : before ++ o :: inner = before' ++ o' :: inner') :
    inner' = inner := by
  have hwords := congrArg (List.map Entry.bracket) h
  simp only [List.map_append, List.map_cons, Entry.bracket_of_opening ho,
    Entry.bracket_of_opening ho'] at hwords
  have hbefore := congrArg List.length (Bracket.opening_unique hinner hinner' hwords)
  rw [List.length_map, List.length_map] at hbefore
  exact (List.cons_eq_cons.mp (List.append_inj_right h hbefore)).2.symm

/-- A synthetic entry in a part is followed by the entry that ends its scope, in the same
part. -/
theorem exists_closing_of_synthetic {before inner : List Entry} {o e : Entry}
    (h : Tidy (before ++ o :: inner)) (he : e ∈ inner) (hs : e.synthetic = true) :
    ∃ c ∈ inner, c.kind = .closing := by
  have hshift : ∀ n, (before ++ o :: inner)[before.length + 1 + n]? = inner[n]? := by
    intro n
    rw [List.getElem?_append_right (by omega),
      show before.length + 1 + n - before.length = n + 1 by omega, List.getElem?_cons_succ]
  obtain ⟨n, hn⟩ := List.getElem?_of_mem he
  rw [← hshift] at hn
  obtain ⟨c, hc, hkind, -⟩ := h.followed _ e hn hs
  rw [Nat.add_assoc, hshift] at hc
  exact ⟨c, List.mem_of_getElem? hc, hkind⟩

/-- A part with content is not plain. -/
theorem not_plain_of_content {before inner : List Entry} {o : Entry}
    (h : Tidy (before ++ o :: inner)) (hcontent : inner.any Entry.isContent = true) :
    ¬ ∀ e ∈ inner, e.Plain := by
  intro hplain
  obtain ⟨e, he, hecontent⟩ := List.any_eq_true.mp hcontent
  cases hs : e.synthetic with
  | true =>
      obtain ⟨c, hc, hkind⟩ := h.exists_closing_of_synthetic he hs
      exact (hplain c hc).2.1 hkind
  | false =>
      obtain ⟨-, hc, htext⟩ := hplain e he
      simp [Entry.isContent, hc, htext hs] at hecontent

/-- Ending a scope with content. -/
theorem concat_content {before inner : List Entry} {o c : Entry}
    (h : Tidy (before ++ o :: inner)) (ho : o.kind = .opening) (hinner : Entry.Balanced inner)
    (hcontent : inner.any Entry.isContent = true) (hs : c.synthetic = false) :
    Tidy (before ++ o :: inner ++ [c]) where
  marked := by
    refine h.marked_concat fun before' o' inner' hsplit ho' _ hinner' => ?_
    obtain rfl := inner_unique ho ho' hinner hinner' hsplit
    refine ⟨fun hmarked => ?_, fun hplain => absurd hplain (h.not_plain_of_content hcontent)⟩
    -- A marker at the end of the part would have no entry behind it.
    obtain ⟨inner', e, rfl, hmarks⟩ := hmarked
    obtain ⟨c', hc', -, -⟩ := h.followed (before.length + 1 + inner'.length) e
      (by rw [List.getElem?_append_right (by omega),
            show before.length + 1 + inner'.length - before.length = inner'.length + 1 by omega]
          simp) hmarks.1
    have hlt := (List.getElem?_eq_some_iff.mp hc').1
    simp at hlt
    omega
  followed := h.followed_concat hs

/-- Ending a scope without content, behind its marker. -/
theorem concat_empty {before inner : List Entry} {o e c : Entry}
    (h : Tidy (before ++ o :: inner)) (ho : o.kind = .opening) (hinner : Entry.Balanced inner)
    (hcontent : inner.any Entry.isContent = false) (he : e.kind = .text) (hmarks : e.Marks c)
    (hc : c.kind = .closing) (hs : c.synthetic = false) :
    Tidy (before ++ o :: inner ++ [e] ++ [c]) where
  marked := by
    have hleaf : e.kind ≠ .opening ∧ e.kind ≠ .closing := by simp [he]
    have hinner_e : Entry.Balanced (inner ++ [e]) := by
      rw [Entry.Balanced, List.map_append, List.map_singleton,
        Entry.bracket_of_leaf hleaf.1 hleaf.2]
      exact Bracket.balanced_concat_single.mpr hinner
    intro before' o' inner' c' after hsplit ho' hc' hinner'
    -- the end in question is the new one, or one of before
    rcases split_concat hsplit with ⟨rfl, hlast⟩ | ⟨after', hearlier⟩
    · have hlast' : before ++ o :: (inner ++ [e]) = before' ++ o' :: inner' := by
        simpa using hlast
      obtain rfl := inner_unique ho ho' hinner_e hinner' hlast'
      refine ⟨fun _ e' he' => ?_, fun _ => ⟨inner, e, rfl, hmarks⟩⟩
      rcases List.mem_append.mp he' with he' | he'
      · obtain ⟨h₁, h₂, h₃⟩ := Entry.forall_leaf_of_not_content hinner hcontent e' he'
        exact ⟨h₁, h₂, fun _ => h₃⟩
      · rw [List.mem_singleton.mp he']
        exact ⟨hleaf.1, hleaf.2, by simp [hmarks.1]⟩
    · exact h.marked_concat (fun _ _ _ _ _ hclosing => absurd hclosing hleaf.2) before' o' inner'
        c' after' hearlier ho' hc' hinner'
  followed := by
    intro p e' hp hs'
    have hend : ∀ entries : List Entry, (entries ++ [e] ++ [c])[entries.length]? = some e ∧
        (entries ++ [e] ++ [c])[entries.length + 1]? = some c := by simp
    -- a marker is one of before or the new one; the end behind it is not synthetic
    rcases Nat.lt_or_ge p (before ++ o :: inner).length with hlt | hge
    · rw [List.append_assoc, List.getElem?_append_left hlt] at hp
      obtain ⟨c', hc', hkind, hmarks'⟩ := h.followed p e' hp hs'
      have hlt' := (List.getElem?_eq_some_iff.mp hc').1
      exact ⟨c', by rw [List.append_assoc, List.getElem?_append_left hlt']; exact hc', hkind,
        hmarks'⟩
    · have hle := (List.getElem?_eq_some_iff.mp hp).1
      rw [List.length_append, List.length_append, List.length_singleton,
        List.length_singleton] at hle
      rcases Nat.eq_or_lt_of_le hge with heq | hgt
      · rw [← heq, (hend _).1, Option.some.injEq] at hp
        rw [← heq, ← hp]
        exact ⟨c, (hend _).2, hc, hmarks⟩
      · have hp' : p = (before ++ o :: inner).length + 1 := by omega
        rw [hp', (hend _).2, Option.some.injEq] at hp
        rw [← hp, hs] at hs'
        exact absurd hs' (by decide)

end Tidy

/-- The entries behind moves are tidy. -/
theorem Builder.Reached.tidy {b : Builder} (h : b.Reached) : Tidy b.entries.toList := by
  induction h with
  | empty => exact Tidy.nil
  | @move b b' hb hmove ih =>
      cases hmove with
      | leaf hmem ho hc hline =>
          rw [withLeaf_entries]
          exact ih.concat_shown hc rfl
      | @opening d line hmem ho hline =>
          rw [opened_entries]
          exact ih.concat_shown (by simp [Entry.kind, ho]) rfl
      | @closing d line s outer hmem hc hline hscopes htitle =>
          obtain ⟨before, o, inner, hentries, ho, -, hv⟩ := hb.innermost hscopes
          rw [closed_entries, hb.content_eq, hentries, Entry.headD_marksFrom ho hv]
          rw [hentries] at ih
          -- The innermost mark is now whether the part behind the opening entry has content.
          cases hcontent : inner.any Entry.isContent with
          | true =>
              have htidy := ih.concat_content ho hv hcontent
                (c := ⟨d, [], none, line, false⟩) rfl
              simpa using htidy
          | false =>
              have hmarks : (b.marker line).Marks ⟨d, [], none, line, false⟩ :=
                ⟨rfl, rfl, rfl, rfl⟩
              have htidy := ih.concat_empty ho hv hcontent (b.marker_kind line) hmarks hc rfl
              simpa using htidy

namespace Model

/-! ## Positions in a model -/

/-- A scope that ends splits the entries. -/
theorem Matches.split {m : Model} {i j : Nat} (h : m.Matches i j) :
    ∃ before o inner c after, m.entries = before ++ o :: (inner ++ c :: after) ∧
      o.kind = .opening ∧ c.kind = .closing ∧ Entry.Balanced inner ∧ before.length = i ∧
        i + 1 + inner.length = j := by
  obtain ⟨u, a, v, b, t, hw, hv, hi, hj⟩ := h
  obtain ⟨before, rest, hentries, rfl, hrest⟩ := List.map_eq_append_iff.mp hw
  obtain ⟨o, tail, rfl, ho, htail⟩ := List.map_eq_cons_iff.mp hrest
  obtain ⟨inner, tail', rfl, rfl, hend⟩ := List.map_eq_append_iff.mp htail
  obtain ⟨c, after, rfl, hc, -⟩ := List.map_eq_cons_iff.mp hend
  refine ⟨before, o, inner, c, after, hentries, ?_, ?_, hv, by simpa using hi, by simpa using hj⟩
  · obtain ⟨rfl, ho⟩ := Entry.eq_of_bracket_opening ho
    exact ho
  · obtain ⟨rfl, hc⟩ := Entry.eq_of_bracket_closing hc
    exact hc

/-- The entries strictly between two positions of a split. -/
theorem extract_split (before inner : List Entry) (o c : Entry) (after : List Entry) :
    (before ++ o :: (inner ++ c :: after)).extract (before.length + 1)
      (before.length + 1 + inner.length) = inner := by
  have hdrop : before.drop (before.length + 1) = [] := List.drop_eq_nil_of_le (by omega)
  simp [List.extract_eq_take_drop, List.drop_append, hdrop]

theorem Matches.markedAt_iff {m : Model} {i j : Nat} (h : m.Matches i j)
    (htidy : Tidy m.entries) :
    m.MarkedAt j ↔ ∀ e ∈ m.entries.extract (i + 1) j, e.Plain := by
  obtain ⟨before, o, inner, c, after, hentries, ho, hc, hinner, rfl, rfl⟩ := h.split
  have hshift : ∀ n, m.entries[before.length + 1 + n]? = (inner ++ c :: after)[n]? := by
    intro n
    rw [hentries, List.getElem?_append_right (by omega),
      show before.length + 1 + n - before.length = n + 1 by omega, List.getElem?_cons_succ]
  have hend : m.entries[before.length + 1 + inner.length]? = some c := by
    rw [hshift, List.getElem?_append_right (Nat.le_refl _), Nat.sub_self]
    rfl
  rw [hentries, extract_split, ← htidy.marked before o inner c after hentries ho hc hinner]
  constructor
  · rintro ⟨e, c', he, hc', hmarks⟩
    rw [hend, Option.some.injEq] at hc'
    subst hc'
    rcases List.eq_nil_or_concat inner with rfl | ⟨inner', x, rfl⟩
    · -- The opening entry of an empty part is no marker.
      have hlast : m.entries[before.length + 1 + 0 - 1]? = some o := by
        rw [hentries]; simp
      rw [List.length_nil, hlast, Option.some.injEq] at he
      obtain ⟨-, hempty, -⟩ := hmarks
      rw [← he, Entry.kind] at *
      simp [hempty, CodeTable.empty] at ho
    · rw [List.concat_eq_append] at he ⊢
      rw [List.length_append, List.length_singleton,
        show before.length + 1 + (inner'.length + 1) - 1 = before.length + 1 + inner'.length by
          omega, hshift] at he
      have hx : x = e := by simpa using he
      exact ⟨inner', e, by rw [hx], hmarks⟩
  · rintro ⟨inner', e, rfl, hmarks⟩
    refine ⟨e, c, ?_, hend, hmarks⟩
    rw [List.length_append, List.length_singleton,
      show before.length + 1 + (inner'.length + 1) - 1 = before.length + 1 + inner'.length by
        omega, hshift]
    simp

/-- What is content of a scope lies directly in it or in a scope that does. -/
theorem Matches.exists_direct {m : Model} {i j : Nat} (h : m.Matches i j)
    (hcontent : (m.entries.extract (i + 1) j).any Entry.isContent = true) :
    ∃ p e, p < j ∧ m.Directly i p ∧ m.entries[p]? = some e ∧
      (e.kind = .opening ∨ e.kind ≠ .closing ∧ e.text ≠ []) := by
  obtain ⟨before, o, inner, c, after, hentries, ho, hc, hinner, rfl, rfl⟩ := h.split
  rw [hentries, extract_split] at hcontent
  obtain ⟨front, e, back, rfl, hfront, he⟩ := Entry.exists_direct_content hinner hcontent
  have hsplit : m.entries = (before ++ o :: front) ++ e :: (back ++ c :: after) := by
    simp [hentries]
  have hlen : (before ++ o :: front).length = before.length + 1 + front.length := by
    simp
    omega
  refine ⟨before.length + 1 + front.length, e, ?_, ?_, ?_, he⟩
  · simp
  · refine ⟨before.map Entry.bracket, o, front.map Entry.bracket, ?_, hfront, by simp⟩
    rw [brackets, hsplit, ← List.map_take, ← hlen, List.take_left', List.map_append, List.map_cons,
      Entry.bracket_of_opening ho]
    rfl
  · rw [hsplit, ← hlen]
    simp

theorem Matches.plain_of_not_content {m : Model} {i j : Nat} (h : m.Matches i j)
    (hcontent : (m.entries.extract (i + 1) j).any Entry.isContent = false) :
    ∀ e ∈ m.entries.extract (i + 1) j, e.Plain := by
  obtain ⟨before, o, inner, c, after, hentries, -, -, hinner, rfl, rfl⟩ := h.split
  rw [hentries, extract_split] at hcontent ⊢
  intro e he
  obtain ⟨ho, hc, htext⟩ := Entry.forall_leaf_of_not_content hinner hcontent e he
  exact ⟨ho, hc, fun _ => htext⟩

/-- The innermost scope around a leaf is the one that an entry right behind it ends. -/
theorem Directly.eq_of_matches_succ {m : Model} {i i' p : Nat} {e : Entry}
    (h : m.Directly i p) (hp : m.entries[p]? = some e) (ho : e.kind ≠ .opening)
    (hc : e.kind ≠ .closing) (h' : m.Matches i' (p + 1)) : i = i' := by
  have hletter : m.brackets[p]? = some (.single e) := by
    rw [brackets_getElem?, hp, Option.map_some, Entry.bracket_of_leaf ho hc]
  exact Bracket.Directly.unique h
    ((Bracket.directly_succ_iff hletter).mp (Bracket.Matches.directly h'))

/-! ## The markers of an accepted stream -/

theorem brackets_of_closing {m : Model} {j : Nat} {c : Entry} (hj : m.entries[j]? = some c)
    (hc : c.kind = .closing) : m.brackets[j]? = some (.closing c) := by
  rw [brackets_getElem?, hj, Option.map_some, Entry.bracket_of_closing hc]

variable {lines : List Text} {m : Model}

theorem tidy_of_ofLines (h : ofLines lines = .ok m) : Tidy m.entries := by
  obtain ⟨b, hb, rfl⟩ := Builder.reached_of_ofLines h
  exact hb.tidy

/-- A synthetic entry is a text. -/
theorem leaf_of_synthetic (h : ofLines lines = .ok m) {p : Nat} {e : Entry}
    (hp : m.entries[p]? = some e) (hs : e.synthetic = true) :
    e.kind ≠ .opening ∧ e.kind ≠ .closing := by
  have hempty := ((regular_of_ofLines h e (List.mem_of_getElem? hp)).of_marker hs).1
  rw [Entry.kind, hempty]
  decide

/-- The entry behind a synthetic one ends the scope that the latter marks. -/
theorem matches_of_synthetic (h : ofLines lines = .ok m) {p : Nat} {e : Entry}
    (hp : m.entries[p]? = some e) (hs : e.synthetic = true) :
    ∃ i, m.Matches i (p + 1) ∧ m.MarkedAt (p + 1) := by
  obtain ⟨c, hc, hkind, hmarks⟩ := (tidy_of_ofLines h).followed p e hp hs
  obtain ⟨i, hi⟩ := Bracket.exists_matches (isSome_remaining_brackets h)
    (brackets_of_closing hc hkind)
  exact ⟨i, hi, e, c, hp, hc, hmarks⟩

/-- A synthetic entry marks the innermost scope around it. -/
theorem Directly.matches_of_synthetic {i p : Nat} (hip : m.Directly i p)
    (h : ofLines lines = .ok m) {e : Entry} (hp : m.entries[p]? = some e)
    (hs : e.synthetic = true) : m.Matches i (p + 1) := by
  obtain ⟨i', hi', -⟩ := Model.matches_of_synthetic h hp hs
  obtain ⟨ho, hc⟩ := leaf_of_synthetic h hp hs
  rw [hip.eq_of_matches_succ hp ho hc hi']
  exact hi'

theorem Matches.title_eq {i j : Nat} (hij : m.Matches i j) (h : ofLines lines = .ok m)
    {c : Entry} (hj : m.entries[j]? = some c) (hc : c.kind = .closing) :
    ∃ o, m.entries[i]? = some o ∧ o.title = c.title := by
  obtain ⟨o, ho⟩ := Bracket.Matches.opening hij
  have hfits := Bracket.Matches.fits_of_remaining hij (isSome_remaining_brackets h) ho
    (brackets_of_closing hj hc)
  rw [brackets_getElem?, Option.map_eq_some_iff] at ho
  obtain ⟨o', ho', hbracket⟩ := ho
  obtain ⟨rfl, -⟩ := Entry.eq_of_bracket_opening hbracket
  exact ⟨o', ho', hfits⟩

/-- A scope that ends holds content directly: its own, or else its marker. -/
theorem Matches.inhabited {i j : Nat} (hij : m.Matches i j) (h : ofLines lines = .ok m) :
    ∃ p e, p < j ∧ m.Directly i p ∧ m.entries[p]? = some e ∧
      (e.kind = .opening ∨ e.kind ≠ .closing ∧ e.text ≠ []) := by
  cases hcontent : (m.entries.extract (i + 1) j).any Entry.isContent with
  | true => exact hij.exists_direct hcontent
  | false =>
      have hplain := hij.plain_of_not_content hcontent
      obtain ⟨e, c, he, hc, hmarks⟩ := (hij.markedAt_iff (tidy_of_ofLines h)).mpr hplain
      obtain ⟨ho, hne⟩ := leaf_of_synthetic h he hmarks.1
      have hlt := Bracket.Matches.lt hij
      have hletter : m.brackets[j - 1]? = some (.single e) := by
        rw [brackets_getElem?, he, Option.map_some, Entry.bracket_of_leaf ho hne]
      have hdirect : m.Directly i (j - 1) := by
        refine (Bracket.directly_succ_iff hletter).mp ?_
        rw [Nat.sub_add_cancel (by omega)]
        exact Bracket.Matches.directly hij
      have htext : e.text ≠ [] := by simp [hmarks.2.2.1]
      exact ⟨j - 1, e, by omega, hdirect, he, Or.inr ⟨hne, htext⟩⟩

end Model

/-- **Every scope that ends without content has a marker, and there are no other markers.** -/
theorem wellMarked_of_ofLines {lines : List Text} {m : Model}
    (h : Model.ofLines lines = .ok m) : m.WellMarked where
  ends := by
    intro j c hj hc
    obtain ⟨i, hi⟩ := Bracket.exists_matches (Model.isSome_remaining_brackets h)
      (Model.brackets_of_closing hj hc)
    obtain ⟨o, ho, htitle⟩ := Model.Matches.title_eq hi h hj hc
    exact ⟨i, o, hi, ho, htitle⟩
  markedAt_iff := fun i j hij => hij.markedAt_iff (Model.tidy_of_ofLines h)
  synthetic := fun p e hp hs => Model.matches_of_synthetic h hp hs
  descriptor := by
    intro e he hs hempty
    have hmem := (Model.regular_of_ofLines h e he).of_table hs
    rw [hempty] at hmem
    exact absurd hmem (by decide)
  unended := by
    intro i hopen p e hip hp
    cases hs : e.synthetic with
    | false => rfl
    | true => exact absurd (hip.matches_of_synthetic h hp hs) (hopen (p + 1))
  inhabited := fun i j hij => hij.inhabited h
  unique := by
    intro i p p' e e' hip hp hs hip' hp' hs'
    -- Both would stand right before the entry that ends the scope.
    have hmatch := hip.matches_of_synthetic h hp hs
    have hmatch' := hip'.matches_of_synthetic h hp' hs'
    have := Bracket.Matches.right_unique hmatch hmatch'
    omega

/-- A mapping whose only content is a scalar without content. -/
theorem wellMarked_nested :
    let entries : List Entry :=
      [ ⟨⟨'M', .opening, "Mapping".toList⟩, [], some 1, 1, false⟩,
        ⟨⟨'S', .opening, "Scalar".toList⟩, [], some 2, 2, false⟩,
        ⟨CodeTable.text, [], some 3, 3, false⟩,
        ⟨CodeTable.empty, ['°'], some 4, 4, true⟩,
        ⟨⟨'s', .closing, "Scalar".toList⟩, [], none, 4, false⟩,
        ⟨⟨'m', .closing, "Mapping".toList⟩, [], none, 5, false⟩ ]
    Model.ofLines ["M".toList, "S".toList, "T".toList, "s".toList, "m".toList] =
        .ok { entries } ∧
      Model.WellMarked { entries } := by
  intro entries
  have h : Model.ofLines ["M".toList, "S".toList, "T".toList, "s".toList, "m".toList] =
      .ok { entries } := rfl
  exact ⟨h, wellMarked_of_ofLines h⟩

end Yeast
