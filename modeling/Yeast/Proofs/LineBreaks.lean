import Yeast.Proofs.Breaks
import Yeast.Proofs.Ending

set_option autoImplicit false

/-! # Where the source text breaks its lines

While the entries are written, a mark tells whether a line break is due. It passes over closing
entries, and an opening entry or a leaf takes it and sets it anew. So it tells of the last entry
before that does not close, whatever stands between (`SourceText.foldl_pendingAfter_eq`), and the
source text is written entry by entry, with a line break before each that begins a line
(`Model.BeginsLine`).

No other line break is spelled in it: those that are spelled in a text are the ones whose deletion
makes it shorter (`Text.length_withoutBreaks`), and deleting them spares the markup of the entries,
whatever their texts. Hence the line breaks stand, in order, where a line begins and nowhere else
(`Model.breaksLines`).
-/

namespace Yeast

open Markup

def Text.breakPositions (text : Text) : List Nat :=
  (List.range text.length).filter fun k => "<br/>".toList.isPrefixOf (text.drop k)

namespace Entry

/-- The entry is a leaf, but no byte order mark, and its text ends in the symbol of a carriage
return or line feed. -/
def EndsLine (e : Entry) : Prop :=
  (e.kind ≠ .opening ∧ e.kind ≠ .closing ∧ e.kind ≠ .byteOrderMark) ∧
    (e.text.getLast? = some Placeholder.carriageReturn ∨
      e.text.getLast? = some Placeholder.lineFeed)

instance : DecidablePred EndsLine := fun _ => inferInstanceAs (Decidable (_ ∧ _))

end Entry

def lastShown? (entries : List Entry) : Option Entry :=
  (entries.filter fun e => e.kind ≠ .closing).getLast?

namespace Model

/-- The entry at the position begins a line: it does not close, and the last one before it that
does not close ends a line. -/
def BeginsLine (m : Model) (i : Nat) : Prop :=
  (∃ e ∈ m.entries[i]?, e.kind ≠ .closing) ∧ ∃ e ∈ lastShown? (m.entries.take i), e.EndsLine

instance (m : Model) : DecidablePred m.BeginsLine := fun _ => inferInstanceAs (Decidable (_ ∧ _))

/-- What is written for the entry at the position: its markup, behind a line break if it begins a
line. -/
def lineAt (m : Model) (i : Nat) : Text :=
  (if m.BeginsLine i then "<br/>\n".toList else []) ++
    m.entries[i]?.elim [] fun e => render e.markup

def writtenBefore (m : Model) (i : Nat) : Text :=
  render [.start "div".toList [classes ["text".toList]]] ++ (List.range i).flatMap m.lineAt

/-- The ends behind the last entry, as many as there are more opening entries than closing ones. -/
def scopeEnds (m : Model) : Text :=
  render (List.replicate ((m.entries.countP fun e => e.kind = .opening) -
    m.entries.countP fun e => e.kind = .closing) SourceText.spanEnd)

/-- Where the source text of a model breaks its lines. -/
structure BreaksLines (m : Model) : Prop where
  /-- It is the markup of the entries in order, a line break right before that of each entry that
  begins a line, and the ends of the scopes left open. -/
  whole : m.renderSourceText =
    m.writtenBefore m.entries.length ++ (m.scopeEnds ++ "</div>\n".toList)
  /-- No other line break is spelled in it. -/
  positions : m.renderSourceText.breakPositions =
    ((List.range m.entries.length).filter m.BeginsLine).map fun i => (m.writtenBefore i).length
  /-- So there are as many of them as entries that begin a line. -/
  number : m.renderSourceText.breakPositions.length =
    (List.range m.entries.length).countP m.BeginsLine
  /-- No line break stands right before another one, or before what is written for an entry that
  begins no line. -/
  apart : ∀ i, ¬ "<br/>\n".toList <:+ m.writtenBefore i
  /-- And none stands at the end. -/
  last : ¬ "<br/>\n".toList <:+ m.writtenBefore m.entries.length ++ m.scopeEnds

end Model

/-! ## Line breaks that are spelled in a text -/

namespace Text

theorem breakPositions_cons (c : Char) (text : Text) :
    breakPositions (c :: text) =
      (if "<br/>".toList <+: c :: text then [0] else []) ++
        (breakPositions text).map fun k => k + 1 := by
  rw [breakPositions, List.length_cons, List.range_succ_eq_map, List.filter_cons, List.drop_zero,
    List.filter_map, breakPositions]
  by_cases h : "<br/>".toList <+: c :: text
  · rw [if_pos h, if_pos (List.isPrefixOf_iff_prefix.mpr h)]
    rfl
  · rw [if_neg h, if_neg (mt List.isPrefixOf_iff_prefix.mp h)]
    rfl

/-- Within a line break no other one begins. -/
theorem breakPositions_break (text : Text) :
    breakPositions ("<br/>".toList ++ text) = 0 :: (breakPositions text).map fun k => k + 5 := by
  have hinner : ∀ c ∈ ['b', 'r', '/', '>'], ∀ rest, ¬ "<br/>".toList <+: c :: rest := by
    intro c hc rest hprefix
    have hhead : c = '<' := (List.cons_prefix_cons.mp hprefix).1.symm
    subst hhead
    exact absurd hc (by decide)
  have hword : "<br/>".toList ++ text = '<' :: 'b' :: 'r' :: '/' :: '>' :: text := rfl
  rw [hword, breakPositions_cons, if_pos ⟨text, rfl⟩]
  iterate 4 rw [breakPositions_cons, if_neg (hinner _ (by simp) _)]
  simp [Function.comp_def]

/-- Line breaks are as long as what their deletion takes. -/
theorem length_withoutBreaks (text : Text) :
    5 * (breakPositions text).length + text.withoutBreaks.length = text.length := by
  induction hn : text.length using Nat.strongRecOn generalizing text with
  | ind n ih =>
      subst hn
      by_cases h : "<br/>".toList <+: text
      · obtain ⟨rest, rfl⟩ := h
        have hlength : ("<br/>".toList ++ rest).length = 5 + rest.length := by
          rw [List.length_append]
          rfl
        have hrest := ih rest.length (by omega) rest rfl
        rw [withoutBreaks_break, breakPositions_break, List.length_cons, List.length_map]
        omega
      · cases text with
        | nil => rfl
        | cons c rest =>
            have hrest := ih rest.length (by simp) rest rfl
            rw [withoutBreaks_cons h, breakPositions_cons, if_neg h, List.nil_append,
              List.length_map, List.length_cons, List.length_cons]
            omega

theorem exists_breakPositions_append (s t : Text) :
    ∃ front, breakPositions (s ++ t) = front ++ (breakPositions t).map fun k => k + s.length := by
  induction s with
  | nil => exact ⟨[], by simp⟩
  | cons c s ih =>
      obtain ⟨front, hfront⟩ := ih
      refine ⟨(if "<br/>".toList <+: c :: (s ++ t) then [0] else []) ++
        front.map fun k => k + 1, ?_⟩
      rw [List.cons_append, breakPositions_cons, hfront, List.map_append, List.append_assoc,
        List.map_map, List.length_cons]
      rfl

end Text

namespace Markup

/-- Before a text in which no line break begins, those behind it are moved. -/
theorem Solid.breakPositions_append {s : Text} (h : Solid s) (t : Text) :
    Text.breakPositions (s ++ t) = (Text.breakPositions t).map fun k => k + s.length := by
  obtain ⟨front, hfront⟩ := Text.exists_breakPositions_append s t
  have hwhole := Text.length_withoutBreaks (s ++ t)
  have hbehind := Text.length_withoutBreaks t
  rw [h t, hfront, List.length_append, List.length_append, List.length_append,
    List.length_map] at hwhole
  have hempty : front = [] := List.eq_nil_of_length_eq_zero (by omega)
  rw [hfront, hempty, List.nil_append]

end Markup

/-! ## The mark -/

namespace Entry

theorem plain_markup (e : Entry) : ∀ p ∈ e.markup, p.Plain := by
  by_cases ho : e.kind = .opening
  · simp only [markup, ho, List.forall_mem_singleton]
    exact (SourceText.inPane_scopeStart e).plain
  by_cases hc : e.kind = .closing
  · simp only [markup, hc, List.forall_mem_singleton]
    exact SourceText.inPane_spanEnd.plain
  · rw [markup_leaf ho hc]
    exact fun p hp => (SourceText.inPane_token e p hp).plain

/-- What is shown of a leaf ends in one of the two symbols iff the leaf ends a line. -/
theorem endsLine_shown {e : Entry} (ho : e.kind ≠ .opening) (hc : e.kind ≠ .closing) :
    (SourceText.shown e).endsLine = decide e.EndsLine := by
  rw [Bool.eq_iff_iff, decide_eq_true_iff]
  by_cases hbom : e.kind = .byteOrderMark
  · have hnot : ¬ e.EndsLine := fun h => h.1.2.2 hbom
    simp only [SourceText.shown, if_pos hbom, hnot, iff_false]
    decide
  · rw [SourceText.shown, if_neg hbom, Text.endsLine]
    simp only [EndsLine, ho, hc, hbom, ne_eq, not_false_eq_true, and_self, true_and]
    cases e.text.getLast? with
    | none => simp
    | some c => simp [Placeholder.lineBreaks, or_comm]

end Entry

namespace SourceText

theorem lastShown?_concat (entries : List Entry) (e : Entry) :
    lastShown? (entries ++ [e]) = if e.kind = .closing then lastShown? entries else some e := by
  by_cases hc : e.kind = .closing <;> simp [lastShown?, List.filter_append, hc]

/-- **Behind some entries a line break is due iff the last of them that does not close ends a
line.** -/
theorem foldl_pendingAfter_eq (entries : List Entry) :
    entries.foldl pendingAfter false = decide (∃ e ∈ lastShown? entries, e.EndsLine) := by
  induction entries using List.reverseRecOn with
  | nil => rfl
  | append_singleton entries e ih =>
      rw [List.foldl_append, List.foldl_cons, List.foldl_nil, lastShown?_concat]
      by_cases hc : e.kind = .closing
      · -- A closing entry leaves the mark alone and is not looked at.
        rw [pendingAfter, hc, if_pos rfl]
        exact ih
      rw [if_neg hc]
      simp only [Option.mem_def, Option.some.injEq, exists_eq_left']
      by_cases ho : e.kind = .opening
      · have hnot : ¬ e.EndsLine := fun h => h.1.1 ho
        rw [pendingAfter, ho, decide_eq_false hnot]
      · rw [pendingAfter_leaf ho hc, Entry.endsLine_shown ho hc]

theorem foldl_levelAfter_eq (level : Int) (entries : List Entry) :
    entries.foldl Outline.levelAfter level =
      level + (entries.countP fun e => e.kind = .opening) -
        (entries.countP fun e => e.kind = .closing) := by
  induction entries generalizing level with
  | nil => simp
  | cons e entries ih =>
      rw [List.foldl_cons, ih]
      by_cases ho : e.kind = .opening
      · have hc : e.kind ≠ .closing := by simp [ho]
        have hlevel : Outline.levelAfter level e = level + 1 := by rw [Outline.levelAfter, ho]
        rw [hlevel, List.countP_cons_of_pos (by simpa using ho),
          List.countP_cons_of_neg (by simpa using hc)]
        omega
      rw [List.countP_cons_of_neg (by simpa using ho)]
      by_cases hc : e.kind = .closing
      · have hlevel : Outline.levelAfter level e = level - 1 := by rw [Outline.levelAfter, hc]
        rw [hlevel, List.countP_cons_of_pos (by simpa using hc)]
        omega
      · rw [Outline.levelAfter_leaf ho hc, List.countP_cons_of_neg (by simpa using hc)]

end SourceText

/-! ## Entry by entry -/

namespace Model

variable {m : Model} {i : Nat}

theorem lineAt_eq {e : Entry} (he : m.entries[i]? = some e) :
    m.lineAt i = render (SourceText.breakIf ((m.entries.take i).foldl SourceText.pendingAfter false
      && decide (e.kind ≠ .closing)) ++ e.markup) := by
  have hbegins : m.BeginsLine i ↔
      e.kind ≠ .closing ∧ ∃ e ∈ lastShown? (m.entries.take i), e.EndsLine := by
    simp [BeginsLine, he]
  rw [lineAt, he, SourceText.foldl_pendingAfter_eq, ← Bool.decide_and, render_append, Option.elim]
  congr 1
  by_cases h : m.BeginsLine i
  · rw [if_pos h, decide_eq_true (hbegins.mp h).symm]
    rfl
  · rw [if_neg h, decide_eq_false fun h' => h (hbegins.mpr h'.symm)]
    rfl

theorem writtenBefore_zero (m : Model) :
    m.writtenBefore 0 = render [.start "div".toList [classes ["text".toList]]] := by
  rw [writtenBefore, List.range_zero, List.flatMap_nil, List.append_nil]

theorem writtenBefore_succ (m : Model) (i : Nat) :
    m.writtenBefore (i + 1) = m.writtenBefore i ++ m.lineAt i := by
  rw [writtenBefore, writtenBefore, List.range_succ, List.flatMap_append, List.flatMap_singleton,
    List.append_assoc]

/-- What is written before an entry is followed by what the remaining entries are written as. -/
theorem render_piecesFrom_eq (hi : i ≤ m.entries.length) :
    render (.start "div".toList [classes ["text".toList]] ::
        SourceText.piecesFrom false 0 m.entries) =
      m.writtenBefore i ++ render (SourceText.piecesFrom
        ((m.entries.take i).foldl SourceText.pendingAfter false)
        ((m.entries.take i).foldl Outline.levelAfter 0) (m.entries.drop i)) := by
  induction i with
  | zero =>
      rw [writtenBefore_zero, ← render_append]
      rfl
  | succ i ih =>
      have he : m.entries[i]? = some m.entries[i] := List.getElem?_eq_getElem hi
      have htake : m.entries.take (i + 1) = m.entries.take i ++ [m.entries[i]] :=
        List.take_succ_eq_append_getElem hi
      rw [ih (Nat.le_of_succ_le hi), List.drop_eq_getElem_cons hi, SourceText.piecesFrom_cons,
        writtenBefore_succ, lineAt_eq he, htake, List.foldl_append, List.foldl_append]
      simp

theorem renderSourceText_eq (m : Model) : m.renderSourceText =
    m.writtenBefore m.entries.length ++ (m.scopeEnds ++ "</div>\n".toList) := by
  have hfoot : render [.stop "div".toList, .newline] = "</div>\n".toList := rfl
  have hall := render_piecesFrom_eq (m := m) (Nat.le_refl m.entries.length)
  rw [List.take_length, List.drop_length, SourceText.piecesFrom, SourceText.foldl_levelAfter_eq,
    Int.zero_add, Int.toNat_sub] at hall
  calc m.renderSourceText
      = render (.start "div".toList [classes ["text".toList]] ::
          SourceText.piecesFrom false 0 m.entries) ++ render [.stop "div".toList, .newline] := by
        rw [renderSourceText, sourceText, SourceText.pieces, render_append]
    _ = m.writtenBefore m.entries.length ++ m.scopeEnds ++ "</div>\n".toList := by
        rw [hall, hfoot, scopeEnds]
    _ = m.writtenBefore m.entries.length ++ (m.scopeEnds ++ "</div>\n".toList) :=
        List.append_assoc _ _ _

/-! ## No other line breaks -/

theorem solid_markupAt (m : Model) (i : Nat) :
    Solid (m.entries[i]?.elim [] fun e => render e.markup) := by
  cases m.entries[i]? with
  | none => exact .nil
  | some e => exact solid_render e.plain_markup

/-- A line break is spelled in what is written for an entry iff the entry begins a line. -/
theorem breakPositions_lineAt (m : Model) (i : Nat) (rest : Text) :
    Text.breakPositions (m.lineAt i ++ rest) =
      (if m.BeginsLine i then [0] else []) ++
        (Text.breakPositions rest).map fun k => k + (m.lineAt i).length := by
  have hmarkup := solid_markupAt m i
  unfold lineAt
  generalize (m.entries[i]?.elim [] fun e => render e.markup) = written at hmarkup
  by_cases h : m.BeginsLine i
  · have hfeed : Solid ('\n' :: written) := by
      have hone : Solid ['\n'] := .of_not_mem (by decide)
      exact hone.append hmarkup
    have hbreak : "<br/>\n".toList ++ written ++ rest =
        "<br/>".toList ++ ('\n' :: written ++ rest) := rfl
    have hlength : ("<br/>\n".toList ++ written).length = ('\n' :: written).length + 5 := by
      rw [List.length_append, List.length_cons, Nat.add_comm]
      rfl
    rw [if_pos h, if_pos h, hbreak, Text.breakPositions_break, hfeed.breakPositions_append,
      List.map_map, hlength]
    rfl
  · rw [if_neg h, if_neg h, List.nil_append, List.nil_append, hmarkup.breakPositions_append]

theorem breakPositions_writtenBefore (m : Model) (i : Nat) (rest : Text) :
    Text.breakPositions (m.writtenBefore i ++ rest) =
      ((List.range i).filter m.BeginsLine).map (fun j => (m.writtenBefore j).length) ++
        (Text.breakPositions rest).map fun k => k + (m.writtenBefore i).length := by
  induction i generalizing rest with
  | zero =>
      have hstart : Solid (render [.start "div".toList [classes ["text".toList]]]) :=
        solid_of_isSolid (by decide)
      rw [writtenBefore_zero, hstart.breakPositions_append]
      rfl
  | succ i ih =>
      rw [writtenBefore_succ, List.append_assoc, ih, breakPositions_lineAt, List.range_succ,
        List.filter_append, List.map_append, List.map_append, List.map_map, List.append_assoc,
        List.length_append]
      congr 1
      by_cases h : m.BeginsLine i
      · simp [h, Nat.add_assoc, Nat.add_comm, Function.comp_def]
      · simp [h, Nat.add_assoc, Nat.add_comm, Function.comp_def]

theorem positions_renderSourceText (m : Model) : m.renderSourceText.breakPositions =
    ((List.range m.entries.length).filter m.BeginsLine).map
      fun i => (m.writtenBefore i).length := by
  have hends : Solid (m.scopeEnds ++ "</div>\n".toList) := by
    refine (solid_render fun p hp => ?_).append (solid_of_isSolid (by decide))
    rw [List.eq_of_mem_replicate hp]
    exact SourceText.inPane_spanEnd.plain
  have hnone : Text.breakPositions (m.scopeEnds ++ "</div>\n".toList) = [] := by
    have hmoved := hends.breakPositions_append []
    rwa [List.append_nil] at hmoved
  calc m.renderSourceText.breakPositions
      = ((List.range m.entries.length).filter m.BeginsLine).map
            (fun i => (m.writtenBefore i).length) ++
          (Text.breakPositions (m.scopeEnds ++ "</div>\n".toList)).map
            fun k => k + (m.writtenBefore m.entries.length).length := by
        rw [renderSourceText_eq, breakPositions_writtenBefore]
    _ = ((List.range m.entries.length).filter m.BeginsLine).map
          fun i => (m.writtenBefore i).length := by
        rw [hnone, List.map_nil, List.append_nil]

/-! ## What stands before a line break -/

/-- What ends with a tag ends with a bracket. -/
theorem getLast?_render_concat {p : Piece} (h : p.render.getLast? = some '>')
    (pieces : List Piece) : (render (pieces ++ [p])).getLast? = some '>' := by
  rw [render_append, render_cons, render_nil, List.append_nil, List.getLast?_append, h,
    Option.some_or]

theorem getLast?_render_spanEnd : SourceText.spanEnd.render.getLast? = some '>' := by decide

theorem getLast?_render_markup (e : Entry) : (render e.markup).getLast? = some '>' := by
  have hstart : (SourceText.scopeStart e).render.getLast? = some '>' := List.getLast?_concat
  by_cases ho : e.kind = .opening
  · simp only [Entry.markup, ho]
    exact getLast?_render_concat hstart []
  by_cases hc : e.kind = .closing
  · simp only [Entry.markup, hc]
    exact getLast?_render_concat getLast?_render_spanEnd []
  · rw [Entry.markup_leaf ho hc]
    exact getLast?_render_concat getLast?_render_spanEnd [_, _]

theorem getLast?_writtenBefore (m : Model) (i : Nat) : (m.writtenBefore i).getLast? = some '>' := by
  induction i with
  | zero =>
      rw [writtenBefore_zero]
      decide
  | succ i ih =>
      rw [writtenBefore_succ, lineAt]
      cases he : m.entries[i]? with
      | none =>
          have hnot : ¬ m.BeginsLine i := by simp [BeginsLine, he]
          rw [if_neg hnot, Option.elim, List.append_nil, List.append_nil]
          exact ih
      | some e => rw [Option.elim, ← List.append_assoc, List.getLast?_append,
          getLast?_render_markup, Option.some_or]

theorem not_break_suffix {text : Text} (h : text.getLast? = some '>') :
    ¬ "<br/>\n".toList <:+ text := by
  rintro ⟨front, rfl⟩
  have hfeed : "<br/>\n".toList.getLast? = some '\n' := by decide
  rw [List.getLast?_append, hfeed, Option.some_or] at h
  exact absurd h (by decide)

theorem getLast?_append_scopeEnds {text : Text} (h : text.getLast? = some '>') (m : Model) :
    (text ++ m.scopeEnds).getLast? = some '>' := by
  rw [scopeEnds]
  generalize (m.entries.countP _ - m.entries.countP _) = n
  induction n generalizing text with
  | zero => simpa using h
  | succ n ih =>
      rw [List.replicate_succ, render_cons, ← List.append_assoc]
      refine ih ?_
      rw [List.getLast?_append, getLast?_render_spanEnd, Option.some_or]

/-- **The source text breaks its lines where an entry begins one, and nowhere else.** -/
theorem breaksLines (m : Model) : m.BreaksLines where
  whole := m.renderSourceText_eq
  positions := m.positions_renderSourceText
  number := by
    rw [positions_renderSourceText, List.length_map, List.countP_eq_length_filter]
  apart i := not_break_suffix (m.getLast?_writtenBefore i)
  last := not_break_suffix (getLast?_append_scopeEnds (m.getLast?_writtenBefore _) m)

end Model

end Yeast
