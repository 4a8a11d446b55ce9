import Mathlib.Data.List.Induction
import Mathlib.Order.Bounds.Basic
import Yeast.Proofs.Forest
import Yeast.Proofs.Moves

set_option autoImplicit false

/-! # Legal streams

A stream is legal if every line is a comment or begins with a code of the table, and the opening
and closing codes of its lines begin a well-bracketed word over titles (`Legal`). Reading accepts
exactly the legal streams. Any other stream is refused for its first line that no legal stream
continues with, by the fault that `Blames` gives for that line and the lines before it, whatever
follows.

The reason is that the nesting of a builder is the stack of the word read so far: a line leads to
the state whose nesting `remaining` computes, or is refused (`feed_run_cases`).
-/

namespace Yeast

namespace Stream

/-- Without its terminator the line begins with the code of a comment or of a descriptor. -/
def Coded (line : Text) : Prop :=
  ∃ code rest, line.withoutTerminator = code :: rest ∧
    (code = CodeTable.comment ∨ ∃ d ∈ CodeTable.descriptors, d.code = code)

/-- The scope that a line opens or the descriptor with which it closes one. -/
def bracket? (line : Text) (number : Int) : Option (Bracket OpenScope Descriptor) :=
  match line.reading with
  | .token d _ =>
    match d.kind with
    | .opening => some (.opening ⟨number, d⟩)
    | .closing => some (.closing d)
    | _ => none
  | _ => none

/-- The opening and closing codes of lines, of which the first has the given number. -/
def bracketsFrom : Int → List Text → List (Bracket OpenScope Descriptor)
  | _, [] => []
  | number, line :: lines => (bracket? line number).toList ++ bracketsFrom (number + 1) lines

def brackets (lines : List Text) : List (Bracket OpenScope Descriptor) := bracketsFrom 1 lines

/-- A closing code ends a scope of its own title. -/
def SameTitle (s : OpenScope) (d : Descriptor) : Prop := s.descriptor.title = d.title

instance : DecidableRel SameTitle := fun s d =>
  inferInstanceAs (Decidable (s.descriptor.title = d.title))

/-- The streams that are documents. -/
structure Legal (lines : List Text) : Prop where
  coded : ∀ line ∈ lines, Coded line
  nested : ∃ rest, Bracket.Balanced SameTitle (brackets lines ++ rest)

/-- The fault of a line of the given number behind lines that are legal. -/
inductive Blames (before : List Text) (line : Text) (number : Int) : StreamFault → Prop
  | emptyRecord : line.withoutTerminator = [] → Blames before line number (.emptyRecord number)
  | unknownCode {code : Char} {rest : Text} : line.withoutTerminator = code :: rest →
      code ≠ CodeTable.comment → (∀ d ∈ CodeTable.descriptors, d.code ≠ code) →
      Blames before line number (.unknownCode number [code])
  | unopened {d : Descriptor} : bracket? line number = some (.closing d) →
      Bracket.Balanced SameTitle (brackets before) →
      Blames before line number (.unopened number d)
  | mismatch {d : Descriptor} {s : OpenScope}
      {outer inner : List (Bracket OpenScope Descriptor)} :
      bracket? line number = some (.closing d) →
      brackets before = outer ++ .opening s :: inner → Bracket.Balanced SameTitle inner →
      s.descriptor.title ≠ d.title →
      Blames before line number
        (.mismatch
          { line := number
            code := [d.code]
            title := d.title
            openLine := s.line
            openCode := [s.descriptor.code]
            openTitle := s.descriptor.title })

/-! ## Lines -/

theorem bracketsFrom_append (number : Int) (lines more : List Text) :
    bracketsFrom number (lines ++ more) =
      bracketsFrom number lines ++ bracketsFrom (number + lines.length) more := by
  induction lines generalizing number with
  | nil => simp [bracketsFrom]
  | cons line lines ih =>
      have hnumber : number + 1 + lines.length = number + (lines.length + 1 : Nat) := by omega
      rw [List.cons_append, bracketsFrom, ih, bracketsFrom, List.append_assoc, hnumber,
        List.length_cons]

theorem brackets_concat (lines : List Text) (line : Text) :
    brackets (lines ++ [line]) =
      brackets lines ++ (bracket? line (lines.length + 1)).toList := by
  rw [brackets, bracketsFrom_append, brackets]
  simp [bracketsFrom, Int.add_comm]

theorem coded_of_reading {line : Text}
    (h : line.reading = .comment ∨ ∃ d text, line.reading = .token d text) : Coded line := by
  rw [Text.reading] at h
  cases hline : line.withoutTerminator with
  | nil => simp [hline] at h
  | cons code rest =>
      refine ⟨code, rest, hline, ?_⟩
      by_cases hcomment : code = CodeTable.comment
      · exact Or.inl hcomment
      cases hfind : CodeTable.find? code with
      | none => simp [hline, hcomment, hfind] at h
      | some d =>
          exact Or.inr ⟨d, CodeTable.mem_descriptors_of_find? hfind,
            CodeTable.code_eq_of_find? hfind⟩

theorem reading_eq_blank {line : Text} (h : line.reading = .blank) :
    line.withoutTerminator = [] := by
  rw [Text.reading] at h
  cases hline : line.withoutTerminator with
  | nil => rfl
  | cons code rest =>
      rw [hline] at h
      dsimp only at h
      split at h
      · simp at h
      · split at h <;> simp at h

theorem reading_eq_comment {line : Text} (h : line.reading = .comment) :
    ∃ rest, line.withoutTerminator = CodeTable.comment :: rest := by
  rw [Text.reading] at h
  cases hline : line.withoutTerminator with
  | nil => simp [hline] at h
  | cons code rest =>
      rw [hline] at h
      dsimp only at h
      split at h
      · rename_i hcomment
        exact ⟨rest, by rw [hcomment]⟩
      · split at h <;> simp at h

theorem reading_eq_unknown {line : Text} {code : Char} (h : line.reading = .unknown code) :
    ∃ rest, line.withoutTerminator = code :: rest ∧ code ≠ CodeTable.comment ∧
      ∀ d ∈ CodeTable.descriptors, d.code ≠ code := by
  rw [Text.reading] at h
  cases hline : line.withoutTerminator with
  | nil => simp [hline] at h
  | cons code' rest =>
      rw [hline] at h
      dsimp only at h
      split at h
      · simp at h
      · rename_i hcomment
        split at h
        · simp at h
        · rename_i hfind
          rw [Reading.unknown.injEq] at h
          subst h
          refine ⟨rest, rfl, hcomment, fun d hd => ?_⟩
          simpa using List.find?_eq_none.mp hfind d hd

theorem not_coded_of_nil {line : Text} (h : line.withoutTerminator = []) : ¬ Coded line := by
  rintro ⟨code, rest, hline, -⟩
  simp [h] at hline

theorem not_coded_of_unknown {line : Text} {code : Char} {rest : Text}
    (hline : line.withoutTerminator = code :: rest) (hcomment : code ≠ CodeTable.comment)
    (hunknown : ∀ d ∈ CodeTable.descriptors, d.code ≠ code) : ¬ Coded line := by
  rintro ⟨code', rest', hline', hcode⟩
  rw [hline, List.cons_eq_cons] at hline'
  obtain ⟨rfl, rfl⟩ := hline'
  rcases hcode with rfl | ⟨d, hd, hcode⟩
  · exact hcomment rfl
  · exact hunknown d hd hcode

theorem coded_of_bracket {line : Text} {number : Int} {x : Bracket OpenScope Descriptor}
    (h : bracket? line number = some x) : Coded line := by
  unfold bracket? at h
  split at h
  · rename_i d text hreading
    exact coded_of_reading (Or.inr ⟨d, text, hreading⟩)
  · simp at h

/-! ## Legality, line by line -/

theorem nested_iff {lines : List Text} :
    (∃ rest, Bracket.Balanced SameTitle (brackets lines ++ rest)) ↔
      (Bracket.remaining SameTitle [] (brackets lines)).isSome := by
  have closable : ∀ s : OpenScope, ∃ d, SameTitle s d := fun s => ⟨s.descriptor, rfl⟩
  exact (Bracket.isSome_remaining_iff closable).symm

theorem Legal.nil : Legal [] := ⟨by simp, [], .nil⟩

theorem Legal.of_append {lines more : List Text} (h : Legal (lines ++ more)) : Legal lines := by
  refine ⟨fun line hline => h.coded line (List.mem_append_left _ hline), ?_⟩
  obtain ⟨rest, hrest⟩ := h.nested
  rw [brackets, bracketsFrom_append, List.append_assoc] at hrest
  exact ⟨_, hrest⟩

theorem legal_concat_iff {lines : List Text} {line : Text} (h : Legal lines)
    {nesting : List OpenScope}
    (hnesting : Bracket.remaining SameTitle [] (brackets lines) = some nesting) :
    Legal (lines ++ [line]) ↔ Coded line ∧
      (Bracket.remaining SameTitle nesting
        (bracket? line (lines.length + 1)).toList).isSome := by
  have hword : Bracket.remaining SameTitle [] (brackets (lines ++ [line])) =
      Bracket.remaining SameTitle nesting (bracket? line (lines.length + 1)).toList := by
    rw [brackets_concat, Bracket.remaining_append, hnesting, Option.bind_some]
  constructor
  · intro hmore
    exact ⟨hmore.coded line (by simp), hword ▸ nested_iff.mp hmore.nested⟩
  · rintro ⟨hcoded, hsome⟩
    refine ⟨fun line' hline' => ?_, nested_iff.mpr (hword ▸ hsome)⟩
    rcases List.mem_append.mp hline' with hline' | hline'
    · exact h.coded line' hline'
    · rw [List.mem_singleton.mp hline']
      exact hcoded

/-- A stream that is not legal has a first line which no legal stream continues with. -/
theorem exists_first_illegal {lines : List Text} (h : ¬ Legal lines) :
    ∃ before line after, lines = before ++ line :: after ∧ Legal before ∧
      ¬ Legal (before ++ [line]) := by
  induction lines using List.reverseRecOn with
  | nil => exact absurd Legal.nil h
  | append_singleton lines line ih =>
      by_cases hlines : Legal lines
      · exact ⟨lines, line, [], rfl, hlines, h⟩
      · obtain ⟨before, line', after, rfl, hbefore, hline'⟩ := ih hlines
        exact ⟨before, line', after ++ [line], by simp, hbefore, hline'⟩

theorem isLeast_illegal {before : List Text} {line : Text} (hbefore : Legal before)
    (hline : ¬ Legal (before ++ [line])) (after : List Text) :
    IsLeast {k | ¬ Legal ((before ++ line :: after).take k)} (before.length + 1) := by
  constructor
  · have htake : (before ++ line :: after).take (before.length + 1) = before ++ [line] := by
      simp [List.take_append, List.take_of_length_le]
    show ¬ Legal _
    rwa [htake]
  · intro k hk
    by_contra hlt
    have hle : k ≤ before.length := by omega
    change ¬ Legal _ at hk
    rw [List.take_append_of_le_length hle] at hk
    rw [← List.take_append_drop k before] at hbefore
    exact hk hbefore.of_append

/-! ## Reading -/

theorem bracket?_of_reading {line text : Text} {d : Descriptor}
    (h : line.reading = .token d text) (number : Int) :
    bracket? line number =
      match d.kind with
      | .opening => some (.opening ⟨number, d⟩)
      | .closing => some (.closing d)
      | _ => none := by
  rw [bracket?, h]

/-- Behind legal lines, whose open scopes are the nesting of the builder, a line is refused by
the fault it is to be blamed for, or leads to a builder whose nesting is again what is open. -/
theorem feed_run_cases {before : List Text} {b : Builder} (hb : b.Sound)
    (hnesting : Bracket.remaining SameTitle [] (brackets before) = some b.nesting) (line : Text)
    (number : Int) (hnumber : 1 ≤ number) :
    (∃ b', (Builder.feed line number).run b = .ok () b' ∧ b'.Sound ∧ Coded line ∧
      Bracket.remaining SameTitle b.nesting (bracket? line number).toList = some b'.nesting) ∨
    ∃ fault b', (Builder.feed line number).run b = .error fault b' ∧
      Blames before line number fault ∧
      ¬ (Coded line ∧
        (Bracket.remaining SameTitle b.nesting (bracket? line number).toList).isSome) := by
  rw [Builder.feed_eq]
  cases hreading : line.reading with
  | blank =>
      have hline := reading_eq_blank hreading
      exact Or.inr ⟨_, b, rfl, .emptyRecord hline, fun h => not_coded_of_nil hline h.1⟩
  | unknown code =>
      obtain ⟨rest, hline, hcomment, hunknown⟩ := reading_eq_unknown hreading
      exact Or.inr ⟨_, b, rfl, .unknownCode hline hcomment hunknown,
        fun h => not_coded_of_unknown hline hcomment hunknown h.1⟩
  | comment =>
      refine Or.inl ⟨b, rfl, hb, coded_of_reading (Or.inl hreading), ?_⟩
      simp [bracket?, hreading]
  | token d text =>
      have hcoded : Coded line := coded_of_reading (Or.inr ⟨d, text, hreading⟩)
      have hbracket := bracket?_of_reading hreading number
      dsimp only
      by_cases hopen : d.kind = .opening
      · rw [hopen] at hbracket
        refine Or.inl ⟨_, Builder.feedToken_run_opening hb hopen text hnumber,
          (hb.opened d number).withShared text number, hcoded, ?_⟩
        rw [hbracket]
        simp
      by_cases hclose : d.kind = .closing
      · -- A text in the same record is written first, but it leaves the nesting as it is.
        rw [hclose] at hbracket
        rw [Builder.feedToken_run_closing hb hclose text hnumber,
          Builder.closeScope_run (hb.withShared text number) hclose hnumber,
          Builder.withShared_nesting, hbracket]
        cases hscopes : b.nesting with
        | nil =>
            rw [hscopes, ← Bracket.balanced_iff] at hnesting
            exact Or.inr ⟨_, _, rfl, .unopened hbracket hnesting, by simp⟩
        | cons s outer =>
            dsimp only
            by_cases htitle : s.descriptor.title = d.title
            · rw [if_pos htitle]
              refine Or.inl ⟨_, rfl, (hb.withShared text number).closed d number, hcoded, ?_⟩
              simp [hscopes, SameTitle, htitle]
            · rw [if_neg htitle]
              rw [hscopes] at hnesting
              -- The top of the stack is the last scope behind which the word is balanced.
              obtain ⟨u, v, hsplit, -, hv⟩ := Bracket.remaining_eq_cons_iff.mp hnesting
              refine Or.inr ⟨_, _, rfl, .mismatch hbracket hsplit hv htitle, ?_⟩
              simp [SameTitle, htitle]
      · refine Or.inl ⟨_, Builder.feedToken_run_leaf hb hopen hclose text hnumber,
          hb.withLeaf d text number, hcoded, ?_⟩
        have hnone : bracket? line number = none := by
          rw [hbracket]
          split
          · exact absurd ‹_› hopen
          · exact absurd ‹_› hclose
          · rfl
        rw [hnone]
        simp

/-- A legal stream is read to its end, and its open scopes are then the nesting. -/
theorem feedAll_run_of_legal {lines : List Text} (h : Legal lines) :
    ∃ b, (Builder.feedAll lines 1).run {} = .ok () b ∧ b.Sound ∧
      Bracket.remaining SameTitle [] (brackets lines) = some b.nesting := by
  -- Each line is read in the state that those before it have led to.
  induction lines using List.reverseRecOn with
  | nil => exact ⟨{}, rfl, .empty, rfl⟩
  | append_singleton lines line ih =>
      obtain ⟨b, hrun, hb, hnesting⟩ := ih h.of_append
      have hnumber : (1 : Int) + lines.length = lines.length + 1 := Int.add_comm _ _
      rcases feed_run_cases hb hnesting line (lines.length + 1) (by omega) with
        ⟨b', hfeed, hb', -, hword⟩ | ⟨fault, b', -, -, hillegal⟩
      · refine ⟨b', ?_, hb', ?_⟩
        · rw [Builder.feedAll_append, hrun, hnumber]
          dsimp only
          rw [Builder.feedAll, EStateM.run_bind, hfeed]
          rfl
        · rw [brackets_concat, Bracket.remaining_append, hnesting]
          exact hword
      · exact absurd ((legal_concat_iff h.of_append hnesting).mp h) hillegal

/-- A stream is refused at its first line that no legal stream continues with. -/
theorem feedAll_run_of_illegal {before : List Text} {line : Text} (hbefore : Legal before)
    (hline : ¬ Legal (before ++ [line])) (after : List Text) :
    ∃ fault b, (Builder.feedAll (before ++ line :: after) 1).run {} = .error fault b ∧
      Blames before line (before.length + 1) fault := by
  obtain ⟨b, hrun, hb, hnesting⟩ := feedAll_run_of_legal hbefore
  have hnumber : (1 : Int) + before.length = before.length + 1 := Int.add_comm _ _
  rcases feed_run_cases hb hnesting line (before.length + 1) (by omega) with
    ⟨b', -, -, hcoded, hword⟩ | ⟨fault, b', hfeed, hblame, -⟩
  · refine absurd ((legal_concat_iff hbefore hnesting).mpr ⟨hcoded, ?_⟩) hline
    rw [hword]
    rfl
  · refine ⟨fault, b', ?_, hblame⟩
    rw [Builder.feedAll_append, hrun, hnumber]
    dsimp only
    rw [Builder.feedAll, EStateM.run_bind, hfeed]

/-- A line is to be blamed for one fault only. -/
theorem Blames.unique {before : List Text} {line : Text} {number : Int}
    {fault fault' : StreamFault} (h : Blames before line number fault)
    (h' : Blames before line number fault') : fault = fault' := by
  -- A line with a bracket is coded, and what is open before it is nothing or a known scope.
  cases h with
  | emptyRecord hline =>
      cases h' with
      | emptyRecord => rfl
      | unknownCode hline' => simp [hline] at hline'
      | unopened hbracket => exact absurd (coded_of_bracket hbracket) (not_coded_of_nil hline)
      | mismatch hbracket => exact absurd (coded_of_bracket hbracket) (not_coded_of_nil hline)
  | unknownCode hline hcomment hunknown =>
      have hcoded := not_coded_of_unknown hline hcomment hunknown
      cases h' with
      | emptyRecord hline' => simp [hline] at hline'
      | unknownCode hline' =>
          rw [hline, List.cons_eq_cons] at hline'
          rw [hline'.1]
      | unopened hbracket => exact absurd (coded_of_bracket hbracket) hcoded
      | mismatch hbracket => exact absurd (coded_of_bracket hbracket) hcoded
  | unopened hbracket hbalanced =>
      cases h' with
      | emptyRecord hline => exact absurd (coded_of_bracket hbracket) (not_coded_of_nil hline)
      | unknownCode hline hcomment hunknown =>
          exact absurd (coded_of_bracket hbracket) (not_coded_of_unknown hline hcomment hunknown)
      | unopened hbracket' =>
          rw [hbracket, Option.some.injEq, Bracket.closing.injEq] at hbracket'
          rw [hbracket']
      | mismatch _ hsplit hinner =>
          rw [hsplit] at hbalanced
          exact absurd hbalanced (Bracket.not_balanced_opening hinner)
  | mismatch hbracket hsplit hinner htitle =>
      cases h' with
      | emptyRecord hline => exact absurd (coded_of_bracket hbracket) (not_coded_of_nil hline)
      | unknownCode hline hcomment hunknown =>
          exact absurd (coded_of_bracket hbracket) (not_coded_of_unknown hline hcomment hunknown)
      | unopened _ hbalanced =>
          rw [hsplit] at hbalanced
          exact absurd hbalanced (Bracket.not_balanced_opening hinner)
      | mismatch hbracket' hsplit' hinner' =>
          rw [hbracket, Option.some.injEq, Bracket.closing.injEq] at hbracket'
          rw [hsplit] at hsplit'
          have houter := Bracket.opening_unique hinner hinner' hsplit'
          rw [houter, List.append_cancel_left_eq, List.cons_eq_cons,
            Bracket.opening.injEq] at hsplit'
          rw [hbracket', hsplit'.1]

theorem exists_ofLines_iff (lines : List Text) :
    (∃ m, Model.ofLines lines = .ok m) ↔ Legal lines := by
  constructor
  · rintro ⟨m, hm⟩
    by_contra hillegal
    obtain ⟨before, line, after, rfl, hbefore, hline⟩ := exists_first_illegal hillegal
    obtain ⟨fault, b, hrun, -⟩ := feedAll_run_of_illegal hbefore hline after
    rw [Model.ofLines, hrun] at hm
    simp at hm
  · intro h
    obtain ⟨b, hrun, -⟩ := feedAll_run_of_legal h
    exact ⟨b.finish, by rw [Model.ofLines, hrun]⟩

/-- **Reading accepts exactly the legal streams, and blames the first line of any other.** The
first line is the last one of the shortest beginning that is not legal. -/
theorem ofLines_legal (lines : List Text) :
    ((∃ m, Model.ofLines lines = .ok m) ↔ Legal lines) ∧
      ∀ fault, Model.ofLines lines = .error fault ↔
        ∃ k line, IsLeast {k | ¬ Legal (lines.take k)} k ∧ lines[k - 1]? = some line ∧
          Blames (lines.take (k - 1)) line k fault := by
  refine ⟨exists_ofLines_iff lines, fun fault => ?_⟩
  by_cases hlegal : Legal lines
  -- no prefix of a legal stream is illegal, so nothing is to blame
  · obtain ⟨m, hm⟩ := (exists_ofLines_iff lines).mpr hlegal
    refine ⟨fun h => by simp [hm] at h, ?_⟩
    rintro ⟨k, line, hleast, -, -⟩
    rw [← List.take_append_drop k lines] at hlegal
    exact absurd hlegal.of_append hleast.1
  · obtain ⟨before, line, after, rfl, hbefore, hline⟩ := exists_first_illegal hlegal
    -- the first line that the stream cannot be legal with is the one at fault
    obtain ⟨first, b, hrun, hblame⟩ := feedAll_run_of_illegal hbefore hline after
    have hleast := isLeast_illegal hbefore hline after
    have hfirst : Model.ofLines (before ++ line :: after) = .error first := by
      rw [Model.ofLines, hrun]
    rw [hfirst, Except.error.injEq]
    constructor
    · rintro rfl
      exact ⟨before.length + 1, line, hleast, by simp, by simpa using hblame⟩
    · rintro ⟨k, line', hleast', hline', hblame'⟩
      obtain rfl := hleast.unique hleast'
      simp only [Nat.add_sub_cancel, List.take_left', List.getElem?_append_right, Nat.le_refl,
        Nat.sub_self, List.getElem?_cons_zero, Option.some.injEq] at hline' hblame'
      subst hline'
      exact hblame.unique (by simpa using hblame')

end Stream

end Yeast
