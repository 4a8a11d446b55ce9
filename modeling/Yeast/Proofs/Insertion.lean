import Yeast.Proofs.Blocks
import Yeast.Proofs.LateMarker
import Yeast.Proofs.Transcript

set_option autoImplicit false

/-! # Inserting a balanced block

Lines that are a balanced stream by themselves can be inserted behind the lines of any stream, and
the lines behind them are read as before. The two readers go on side by side (`Beside`): they have
the same scopes open, of which those begun behind the block stand on higher lines, and they know
of the same content, except that the scopes around the block have what the block has
(`Aligned`).

This shows once at most. A scope around the block that ends without content gets a marker, unless
the block is content of it; but the end of a scope is content of all scopes around it, so only one
such marker can come behind the block (`Model.LateMarker.unique`).
-/

namespace Yeast

/-- The fault of a stream into which lines have been inserted behind the line `behind`. -/
def StreamFault.moved (behind lines : Nat) : StreamFault → StreamFault
  | emptyRecord line => emptyRecord (line + lines)
  | unknownCode line code => unknownCode (line + lines) code
  | unopened line closer => unopened (line + lines) closer
  | mismatch fault =>
    mismatch
      { fault with
        line := fault.line + lines
        openLine := if behind < fault.openLine then fault.openLine + lines else fault.openLine }
  | contentExhausted => contentExhausted
  | entry fault => entry fault

def OpenScope.moved (behind lines : Nat) (s : OpenScope) : OpenScope :=
  if behind < s.line then s.raised lines else s

theorem OpenScope.moved_descriptor (s : OpenScope) (behind lines : Nat) :
    (s.moved behind lines).descriptor = s.descriptor := by
  unfold moved
  split <;> rfl

theorem OpenScope.moved_line (s : OpenScope) (behind lines : Nat) :
    (s.moved behind lines).line = if behind < s.line then s.line + lines else s.line := by
  unfold moved
  split <;> rfl

/-- The entries hold a scope or a text that is not empty. -/
def Model.HasContent (m : Model) : Prop :=
  ∃ e ∈ m.entries, e.kind = .opening ∨ e.kind ≠ .closing ∧ e.text ≠ []

namespace Model

/-- The two models have the same entries behind the given ones, but for the late marker. -/
structure SameBehind (before before' : List Entry) (touched : Prop) (m m' : Model) : Prop where
  /-- There is no more than one late marker. -/
  unique : ∀ p p', m.LateMarker before.length p → m.LateMarker before.length p' → p = p'
  behind : ∃ added added', m.entries = before ++ added ∧ m'.entries = before' ++ added' ∧
    m.AddedAlike before.length touched added added'

end Model

/-- The lines of `block` are read behind `lines` as they are by themselves, and what comes behind
them is read as if they were not there. -/
structure Stream.Insertable (lines block : List Text) (m blockModel : Model) : Prop where
  /-- The block adds its own entries and leaves the open scopes alone. -/
  accepted : Model.ofLines (lines ++ block) = .ok
    { entries := m.entries ++ blockModel.entries.map (Entry.raised m.idCount lines.length)
      openScopes := m.openScopes }
  /-- What is refused without the block is refused with it, for the same reason. -/
  refused : ∀ more fault, Model.ofLines (lines ++ more) = .error fault →
    Model.ofLines (lines ++ (block ++ more)) = .error (fault.moved lines.length block.length)
  /-- What is accepted without the block is accepted with it. -/
  goesOn : ∀ more m₁, Model.ofLines (lines ++ more) = .ok m₁ →
    ∃ m₂, Model.ofLines (lines ++ (block ++ more)) = .ok m₂ ∧
      Model.SameBehind m.entries
        (m.entries ++ blockModel.entries.map (Entry.raised m.idCount lines.length))
        blockModel.HasContent m₁ m₂ ∧
      m₂.openScopes = m₁.openScopes.map (OpenScope.moved lines.length block.length)

namespace Builder

/-! ## The two readings side by side -/

/-- The open scopes of two readings and their marks: those begun behind the block, innermost first,
and below them those around the block, which have its content if `touched` says that there is any. -/
inductive Aligned (behind lines : Nat) (touched : Bool) :
    List OpenScope → List Bool → List OpenScope → List Bool → Prop
  | around {scopes : List OpenScope} {marks : List Bool} : marks.length = scopes.length →
      (∀ s ∈ scopes, s.line ≤ behind) →
      Aligned behind lines touched scopes marks scopes (marks.map (· || touched))
  | behind {s : OpenScope} {scopes scopes' : List OpenScope} {marks marks' : List Bool}
      (mark : Bool) : behind < s.line → Aligned behind lines touched scopes marks scopes' marks' →
      Aligned behind lines touched (s :: scopes) (mark :: marks) (s.raised lines :: scopes')
        (mark :: marks')

/-- Both readings have added entries to those before the block and to those behind it, and these
are alike. -/
def GrownAlike (base base' : Builder) (behind : Nat) (touched : Bool) (b b' : Builder) : Prop :=
  ∃ added added', b.entries.toList = base.entries.toList ++ added ∧
    b'.entries.toList = base'.entries.toList ++ added' ∧ (∀ e ∈ added, (behind : Int) < e.line) ∧
    b.finish.AddedAlike base.entries.toList.length touched added added'

/-- The two readings have come to `b` and `b'`, from `base` and from `base'` behind the block. -/
structure Beside (base base' : Builder) (behind lines : Nat) (touched : Bool) (b b' : Builder) :
    Prop where
  reached : b.Reached
  sound : b'.Sound
  aligned : Aligned behind lines touched b.nesting b.content b'.nesting b'.content
  base_line : ∀ e ∈ base.entries.toList, e.line ≤ behind
  entries : GrownAlike base base' behind touched b b'

namespace Aligned

variable {behind lines : Nat} {touched : Bool} {scopes scopes' : List OpenScope}
  {marks marks' : List Bool}

theorem map_true (h : Aligned behind lines touched scopes marks scopes' marks') :
    Aligned behind lines touched scopes (marks.map fun _ => true) scopes'
      (marks'.map fun _ => true) := by
  induction h with
  | @around scopes marks hlength hline =>
      have hmarks : ((marks.map fun _ => true).map (· || touched)) =
          (marks.map (· || touched)).map fun _ => true := by simp
      rw [← hmarks]
      exact .around (by simpa using hlength) hline
  | behind mark hline _ ih => exact .behind true hline ih

theorem nesting_eq (h : Aligned behind lines touched scopes marks scopes' marks') :
    scopes' = scopes.map (OpenScope.moved behind lines) := by
  induction h with
  | @around scopes marks _ hline =>
      have hmoved : ∀ s ∈ scopes, s.moved behind lines = s := by
        intro s hs
        have := hline s hs
        exact if_neg (by omega)
      rw [List.map_congr_left hmoved, List.map_id']
  | behind mark hline _ ih => rw [List.map_cons, ← ih, OpenScope.moved, if_pos hline]

/-- The innermost scopes stand on the line that tells whether the block is in them. -/
theorem head {s : OpenScope} (h : Aligned behind lines touched (s :: scopes) marks scopes' marks') :
    (marks'.headD true = marks.headD true ∧ behind < s.line) ∨
      (marks'.headD true = (marks.headD true || touched) ∧ s.line ≤ behind) := by
  cases h with
  | around hlength hline =>
      have hs := hline s List.mem_cons_self
      cases marks with
      | nil => simp at hlength
      | cons mark marks => exact Or.inr ⟨rfl, hs⟩
  | behind mark hline _ => exact Or.inl ⟨rfl, hline⟩

/-- Where a scope ends, what is below it is aligned again. -/
theorem tail (h : Aligned behind lines touched scopes marks scopes' marks') :
    Aligned behind lines touched scopes.tail marks.tail scopes'.tail marks'.tail := by
  cases h with
  | @around scopes marks hlength hline =>
      rw [← List.map_tail]
      refine .around (by simp [hlength]) fun s hs => hline s (List.mem_of_mem_tail hs)
  | behind mark hline h => exact h

end Aligned

namespace Beside

variable {base base' b b' : Builder} {behind lines : Nat} {touched : Bool}

/-- Both readings go on by entries that are alike. -/
theorem grownAlike_append (h : Beside base base' behind lines touched b b') {c c' : Builder}
    {xs xs' : List Entry} (hc : c.entries.toList = b.entries.toList ++ xs)
    (hc' : c'.entries.toList = b'.entries.toList ++ xs') (hline : ∀ x ∈ xs, (behind : Int) < x.line)
    (hstep : ∀ {added added' : List Entry},
      b.finish.entries.length = base.entries.toList.length + added.length →
      b.finish.AddedAlike base.entries.toList.length touched added added' →
      c.finish.AddedAlike base.entries.toList.length touched (added ++ xs) (added' ++ xs')) :
    GrownAlike base base' behind touched c c' := by
  obtain ⟨added, added', hadded, hadded', hlines, halike⟩ := h.entries
  have hlength : b.finish.entries.length = base.entries.toList.length + added.length := by
    rw [← List.length_append, ← hadded]
    rfl
  refine ⟨added ++ xs, added' ++ xs', ?_, ?_, ?_, hstep hlength halike⟩
  · rw [hc, hadded, List.append_assoc]
  · rw [hc', hadded', List.append_assoc]
  · exact List.forall_mem_append.mpr ⟨hlines, hline⟩

/-- One more entry in both, which is no marker. -/
theorem grownAlike_concat (h : Beside base base' behind lines touched b b') {c c' : Builder}
    {x x' : Entry} (hc : c.entries.toList = b.entries.toList ++ [x])
    (hc' : c'.entries.toList = b'.entries.toList ++ [x']) (hbare : x'.bare = x.bare)
    (hline : (behind : Int) < x.line) :
    GrownAlike base base' behind touched c c' := by
  refine h.grownAlike_append hc hc' (by simpa using hline) fun hlength halike => ?_
  refine halike.append hlength (fun p => ?_) (by simpa using hbare)
  exact Model.lateMarker_concat_iff h.reached.tidy hc

theorem withLeaf (h : Beside base base' behind lines touched b b') {d : Descriptor}
    (hd : d ∈ CodeTable.descriptors) (ho : d.kind ≠ .opening) (hc : d.kind ≠ .closing)
    (text : Text) {line : Int} (hline : behind < line) :
    Beside base base' behind lines touched (b.withLeaf d text line)
      (b'.withLeaf d text (line + lines)) where
  reached := h.reached.move (.leaf hd ho hc (by omega))
  sound := h.sound.withLeaf _ _ _
  aligned := by
    rw [withLeaf_nesting, withLeaf_nesting, withLeaf_content, withLeaf_content]
    split
    · exact h.aligned
    · exact h.aligned.map_true
  base_line := h.base_line
  entries := h.grownAlike_concat (withLeaf_entries b d text line)
    (withLeaf_entries b' d text (line + lines)) rfl hline

theorem opened (h : Beside base base' behind lines touched b b') {d : Descriptor}
    (hd : d ∈ CodeTable.descriptors) (ho : d.kind = .opening) {line : Int}
    (hline : behind < line) :
    Beside base base' behind lines touched (b.opened d line) (b'.opened d (line + lines)) where
  reached := h.reached.move (.opening hd ho (by omega))
  sound := h.sound.opened _ _
  aligned := .behind (s := ⟨line, d⟩) false hline h.aligned
  base_line := h.base_line
  entries := h.grownAlike_concat (opened_entries b d line) (opened_entries b' d (line + lines)) rfl
    hline

theorem withShared (h : Beside base base' behind lines touched b b') (text : Text) {line : Int}
    (hline : behind < line) :
    Beside base base' behind lines touched (b.withShared text line)
      (b'.withShared text (line + lines)) := by
  unfold Builder.withShared
  split
  · exact h
  · exact h.withLeaf (CodeTable.mem_descriptors_of_find? CodeTable.find?_text) (by decide)
      (by decide) text hline

theorem length_le (h : Beside base base' behind lines touched b b') :
    base.entries.toList.length ≤ b.entries.toList.length := by
  obtain ⟨added, added', hadded, -⟩ := h.entries
  rw [hadded, List.length_append]
  omega

/-- The scopes around the block are those that begin on the lines before it. -/
theorem lt_length_iff (h : Beside base base' behind lines touched b b')
    {before inner : List Entry} {o : Entry} (hentries : b.entries.toList = before ++ o :: inner) :
    before.length < base.entries.toList.length ↔ o.line ≤ behind := by
  obtain ⟨added, added', hadded, -, hlines, -⟩ := h.entries
  have ho : (base.entries.toList ++ added)[before.length]? = some o := by
    rw [← hadded, hentries]
    simp
  constructor
  · intro hlt
    rw [List.getElem?_append_left hlt] at ho
    exact h.base_line o (List.mem_of_getElem? ho)
  · intro hline
    by_contra hge
    rw [List.getElem?_append_right (by omega)] at ho
    have := hlines o (List.mem_of_getElem? ho)
    omega

/-- Behind a late marker the scope around it has content. -/
theorem not_lateMarker (h : Beside base base' behind lines touched b b')
    {before inner : List Entry} {o : Entry} (hentries : b.entries.toList = before ++ o :: inner)
    (ho : o.line ≤ behind) (hcontent : inner.any Entry.isContent = false) (p : Nat) :
    ¬ b.finish.LateMarker base.entries.toList.length p := by
  intro hp
  have hlt := (h.lt_length_iff hentries).mpr ho
  obtain ⟨hn, -, i, -, hi⟩ := hp
  obtain ⟨c, hc, hkind⟩ := hi.exists_closing
  have hc : (before ++ o :: inner)[p + 1]? = some c := by
    rw [← hentries]
    exact hc
  rw [List.getElem?_append_right (by omega),
    show p + 1 - before.length = (p - before.length) + 1 by omega, List.getElem?_cons_succ] at hc
  have hnot := List.any_eq_false.mp hcontent c (List.mem_of_getElem? hc)
  exact hnot (by simp [Entry.isContent, hkind])

/-- The marker of the scope that ends is a late one if the scope is around the block. -/
theorem lateMarker_closed_iff (h : Beside base base' behind lines touched b b') {d : Descriptor}
    (hc : d.kind = .closing) {line : Int} (hempty : b.content.headD true = false)
    {before inner : List Entry} {o : Entry} (hentries : b.entries.toList = before ++ o :: inner)
    (ho : o.kind = .opening) (hinner : Entry.Balanced inner) (p : Nat) :
    (b.closed d line).finish.LateMarker base.entries.toList.length p ↔
      b.finish.LateMarker base.entries.toList.length p ∨
        p = b.entries.toList.length ∧ o.line ≤ behind := by
  have hadded := closed_entries b d line
  rw [hempty, if_neg (by decide), List.append_assoc] at hadded
  rw [← h.lt_length_iff hentries]
  exact Model.lateMarker_ended_iff h.reached.tidy hentries ho hinner rfl (marker_kind b line) hc
    h.length_le hadded

/-- A scope that ends without a mark gets a marker, unless it is around the block and has the
content of the block. -/
theorem grownAlike_closed (h : Beside base base' behind lines touched b b') {d : Descriptor}
    (hc : d.kind = .closing) {line : Int} (hline : behind < line) {s : OpenScope}
    {outer : List OpenScope} (hnesting : b.nesting = s :: outer)
    (hempty : b.content.headD true = false) :
    GrownAlike base base' behind touched (b.closed d line) (b'.closed d (line + lines)) := by
  obtain ⟨before, o, inner, hentries, ho, rfl, hinner⟩ := h.reached.innermost hnesting
  have hcontent : inner.any Entry.isContent = false := by
    rw [← hempty, h.reached.content_eq, hentries, Entry.headD_marksFrom ho hinner]
  have hadded := closed_entries b d line
  rw [hempty, if_neg (by decide), List.append_assoc] at hadded
  have hadded' := closed_entries b' d (line + lines)
  have hlines : ∀ x ∈ [b.marker line] ++ [⟨d, [], none, line, false⟩], (behind : Int) < x.line := by
    simp [marker, hline]
  have hlate : ∀ p, (b.closed d line).finish.LateMarker base.entries.toList.length p ↔
      b.finish.LateMarker base.entries.toList.length p ∨
        p = b.entries.toList.length ∧ o.line ≤ behind :=
    h.lateMarker_closed_iff hc hempty hentries ho hinner
  have hhead := h.aligned
  rw [hnesting] at hhead
  rcases hhead.head with ⟨hmark, hbehind⟩ | ⟨hmark, haround⟩
  · -- The scope begins behind the block: both readings add the marker, and it is no late one.
    rw [hmark, hempty, if_neg (by decide), List.append_assoc] at hadded'
    refine h.grownAlike_append hadded hadded' hlines fun hlength halike => ?_
    refine halike.append hlength (fun p => ?_) rfl
    rw [hlate p]
    exact or_iff_left fun hended => absurd hended.2 (Int.not_le.mpr hbehind)
  · rw [hmark, hempty, Bool.false_or] at hadded'
    cases touched with
    | false =>
        -- The late marker is added in both, since the block is no content.
        rw [if_neg (by decide), List.append_assoc] at hadded'
        exact h.grownAlike_append hadded hadded' hlines fun _ halike =>
          halike.append_of_not_touched (by decide) rfl
    | true =>
        -- The late marker is missing behind the block, and there has been none before it.
        rw [if_pos rfl, List.append_nil] at hadded'
        have hnone := h.not_lateMarker hentries haround hcontent
        refine h.grownAlike_append hadded hadded' hlines fun hlength halike => ?_
        refine halike.ended hlength hnone (fun p => ?_) (b.marker line) rfl rfl
        rw [hlate p]
        constructor
        · rintro (hp | ⟨hp, -⟩)
          · exact absurd hp (hnone p)
          · exact hp
        · intro hp
          exact Or.inr ⟨hp, haround⟩

theorem closed (h : Beside base base' behind lines touched b b') {d : Descriptor}
    (hd : d ∈ CodeTable.descriptors) (hc : d.kind = .closing) {line : Int} (hline : behind < line)
    {s : OpenScope} {outer : List OpenScope} (hnesting : b.nesting = s :: outer)
    (htitle : s.descriptor.title = d.title) :
    Beside base base' behind lines touched (b.closed d line) (b'.closed d (line + lines)) where
  reached := h.reached.move (.closing hd hc (by omega) hnesting htitle)
  sound := h.sound.closed _ _
  aligned := by
    rw [closed_nesting, closed_nesting, closed_content, closed_content]
    exact h.aligned.tail.map_true
  base_line := h.base_line
  entries := by
    cases hempty : b.content.headD true with
    | false => exact h.grownAlike_closed hc hline hnesting hempty
    | true =>
        -- What has content in the one reading has it in the other.
        have hhead := h.aligned
        rw [hnesting] at hhead
        have hempty' : b'.content.headD true = true := by
          rcases hhead.head with ⟨hmark, -⟩ | ⟨hmark, -⟩
          · rw [hmark, hempty]
          · rw [hmark, hempty, Bool.true_or]
        have hadded := closed_entries b d line
        have hadded' := closed_entries b' d (line + lines)
        rw [hempty, if_pos rfl, List.append_nil] at hadded
        rw [hempty', if_pos rfl, List.append_nil] at hadded'
        exact h.grownAlike_concat hadded hadded' rfl hline

end Beside

/-! ## Reading on -/

/-- Two results of reading on: both readings are still side by side, or have met the same fault. -/
inductive SideBySide (base base' : Builder) (behind lines : Nat) (touched : Bool) :
    EStateM.Result StreamFault Builder Unit → EStateM.Result StreamFault Builder Unit → Prop
  | ok {c c' : Builder} : Beside base base' behind lines touched c c' →
      SideBySide base base' behind lines touched (.ok () c) (.ok () c')
  | error (fault : StreamFault) (c c' : Builder) :
      SideBySide base base' behind lines touched (.error fault c)
        (.error (fault.moved behind lines) c')

namespace SideBySide

variable {base base' c : Builder} {behind lines : Nat} {touched : Bool} {fault : StreamFault}
  {result : EStateM.Result StreamFault Builder Unit}

theorem of_ok (h : SideBySide base base' behind lines touched (.ok () c) result) :
    ∃ c', result = .ok () c' ∧ Beside base base' behind lines touched c c' := by
  cases h with
  | ok hbeside => exact ⟨_, rfl, hbeside⟩

theorem of_error (h : SideBySide base base' behind lines touched (.error fault c) result) :
    ∃ c', result = .error (fault.moved behind lines) c' := by
  cases h with
  | error _ _ c' => exact ⟨c', rfl⟩

end SideBySide

/-- A mismatch names the moved scope by its moved line. -/
theorem mismatch_moved (d : Descriptor) (line : Int) (s : OpenScope) (behind lines : Nat) :
    mismatch d (line + lines) (s.moved behind lines) = (mismatch d line s).moved behind lines := by
  simp only [mismatch, StreamFault.moved, OpenScope.moved_descriptor, OpenScope.moved_line]

namespace Beside

variable {base base' b b' : Builder} {behind lines : Nat} {touched : Bool}

/-- A closing code finds a scope of the same title in both readings. -/
theorem closeScope (h : Beside base base' behind lines touched b b') {d : Descriptor}
    (hd : d ∈ CodeTable.descriptors) (hc : d.kind = .closing) {line : Int} (hline : behind < line) :
    SideBySide base base' behind lines touched ((Builder.closeScope d line).run b)
      ((Builder.closeScope d (line + lines)).run b') := by
  have hnesting' := h.aligned.nesting_eq
  rw [closeScope_run h.reached.sound hc (by omega), closeScope_run h.sound hc (by omega)]
  cases hnesting : b.nesting with
  | nil =>
      rw [hnesting, List.map_nil] at hnesting'
      rw [hnesting']
      exact .error (.unopened line d) b b'
  | cons s outer =>
      rw [hnesting, List.map_cons] at hnesting'
      rw [hnesting']
      simp only [OpenScope.moved_descriptor]
      by_cases htitle : s.descriptor.title = d.title
      · rw [if_pos htitle, if_pos htitle]
        exact .ok (h.closed hd hc hline hnesting htitle)
      · rw [if_neg htitle, if_neg htitle]
        rw [mismatch_moved]
        exact .error _ _ _

/-- Both readings take the same line in the same way. -/
theorem feed (h : Beside base base' behind lines touched b b') (line : Text) {number : Int}
    (hnumber : behind < number) :
    SideBySide base base' behind lines touched ((Builder.feed line number).run b)
      ((Builder.feed line (number + lines)).run b') := by
  have hpos : 1 ≤ number := by omega
  have hpos' : 1 ≤ number + lines := by omega
  rw [feed_eq, feed_eq]
  -- a record that is not a token is treated alike in every state
  cases hreading : line.reading with
  | blank => exact .error (.emptyRecord number) b b'
  | comment => exact .ok h
  | unknown code => exact .error (.unknownCode number [code]) b b'
  | token d text =>
      have hd := mem_descriptors_of_reading hreading
      dsimp only
      by_cases hopen : d.kind = .opening
      · rw [feedToken_run_opening h.reached.sound hopen text hpos,
          feedToken_run_opening h.sound hopen text hpos']
        exact .ok ((h.opened hd hopen hnumber).withShared text hnumber)
      by_cases hclose : d.kind = .closing
      · rw [feedToken_run_closing h.reached.sound hclose text hpos,
          feedToken_run_closing h.sound hclose text hpos']
        exact (h.withShared text hnumber).closeScope hd hclose hnumber
      · rw [feedToken_run_leaf h.reached.sound hopen hclose text hpos,
          feedToken_run_leaf h.sound hopen hclose text hpos']
        exact .ok (h.withLeaf hd hopen hclose text hnumber)

/-- **Both readings take the lines behind the block in the same way.** -/
theorem feedAll (h : Beside base base' behind lines touched b b') (more : List Text) {number : Int}
    (hnumber : behind < number) :
    SideBySide base base' behind lines touched ((Builder.feedAll more number).run b)
      ((Builder.feedAll more (number + lines)).run b') := by
  induction more generalizing b b' number with
  | nil => exact .ok h
  | cons line more ih =>
      have hstep := h.feed line hnumber
      have hnext : number + lines + 1 = number + 1 + lines := by omega
      rw [Builder.feedAll, Builder.feedAll, EStateM.run_bind, EStateM.run_bind]
      cases hline : (Builder.feed line number).run b with
      | ok _ c =>
          rw [hline] at hstep
          obtain ⟨c', hline', hc⟩ := hstep.of_ok
          rw [hline']
          dsimp only
          rw [hnext]
          exact ih hc (by omega)
      | error fault c =>
          rw [hline] at hstep
          obtain ⟨c', hline'⟩ := hstep.of_error
          rw [hline']
          exact .error fault c c'

end Beside

end Builder

/-! ## Content of a block -/

/-- What a balanced model has makes it content of the scopes around. -/
theorem Model.any_isContent_iff {m : Model} (h : Entry.Balanced m.entries) :
    m.entries.any Entry.isContent = true ↔ m.HasContent := by
  constructor
  · intro hcontent
    obtain ⟨before, e, after, hentries, -, he⟩ := Entry.exists_direct_content h hcontent
    exact ⟨e, by rw [hentries]; simp, he⟩
  · rintro ⟨e, he, hkind⟩
    by_contra hcontent
    obtain ⟨hopen, -, htext⟩ :=
      Entry.forall_leaf_of_not_content h (Bool.eq_false_iff.mpr hcontent) e he
    rcases hkind with hkind | ⟨-, hne⟩
    · exact hopen hkind
    · exact hne htext

/-! ## Insertion -/

namespace Builder

/-- A block that leaves no scope open leaves those around it, with its content. -/
theorem Stacked.aligned {base b c : Builder} {ids behind lines : Nat}
    (h : Stacked base ids behind b c) (hbase : base.Sound) (hb : b.Sound)
    (hnesting : b.nesting = []) (hline : ∀ s ∈ base.nesting, s.line ≤ behind) :
    Aligned behind lines (b.entries.toList.any Entry.isContent) base.nesting base.content c.nesting
      c.content := by
  have hcontent : b.content = [] := by
    rw [← List.length_eq_zero_iff, hb.length_content, hnesting, List.length_nil]
  rw [h.nesting, h.content, hnesting, hcontent]
  exact .around hbase.length_content hline

end Builder

namespace Stream

open Builder

/-- The two readings are side by side behind the block. -/
theorem exists_beside {lines block : List Text} {a b : Builder}
    (ha : (feedAll lines 1).run {} = .ok () a) (hb : (feedAll block 1).run {} = .ok () b)
    (hopen : b.nesting = []) :
    ∃ c, (feedAll block (1 + lines.length)).run a = .ok () c ∧
      Stacked a a.finish.idCount lines.length b c ∧
      Beside a c lines.length block.length (b.entries.toList.any Entry.isContent) a c := by
  have hreached : a.Reached := Reached.feedAll (by omega) .empty ha
  have hreached' : b.Reached := Reached.feedAll (by omega) .empty hb
  have hof : Model.ofLines lines = .ok a.finish := by rw [Model.ofLines, ha]
  obtain ⟨c, hc, hstacked⟩ := exists_stacked lines hreached hb
  refine ⟨c, hc, hstacked, ?_⟩
  have hscopes : ∀ s ∈ a.nesting, s.line ≤ lines.length := fun s hs =>
    Model.line_le_of_mem_openScopes hof s (List.mem_reverse.mpr hs)
  exact {
    reached := hreached
    sound := (Reached.feedAll (by omega) hreached hc).sound
    aligned := hstacked.aligned hreached.sound hreached'.sound hopen hscopes
    base_line := Model.line_le_of_ofLines hof
    entries := ⟨[], [], by simp, by simp, by simp, .nil (Nat.le_refl _)⟩ }

/-- Lines behind the block are read from the state behind it. -/
theorem ofLines_append_block {lines block : List Text} {a c : Builder}
    (ha : (feedAll lines 1).run {} = .ok () a)
    (hc : (feedAll block (1 + lines.length)).run a = .ok () c) (more : List Text) :
    Model.ofLines (lines ++ (block ++ more)) =
      outcome ((feedAll more (1 + lines.length + block.length)).run c) := by
  simp only [ofLines_append ha, feedAll_append, hc]

end Stream

namespace Builder

/-- What is left where both readings have ended well. -/
theorem Beside.sameBehind {base base' b b' : Builder} {behind lines : Nat} {touched : Bool}
    (h : Beside base base' behind lines touched b b') {read : List Text}
    (hread : Model.ofLines read = .ok b.finish) {around : Prop}
    (htouched : touched = true ↔ around) :
    Model.SameBehind base.finish.entries base'.finish.entries around b.finish b'.finish where
  unique := fun _ _ hp hp' => Model.LateMarker.unique hread hp hp'
  behind := by
    obtain ⟨added, added', hadded, hadded', -, halike⟩ := h.entries
    rw [propext htouched] at halike
    exact ⟨added, added', hadded, hadded', halike⟩

end Builder

namespace Stream

open Builder

/-- **A balanced block can be inserted behind any lines of a stream.** -/
theorem insertable_of_ofLines {lines block : List Text} {m blockModel : Model}
    (h : Model.ofLines lines = .ok m) (hblock : Model.ofLines block = .ok blockModel)
    (hopen : blockModel.openScopes = []) : Insertable lines block m blockModel := by
  obtain ⟨a, ha, -, rfl⟩ := exists_run_of_ofLines h
  obtain ⟨b, hb, hreached, rfl⟩ := exists_run_of_ofLines hblock
  have hnesting : b.nesting = [] := List.reverse_eq_nil_iff.mp hopen
  obtain ⟨c, hc, hstacked, hbeside⟩ := exists_beside ha hb hnesting
  have hentries : c.finish.entries = a.finish.entries ++
      b.finish.entries.map (Entry.raised a.finish.idCount lines.length) := hstacked.entries
  have hscopes : c.nesting = a.nesting := by
    rw [hstacked.nesting, hnesting, List.map_nil, List.nil_append]
  -- whether the block has content can be read off its entries, since it is balanced
  have htouched : b.entries.toList.any Entry.isContent = true ↔ b.finish.HasContent := by
    obtain ⟨openers, hword, hopeners⟩ := hreached.nesting_eq
    rw [hnesting] at hopeners
    rw [List.map_eq_nil_iff.mp hopeners.symm] at hword
    exact Model.any_isContent_iff (m := b.finish) (Bracket.balanced_iff.mpr hword)
  have hmore : ∀ more, SideBySide a c lines.length block.length
      (b.entries.toList.any Entry.isContent) ((feedAll more (1 + lines.length)).run a)
      ((feedAll more (1 + lines.length + block.length)).run c) :=
    fun more => hbeside.feedAll more (by omega)
  refine ⟨?_, fun more fault herror => ?_, fun more m₁ hread => ?_⟩
  -- nothing behind the block
  · have hend : c.finish = ⟨c.finish.entries, c.nesting.reverse⟩ := rfl
    rw [ofLines_append ha, hc, outcome, hend, hentries, hscopes]
    rfl
  -- lines behind it that are refused
  · rw [ofLines_append ha] at herror
    obtain ⟨d, hrun⟩ := outcome_eq_error_iff.mp herror
    have hsides := hmore more
    rw [hrun] at hsides
    rw [ofLines_append_block ha hc]
    exact outcome_eq_error_iff.mpr hsides.of_error
  -- lines behind it that are accepted
  · have hread' := hread
    rw [ofLines_append ha] at hread'
    obtain ⟨d, hrun, rfl⟩ := outcome_eq_ok_iff.mp hread'
    have hsides := hmore more
    rw [hrun] at hsides
    obtain ⟨d', hrun', hd⟩ := hsides.of_ok
    refine ⟨d'.finish, ?_, ?_, ?_⟩
    · rw [ofLines_append_block ha hc]
      exact outcome_eq_ok_iff.mpr ⟨d', hrun', rfl⟩
    · rw [← hentries]
      exact hd.sameBehind hread htouched
    · show d'.nesting.reverse = d.nesting.reverse.map _
      rw [hd.aligned.nesting_eq, List.map_reverse]

/-- Behind a mapping that is left open and has no content yet, a scalar with a text. -/
theorem insertable_mapping :
    let lines : List Text := ["#by hand".toList, "M".toList]
    let block : List Text := ["S".toList, "Tb".toList, "s".toList]
    let opening : OpenScope := ⟨2, ⟨'M', .opening, "Mapping".toList⟩⟩
    let m : Model :=
      { entries := [⟨opening.descriptor, [], some 1, 2, false⟩], openScopes := [opening] }
    let blockModel : Model :=
      { entries :=
          [ ⟨⟨'S', .opening, "Scalar".toList⟩, [], some 1, 1, false⟩,
            ⟨CodeTable.text, ['b'], some 2, 2, false⟩,
            ⟨⟨'s', .closing, "Scalar".toList⟩, [], none, 3, false⟩ ] }
    Model.ofLines lines = .ok m ∧ Model.ofLines block = .ok blockModel ∧
      blockModel.openScopes = [] ∧ Stream.Insertable lines block m blockModel := by
  intro lines block opening m blockModel
  have h : Model.ofLines lines = .ok m := ofLines_eq_ok_of_toOption (by decide +kernel)
  have hblock : Model.ofLines block = .ok blockModel :=
    ofLines_eq_ok_of_toOption (by decide +kernel)
  exact ⟨h, hblock, rfl, insertable_of_ofLines h hblock rfl⟩

end Stream

end Yeast
