import Mathlib.Tactic.Common
import Yeast.Model.Builder

set_option autoImplicit false

/-! # The moves of a builder

What each operation of a builder does, as a function of the state (`written`, `opened`,
`closed`, ...), and a lemma for each that says so. They hold of *sound* states: as many marks as
open scopes, and a positive next id. From then on no operation needs to be unfolded: a record is
refused with a known fault and state, or leads to a known state (`feedToken_run_opening`,
`feedToken_run_closing`, `feedToken_run_leaf`).

A record that is accepted makes at most two *moves*: it opens a scope, closes one, or adds a leaf.
Whatever holds of the empty builder and is kept by each move holds behind every stream that is
accepted (`reached_of_ofLines`).
-/

namespace Yeast

inductive Reading where
  | blank
  | comment
  | unknown (code : Char)
  | token (d : Descriptor) (text : Text)

/-- A line without its terminator holds nothing, a comment, a code that is not in the table, or a
token with its text. -/
def Text.reading (line : Text) : Reading :=
  match line.withoutTerminator with
  | [] => .blank
  | code :: rest =>
    if code = CodeTable.comment then .comment
    else
      match CodeTable.find? code with
      | some d => .token d (d.shownText rest)
      | none => .unknown code

namespace Builder

/-- As many marks as open scopes, and a positive next id. -/
structure Sound (b : Builder) : Prop where
  length_content : b.content.length = b.nesting.length
  nextId_pos : 1 ≤ b.nextId

/-! ## The states that operations lead to -/

/-- Behind an entry with the next id. -/
def written (b : Builder) (d : Descriptor) (text : Text) (line : Int) (synthetic : Bool) :
    Builder :=
  { b with
    entries := b.entries.push ⟨d, text, some b.nextId, line, synthetic⟩
    nextId := b.nextId + 1 }

def marked (b : Builder) : Builder := { b with content := b.content.map fun _ => true }

def withLeaf (b : Builder) (d : Descriptor) (text : Text) (line : Int) : Builder :=
  if text.isEmpty then b.written d text line false else (b.written d text line false).marked

/-- Behind the text that shares a record with a code. -/
def withShared (b : Builder) (text : Text) (line : Int) : Builder :=
  if text.isEmpty then b else b.withLeaf CodeTable.text text line

def opened (b : Builder) (d : Descriptor) (line : Int) : Builder :=
  written { b with nesting := ⟨line, d⟩ :: b.nesting, content := false :: b.content }
    d [] line false

/-- With the innermost scope left, but not yet ended by an entry. -/
def left (b : Builder) (line : Int) : Builder :=
  let outer := { b with content := b.content.tail }
  let shown := if b.content.headD true then outer
    else outer.written CodeTable.empty [Placeholder.empty] line true
  { shown.marked with nesting := b.nesting.tail }

def closed (b : Builder) (d : Descriptor) (line : Int) : Builder :=
  { b.left line with entries := (b.left line).entries.push ⟨d, [], none, line, false⟩ }

@[simp]
theorem withLeaf_nesting (b : Builder) (d : Descriptor) (text : Text) (line : Int) :
    (b.withLeaf d text line).nesting = b.nesting := by
  unfold withLeaf
  split <;> rfl

@[simp]
theorem withShared_nesting (b : Builder) (text : Text) (line : Int) :
    (b.withShared text line).nesting = b.nesting := by
  unfold withShared
  split <;> simp

@[simp]
theorem opened_nesting (b : Builder) (d : Descriptor) (line : Int) :
    (b.opened d line).nesting = ⟨line, d⟩ :: b.nesting := rfl

@[simp]
theorem closed_nesting (b : Builder) (d : Descriptor) (line : Int) :
    (b.closed d line).nesting = b.nesting.tail := rfl

theorem withLeaf_entries (b : Builder) (d : Descriptor) (text : Text) (line : Int) :
    (b.withLeaf d text line).entries.toList =
      b.entries.toList ++ [⟨d, text, some b.nextId, line, false⟩] := by
  unfold withLeaf
  split <;> simp [marked, written]

theorem opened_entries (b : Builder) (d : Descriptor) (line : Int) :
    (b.opened d line).entries.toList =
      b.entries.toList ++ [⟨d, [], some b.nextId, line, false⟩] := by
  simp [opened, written]

/-- The marker that a scope gets when it is left without content. -/
def marker (b : Builder) (line : Int) : Entry :=
  ⟨CodeTable.empty, [Placeholder.empty], some b.nextId, line, true⟩

theorem closed_entries (b : Builder) (d : Descriptor) (line : Int) :
    (b.closed d line).entries.toList = b.entries.toList ++
      (if b.content.headD true then [] else [b.marker line]) ++ [⟨d, [], none, line, false⟩] := by
  simp only [closed, left]
  split <;> simp [marked, written, marker]

theorem withLeaf_content (b : Builder) (d : Descriptor) (text : Text) (line : Int) :
    (b.withLeaf d text line).content =
      if text.isEmpty then b.content else b.content.map fun _ => true := by
  unfold withLeaf
  split <;> rfl

@[simp]
theorem opened_content (b : Builder) (d : Descriptor) (line : Int) :
    (b.opened d line).content = false :: b.content := rfl

@[simp]
theorem closed_content (b : Builder) (d : Descriptor) (line : Int) :
    (b.closed d line).content = b.content.tail.map fun _ => true := by
  simp only [closed, left]
  split <;> rfl

/-! ## Soundness is kept -/

namespace Sound

theorem empty : Sound {} := ⟨rfl, by decide⟩

theorem written {b : Builder} (h : b.Sound) (d : Descriptor) (text : Text) (line : Int)
    (synthetic : Bool) : (b.written d text line synthetic).Sound := by
  refine ⟨h.length_content, ?_⟩
  have := h.nextId_pos
  show 1 ≤ b.nextId + 1
  omega

theorem marked {b : Builder} (h : b.Sound) : b.marked.Sound := by
  refine ⟨?_, h.nextId_pos⟩
  rw [Builder.marked, List.length_map, h.length_content]

theorem withLeaf {b : Builder} (h : b.Sound) (d : Descriptor) (text : Text) (line : Int) :
    (b.withLeaf d text line).Sound := by
  unfold Builder.withLeaf
  split
  · exact h.written d text line false
  · exact (h.written d text line false).marked

theorem withShared {b : Builder} (h : b.Sound) (text : Text) (line : Int) :
    (b.withShared text line).Sound := by
  unfold Builder.withShared
  split
  · exact h
  · exact h.withLeaf _ _ _

theorem opened {b : Builder} (h : b.Sound) (d : Descriptor) (line : Int) :
    (b.opened d line).Sound := by
  have hinner : Sound { b with nesting := ⟨line, d⟩ :: b.nesting, content := false :: b.content } :=
    ⟨by simp [h.length_content], h.nextId_pos⟩
  exact hinner.written d [] line false

theorem left {b : Builder} (h : b.Sound) (line : Int) : (b.left line).Sound := by
  have hlen := h.length_content
  have hpos := h.nextId_pos
  constructor
  · simp only [Builder.left]
    split <;> simp [Builder.marked, Builder.written, hlen]
  · simp only [Builder.left]
    split
    · exact hpos
    · show 1 ≤ b.nextId + 1
      omega

theorem closed {b : Builder} (h : b.Sound) (d : Descriptor) (line : Int) :
    (b.closed d line).Sound :=
  ⟨(h.left line).length_content, (h.left line).nextId_pos⟩

end Sound

/-! ## The operations lead there -/

theorem push_run {e : Entry} (h : e.fault? = none) (b : Builder) :
    (push e).run b = .ok () { b with entries := b.entries.push e } := by
  have hcheck : e.check = .ok e := Entry.check_eq_ok_iff.mpr ⟨h, rfl⟩
  simp [push, hcheck]

theorem append_run {b : Builder} (hpos : 1 ≤ b.nextId) {d : Descriptor} (hd : d.kind ≠ .closing)
    (text : Text) {line : Int} (hline : 1 ≤ line) (synthetic : Bool) :
    (append d text line synthetic).run b = .ok () (b.written d text line synthetic) := by
  have hvalid : Entry.fault? ⟨d, text, some b.nextId, line, synthetic⟩ = none := by
    simp only [Entry.fault?]
    rw [if_neg (by omega), if_neg hd, if_neg (by omega)]
  simp [append, push_run hvalid, written]

theorem markContent_run (b : Builder) : markContent.run b = .ok () b.marked := rfl

theorem appendText_run {b : Builder} (hb : b.Sound) {d : Descriptor} (hd : d.kind ≠ .closing)
    (text : Text) {line : Int} (hline : 1 ≤ line) :
    (appendText d text line).run b = .ok () (b.withLeaf d text line) := by
  rw [appendText, EStateM.run_bind, append_run hb.nextId_pos hd text hline, withLeaf]
  cases text with
  | nil => rfl
  | cons c text => rfl

theorem appendSharedText_run {b : Builder} (hb : b.Sound) (text : Text) {line : Int}
    (hline : 1 ≤ line) :
    (appendSharedText text line).run b = .ok () (b.withShared text line) := by
  cases text with
  | nil => rfl
  | cons c text => exact appendText_run hb (by decide) _ hline

theorem openScope_run {b : Builder} (hb : b.Sound) {d : Descriptor} (hd : d.kind = .opening)
    {line : Int} (hline : 1 ≤ line) :
    (openScope d line).run b = .ok () (b.opened d line) := by
  have hpos : 1 ≤ Builder.nextId
      { b with nesting := ⟨line, d⟩ :: b.nesting, content := false :: b.content } := hb.nextId_pos
  rw [openScope, EStateM.run_bind]
  simp only [EStateM.run_modify]
  exact append_run hpos (by rw [hd]; decide) [] hline false

/-- The fault of a closing code that meets the scope `s`. -/
def mismatch (d : Descriptor) (line : Int) (s : OpenScope) : StreamFault :=
  .mismatch
    { line
      code := [d.code]
      title := d.title
      openLine := s.line
      openCode := [s.descriptor.code]
      openTitle := s.descriptor.title }

/-- A closing code ends the innermost scope if it has the title of the code. Otherwise the scope
is left all the same. -/
theorem closeScope_run {b : Builder} (hb : b.Sound) {d : Descriptor} (hd : d.kind = .closing)
    {line : Int} (hline : 1 ≤ line) :
    (closeScope d line).run b =
      match b.nesting with
      | [] => .error (.unopened line d) b
      | s :: _ =>
        if s.descriptor.title = d.title then .ok () (b.closed d line)
        else .error (mismatch d line s) (b.left line) := by
  obtain ⟨nesting, content, entries, nextId⟩ := b
  have hlen : content.length = nesting.length := hb.length_content
  cases nesting with
  | nil => simp [closeScope]
  | cons s nesting =>
      cases content with
      | nil => simp at hlen
      | cons mark content =>
          have hvalid : Entry.fault? ⟨d, [], none, line, false⟩ = none := by
            simp only [Entry.fault?]
            rw [if_neg (by omega), if_pos hd]
            rfl
          -- The marks are one short of the scopes here, but writing does not look at them.
          have hmarker : (append CodeTable.empty [Placeholder.empty] line true).run
              ⟨s :: nesting, content, entries, nextId⟩ = .ok ()
                (written ⟨s :: nesting, content, entries, nextId⟩ CodeTable.empty
                  [Placeholder.empty] line true) := by
            have hpos : 1 ≤ Builder.nextId ⟨s :: nesting, content, entries, nextId⟩ :=
              hb.nextId_pos
            refine append_run hpos ?_ _ hline true
            decide
          cases mark with
          | true =>
              by_cases htitle : s.descriptor.title = d.title
              · simp [closeScope, popContent, htitle, markContent_run, push_run hvalid, closed,
                  left, marked]
              · simp [closeScope, popContent, htitle, markContent_run, mismatch, left, marked]
          | false =>
              by_cases htitle : s.descriptor.title = d.title
              · simp [closeScope, popContent, htitle, hmarker, markContent_run, push_run hvalid,
                  closed, left, marked, written]
              · simp [closeScope, popContent, htitle, hmarker, markContent_run, mismatch, left,
                  marked, written]

/-! ## Reading a record -/

theorem feedToken_run_opening {b : Builder} (hb : b.Sound) {d : Descriptor}
    (hd : d.kind = .opening) (text : Text) {line : Int} (hline : 1 ≤ line) :
    (feedToken d text line).run b = .ok () ((b.opened d line).withShared text line) := by
  simp only [feedToken, hd]
  rw [EStateM.run_bind, openScope_run hb hd hline]
  exact appendSharedText_run (hb.opened d line) text hline

theorem feedToken_run_closing {b : Builder} (hb : b.Sound) {d : Descriptor}
    (hd : d.kind = .closing) (text : Text) {line : Int} (hline : 1 ≤ line) :
    (feedToken d text line).run b = (closeScope d line).run (b.withShared text line) := by
  simp only [feedToken, hd]
  rw [EStateM.run_bind, appendSharedText_run hb text hline]

theorem feedToken_run_leaf {b : Builder} (hb : b.Sound) {d : Descriptor}
    (ho : d.kind ≠ .opening) (hc : d.kind ≠ .closing) (text : Text) {line : Int}
    (hline : 1 ≤ line) :
    (feedToken d text line).run b = .ok () (b.withLeaf d text line) := by
  have hfeed : feedToken d text line = appendText d text line := by
    unfold feedToken
    split
    · exact absurd ‹_› ho
    · exact absurd ‹_› hc
    · rfl
  rw [hfeed, appendText_run hb hc text hline]

theorem feed_eq (line : Text) (number : Int) :
    feed line number =
      match line.reading with
      | .blank => throw (.emptyRecord number)
      | .comment => pure ()
      | .unknown code => throw (.unknownCode number [code])
      | .token d text => feedToken d text number := by
  rw [feed, Text.reading]
  cases line.withoutTerminator with
  | nil => rfl
  | cons code rest =>
      by_cases hcomment : code = CodeTable.comment
      · simp [hcomment]
      · simp only [hcomment, if_false, CodeTable.lookup]
        cases CodeTable.find? code <;> rfl

/-! ## Moves -/

/-- One step of a stream that is accepted. -/
inductive Move : Builder → Builder → Prop
  | leaf {b : Builder} {d : Descriptor} {text : Text} {line : Int} :
      d ∈ CodeTable.descriptors → d.kind ≠ .opening → d.kind ≠ .closing → 1 ≤ line →
        Move b (b.withLeaf d text line)
  | opening {b : Builder} {d : Descriptor} {line : Int} :
      d ∈ CodeTable.descriptors → d.kind = .opening → 1 ≤ line → Move b (b.opened d line)
  | closing {b : Builder} {d : Descriptor} {line : Int} {s : OpenScope} {outer : List OpenScope} :
      d ∈ CodeTable.descriptors → d.kind = .closing → 1 ≤ line → b.nesting = s :: outer →
        s.descriptor.title = d.title → Move b (b.closed d line)

/-- The states that moves lead to from the empty one. -/
inductive Reached : Builder → Prop
  | empty : Reached {}
  | move {b b' : Builder} : Reached b → Move b b' → Reached b'

theorem Move.sound {b b' : Builder} (h : Move b b') (hb : b.Sound) : b'.Sound := by
  cases h with
  | leaf => exact hb.withLeaf _ _ _
  | opening => exact hb.opened _ _
  | closing => exact hb.closed _ _

theorem Reached.sound {b : Builder} (h : b.Reached) : b.Sound := by
  induction h with
  | empty => exact .empty
  | move _ hmove ih => exact hmove.sound ih

theorem Reached.withShared {b : Builder} (h : b.Reached) (text : Text) {line : Int}
    (hline : 1 ≤ line) : (b.withShared text line).Reached := by
  unfold Builder.withShared
  split
  · exact h
  · exact h.move (.leaf (CodeTable.mem_descriptors_of_find? CodeTable.find?_text) (by decide)
      (by decide) hline)

theorem mem_descriptors_of_reading {line text : Text} {d : Descriptor}
    (h : line.reading = .token d text) : d ∈ CodeTable.descriptors := by
  unfold Text.reading at h
  split at h
  · simp at h
  · split at h
    · simp at h
    · split at h
      · rename_i hfind
        rw [Reading.token.injEq] at h
        exact h.1 ▸ CodeTable.mem_descriptors_of_find? hfind
      · simp at h

/-- A line that is accepted moves the builder. -/
theorem Reached.feed {b b' : Builder} (h : b.Reached) {line : Text} {number : Int}
    (hnumber : 1 ≤ number) (hrun : (feed line number).run b = .ok () b') : b'.Reached := by
  rw [feed_eq] at hrun
  cases hreading : line.reading with
  | blank => simp [hreading] at hrun
  | unknown code => simp [hreading] at hrun
  | comment =>
      simp only [hreading, EStateM.run_pure, EStateM.Result.ok.injEq, true_and] at hrun
      exact hrun ▸ h
  | token d text =>
      have hmem := mem_descriptors_of_reading hreading
      simp only [hreading] at hrun
      by_cases hopen : d.kind = .opening
      · rw [feedToken_run_opening h.sound hopen text hnumber] at hrun
        simp only [EStateM.Result.ok.injEq, true_and] at hrun
        exact hrun ▸ (h.move (.opening hmem hopen hnumber)).withShared text hnumber
      by_cases hclose : d.kind = .closing
      · -- Two moves: the text in the same record, and the end of the scope.
        have hshared := h.withShared text hnumber
        rw [feedToken_run_closing h.sound hclose text hnumber,
          closeScope_run hshared.sound hclose hnumber] at hrun
        split at hrun
        · simp at hrun
        · rename_i hnesting
          split at hrun
          · simp only [EStateM.Result.ok.injEq, true_and] at hrun
            exact hrun ▸ hshared.move (.closing hmem hclose hnumber hnesting ‹_›)
          · simp at hrun
      · rw [feedToken_run_leaf h.sound hopen hclose text hnumber] at hrun
        simp only [EStateM.Result.ok.injEq, true_and] at hrun
        exact hrun ▸ h.move (.leaf hmem hopen hclose hnumber)

theorem Reached.feedAll {lines : List Text} {number : Int} (hnumber : 1 ≤ number)
    {b b' : Builder} (h : b.Reached) (hrun : (feedAll lines number).run b = .ok () b') :
    b'.Reached := by
  induction lines generalizing number b with
  | nil =>
      simp only [Builder.feedAll, EStateM.run_pure, EStateM.Result.ok.injEq, true_and] at hrun
      exact hrun ▸ h
  | cons line lines ih =>
      rw [Builder.feedAll, EStateM.run_bind] at hrun
      cases hline : (Builder.feed line number).run b with
      | error fault b₁ => simp [hline] at hrun
      | ok _ b₁ =>
          rw [hline] at hrun
          exact ih (by omega) (h.feed hnumber hline) hrun

/-- **Every model of a stream comes from a state that moves lead to.** -/
theorem reached_of_ofLines {lines : List Text} {m : Model} (h : Model.ofLines lines = .ok m) :
    ∃ b : Builder, b.Reached ∧ m = b.finish := by
  unfold Model.ofLines at h
  split at h
  · rename_i b hrun
    exact ⟨b, Reached.feedAll (by omega) .empty hrun, by simpa using h.symm⟩
  · simp at h

end Builder

end Yeast
