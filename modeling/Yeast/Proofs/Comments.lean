import Yeast.Page.Basic
import Yeast.Proofs.Moves

set_option autoImplicit false

/-! # Comments

Comments may be put among the lines of a stream anywhere, and nothing changes but the numbers of
the lines behind them (`Stream.sameButNumbers_of_commented`).

A reader uses the number of a line for nothing but to write it down. So reading commutes with any
other numbering of the lines (`Builder.Sound.feed_renumbered`), and a comment leaves the reader
where it is. Nor does a pane look at the number of a line.
-/

namespace Yeast

/-! ## Renumbering -/

section Renumbering

variable (f : Int → Int)

/-- The entry with its line renumbered. -/
def Entry.renumbered (e : Entry) : Entry := { e with line := f e.line }

def OpenScope.renumbered (s : OpenScope) : OpenScope := { s with line := f s.line }

def Model.renumbered (m : Model) : Model :=
  { entries := m.entries.map (Entry.renumbered f)
    openScopes := m.openScopes.map (OpenScope.renumbered f) }

def StreamFault.renumbered : StreamFault → StreamFault
  | emptyRecord line => emptyRecord (f line)
  | unknownCode line code => unknownCode (f line) code
  | unopened line closer => unopened (f line) closer
  | mismatch fault => mismatch { fault with line := f fault.line, openLine := f fault.openLine }
  | contentExhausted => contentExhausted
  | entry fault => entry fault

def Builder.renumbered (b : Builder) : Builder :=
  { b with
    nesting := b.nesting.map (OpenScope.renumbered f)
    entries := b.entries.map (Entry.renumbered f) }

def Builder.renumberedResult :
    EStateM.Result StreamFault Builder Unit → EStateM.Result StreamFault Builder Unit
  | .ok _ b => .ok () (b.renumbered f)
  | .error fault b => .error (fault.renumbered f) (b.renumbered f)

end Renumbering

/-- The numbering from one that has the line with the index `k` at the index `place k`. -/
def Stream.numbering (place : Nat → Nat) (number : Int) : Int := place (number.toNat - 1) + 1

/-- The second lines are the first with comments put among them, and `place k` is the index there
of the line with the index `k`. -/
structure Stream.Commented (place : Nat → Nat) (lines lines' : List Text) : Prop where
  increasing : ∀ j k, j < k → k < lines.length → place j < place k
  kept : ∀ k, k < lines.length → lines'[place k]? = lines[k]?
  comment : ∀ j line, lines'[j]? = some line → (∀ k, k < lines.length → place k ≠ j) →
    ∃ rest, line = CodeTable.comment :: rest

/-- The comments among the second lines, which are not among the first, have no effect but that
the lines have other numbers. -/
structure Stream.SameButNumbers (place : Nat → Nat) (lines lines' : List Text) : Prop where
  accepted : (∃ m', Model.ofLines lines' = .ok m') ↔ ∃ m, Model.ofLines lines = .ok m
  model : ∀ m, Model.ofLines lines = .ok m →
    Model.ofLines lines' = .ok (m.renumbered (numbering place))
  outline : ∀ m m', Model.ofLines lines = .ok m → Model.ofLines lines' = .ok m' →
    m'.renderOutline = m.renderOutline
  sourceText : ∀ m m', Model.ofLines lines = .ok m → Model.ofLines lines' = .ok m' →
    m'.renderSourceText = m.renderSourceText
  page : ∀ m m' titles style, Model.ofLines lines = .ok m → Model.ofLines lines' = .ok m' →
    Page.render titles style m' = Page.render titles style m
  refused : ∀ fault, Model.ofLines lines = .error fault →
    Model.ofLines lines' = .error (fault.renumbered (numbering place))

/-! ## The panes -/

namespace Outline

theorem entryRows_renumbered (f : Int → Int) (level : Int) (e : Entry) :
    entryRows level (e.renumbered f) = entryRows level e := rfl

theorem levelAfter_renumbered (f : Int → Int) (level : Int) (e : Entry) :
    levelAfter level (e.renumbered f) = levelAfter level e := rfl

theorem rowsFrom_renumbered (f : Int → Int) (level : Int) (entries : List Entry) :
    rowsFrom level (entries.map (Entry.renumbered f)) = rowsFrom level entries := by
  induction entries generalizing level with
  | nil => rfl
  | cons e entries ih =>
      rw [List.map_cons, rowsFrom, rowsFrom, entryRows_renumbered, levelAfter_renumbered, ih]

end Outline

theorem SourceText.piecesFrom_renumbered (f : Int → Int) (pending : Bool) (level : Int)
    (entries : List Entry) :
    piecesFrom pending level (entries.map (Entry.renumbered f)) =
      piecesFrom pending level entries := by
  induction entries generalizing pending level with
  | nil => rfl
  | cons e entries ih =>
      have hkind : (e.renumbered f).kind = e.kind := rfl
      have htoken : token (e.renumbered f) = token e := rfl
      have hstart : scopeStart (e.renumbered f) = scopeStart e := rfl
      have hshown : shown (e.renumbered f) = shown e := rfl
      simp only [List.map_cons, piecesFrom, hkind, htoken, hstart, hshown, ih]

namespace Model

theorem outline_renumbered (f : Int → Int) (m : Model) : (m.renumbered f).outline = m.outline := by
  simp only [outline, renumbered, Outline.rows, Outline.rowsFrom_renumbered]

theorem sourceText_renumbered (f : Int → Int) (m : Model) :
    (m.renumbered f).sourceText = m.sourceText := by
  simp only [sourceText, renumbered, SourceText.pieces, SourceText.piecesFrom_renumbered]

end Model

theorem Page.pieces_renumbered (f : Int → Int) (titles : PaneTitles) (style : Stylesheet)
    (m : Model) : pieces titles style (m.renumbered f) = pieces titles style m := by
  simp only [pieces, body, Model.outline_renumbered, Model.sourceText_renumbered]

/-! ## Reading under other numbers -/

namespace Builder

variable {f : Int → Int} {b : Builder} {line : Int}

theorem renumbered_written (f : Int → Int) (b : Builder) (d : Descriptor) (text : Text)
    (line : Int) (synthetic : Bool) :
    (b.renumbered f).written d text (f line) synthetic =
      (b.written d text line synthetic).renumbered f := by
  simp [renumbered, written, Entry.renumbered]

theorem renumbered_marked (f : Int → Int) (b : Builder) :
    (b.renumbered f).marked = b.marked.renumbered f := rfl

theorem renumbered_withLeaf (f : Int → Int) (b : Builder) (d : Descriptor) (text : Text)
    (line : Int) :
    (b.renumbered f).withLeaf d text (f line) = (b.withLeaf d text line).renumbered f := by
  unfold withLeaf
  rw [renumbered_written, renumbered_marked]
  split <;> rfl

theorem renumbered_withShared (f : Int → Int) (b : Builder) (text : Text) (line : Int) :
    (b.renumbered f).withShared text (f line) = (b.withShared text line).renumbered f := by
  unfold withShared
  rw [renumbered_withLeaf]
  split <;> rfl

theorem renumbered_opened (f : Int → Int) (b : Builder) (d : Descriptor) (line : Int) :
    (b.renumbered f).opened d (f line) = (b.opened d line).renumbered f := by
  simp [opened, renumbered, written, Entry.renumbered, OpenScope.renumbered]

theorem renumbered_left (f : Int → Int) (b : Builder) (line : Int) :
    (b.renumbered f).left (f line) = (b.left line).renumbered f := by
  have hcontent : (b.renumbered f).content = b.content := rfl
  unfold left
  rw [hcontent]
  split <;> simp [renumbered, written, marked, Entry.renumbered]

theorem renumbered_closed (f : Int → Int) (b : Builder) (d : Descriptor) (line : Int) :
    (b.renumbered f).closed d (f line) = (b.closed d line).renumbered f := by
  simp only [closed, renumbered_left]
  simp [renumbered, Entry.renumbered]

theorem Sound.renumbered (h : b.Sound) (f : Int → Int) : (b.renumbered f).Sound := by
  refine ⟨?_, h.nextId_pos⟩
  show b.content.length = (b.nesting.map _).length
  rw [List.length_map, h.length_content]

theorem finish_renumbered (f : Int → Int) (b : Builder) :
    (b.renumbered f).finish = b.finish.renumbered f := by
  simp [finish, renumbered, Model.renumbered]

/-- The end of a scope under another number. -/
theorem closeScope_renumbered (hb : b.Sound) {d : Descriptor} (hd : d.kind = .closing)
    (hline : 1 ≤ line) (hline' : 1 ≤ f line) :
    (closeScope d (f line)).run (b.renumbered f) =
      renumberedResult f ((closeScope d line).run b) := by
  have hnesting : (b.renumbered f).nesting = b.nesting.map (OpenScope.renumbered f) := rfl
  rw [closeScope_run hb hd hline, closeScope_run (hb.renumbered f) hd hline', hnesting]
  cases b.nesting with
  | nil => rfl
  | cons s outer =>
      rw [List.map_cons]
      dsimp only
      rw [renumbered_closed, renumbered_left]
      by_cases htitle : s.descriptor.title = d.title
      · rw [if_pos htitle]
        exact if_pos htitle
      · rw [if_neg htitle]
        exact if_neg htitle

/-- **Reading commutes with any other numbering of the lines.** -/
theorem Sound.feed_renumbered (hb : b.Sound) (text : Text) (hline : 1 ≤ line)
    (hline' : 1 ≤ f line) :
    (feed text (f line)).run (b.renumbered f) = renumberedResult f ((feed text line).run b) := by
  rw [feed_eq, feed_eq]
  cases text.reading with
  | blank => rfl
  | comment => rfl
  | unknown code => rfl
  | token d rest =>
      dsimp only
      have hb' := hb.renumbered f
      by_cases hopen : d.kind = .opening
      · rw [feedToken_run_opening hb hopen rest hline, feedToken_run_opening hb' hopen rest hline',
          renumbered_opened, renumbered_withShared]
        rfl
      by_cases hclose : d.kind = .closing
      · rw [feedToken_run_closing hb hclose rest hline,
          feedToken_run_closing hb' hclose rest hline', renumbered_withShared]
        exact closeScope_renumbered (hb.withShared rest line) hclose hline hline'
      · rw [feedToken_run_leaf hb hopen hclose rest hline,
          feedToken_run_leaf hb' hopen hclose rest hline', renumbered_withLeaf]
        rfl

end Builder

/-! ## Comments among lines -/

namespace Stream

variable {place : Nat → Nat} {line : Text} {lines lines' : List Text}

/-- Of lines with comments among them, the first is one of the lines or a comment. -/
theorem Commented.cons_cases (h : Commented place lines (line :: lines')) :
    (∃ rest, lines = line :: rest ∧ place 0 = 0 ∧ (∀ k, k < rest.length → 0 < place (k + 1)) ∧
      Commented (fun k => place (k + 1) - 1) rest lines') ∨
    (∃ text, line = CodeTable.comment :: text) ∧ (∀ k, k < lines.length → 0 < place k) ∧
      Commented (fun k => place k - 1) lines lines' := by
  by_cases hfirst : ∃ k, k < lines.length ∧ place k = 0
  · -- Only the first of the lines can be in the first place.
    obtain ⟨k, hk, hplace⟩ := hfirst
    have hzero : k = 0 := by
      by_contra hne
      have := h.increasing 0 k (by omega) hk
      omega
    subst hzero
    cases lines with
    | nil => simp at hk
    | cons line' rest =>
        have hline : line = line' := by simpa [hplace] using h.kept 0 hk
        subst hline
        have hpos : ∀ k, k < rest.length → 0 < place (k + 1) := by
          intro k hk
          have := h.increasing 0 (k + 1) (by omega) (by simpa using hk)
          omega
        refine Or.inl ⟨rest, rfl, hplace, hpos, ?_, ?_, ?_⟩
        · intro j k hjk hk
          have := h.increasing (j + 1) (k + 1) (by omega) (by simpa using hk)
          have := hpos j (by omega)
          show place (j + 1) - 1 < place (k + 1) - 1
          omega
        · intro k hk
          have hkept := h.kept (k + 1) (by simpa using hk)
          have hplace : place (k + 1) = (place (k + 1) - 1) + 1 := by
            have := hpos k hk
            omega
          rw [hplace, List.getElem?_cons_succ, List.getElem?_cons_succ] at hkept
          exact hkept
        · intro j text hj hnot
          refine h.comment (j + 1) text (by simpa using hj) fun k hk => ?_
          cases k with
          | zero => omega
          | succ k =>
              have hk : k < rest.length := by simpa using hk
              have := hpos k hk
              have : place (k + 1) - 1 ≠ j := hnot k hk
              omega
  · have hpos : ∀ k, k < lines.length → 0 < place k := by
      intro k hk
      by_contra hzero
      exact hfirst ⟨k, hk, by omega⟩
    refine Or.inr ⟨?_, hpos, ?_, ?_, ?_⟩
    · refine h.comment 0 line rfl fun k hk => ?_
      have := hpos k hk
      omega
    · intro j k hjk hk
      have := h.increasing j k hjk hk
      have := hpos j (by omega)
      show place j - 1 < place k - 1
      omega
    · intro k hk
      have hkept := h.kept k hk
      have hplace : place k = (place k - 1) + 1 := by
        have := hpos k hk
        omega
      rw [hplace, List.getElem?_cons_succ] at hkept
      exact hkept
    · intro j text hj hnot
      refine h.comment (j + 1) text (by simpa using hj) fun k hk => ?_
      have := hpos k hk
      have : place k - 1 ≠ j := hnot k hk
      omega

theorem Commented.eq_nil (h : Commented place lines []) : lines = [] := by
  cases lines with
  | nil => rfl
  | cons line rest => simpa using h.kept 0 (by simp)

/-- A comment leaves the reader where it is. -/
theorem feed_comment (text : Text) (number : Int) :
    Builder.feed (CodeTable.comment :: text) number = pure () := by
  have hline : Text.withoutTerminator (CodeTable.comment :: text) =
      CodeTable.comment :: Text.withoutTerminator text := by
    rw [Text.withoutTerminator] <;> simp [CodeTable.comment]
  rw [Builder.feed, hline]
  exact if_pos rfl

/-- Lines with comments among them are read as the lines are, under the numbers that they have
there. -/
theorem Commented.feedAll_run (h : Commented place lines lines') {f : Int → Int}
    {number number' : Int} (hnumber : 1 ≤ number) (hnumber' : 1 ≤ number')
    (hf : ∀ k, k < lines.length → f (number + k) = number' + place k) {b : Builder}
    (hb : b.Reached) :
    (Builder.feedAll lines' number').run (b.renumbered f) =
      Builder.renumberedResult f ((Builder.feedAll lines number).run b) := by
  induction lines' generalizing lines place number number' b with
  | nil =>
      obtain rfl := h.eq_nil
      rfl
  | cons line lines' ih =>
      rw [Builder.feedAll, EStateM.run_bind]
      rcases h.cons_cases with ⟨rest, rfl, hplace, hpos, hrest⟩ | ⟨⟨text, rfl⟩, hpos, hrest⟩
      -- a line of both streams: `f` takes its number to the one it has among the comments
      · have hfirst : f number = number' := by
          have := hf 0 (by simp)
          simpa [hplace] using this
        have hfeed := hb.sound.feed_renumbered (f := f) line hnumber (by omega)
        rw [hfirst] at hfeed
        rw [Builder.feedAll, EStateM.run_bind, hfeed]
        cases hrun : (Builder.feed line number).run b with
        | error fault b' => rfl
        | ok _ b' =>
            refine ih hrest (by omega) (by omega) (fun k hk => ?_) (hb.feed hnumber hrun)
            have hk' := hf (k + 1) (by simpa using hk)
            have := hpos k hk
            have hnext : number + 1 + (k : Int) = number + (k + 1 : Nat) := by omega
            rw [hnext, hk']
            omega
      -- a comment does nothing but move the lines behind it on by one
      · rw [feed_comment]
        refine ih hrest hnumber (by omega) (fun k hk => ?_) hb
        have := hpos k hk
        rw [hf k hk]
        omega

/-- What comes of the lines with the comments is what comes of the lines, under other numbers. -/
theorem Commented.ofLines_eq (h : Commented place lines lines') :
    Model.ofLines lines' =
      match Model.ofLines lines with
      | .ok m => .ok (m.renumbered (numbering place))
      | .error fault => .error (fault.renumbered (numbering place)) := by
  have hnumbers : ∀ k, k < lines.length →
      numbering place (1 + (k : Int)) = 1 + (place k : Int) := by
    intro k _
    have hindex : (1 + (k : Int)).toNat - 1 = k := by omega
    rw [numbering, hindex, Int.add_comm]
  have hrun := h.feedAll_run (by omega) (by omega) hnumbers .empty
  have hempty : Builder.renumbered (numbering place) {} = {} := by simp [Builder.renumbered]
  rw [hempty] at hrun
  rw [Model.ofLines, Model.ofLines, hrun]
  cases (Builder.feedAll lines 1).run {} with
  | ok _ b => exact congrArg Except.ok (Builder.finish_renumbered _ b)
  | error fault b => rfl

/-- **Comments have no effect but that the lines behind them have other numbers.** -/
theorem sameButNumbers_of_commented (h : Commented place lines lines') :
    SameButNumbers place lines lines' := by
  have hmodel : ∀ m, Model.ofLines lines = .ok m →
      Model.ofLines lines' = .ok (m.renumbered (numbering place)) := by
    intro m hm
    rw [h.ofLines_eq, hm]
  have hrefused : ∀ fault, Model.ofLines lines = .error fault →
      Model.ofLines lines' = .error (fault.renumbered (numbering place)) := by
    intro fault hfault
    rw [h.ofLines_eq, hfault]
  -- The model of the lines with the comments can only be the renumbered one.
  have hshown : ∀ {m m'}, Model.ofLines lines = .ok m → Model.ofLines lines' = .ok m' →
      m' = m.renumbered (numbering place) := by
    intro m m' hm hm'
    rw [hmodel m hm] at hm'
    exact (Except.ok.inj hm').symm
  constructor
  · constructor
    · rintro ⟨m', hm'⟩
      cases hlines : Model.ofLines lines with
      | ok m => exact ⟨m, rfl⟩
      | error fault =>
          rw [hrefused fault hlines] at hm'
          simp at hm'
    · rintro ⟨m, hm⟩
      exact ⟨_, hmodel m hm⟩
  · exact hmodel
  · intro m m' hm hm'
    rw [hshown hm hm', Model.renderOutline, Model.renderOutline, Model.outline_renumbered]
  · intro m m' hm hm'
    rw [hshown hm hm', Model.renderSourceText, Model.renderSourceText,
      Model.sourceText_renumbered]
  · intro m m' titles style hm hm'
    rw [hshown hm hm', Page.render, Page.render, Page.pieces_renumbered]
  · exact hrefused

/-- Comments before, within and behind a scope that holds nothing but a comment of its own. -/
theorem sameButNumbers_empty :
    let lines : List Text := ["M".toList, "#own".toList, "m".toList, "x".toList]
    let lines' : List Text :=
      ["#a\r\n".toList, "M".toList, "#".toList, "#own".toList, "#m".toList, "m".toList,
        "x".toList, "#\n".toList]
    let place : Nat → Nat := fun k => if k = 0 then 1 else if k = 1 then 3 else k + 3
    Commented place lines lines' ∧ SameButNumbers place lines lines' := by
  intro lines lines' place
  have hincreasing : ∀ k, k < lines.length → ∀ j, j < k → place j < place k := by decide
  have hcomment : ∀ j, j < lines'.length → (∀ k, k < lines.length → place k ≠ j) →
      lines'[j]?.bind List.head? = some CodeTable.comment := by decide
  have h : Commented place lines lines' := by
    refine ⟨fun j k hjk hk => hincreasing k hk j hjk, by decide, fun j line hj hnot => ?_⟩
    have hhead := hcomment j (List.getElem?_eq_some_iff.mp hj).1 hnot
    rw [hj] at hhead
    exact List.head?_eq_some_iff.mp hhead
  exact ⟨h, sameButNumbers_of_commented h⟩

end Stream

end Yeast
