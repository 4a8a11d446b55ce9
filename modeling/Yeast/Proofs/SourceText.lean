import Yeast.Proofs.Outline

set_option autoImplicit false

/-! # The source text shows the forest of a model

The source text is read back in the same way as the outline. Inside its one division the spans
are well nested, and they are the forest of the entries; so the two panes show the same forest.
The texts of the token spans are those of the leaves in order, and between the spans stands
nothing but line breaks (`Model.SourceTextFaithful`).

The pieces keep a count of the open spans only. As the entries are read with the opening entries
on a stack, the count is the length of the stack, and this suffices, since a span is ended by any
other end of a span.
-/

namespace Yeast

open Markup

namespace SourceText

/-- A span is ended by the end of a span. -/
def EndedBy (o c : Tag) : Prop := o.name = "span".toList ∧ c.name = "span".toList

instance : DecidableRel EndedBy := fun o c =>
  inferInstanceAs (Decidable (o.name = "span".toList ∧ c.name = "span".toList))

/-! ## The tokens of pieces -/

def lineBreakTokens : List Token := [.void "br".toList [], .char '\n']

theorem breakIf_tokens (pending : Bool) :
    (breakIf pending).flatMap Piece.tokens = if pending then lineBreakTokens else [] := by
  cases pending <;> rfl

def tokenAttributes (e : Entry) : List Attribute :=
  classes ["token".toList, e.kind.name, e.className] :: e.correlation pane

theorem token_tokens (e : Entry) (rest : List Token) :
    (token e).flatMap Piece.tokens ++ rest =
      .start "span".toList ((tokenAttributes e).map Attribute.written) ::
        ((escaped (shown e)).map .char ++ .stop "span".toList :: rest) := by
  rw [token, spanEnd, tokenAttributes]
  simp only [List.flatMap_cons, List.flatMap_nil, Piece.tokens_start, Piece.tokens_text,
    Piece.tokens_stop, List.cons_append, List.append_assoc, List.nil_append]

/-- What is read of the entries from the given state on. -/
def tokensFrom (pending : Bool) (level : Int) (entries : List Entry) : List Token :=
  (piecesFrom pending level entries).flatMap Piece.tokens

theorem tokensFrom_nil (pending : Bool) (level : Int) :
    tokensFrom pending level [] = List.replicate level.toNat (.stop "span".toList) := by
  rw [tokensFrom, piecesFrom]
  induction level.toNat with
  | zero => rfl
  | succ n ih => exact congrArg (Token.stop "span".toList :: ·) ih

theorem tokensFrom_opening {e : Entry} (h : e.kind = .opening) (pending : Bool) (level : Int)
    (entries : List Entry) : tokensFrom pending level (e :: entries) =
      (if pending then lineBreakTokens else []) ++
        .start "span".toList [(classes ["scope".toList, e.className]).written] ::
          tokensFrom false (level + 1) entries := by
  rw [tokensFrom, piecesFrom_opening h, List.flatMap_append, breakIf_tokens, List.flatMap_cons]
  rfl

theorem tokensFrom_closing {e : Entry} (h : e.kind = .closing) (pending : Bool) (level : Int)
    (entries : List Entry) : tokensFrom pending level (e :: entries) =
      .stop "span".toList :: tokensFrom pending (level - 1) entries := by
  rw [tokensFrom, piecesFrom_closing h, List.flatMap_cons]
  rfl

theorem tokensFrom_leaf {e : Entry} (ho : e.kind ≠ .opening) (hc : e.kind ≠ .closing)
    (pending : Bool) (level : Int) (entries : List Entry) :
    tokensFrom pending level (e :: entries) =
      (if pending then lineBreakTokens else []) ++
        .start "span".toList ((tokenAttributes e).map Attribute.written) ::
          ((escaped (shown e)).map .char ++ .stop "span".toList ::
            tokensFrom (shown e).endsLine level entries) := by
  rw [tokensFrom, piecesFrom_leaf ho hc, List.flatMap_append, breakIf_tokens,
    List.flatMap_append, token_tokens, tokensFrom]

/-! ## Tags -/

/-- A line break opens and closes nothing. -/
theorem remaining_break (s : List Tag) (column : Option Nat) (pending : Bool)
    (rest : List Token) :
    ∃ column', Bracket.remaining EndedBy s
        (tagsFrom column ((if pending then lineBreakTokens else []) ++ rest)) =
      Bracket.remaining EndedBy s (tagsFrom column' rest) := by
  cases pending with
  | false => exact ⟨column, rfl⟩
  | true =>
      refine ⟨some 0, ?_⟩
      rw [if_pos rfl, lineBreakTokens, List.cons_append, tagsFrom_void, Bracket.remaining_single]
      rfl

/-- The spans of entries that can be read end what is open before them, one span for each opening
entry. -/
theorem remaining_tokensFrom {openers entries : List Entry}
    (h : (Bracket.remaining Entry.EndedBy openers (entries.map Entry.bracket)).isSome)
    {s : List Tag} (hs : s.length = openers.length) (hspan : ∀ o ∈ s, o.name = "span".toList)
    (pending : Bool) (column : Option Nat) :
    Bracket.remaining EndedBy s (tagsFrom column (tokensFrom pending openers.length entries)) =
      some [] := by
  -- Only the number of open spans is kept, and it is that of the opening entries on the stack.
  induction entries generalizing openers s pending column with
  | nil =>
      rw [tokensFrom_nil, Int.toNat_natCast, ← hs]
      clear h hs
      induction s generalizing column with
      | nil => rfl
      | cons o s ih =>
          obtain ⟨ho, hspan⟩ := List.forall_mem_cons.mp hspan
          rw [List.length_cons, List.replicate_succ, tagsFrom_stop,
            Bracket.remaining_closing_cons, if_pos ⟨ho, rfl⟩]
          exact ih hspan none
  | cons e entries ih =>
      by_cases ho : e.kind = .opening
      · rw [List.map_cons, Entry.bracket_of_opening ho, Bracket.remaining_opening] at h
        rw [tokensFrom_opening ho]
        obtain ⟨column', hbreak⟩ := remaining_break s column pending
          (.start "span".toList [(classes ["scope".toList, e.className]).written] ::
            tokensFrom false (openers.length + 1) entries)
        rw [hbreak, tagsFrom_start, Bracket.remaining_opening]
        exact ih h (s := _ :: s) (by rw [List.length_cons, List.length_cons, hs])
          (List.forall_mem_cons.mpr ⟨rfl, hspan⟩) false none
      by_cases hc : e.kind = .closing
      · rw [List.map_cons, Entry.bracket_of_closing hc] at h
        cases openers with
        | nil => simp at h
        | cons o openers =>
            obtain ⟨t, s, rfl⟩ := List.exists_cons_of_length_eq_add_one hs
            obtain ⟨ht, hspan⟩ := List.forall_mem_cons.mp hspan
            rw [Bracket.remaining_closing_cons] at h
            split at h
            · have hlevel : ((openers.length + 1 : Nat) : Int) - 1 = openers.length := by omega
              rw [tokensFrom_closing hc, List.length_cons, hlevel, tagsFrom_stop,
                Bracket.remaining_closing_cons, if_pos ⟨ht, rfl⟩]
              exact ih h (Nat.succ.inj hs) hspan pending none
            · simp at h
      · rw [List.map_cons, Entry.bracket_of_leaf ho hc, Bracket.remaining_single] at h
        rw [tokensFrom_leaf ho hc]
        obtain ⟨column', hbreak⟩ := remaining_break s column pending
          (.start "span".toList ((tokenAttributes e).map Attribute.written) ::
            ((escaped (shown e)).map .char ++ .stop "span".toList ::
              tokensFrom (shown e).endsLine openers.length entries))
        rw [hbreak, tagsFrom_start, Bracket.remaining_opening, tagsFrom_chars, tagsFrom_stop,
          Bracket.remaining_closing_cons, if_pos ⟨rfl, rfl⟩]
        exact ih h hs hspan _ none

/-! ## Spans -/

def spanOf (e : Entry) : Element :=
  if e.kind = .opening then .written [classes ["scope".toList, e.className]] []
  else .written (tokenAttributes e) (shown e)

theorem elements_break (pending : Bool) (rest : List Token) :
    elements "span".toList leadingText ((if pending then lineBreakTokens else []) ++ rest) =
      elements "span".toList leadingText rest := by
  cases pending <;> rfl

/-- No text follows the start of a scope. -/
theorem leadingText_tokensFrom (level : Int) (entries : List Entry) :
    leadingText (tokensFrom false level entries) = [] := by
  -- With no line break before it the next piece is a tag, whatever the entry.
  cases entries with
  | nil =>
      rw [tokensFrom_nil]
      cases level.toNat <;> rfl
  | cons e entries =>
      by_cases ho : e.kind = .opening
      · rw [tokensFrom_opening ho]
        rfl
      by_cases hc : e.kind = .closing
      · rw [tokensFrom_closing hc]
        rfl
      · rw [tokensFrom_leaf ho hc]
        rfl

/-- The spans are those of the entries, and the ends of scopes behind them. -/
theorem elements_tokensFrom (pending : Bool) (level : Int) (entries : List Entry) :
    ∃ n, elements "span".toList leadingText (tokensFrom pending level entries) =
      (entries.map Entry.bracket).flatMap (Bracket.elementLetters spanOf) ++
        List.replicate n (.closing ()) := by
  induction entries generalizing pending level with
  | nil =>
      -- the spans that are still open are ended behind the last entry
      refine ⟨level.toNat, ?_⟩
      rw [tokensFrom_nil]
      induction level.toNat with
      | zero => rfl
      | succ n ih =>
          rw [List.replicate_succ, elements_stop, ih]
          rfl
  | cons e entries ih =>
      by_cases ho : e.kind = .opening
      · obtain ⟨n, ih⟩ := ih false (level + 1)
        refine ⟨n, ?_⟩
        rw [tokensFrom_opening ho, elements_break, elements_start, leadingText_tokensFrom, ih,
          List.map_cons, Entry.bracket_of_opening ho, List.flatMap_cons, Bracket.elementLetters,
          spanOf, if_pos ho]
        rfl
      by_cases hc : e.kind = .closing
      · obtain ⟨n, ih⟩ := ih pending (level - 1)
        refine ⟨n, ?_⟩
        rw [tokensFrom_closing hc, elements_stop, ih, List.map_cons, Entry.bracket_of_closing hc]
        rfl
      · obtain ⟨n, ih⟩ := ih (shown e).endsLine level
        refine ⟨n, ?_⟩
        rw [tokensFrom_leaf ho hc, elements_break, elements_start, leadingText_chars,
          leadingText_stop, List.append_nil, elements_chars, elements_stop, ih, List.map_cons,
          Entry.bracket_of_leaf ho hc, List.flatMap_cons, Bracket.elementLetters, spanOf,
          if_neg ho]
        rfl

/-- **The spans are the forest of the entries.** -/
theorem forest_spans (entries : List Entry) :
    Bracket.forest (elements "span".toList leadingText (tokensFrom false 0 entries)) =
      (Bracket.forest (entries.map Entry.bracket)).map (Bracket.Place.relabel spanOf 0) := by
  obtain ⟨n, hspans⟩ := elements_tokensFrom false 0 entries
  have hforest := Bracket.forestFrom_elementLetters (β := Entry) spanOf 0 0 []
    (entries.map Entry.bracket)
  rw [hspans, Bracket.forest, Bracket.forestFrom_append, Bracket.forestFrom_replicate_closing,
    List.append_nil]
  exact hforest

/-! ## Between the tags -/

theorem runsBehind_break (word : Text) (pending : Bool) (rest : List Token) :
    runsBehind word ((if pending then lineBreakTokens else []) ++ rest) = runsBehind word rest := by
  cases pending <;> rfl

theorem run_break (pending : Bool) (name : Text) (attributes : List Attribute)
    (rest : List Token) :
    run ((if pending then lineBreakTokens else []) ++ .start name attributes :: rest) =
      if pending then lineBreakTokens else [] := by
  cases pending <;> rfl

/-- Before the first tag there is a line break or nothing. -/
theorem run_tokensFrom (pending : Bool) (level : Int) (entries : List Entry) :
    run (tokensFrom pending level entries) = [] ∨
      run (tokensFrom pending level entries) = lineBreakTokens := by
  have hbreak : ∀ name attributes rest,
      run ((if pending then lineBreakTokens else []) ++ .start name attributes :: rest) = [] ∨
        run ((if pending then lineBreakTokens else []) ++ .start name attributes :: rest) =
          lineBreakTokens := by
    intro name attributes rest
    rw [run_break]
    cases pending with
    | false => exact Or.inl rfl
    | true => exact Or.inr rfl
  cases entries with
  | nil =>
      rw [tokensFrom_nil]
      cases level.toNat <;> exact Or.inl rfl
  | cons e entries =>
      by_cases ho : e.kind = .opening
      · rw [tokensFrom_opening ho]
        exact hbreak _ _ _
      by_cases hc : e.kind = .closing
      · rw [tokensFrom_closing hc]
        exact Or.inl rfl
      · rw [tokensFrom_leaf ho hc]
        exact hbreak _ _ _

theorem runsBehind_opening {e : Entry} (h : e.kind = .opening) (pending : Bool) (level : Int)
    (entries : List Entry) :
    runsBehind "token".toList (tokensFrom pending level (e :: entries)) =
      (false, run (tokensFrom false (level + 1) entries)) ::
        runsBehind "token".toList (tokensFrom false (level + 1) entries) := by
  rw [tokensFrom_opening h, runsBehind_break]
  rfl

theorem runsBehind_closing {e : Entry} (h : e.kind = .closing) (pending : Bool) (level : Int)
    (entries : List Entry) :
    runsBehind "token".toList (tokensFrom pending level (e :: entries)) =
      (false, run (tokensFrom pending (level - 1) entries)) ::
        runsBehind "token".toList (tokensFrom pending (level - 1) entries) := by
  rw [tokensFrom_closing h]
  rfl

theorem runsBehind_leaf {e : Entry} (ho : e.kind ≠ .opening) (hc : e.kind ≠ .closing)
    (pending : Bool) (level : Int) (entries : List Entry) :
    runsBehind "token".toList (tokensFrom pending level (e :: entries)) =
      (true, (escaped (shown e)).map .char) ::
        (false, run (tokensFrom (shown e).endsLine level entries)) ::
          runsBehind "token".toList (tokensFrom (shown e).endsLine level entries) := by
  have hrun : ∀ rest, run ((escaped (shown e)).map .char ++ .stop "span".toList :: rest) =
      (escaped (shown e)).map .char := by
    intro rest
    rw [run_chars, run_stop, List.append_nil]
  rw [tokensFrom_leaf ho hc, runsBehind_break, runsBehind, hrun, runsBehind_chars]
  rfl

/-- The contents of the token spans are the texts of the leaves, in order. -/
theorem contents_tokensFrom (pending : Bool) (level : Int) (entries : List Entry) :
    ((runsBehind "token".toList (tokensFrom pending level entries)).filter fun r => r.1).map
        Prod.snd =
      (entries.filter fun e => e.kind ≠ .opening ∧ e.kind ≠ .closing).map fun e =>
        (escaped (shown e)).map Token.char := by
  induction entries generalizing pending level with
  | nil =>
      rw [tokensFrom_nil]
      induction level.toNat with
      | zero => rfl
      | succ n ih => exact ih
  | cons e entries ih =>
      by_cases ho : e.kind = .opening
      · rw [runsBehind_opening ho, List.filter_cons_of_neg (by simp), ih,
          List.filter_cons_of_neg (by simp [ho])]
      by_cases hc : e.kind = .closing
      · rw [runsBehind_closing hc, List.filter_cons_of_neg (by simp), ih,
          List.filter_cons_of_neg (by simp [hc])]
      · rw [runsBehind_leaf ho hc, List.filter_cons_of_pos rfl, List.map_cons,
          List.filter_cons_of_neg (by simp), ih, List.filter_cons_of_pos (by simp [ho, hc]),
          List.map_cons]

/-- Elsewhere there is a line break behind a tag, or nothing. -/
theorem gaps_tokensFrom (pending : Bool) (level : Int) (entries : List Entry) :
    ∀ r ∈ runsBehind "token".toList (tokensFrom pending level entries), r.1 = false →
      r.2 = [] ∨ r.2 = lineBreakTokens := by
  induction entries generalizing pending level with
  | nil =>
      rw [tokensFrom_nil]
      induction level.toNat with
      | zero => simp [runsBehind]
      | succ n ih =>
          rw [List.replicate_succ, runsBehind, List.forall_mem_cons]
          refine ⟨fun _ => Or.inl ?_, ih⟩
          cases n <;> rfl
  | cons e entries ih =>
      by_cases ho : e.kind = .opening
      · rw [runsBehind_opening ho, List.forall_mem_cons]
        exact ⟨fun _ => run_tokensFrom _ _ _, ih _ _⟩
      by_cases hc : e.kind = .closing
      · rw [runsBehind_closing hc, List.forall_mem_cons]
        exact ⟨fun _ => run_tokensFrom _ _ _, ih _ _⟩
      · rw [runsBehind_leaf ho hc, List.forall_mem_cons, List.forall_mem_cons]
        exact ⟨fun h => by simp at h, fun _ => run_tokensFrom _ _ _, ih _ _⟩

/-! ## The source text as text -/

/-- The page part that holds the given tokens. -/
def division (inner : List Token) : List Token :=
  .start "div".toList [(classes ["text".toList]).written] ::
    (inner ++ [.stop "div".toList, .char '\n'])

/-- What is read of the source text is what is read of the entries, in a division. -/
theorem tokens?_renderSourceText (m : Model) :
    tokens? m.renderSourceText = some (division (tokensFrom false 0 m.entries)) := by
  rw [Model.renderSourceText, tokens?_render (readable_sourceText m), Model.sourceText, pieces,
    List.flatMap_append, List.flatMap_cons, division, tokensFrom]
  rfl

theorem division_injective : Function.Injective division := by
  intro inner inner' h
  exact List.append_cancel_right (List.cons_eq_cons.mp h).2

/-! ## What a span tells of its entry -/

def spanClasses (kind : TokenKind) (className : Text) : List Text :=
  if kind = .opening then ["scope".toList, className]
  else ["token".toList, kind.name, className]

/-- The span shows the entry: its classes name the kind and the title, and for a leaf its content
is the text, or the symbol of a byte order mark. -/
structure Tells (x : Element) (e : Entry) : Prop where
  kind : x.value? "class".toList = some (Text.joined [' '] (spanClasses e.kind e.className))
  id : e.kind ≠ .opening → x.value? "data-cid".toList = e.id.map Text.ofInt
  text : e.kind ≠ .opening →
    unescaped x.head = if e.kind = .byteOrderMark then ['⇔'] else e.text

theorem eq_of_spanClasses {k k' : TokenKind} {c c' : Text} (hk : k ≠ .closing)
    (hk' : k' ≠ .closing)
    (h : Text.joined [' '] (spanClasses k c) = Text.joined [' '] (spanClasses k' c')) :
    k = k' ∧ c = c' := by
  -- Two kinds differ in a letter before the class name, and behind the same kind it is the rest.
  revert h hk hk'
  cases k <;> cases k' <;> simp [Text.joined, List.intercalate, spanClasses, TokenKind.name]

theorem spanOf_tells {e : Entry} (h : e.Regular) (hc : e.kind ≠ .closing) :
    Tells (spanOf e) e := by
  obtain ⟨n, hid, -⟩ := h.id_shown hc
  by_cases ho : e.kind = .opening
  · refine ⟨?_, fun hne => absurd ho hne, fun hne => absurd ho hne⟩
    rw [spanOf, if_pos ho, spanClasses, if_pos ho, Element.value?_written]
    rfl
  · have hspan : spanOf e = .written
        (classes (spanClasses e.kind e.className) :: correlation pane n) (shown e) := by
      rw [spanOf, if_neg ho, tokenAttributes, spanClasses, if_neg ho, Entry.correlation, hid]
    rw [hspan]
    refine ⟨?_, fun _ => ?_, fun _ => ?_⟩
    · rw [Element.value?_written]
      rfl
    · rw [Element.value?_written, hid]
      rfl
    · rw [Element.unescaped_head_written, shown]
      rfl

/-- What a span leaves open is the id of a scope and the text of a byte order mark. -/
theorem Tells.unique {x : Element} {e e' : Entry} (h : Tells x e) (h' : Tells x e')
    (hregular : e.Regular) (hregular' : e'.Regular) (hc : e.kind ≠ .closing)
    (hc' : e'.kind ≠ .closing) :
    e.kind = e'.kind ∧ e.title = e'.title ∧ (e.kind ≠ .opening → e.id = e'.id) ∧
      (e.kind ≠ .byteOrderMark → e.text = e'.text) := by
  have hclass := h.kind
  rw [h'.kind, Option.some.injEq] at hclass
  obtain ⟨hkind, hname⟩ := eq_of_spanClasses hc' hc hclass
  refine ⟨hkind.symm, hregular.title_of_className hregular' hname.symm, fun ho => ?_, fun hb => ?_⟩
  · have hnumeral := h.id ho
    rw [h'.id (hkind ▸ ho)] at hnumeral
    exact (Option.map_injective Text.ofInt_injective hnumeral).symm
  · by_cases ho : e.kind = .opening
    · rw [hregular.text_nil (Or.inl ho), hregular'.text_nil (Or.inl (hkind ▸ ho))]
    · have htext := h.text ho
      rw [h'.text (hkind ▸ ho), if_neg hb, if_neg (hkind ▸ hb)] at htext
      exact htext.symm

/-- What is read inside the division of the source text. -/
structure Reads (m : Model) (inner : List Token) : Prop where
  /-- Nothing stands outside the division but the line feed that ends the page part. -/
  read : tokens? m.renderSourceText = some (division inner)
  /-- The tags inside are those of spans, and they are well nested. -/
  nested : Bracket.Balanced EndedBy (tags inner)
  /-- The spans are the forest of the entries. -/
  shown : m.ShownBy Tells 0 (Bracket.forest (elements "span".toList leadingText inner))
  /-- It is the forest that the outline shows behind its legend. -/
  outline : ∃ outline, tokens? m.renderOutline = some outline ∧
    ((Bracket.forest (elements "li".toList leadingTextWithin outline)).drop
        Outline.legendPlaces.length).map Bracket.Place.around =
      (Bracket.forest (elements "span".toList leadingText inner)).map fun p =>
        p.around.map (Outline.legendPlaces.length + ·)
  /-- The contents of the token spans are the texts of the leaves. -/
  contents : ∃ texts : List Text,
    contents "token".toList inner = texts.map (List.map Token.char) ∧
      texts.map unescaped =
        (m.entries.filter fun e => e.kind ≠ .opening ∧ e.kind ≠ .closing).map fun e =>
          if e.kind = .byteOrderMark then ['⇔'] else e.text
  /-- Elsewhere there are only line breaks, one at most in a place. -/
  gaps : ∀ r ∈ gaps "token".toList inner, r = [] ∨ r = [.void "br".toList [], .char '\n']

theorem reads_of_ofLines {lines : List Text} {m : Model} (h : Model.ofLines lines = .ok m) :
    Reads m (tokensFrom false 0 m.entries) where
  read := tokens?_renderSourceText m
  nested := by
    have hnothing : ([] : List Tag).length = ([] : List Entry).length := rfl
    rw [Bracket.balanced_iff]
    exact remaining_tokensFrom (Model.isSome_remaining_brackets h) hnothing (by simp) false
      (some 0)
  shown := by
    rw [forest_spans]
    refine Model.ShownBy.of_forest (Model.isSome_remaining_brackets h) (fun e he hc => ?_) []
    exact spanOf_tells (Model.regular_of_ofLines h e he) hc
  outline := by
    refine ⟨_, Outline.tokens?_renderOutline m, ?_⟩
    rw [Outline.forest_items, List.drop_left, forest_spans, List.map_map, List.map_map]
    refine List.map_congr_left fun p _ => ?_
    simp [Bracket.Place.relabel]
  contents := by
    refine ⟨(m.entries.filter fun e => e.kind ≠ .opening ∧ e.kind ≠ .closing).map fun e =>
      escaped (shown e), ?_, ?_⟩
    · rw [Markup.contents, runs, List.filter_cons_of_neg (by simp), contents_tokensFrom,
        List.map_map]
      rfl
    · rw [List.map_map]
      exact List.map_congr_left fun e _ => unescaped_escaped (shown e)
  gaps := by
    intro r hr
    rw [Markup.gaps, runs] at hr
    obtain ⟨x, hx, rfl⟩ := List.mem_map.mp hr
    obtain ⟨hx, houtside⟩ := List.mem_filter.mp hx
    rcases List.mem_cons.mp hx with rfl | hx
    · -- The first run stands behind the start of the division.
      exact run_tokensFrom false 0 m.entries
    · exact gaps_tokensFrom false 0 m.entries x hx (by simpa using houtside)

end SourceText

/-- The source text of the model is read back as the model. -/
structure Model.SourceTextFaithful (m : Model) : Prop where
  read : ∃ inner, SourceText.Reads m inner
  /-- No other forest has this source text, up to what is not shown: the ids of scopes, and the
  texts of byte order marks. -/
  unique : ∀ lines m', Model.ofLines lines = .ok m' → m'.renderSourceText = m.renderSourceText →
    Model.SameForest (fun e => (e.kind, e.title, if e.kind = .opening then none else e.id,
      if e.kind = .byteOrderMark then [] else e.text)) m m'

/-- **The source text of a stream that is accepted is read back as what the stream says.** -/
theorem sourceTextFaithful_of_ofLines {lines : List Text} {m : Model}
    (h : Model.ofLines lines = .ok m) : m.SourceTextFaithful where
  read := ⟨_, SourceText.reads_of_ofLines h⟩
  unique := by
    intro lines' m' h' hrender
    have hinner := SourceText.tokens?_renderSourceText m
    rw [← hrender, SourceText.tokens?_renderSourceText m', Option.some.injEq] at hinner
    have hspans := (SourceText.reads_of_ofLines h').shown
    rw [SourceText.division_injective hinner] at hspans
    refine (SourceText.reads_of_ofLines h).shown.sameForest hspans
      fun x e he e' he' hc hc' htells htells' => ?_
    obtain ⟨hkind, htitle, hid, htext⟩ := htells.unique htells'
      (Model.regular_of_ofLines h e he) (Model.regular_of_ofLines h' e' he') hc hc'
    -- a scope shows no id and a byte order mark no text, so these are compared where they show
    have hids : (if e.kind = .opening then none else e.id) =
        if e'.kind = .opening then none else e'.id := by
      rw [← hkind]
      split
      · rfl
      · exact hid ‹_›
    have htexts : (if e.kind = .byteOrderMark then [] else e.text) =
        if e'.kind = .byteOrderMark then [] else e'.text := by
      rw [← hkind]
      split
      · rfl
      · exact htext ‹_›
    rw [hids, htexts, hkind, htitle]

/-- A scope that ends, and behind it a text with markup. -/
theorem sourceTextFaithful_marked :
    let entries : List Entry :=
      [ ⟨⟨'N', .opening, "Node".toList⟩, [], some 1, 1, false⟩,
        ⟨CodeTable.empty, ['°'], some 2, 2, true⟩,
        ⟨⟨'n', .closing, "Node".toList⟩, [], none, 2, false⟩,
        ⟨CodeTable.text, "<".toList, some 3, 3, false⟩ ]
    Model.ofLines ["N".toList, "n".toList, "T<".toList] = .ok { entries } ∧
      Model.SourceTextFaithful { entries } := by
  intro entries
  have h : Model.ofLines ["N".toList, "n".toList, "T<".toList] = .ok { entries } := rfl
  exact ⟨h, sourceTextFaithful_of_ofLines h⟩

end Yeast
