import Yeast.Model.Json
import Yeast.Proofs.JsonLexemes

set_option autoImplicit false

/-! # Nothing is lost in the dump of a model

The text of a model tells the value of the model (`Json.read?_laidOut`), and the value tells every
field of the entries and of the open scopes, but for the kind of a scope (`Entry.toJson_injective`,
`OpenScope.shown_of_toJson`). What has no text is a model one of whose numbers does not fit into 64
bits (`Model.fits_toJson_iff`). That holds of every model, whether a stream makes it or not
(`Model.lossless`).
-/

namespace Yeast

/-! ## Which values have a text -/

/-- The number fits a signed or an unsigned word of 64 bits. -/
def FitsWord (n : Int) : Prop := -0x8000000000000000 ≤ n ∧ n ≤ 0xFFFFFFFFFFFFFFFF

/-- Every number of the model fits a word. -/
structure Model.FitsWords (m : Model) : Prop where
  lines : ∀ e ∈ m.entries, FitsWord e.line
  ids : ∀ e ∈ m.entries, ∀ n, e.id = some n → FitsWord n
  openLines : ∀ s ∈ m.openScopes, FitsWord s.line

namespace Json

theorem inRange_iff (n : Int) : inRange n = true ↔ FitsWord n := by
  simp only [inRange, FitsWord, Bool.and_eq_true, decide_eq_true_eq]

theorem itemsFit_iff (items : List Json) : itemsFit items = true ↔ ∀ v ∈ items, v.fits = true := by
  induction items with
  | nil => simp [itemsFit]
  | cons v items ih =>
      rw [itemsFit, Bool.and_eq_true, ih, List.forall_mem_cons]

theorem fits_object_iff (fields : List (Text × Json)) :
    (object fields).fits = true ↔ ∀ field ∈ fields, field.2.fits = true := by
  rw [fits]
  induction fields with
  | nil => simp [fieldsFit]
  | cons field fields ih =>
      rw [fieldsFit, Bool.and_eq_true, ih, List.forall_mem_cons]

theorem fits_array_map_iff {α : Type} (f : α → Json) (items : List α) :
    (array (items.map f)).fits = true ↔ ∀ a ∈ items, (f a).fits = true := by
  rw [fits, itemsFit_iff, List.forall_mem_map]

theorem render_eq_ok_iff {layout : Layout} {v : Json} {text : Text} :
    v.render layout = .ok text ↔
      v.fits = true ∧ text = (laidOut layout v).flatMap Lexeme.text := by
  unfold render
  cases v.fits with
  | true =>
      rw [if_pos rfl, Except.ok.injEq]
      exact ⟨fun h => ⟨rfl, h.symm⟩, fun h => h.2.symm⟩
  | false =>
      rw [if_neg Bool.false_ne_true]
      simp

end Json

theorem Entry.fits_toJson_iff (e : Entry) :
    e.toJson.fits = true ↔ FitsWord e.line ∧ ∀ n, e.id = some n → FitsWord n := by
  rw [Entry.toJson, Json.fits_object_iff]
  simp only [List.forall_mem_cons, Json.fits, Json.inRange_iff]
  cases e.id with
  | none => simp [Json.fits]
  | some n =>
      simp only [Json.fits, Json.inRange_iff, Option.some.injEq, forall_eq']
      constructor
      · rintro ⟨-, -, -, -, -, hid, hline, -⟩
        exact ⟨hline, hid⟩
      · rintro ⟨hline, hid⟩
        exact ⟨trivial, trivial, trivial, trivial, trivial, hid, hline, trivial, by simp⟩

theorem OpenScope.fits_toJson_iff (s : OpenScope) : s.toJson.fits = true ↔ FitsWord s.line := by
  rw [OpenScope.toJson, Json.fits_object_iff]
  simp [Json.fits, Json.inRange_iff]

namespace Model

theorem fits_toJson_iff (m : Model) : m.toJson.fits = true ↔ m.FitsWords := by
  rw [toJson, Json.fits_object_iff]
  simp only [List.forall_mem_cons, Json.fits_array_map_iff, Entry.fits_toJson_iff,
    OpenScope.fits_toJson_iff]
  constructor
  · rintro ⟨hentries, hscopes, -⟩
    exact ⟨fun e he => (hentries e he).1, fun e he => (hentries e he).2, hscopes⟩
  · rintro ⟨hlines, hids, hscopes⟩
    exact ⟨fun e he => ⟨hlines e he, hids e he⟩, hscopes, by simp⟩

theorem dump_eq_ok_iff {layout : Json.Layout} {m : Model} {text : Text} :
    m.dump layout = .ok text ↔
      m.FitsWords ∧ text = (Json.laidOut layout m.toJson).flatMap Json.Lexeme.text ++ ['\n'] := by
  rw [← fits_toJson_iff, dump]
  cases hrender : m.toJson.render layout with
  | ok rendered =>
      obtain ⟨hfits, rfl⟩ := Json.render_eq_ok_iff.mp hrender
      rw [Except.ok.injEq]
      exact ⟨fun h => ⟨hfits, h.symm⟩, fun h => h.2.symm⟩
  | error fault =>
      have hnot : ¬ m.toJson.fits = true := by
        intro hfits
        rw [Json.render_eq_ok_iff.mpr ⟨hfits, rfl⟩] at hrender
        simp at hrender
      simp [hnot]

end Model

/-! ## Values tell the fields -/

theorem TokenKind.name_injective {kind kind' : TokenKind} (h : kind.name = kind'.name) :
    kind = kind' := by
  have hword := congrArg ofName? h
  rw [ofName?_name, ofName?_name] at hword
  exact Option.some.inj hword

theorem Entry.toJson_injective {e e' : Entry} (h : e.toJson = e'.toJson) : e = e' := by
  obtain ⟨⟨code, kind, title⟩, text, id, line, synthetic⟩ := e
  obtain ⟨⟨code', kind', title'⟩, text', id', line', synthetic'⟩ := e'
  simp only [Entry.toJson, Json.object.injEq, List.cons.injEq, Prod.mk.injEq, Json.string.injEq,
    Json.int.injEq, Json.bool.injEq, true_and, and_true] at h
  obtain ⟨rfl, hkind, rfl, rfl, -, hid, rfl, rfl⟩ := h
  obtain rfl := TokenKind.name_injective hkind
  have hid : id = id' := by
    cases id <;> cases id' <;> simp_all
  rw [hid]

/-- What the dump shows of an open scope: its line, its code and its title. -/
def OpenScope.shown (s : OpenScope) : Int × Char × Text :=
  (s.line, s.descriptor.code, s.descriptor.title)

theorem OpenScope.shown_of_toJson {s s' : OpenScope} (h : s.toJson = s'.toJson) :
    s.shown = s'.shown := by
  simp only [OpenScope.toJson, Json.object.injEq, List.cons.injEq, Prod.mk.injEq,
    Json.string.injEq, Json.int.injEq, true_and, and_true] at h
  obtain ⟨hline, hcode, htitle⟩ := h
  rw [OpenScope.shown, OpenScope.shown, hline, hcode, htitle]

/-- Lists that one map makes the same are made the same by every map that tells no more. -/
theorem map_eq_of_map_eq {α β γ : Type} {f : α → β} {g : α → γ}
    (hfg : ∀ a b, f a = f b → g a = g b) {l l' : List α} (h : l.map f = l'.map f) :
    l.map g = l'.map g := by
  induction l generalizing l' with
  | nil => rw [List.map_eq_nil_iff.mp h.symm]
  | cons a l ih =>
      obtain ⟨b, l', rfl, hab, hmore⟩ := List.map_eq_cons_iff.mp h.symm
      rw [List.map_cons, List.map_cons, hfg b a hab, ih hmore.symm]

namespace Model

theorem agree_of_toJson {m m' : Model} (h : m.toJson = m'.toJson) :
    m.entries = m'.entries ∧
      m.openScopes.map OpenScope.shown = m'.openScopes.map OpenScope.shown := by
  simp only [toJson, Json.object.injEq, List.cons.injEq, Prod.mk.injEq, Json.array.injEq,
    true_and, and_true] at h
  obtain ⟨hentries, hscopes⟩ := h
  constructor
  · have hsame : m.entries.map id = m'.entries.map id :=
      map_eq_of_map_eq (fun _ _ => Entry.toJson_injective) hentries
    rwa [List.map_id, List.map_id] at hsame
  · exact map_eq_of_map_eq (fun _ _ => OpenScope.shown_of_toJson) hscopes

/-- What the dump of a model keeps: all of it, if it has a text at all. -/
structure Lossless (m : Model) : Prop where
  /-- A model has no text just if some number of it does not fit a word. -/
  refused_iff : ∀ layout, (∃ fault, m.dump layout = .error fault) ↔ ¬ m.FitsWords
  /-- Before the last line feed there is a JSON text in either layout, which is read as the model's
  value; without its space the one is the other. -/
  dumped : m.FitsWords → ∃ indented compact,
    m.dump .indented = .ok (indented ++ ['\n']) ∧ m.dump .compact = .ok (compact ++ ['\n']) ∧
      Json.read? indented = some m.toJson ∧ Json.read? compact = some m.toJson ∧
      Json.withoutBlanks indented = compact
  /-- Models with one text agree, in every field of every entry and in what is shown of every open
  scope. -/
  determined : ∀ (m' : Model) layout layout' text,
    m.dump layout = .ok text → m'.dump layout' = .ok text →
      m.entries = m'.entries ∧
        m.openScopes.map OpenScope.shown = m'.openScopes.map OpenScope.shown

/-- **The dump of a model is lossless.** -/
theorem lossless (m : Model) : m.Lossless := by
  constructor
  · intro layout
    constructor
    · rintro ⟨fault, herror⟩ hfits
      rw [dump_eq_ok_iff.mpr ⟨hfits, rfl⟩] at herror
      simp at herror
    · intro hfits
      cases hdump : m.dump layout with
      | ok text => exact absurd (dump_eq_ok_iff.mp hdump).1 hfits
      | error fault => exact ⟨fault, rfl⟩
  · intro hfits
    exact ⟨_, _, dump_eq_ok_iff.mpr ⟨hfits, rfl⟩, dump_eq_ok_iff.mpr ⟨hfits, rfl⟩,
      Json.read?_laidOut .indented m.toJson, Json.read?_laidOut .compact m.toJson,
      Json.withoutBlanks_laidOut .indented m.toJson⟩
  · intro m' layout layout' text hm hm'
    obtain ⟨-, rfl⟩ := dump_eq_ok_iff.mp hm
    obtain ⟨-, heq⟩ := dump_eq_ok_iff.mp hm'
    have hvalue := Json.read?_laidOut layout m.toJson
    rw [List.append_cancel_right heq, Json.read?_laidOut] at hvalue
    exact agree_of_toJson (Option.some.inj hvalue).symm

end Model

end Yeast
