import Yeast.Proofs.Legal

set_option autoImplicit false

/-! # Diagnostics have a visible form

What a stream is refused for is said in one line, whatever the stream holds: a quoted text has
printable characters only (`Text.visible_quoted`), the titles of the code table and the words
around them are printable, and no printable character breaks a line. The line tells first which
line of the stream is to blame (`Stream.Blames.exists_message`).
-/

namespace Yeast

namespace Text

/-- Every character of the text has a visible form or is the space. -/
def Visible (text : Text) : Prop := text.all printable = true

instance : DecidablePred Visible := fun text =>
  inferInstanceAs (Decidable (text.all printable = true))

theorem visible_iff (text : Text) : text.Visible ↔ ∀ c ∈ text, printable c = true :=
  List.all_eq_true

/-- The characters that break a line in some convention. -/
def lineBreaks : List Char :=
  ['\n', '\x0B', '\x0C', '\r', '\x1C', '\x1D', '\x1E', '\u0085', '\u2028', '\u2029']

theorem not_any_printable_lineBreaks : lineBreaks.any printable = false := by
  decide +kernel

theorem Visible.not_mem_lineBreaks {text : Text} (h : text.Visible) {c : Char} (hc : c ∈ text) :
    c ∉ lineBreaks := fun hbreak =>
  List.any_eq_false.mp not_any_printable_lineBreaks c hbreak ((visible_iff text).mp h c hc)

theorem visible_append {text more : Text} :
    Visible (text ++ more) ↔ text.Visible ∧ more.Visible := by
  simp only [visible_iff, List.forall_mem_append]

theorem visible_cons {c : Char} {text : Text} :
    Visible (c :: text) ↔ printable c = true ∧ text.Visible := by
  simp only [visible_iff, List.forall_mem_cons]

/-! ## Numerals -/

theorem printable_digitChar : ∀ d, d < 16 → printable (Nat.digitChar d) = true := by
  decide

theorem visible_toDigits {base : Nat} (hleast : 1 < base) (hgreatest : base ≤ 16) (n : Nat) :
    Visible (Nat.toDigits base n) := by
  induction n using Nat.strongRecOn with
  | ind n ih =>
      rcases Nat.lt_or_ge n base with hlt | hge
      · rw [Nat.toDigits_of_lt_base hlt]
        exact visible_cons.mpr ⟨printable_digitChar n (by omega), by decide⟩
      · rw [Nat.toDigits_of_base_le hleast hge]
        have hlast : n % base < base := Nat.mod_lt n (by omega)
        exact visible_append.mpr ⟨ih (n / base) (Nat.div_lt_self (by omega) hleast),
          visible_cons.mpr ⟨printable_digitChar _ (by omega), by decide⟩⟩

theorem visible_ofInt (n : Int) : Visible (Text.ofInt n) := by
  have hnat : ∀ n : Nat, Visible (Text.ofNat n) := visible_toDigits (by omega) (by omega)
  cases n with
  | ofNat n => exact hnat n
  | negSucc n => exact visible_cons.mpr ⟨by decide, hnat (n + 1)⟩

theorem visible_hexadecimal (width n : Nat) : Visible (hexadecimal width n) := by
  refine visible_append.mpr
    ⟨(visible_iff _).mpr fun c hc => ?_, visible_toDigits (by omega) (by omega) n⟩
  rw [List.eq_of_mem_replicate hc]
  decide

/-! ## Quoted texts -/

theorem visible_codePointEscape (c : Char) : Visible (codePointEscape c) := by
  unfold codePointEscape
  split_ifs <;>
    exact visible_cons.mpr ⟨by decide, visible_cons.mpr ⟨by decide, visible_hexadecimal _ _⟩⟩

theorem visible_quotedChar {mark : Char} (hmark : printable mark = true) (c : Char) :
    Visible (quotedChar mark c) := by
  unfold quotedChar
  split_ifs with hescaped _ _ _ hprintable
  · refine visible_cons.mpr ⟨by decide, visible_cons.mpr ⟨?_, by decide⟩⟩
    rcases hescaped with rfl | rfl
    · exact hmark
    · decide
  · decide
  · decide
  · decide
  · exact visible_cons.mpr ⟨hprintable, by decide⟩
  · exact visible_codePointEscape c

/-- **A quoted text has printable characters only.** -/
theorem visible_quoted (text : Text) : Visible text.quoted := by
  have hmark : printable text.quotationMark = true := by
    unfold quotationMark
    split_ifs <;> decide
  have hinside : Visible (text.flatMap (quotedChar text.quotationMark)) := by
    rw [visible_iff]
    intro c hc
    obtain ⟨d, -, hd⟩ := List.mem_flatMap.mp hc
    exact (visible_iff _).mp (visible_quotedChar hmark d) c hd
  exact visible_append.mpr
    ⟨visible_cons.mpr ⟨hmark, hinside⟩, visible_cons.mpr ⟨hmark, by decide⟩⟩

end Text

open Text

theorem CodeTable.visible_title : ∀ d ∈ descriptors, Visible d.title := by
  decide +kernel

theorem visible_atLine (line : Int) {reason : Text} (h : reason.Visible) :
    Visible (atLine line reason) := by
  unfold atLine
  simp only [visible_append]
  exact ⟨⟨⟨by decide, visible_ofInt line⟩, by decide⟩, h⟩

namespace Stream

/-- The opening or closing code of a line stands in the table. -/
theorem exists_descriptor_of_bracket {line : Text} {number : Int}
    {x : Bracket OpenScope Descriptor} (h : bracket? line number = some x) :
    ∃ d ∈ CodeTable.descriptors, x = .opening ⟨number, d⟩ ∨ x = .closing d := by
  unfold bracket? at h
  split at h
  · rename_i d text hreading
    refine ⟨d, Builder.mem_descriptors_of_reading hreading, ?_⟩
    split at h
    · exact Or.inl (Option.some.inj h).symm
    · exact Or.inr (Option.some.inj h).symm
    · simp at h
  · simp at h

theorem mem_descriptors_of_closing {line : Text} {number : Int} {d : Descriptor}
    (h : bracket? line number = some (.closing d)) : d ∈ CodeTable.descriptors := by
  obtain ⟨d', hd', heq | heq⟩ := exists_descriptor_of_bracket h
  · simp at heq
  · rwa [Bracket.closing.inj heq]

/-- Every scope that lines open has a descriptor of the table. -/
theorem mem_descriptors_of_opening {number : Int} {lines : List Text} {s : OpenScope}
    (h : .opening s ∈ bracketsFrom number lines) : s.descriptor ∈ CodeTable.descriptors := by
  induction lines generalizing number with
  | nil => simp [bracketsFrom] at h
  | cons line lines ih =>
      rcases List.mem_append.mp h with hline | hmore
      · obtain ⟨d, hd, heq | heq⟩ := exists_descriptor_of_bracket (Option.mem_toList.mp hline)
        · rwa [Bracket.opening.inj heq]
        · simp at heq
      · exact ih hmore

/-- **What a line is blamed for is said after its number, in printable characters.** -/
theorem Blames.exists_message {before : List Text} {line : Text} {number : Int}
    {fault : StreamFault} (h : Blames before line number fault) :
    ∃ reason, fault.message = atLine number reason ∧ reason.Visible := by
  cases h with
  | emptyRecord _ => exact ⟨_, rfl, by decide⟩
  | unknownCode _ _ _ => exact ⟨_, rfl, visible_append.mpr ⟨by decide, visible_quoted _⟩⟩
  | @unopened d hbracket _ =>
      have htitle := CodeTable.visible_title d (mem_descriptors_of_closing hbracket)
      refine ⟨_, rfl, ?_⟩
      simp only [visible_append, visible_quoted, htitle, and_true]
      decide
  | @mismatch d s outer inner hbracket hsplit _ _ =>
      have htitle := CodeTable.visible_title d (mem_descriptors_of_closing hbracket)
      -- The scope that is open was opened by a line before, with a title of the table.
      have hopened : .opening s ∈ brackets before := by
        rw [hsplit]
        simp
      have hopenTitle := CodeTable.visible_title _ (mem_descriptors_of_opening hopened)
      refine ⟨_, rfl, ?_⟩
      simp only [visible_append, visible_quoted, visible_ofInt, htitle, hopenTitle, and_true]
      decide

end Stream

end Yeast
