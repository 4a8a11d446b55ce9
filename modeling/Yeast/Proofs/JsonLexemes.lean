import Yeast.Proofs.JsonReader

set_option autoImplicit false

/-! # What is written as JSON is read back

What is written in either layout is read back as the value (`read?_laidOut`), and the one layout
becomes the other when the space outside string literals is deleted (`withoutBlanks_laidOut`). Both
follow from what the lexemes of a value look like: no two words stand side by side, whether the
blanks between the lexemes are kept or not (`separate_lexemes`). Lexemes that are separate in this
sense are found again in their text, and the stack of the reader takes those of a value for the
value, whatever follows (`Stage.run?_lexemes`).
-/

namespace Yeast

namespace Json

/-! ## The lexemes of a value -/

namespace Lexeme

/-- The text of the lexeme is that of its kind. -/
def Proper : Lexeme → Prop
  | mark c => isMark c = true
  | word text => text ≠ [] ∧ text.all isWordChar = true
  | string _ => True
  | blank text => text ≠ [] ∧ text.all isSpace = true

def isWord : Lexeme → Bool
  | word _ => true
  | _ => false

/-- The lexeme is more than space. -/
def isSolid (l : Lexeme) : Bool := !l.isBlank

end Lexeme

/-- The lexemes do not begin with a word. -/
def Detached (ls : List Lexeme) : Prop := ∀ l, ls.head? = some l → l.isWord = false

/-- The lexemes are proper, and no two words among them stand side by side. -/
inductive Separate : List Lexeme → Prop
  | nil : Separate []
  | cons {l : Lexeme} {ls : List Lexeme} : l.Proper → (l.isWord = true → Detached ls) →
      Separate ls → Separate (l :: ls)

def Layout.keeps : Layout → Lexeme → Bool
  | indented, _ => true
  | compact, l => l.isSolid

theorem laidOut_eq_filter (layout : Layout) (v : Json) :
    laidOut layout v = (lexemes 0 v).filter layout.keeps := by
  cases layout with
  | indented => exact (List.filter_eq_self.mpr fun _ _ => rfl).symm
  | compact => rfl

theorem Layout.keeps_of_isSolid (layout : Layout) (l : Lexeme) (h : l.isSolid = true) :
    layout.keeps l = true := by
  cases layout with
  | indented => rfl
  | compact => exact h

theorem all_isWordChar_ofInt (n : Int) : (Text.ofInt n).all isWordChar = true := by
  have hdigit : ∀ n : Nat, (Text.ofNat n).all isWordChar = true := by
    intro n
    rw [List.all_eq_true]
    intro c hc
    have hdigit : c.isDigit := Nat.isDigit_of_mem_toDigits (by decide) (by decide) hc
    simp [isWordChar, Char.isAlphanum, hdigit]
  cases n with
  | ofNat n => exact hdigit n
  | negSucc n =>
      show (isWordChar '-' && (Text.ofNat (n + 1)).all isWordChar) = true
      rw [hdigit]
      decide

section Filter

variable {keep : Lexeme → Bool}

theorem Separate.blank {ls : List Lexeme} (h : Separate ls) {text : Text} (hne : text ≠ [])
    (hspace : text.all isSpace = true) : Separate ([.blank text].filter keep ++ ls) := by
  by_cases hkept : keep (.blank text) = true
  · rw [List.filter_cons_of_pos hkept]
    exact .cons ⟨hne, hspace⟩ (fun hword => absurd hword (by simp [Lexeme.isWord])) h
  · rw [List.filter_cons_of_neg hkept]
    exact h

theorem Separate.row {ls : List Lexeme} (h : Separate ls) (level : Nat) :
    Separate ([.row level].filter keep ++ ls) := by
  refine h.blank (by simp) ?_
  simp [isSpace]

theorem Separate.solid {ls : List Lexeme} (h : Separate ls) {l : Lexeme} (hproper : l.Proper)
    (hword : l.isWord = false) : Separate (l :: ls) :=
  .cons hproper (fun h => absurd h (by simp [hword])) h

theorem Separate.field {ls : List Lexeme} (h : Separate ls) (name : Text) :
    Separate (.string name :: .mark ':' :: ([.blank [' ']].filter keep ++ ls)) := by
  have hblank : Separate ([.blank [' ']].filter keep ++ ls) := h.blank (by simp) (by decide)
  have hcolon : Separate (.mark ':' :: ([.blank [' ']].filter keep ++ ls)) := hblank.solid rfl rfl
  exact hcolon.solid trivial rfl

theorem Detached.row {ls : List Lexeme} (h : Detached ls) (level : Nat) :
    Detached ([.row level].filter keep ++ ls) := by
  by_cases hkept : keep (.row level) = true
  · rw [List.filter_cons_of_pos hkept]
    intro l hl
    rw [← Option.some.inj hl]
    rfl
  · rw [List.filter_cons_of_neg hkept]
    exact h

theorem Detached.mark (c : Char) (ls : List Lexeme) : Detached (.mark c :: ls) := by
  intro l hl
  rw [← Option.some.inj hl]
  rfl

variable (hkeep : ∀ l, l.isSolid = true → keep l = true)

include hkeep

theorem filter_array (level : Nat) (v : Json) (items : List Json) (ls : List Lexeme) :
    (lexemes level (.array (v :: items))).filter keep ++ ls =
      .mark '[' :: ([.row (level + 1)].filter keep ++ ((lexemes (level + 1) v).filter keep ++
        ((moreItems (level + 1) items).filter keep ++
          ([.row level].filter keep ++ .mark ']' :: ls)))) := by
  have hopen := hkeep (.mark '[') rfl
  have hclose := hkeep (.mark ']') rfl
  simp only [lexemes, List.filter_append, List.filter_cons, List.filter_nil, hopen, hclose]
  cases keep (.row (level + 1)) <;> cases keep (.row level) <;> simp

theorem filter_moreItems (level : Nat) (v : Json) (items : List Json) (ls : List Lexeme) :
    (moreItems level (v :: items)).filter keep ++ ls =
      .mark ',' :: ([.row level].filter keep ++ ((lexemes level v).filter keep ++
        ((moreItems level items).filter keep ++ ls))) := by
  have hcomma := hkeep (.mark ',') rfl
  simp only [moreItems, List.filter_append, List.filter_cons, List.filter_nil, hcomma]
  cases keep (.row level) <;> simp

theorem filter_object (level : Nat) (name : Text) (v : Json) (fields : List (Text × Json))
    (ls : List Lexeme) :
    (lexemes level (.object ((name, v) :: fields))).filter keep ++ ls =
      .mark '\x7b' :: ([.row (level + 1)].filter keep ++ (.string name :: .mark ':' ::
        ([.blank [' ']].filter keep ++ ((lexemes (level + 1) v).filter keep ++
          ((moreFields (level + 1) fields).filter keep ++
            ([.row level].filter keep ++ .mark '\x7d' :: ls)))))) := by
  have hopen := hkeep (.mark '\x7b') rfl
  have hclose := hkeep (.mark '\x7d') rfl
  have hname := hkeep (.string name) rfl
  have hcolon := hkeep (.mark ':') rfl
  simp only [lexemes, List.filter_append, List.filter_cons, List.filter_nil, hopen, hclose, hname,
    hcolon]
  cases keep (.row (level + 1)) <;> cases keep (.row level) <;> cases keep (.blank [' ']) <;> simp

theorem filter_moreFields (level : Nat) (name : Text) (v : Json) (fields : List (Text × Json))
    (ls : List Lexeme) :
    (moreFields level ((name, v) :: fields)).filter keep ++ ls =
      .mark ',' :: ([.row level].filter keep ++ (.string name :: .mark ':' ::
        ([.blank [' ']].filter keep ++ ((lexemes level v).filter keep ++
          ((moreFields level fields).filter keep ++ ls))))) := by
  have hcomma := hkeep (.mark ',') rfl
  have hname := hkeep (.string name) rfl
  have hcolon := hkeep (.mark ':') rfl
  simp only [moreFields, List.filter_append, List.filter_cons, List.filter_nil, hcomma, hname,
    hcolon]
  cases keep (.row level) <;> cases keep (.blank [' ']) <;> simp

theorem detached_moreItems {ls : List Lexeme} (h : Detached ls) (level : Nat)
    (items : List Json) : Detached ((moreItems level items).filter keep ++ ls) := by
  cases items with
  | nil => exact h
  | cons v items =>
      rw [filter_moreItems hkeep]
      exact .mark _ _

theorem detached_moreFields {ls : List Lexeme} (h : Detached ls) (level : Nat)
    (fields : List (Text × Json)) : Detached ((moreFields level fields).filter keep ++ ls) := by
  cases fields with
  | nil => exact h
  | cons field fields =>
      rw [filter_moreFields hkeep]
      exact .mark _ _

theorem separate_word {ls : List Lexeme} (h : Separate ls) (hdetached : Detached ls) {text : Text}
    (hne : text ≠ []) (hword : text.all isWordChar = true) :
    Separate ([.word text].filter keep ++ ls) := by
  rw [List.filter_cons_of_pos (hkeep _ rfl)]
  exact .cons ⟨hne, hword⟩ (fun _ => hdetached) h

mutual

/-- No two words stand side by side in a value, whatever is kept of the blanks. -/
theorem separate_lexemes (v : Json) (level : Nat) {ls : List Lexeme} (h : Separate ls)
    (hdetached : Detached ls) : Separate ((lexemes level v).filter keep ++ ls) := by
  match v with
  | .null => exact separate_word hkeep h hdetached (by decide) (by decide)
  | .bool true => exact separate_word hkeep h hdetached (by decide) (by decide)
  | .bool false => exact separate_word hkeep h hdetached (by decide) (by decide)
  | .int n =>
      refine separate_word hkeep h hdetached ?_ (all_isWordChar_ofInt n)
      cases n with
      | ofNat n => exact Nat.toDigits_ne_nil
      | negSucc n => exact List.cons_ne_nil _ _
  | .string text =>
      rw [lexemes, List.filter_cons_of_pos (hkeep _ rfl)]
      exact h.solid trivial rfl
  | .array [] =>
      rw [lexemes, List.filter_cons_of_pos (hkeep _ rfl),
        List.filter_cons_of_pos (hkeep _ rfl)]
      have hclose : Separate (.mark ']' :: ls) := h.solid rfl rfl
      exact hclose.solid rfl rfl
  | .object [] =>
      rw [lexemes, List.filter_cons_of_pos (hkeep _ rfl),
        List.filter_cons_of_pos (hkeep _ rfl)]
      have hclose : Separate (.mark '\x7d' :: ls) := h.solid rfl rfl
      exact hclose.solid rfl rfl
  | .array (v :: items) =>
      -- The lexemes are put together from the end of the array to its beginning.
      rw [filter_array hkeep]
      have hclose : Separate (.mark ']' :: ls) := h.solid rfl rfl
      have hend : Separate ([.row level].filter keep ++ .mark ']' :: ls) := hclose.row level
      have hfirst : Detached ([.row level].filter keep ++ .mark ']' :: ls) :=
        (Detached.mark ']' ls).row level
      have hmore := separate_moreItems items (level + 1) hend hfirst
      have hbetween := detached_moreItems hkeep hfirst (level + 1) items
      exact ((separate_lexemes v (level + 1) hmore hbetween).row _).solid rfl rfl
  | .object ((name, v) :: fields) =>
      rw [filter_object hkeep]
      have hclose : Separate (.mark '\x7d' :: ls) := h.solid rfl rfl
      have hend : Separate ([.row level].filter keep ++ .mark '\x7d' :: ls) := hclose.row level
      have hfirst : Detached ([.row level].filter keep ++ .mark '\x7d' :: ls) :=
        (Detached.mark '\x7d' ls).row level
      have hmore := separate_moreFields fields (level + 1) hend hfirst
      have hbetween := detached_moreFields hkeep hfirst (level + 1) fields
      have hvalue := separate_lexemes v (level + 1) hmore hbetween
      exact ((hvalue.field name).row _).solid rfl rfl

theorem separate_moreItems (items : List Json) (level : Nat) {ls : List Lexeme} (h : Separate ls)
    (hdetached : Detached ls) : Separate ((moreItems level items).filter keep ++ ls) := by
  match items with
  | [] => exact h
  | v :: items =>
      rw [filter_moreItems hkeep]
      have hmore := separate_moreItems items level h hdetached
      have hbetween := detached_moreItems hkeep hdetached level items
      exact ((separate_lexemes v level hmore hbetween).row _).solid rfl rfl

theorem separate_moreFields (fields : List (Text × Json)) (level : Nat) {ls : List Lexeme}
    (h : Separate ls) (hdetached : Detached ls) :
    Separate ((moreFields level fields).filter keep ++ ls) := by
  match fields with
  | [] => exact h
  | (name, v) :: fields =>
      rw [filter_moreFields hkeep]
      have hmore := separate_moreFields fields level h hdetached
      have hbetween := detached_moreFields hkeep hdetached level fields
      have hvalue := separate_lexemes v level hmore hbetween
      exact ((hvalue.field name).row _).solid rfl rfl

end

end Filter

/-! ## Lexemes are read back -/

theorem isMark_apart {c : Char} (h : isMark c = true) :
    isSpace c = false ∧ isWordChar c = false := by
  simp only [isMark, Bool.or_eq_true, beq_iff_eq] at h
  rcases h with ((((rfl | rfl) | rfl) | rfl) | rfl) | rfl <;> decide

theorem isSpace_apart {c : Char} (h : isSpace c = true) : isWordChar c = false := by
  simp only [isSpace, Bool.or_eq_true, beq_iff_eq] at h
  rcases h with ((rfl | rfl) | rfl) | rfl <;> decide

theorem isWordChar_apart {c : Char} (h : isWordChar c = true) :
    isSpace c = false ∧ isMark c = false ∧ c ≠ '"' := by
  refine ⟨?_, ?_, ?_⟩
  · cases hspace : isSpace c with
    | false => rfl
    | true => simp [isSpace_apart hspace] at h
  · cases hmark : isMark c with
    | false => rfl
    | true => simp [(isMark_apart hmark).2] at h
  · rintro rfl
    exact absurd h (by decide)

/-- A text whose lexemes do not begin with a word goes on with none. -/
theorem head?_text_of_detached {ls : List Lexeme} (h : Separate ls) (hdetached : Detached ls)
    (c : Char) (hc : (ls.flatMap Lexeme.text).head? = some c) : isWordChar c = false := by
  cases h with
  | nil => simp at hc
  | @cons l ls hproper _ _ =>
      have hword := hdetached l rfl
      cases l with
      | mark d =>
          obtain rfl : d = c := Option.some.inj hc
          exact (isMark_apart hproper).2
      | word text => simp [Lexeme.isWord] at hword
      | string text =>
          obtain rfl : '"' = c := Option.some.inj hc
          decide
      | blank text =>
          cases text with
          | nil => exact absurd rfl hproper.1
          | cons d text =>
              obtain rfl : d = c := Option.some.inj hc
              exact isSpace_apart (List.all_eq_true.mp hproper.2 d List.mem_cons_self)

theorem takeWhile_isWordChar {text rest : Text} (htext : text.all isWordChar = true)
    (hrest : ∀ c, rest.head? = some c → isWordChar c = false) :
    (text ++ rest).takeWhile isWordChar = text ∧ (text ++ rest).dropWhile isWordChar = rest := by
  have hall : ∀ c ∈ text, isWordChar c = true := List.all_eq_true.mp htext
  rw [List.takeWhile_append_of_pos hall, List.dropWhile_append_of_pos hall]
  cases rest with
  | nil => simp
  | cons c rest =>
      have hc := hrest c rfl
      simp [hc]

theorem lexemes?_blank {text : Text} (h : text.all isSpace = true) (rest : Text) :
    lexemes? (text ++ rest) = lexemes? rest := by
  induction text with
  | nil => rfl
  | cons c text ih =>
      rw [List.all_cons, Bool.and_eq_true] at h
      rw [List.cons_append, lexemes?, if_pos h.1, ih h.2]

/-- Lexemes that are separate are read back, without the blanks among them. -/
theorem lexemes?_of_separate {ls : List Lexeme} (h : Separate ls) :
    lexemes? (ls.flatMap Lexeme.text) = some (ls.filter Lexeme.isSolid) := by
  induction h with
  | nil => rw [List.flatMap_nil, lexemes?]; rfl
  | @cons l ls hproper hnext hls ih =>
      -- The first character of a lexeme tells its kind. Only a word has to be told from what
      -- follows.
      rw [List.flatMap_cons]
      cases l with
      | mark c =>
          have hmark : isMark c = true := hproper
          show lexemes? (c :: ls.flatMap Lexeme.text) = _
          rw [lexemes?, if_neg (by simp [(isMark_apart hmark).1]), if_pos hmark, ih]
          rfl
      | word text =>
          obtain ⟨hne, hword⟩ := hproper
          obtain ⟨c, text, rfl⟩ := List.exists_cons_of_ne_nil hne
          rw [List.all_cons, Bool.and_eq_true] at hword
          obtain ⟨hspace, hmark, hquote⟩ := isWordChar_apart hword.1
          obtain ⟨htake, hdrop⟩ := takeWhile_isWordChar hword.2
            (head?_text_of_detached hls (hnext rfl))
          show lexemes? (c :: (text ++ ls.flatMap Lexeme.text)) = _
          rw [lexemes?, if_neg (by simp [hspace]), if_neg (by simp [hmark]), if_neg hquote,
            if_pos hword.1, htake, hdrop, ih]
          rfl
      | string text =>
          have hstring := string?_written text (ls.flatMap Lexeme.text)
          show lexemes? ('"' :: (text.flatMap escapedChar ++ ['"']) ++ ls.flatMap Lexeme.text) = _
          rw [List.cons_append, List.append_assoc, List.singleton_append, lexemes?,
            if_neg (by decide), if_neg (by decide), if_pos rfl]
          split
          · rename_i heq
            rw [hstring] at heq
            obtain ⟨rfl, rfl⟩ := Prod.mk.inj (Option.some.inj heq)
            rw [ih]
            rfl
          · rename_i heq
            rw [hstring] at heq
            simp at heq
      | blank text =>
          show lexemes? (text ++ ls.flatMap Lexeme.text) = _
          rw [lexemes?_blank hproper.2, ih]
          rfl

/-! ## Values are read back -/

namespace Stage

theorem run?_cons {stage stage' : Stage} {l : Lexeme} (h : stage.step? l = some stage')
    (ls : List Lexeme) : stage.run? (l :: ls) = stage'.run? ls := by
  rw [run?, h]
  rfl

/-- The first item of an array is read like any other, since no value begins with the end of an
array. -/
theorem run?_arrayStart (frames : List Frame) (level : Nat) (v : Json) (ls : List Lexeme) :
    (arrayStart frames).run? ((lexemes level v).filter Lexeme.isSolid ++ ls) =
      (value (.array [] :: frames)).run? ((lexemes level v).filter Lexeme.isSolid ++ ls) := by
  cases v with
  | null => rfl
  | bool b => cases b <;> rfl
  | int n => rfl
  | string text => rfl
  | array items => cases items <;> rfl
  | object fields => cases fields <;> rfl

mutual

/-- The lexemes of a value are read as the value. -/
theorem run?_lexemes (v : Json) (level : Nat) (frames : List Frame) (ls : List Lexeme) :
    (value frames).run? ((lexemes level v).filter Lexeme.isSolid ++ ls) =
      (whole frames v).run? ls := by
  match v with
  | .null => rfl
  | .bool true => rfl
  | .bool false => rfl
  -- of the values without parts only a number has to be read back
  | .int n =>
      refine run?_cons ?_ ls
      show (scalar? (Text.ofInt n)).map (whole frames) = _
      rw [scalar?_ofInt]
      rfl
  | .string text => rfl
  | .array [] => rfl
  | .object [] => rfl
  | .array (v :: items) =>
      rw [filter_array fun _ h => h]
      show (arrayStart frames).run? ((lexemes (level + 1) v).filter Lexeme.isSolid ++ _) = _
      rw [run?_arrayStart, run?_lexemes v]
      exact run?_moreItems items (level + 1) frames [] v ls
  | .object ((name, v) :: fields) =>
      rw [filter_object fun _ h => h]
      show (value (.object [] name :: frames)).run?
        ((lexemes (level + 1) v).filter Lexeme.isSolid ++ _) = _
      rw [run?_lexemes v]
      exact run?_moreFields fields (level + 1) frames [] name v ls

theorem run?_moreItems (items : List Json) (level : Nat) (frames : List Frame)
    (before : List Json) (v : Json) (ls : List Lexeme) :
    (whole (.array before :: frames) v).run? ((moreItems level items).filter Lexeme.isSolid ++
        .mark ']' :: ls) =
      (whole frames (.array (before.reverse ++ v :: items))).run? ls := by
  match items with
  | [] =>
      refine (run?_cons rfl ls).trans ?_
      rw [List.reverse_cons]
  | w :: items =>
      rw [filter_moreItems fun _ h => h]
      show (value (.array (v :: before) :: frames)).run?
        ((lexemes level w).filter Lexeme.isSolid ++ _) = _
      rw [run?_lexemes w]
      refine (run?_moreItems items level frames (v :: before) w ls).trans ?_
      rw [List.reverse_cons, List.append_assoc, List.singleton_append]

theorem run?_moreFields (fields : List (Text × Json)) (level : Nat) (frames : List Frame)
    (before : List (Text × Json)) (name : Text) (v : Json) (ls : List Lexeme) :
    (whole (.object before name :: frames) v).run?
        ((moreFields level fields).filter Lexeme.isSolid ++ .mark '\x7d' :: ls) =
      (whole frames (.object (before.reverse ++ (name, v) :: fields))).run? ls := by
  match fields with
  | [] =>
      refine (run?_cons rfl ls).trans ?_
      rw [List.reverse_cons]
  | (name', w) :: fields =>
      rw [filter_moreFields fun _ h => h]
      show (value (.object ((name, v) :: before) name' :: frames)).run?
        ((lexemes level w).filter Lexeme.isSolid ++ _) = _
      rw [run?_lexemes w]
      refine (run?_moreFields fields level frames ((name, v) :: before) name' w ls).trans ?_
      rw [List.reverse_cons, List.append_assoc, List.singleton_append]

end

end Stage

theorem separate_laidOut (layout : Layout) (v : Json) : Separate (laidOut layout v) := by
  have h := separate_lexemes layout.keeps_of_isSolid v 0 .nil (fun _ hl => by simp at hl)
  rw [List.append_nil] at h
  rw [laidOut_eq_filter]
  exact h

theorem filter_laidOut (layout : Layout) (v : Json) :
    (laidOut layout v).filter Lexeme.isSolid = (lexemes 0 v).filter Lexeme.isSolid := by
  rw [laidOut_eq_filter, List.filter_filter]
  refine List.filter_congr fun l _ => ?_
  cases hl : l.isSolid with
  | false => rfl
  | true => rw [layout.keeps_of_isSolid l hl]; rfl

/-- **What is written in either layout is read back.** -/
theorem read?_laidOut (layout : Layout) (v : Json) :
    read? ((laidOut layout v).flatMap Lexeme.text) = some v := by
  have hrun := Stage.run?_lexemes v 0 [] []
  rw [List.append_nil] at hrun
  rw [read?, lexemes?_of_separate (separate_laidOut layout v), filter_laidOut, Option.bind_some,
    hrun]
  rfl

/-! ## Space outside string literals -/

/-- Where a character of a JSON text stands. -/
inductive Place where
  | outside
  /-- In a string literal. -/
  | inside
  /-- In a string literal, behind a backslash that begins an escape. -/
  | escaped

def Place.next : Place → Char → Place
  | outside, c => if c = '"' then inside else outside
  | inside, c => if c = '"' then outside else if c = '\\' then escaped else inside
  | escaped, _ => inside

/-- The text from the given place on, without the space outside string literals. -/
def withoutBlanksFrom : Place → Text → Text
  | _, [] => []
  | .outside, c :: rest =>
    if isSpace c then withoutBlanksFrom .outside rest
    else c :: withoutBlanksFrom (Place.outside.next c) rest
  | place, c :: rest => c :: withoutBlanksFrom (place.next c) rest

/-- The text without the space outside string literals. -/
def withoutBlanks (text : Text) : Text := withoutBlanksFrom .outside text

theorem withoutBlanksFrom_blank {text : Text} (h : text.all isSpace = true) (rest : Text) :
    withoutBlanksFrom .outside (text ++ rest) = withoutBlanksFrom .outside rest := by
  induction text with
  | nil => rfl
  | cons c text ih =>
      rw [List.all_cons, Bool.and_eq_true] at h
      rw [List.cons_append, withoutBlanksFrom, if_pos h.1, ih h.2]

theorem withoutBlanksFrom_outside {c : Char} (hspace : isSpace c = false) (hquote : c ≠ '"')
    (rest : Text) :
    withoutBlanksFrom .outside (c :: rest) = c :: withoutBlanksFrom .outside rest := by
  rw [withoutBlanksFrom, if_neg (by simp [hspace]), Place.next, if_neg hquote]

theorem withoutBlanksFrom_word {text : Text} (h : text.all isWordChar = true) (rest : Text) :
    withoutBlanksFrom .outside (text ++ rest) = text ++ withoutBlanksFrom .outside rest := by
  induction text with
  | nil => rfl
  | cons c text ih =>
      rw [List.all_cons, Bool.and_eq_true] at h
      obtain ⟨hspace, -, hquote⟩ := isWordChar_apart h.1
      rw [List.cons_append, withoutBlanksFrom_outside hspace hquote, ih h.2, List.cons_append]

theorem withoutBlanksFrom_inside {c : Char} (hquote : c ≠ '"') (hbackslash : c ≠ '\\')
    (rest : Text) :
    withoutBlanksFrom .inside (c :: rest) = c :: withoutBlanksFrom .inside rest := by
  rw [withoutBlanksFrom, Place.next, if_neg hquote, if_neg hbackslash]
  simp

theorem not_special_hexadecimal : ∀ n, n < 0x20 →
    (Text.hexadecimal 4 n).all (fun c => c != '"' && c != '\\') = true := by
  decide

theorem withoutBlanksFrom_digits {digits : Text}
    (h : digits.all (fun c => c != '"' && c != '\\') = true) (rest : Text) :
    withoutBlanksFrom .inside (digits ++ rest) = digits ++ withoutBlanksFrom .inside rest := by
  induction digits with
  | nil => rfl
  | cons c digits ih =>
      simp only [List.all_cons, Bool.and_eq_true, bne_iff_ne] at h
      obtain ⟨⟨hquote, hbackslash⟩, hmore⟩ := h
      rw [List.cons_append, withoutBlanksFrom_inside hquote hbackslash, ih hmore,
        List.cons_append]

/-- What stands for a character in a string literal is kept. -/
theorem withoutBlanksFrom_escapedChar (c : Char) (rest : Text) :
    withoutBlanksFrom .inside (escapedChar c ++ rest) =
      escapedChar c ++ withoutBlanksFrom .inside rest := by
  unfold escapedChar
  split_ifs with hquote hbackslash _ _ _ _ _ hcontrol
  · rfl
  · rfl
  · rfl
  · rfl
  · rfl
  · rfl
  · rfl
  · have hdigits := withoutBlanksFrom_digits (not_special_hexadecimal c.toNat hcontrol) rest
    exact congrArg (fun text => '\\' :: 'u' :: text) hdigits
  · exact withoutBlanksFrom_inside hquote hbackslash rest

theorem withoutBlanksFrom_string (text rest : Text) :
    withoutBlanksFrom .inside (text.flatMap escapedChar ++ '"' :: rest) =
      text.flatMap escapedChar ++ '"' :: withoutBlanksFrom .outside rest := by
  induction text with
  | nil => rfl
  | cons c text ih =>
      rw [List.flatMap_cons, List.append_assoc, withoutBlanksFrom_escapedChar, ih,
        List.append_assoc]

/-- Of lexemes, the blanks are deleted and nothing else. -/
theorem withoutBlanks_of_separate {ls : List Lexeme} (h : Separate ls) :
    withoutBlanks (ls.flatMap Lexeme.text) = (ls.filter Lexeme.isSolid).flatMap Lexeme.text := by
  unfold withoutBlanks
  induction h with
  | nil => rfl
  | @cons l ls hproper _ _ ih =>
      rw [List.flatMap_cons]
      -- only a blank is dropped: those in a string stand between its quotes
      cases l with
      | mark c =>
          have hmark : isMark c = true := hproper
          have hquote : c ≠ '"' := by
            rintro rfl
            exact absurd hmark (by decide)
          exact (withoutBlanksFrom_outside (isMark_apart hmark).1 hquote _).trans
            (congrArg (c :: ·) ih)
      | word text => exact (withoutBlanksFrom_word hproper.2 _).trans (congrArg (text ++ ·) ih)
      | string text =>
          have hstring := withoutBlanksFrom_string text (ls.flatMap Lexeme.text)
          rw [ih] at hstring
          show withoutBlanksFrom .outside
            ('"' :: (text.flatMap escapedChar ++ ['"']) ++ ls.flatMap Lexeme.text) =
            '"' :: (text.flatMap escapedChar ++ ['"']) ++
              (ls.filter Lexeme.isSolid).flatMap Lexeme.text
          rw [List.cons_append, List.append_assoc, List.singleton_append, List.cons_append,
            List.append_assoc, List.singleton_append]
          exact congrArg ('"' :: ·) hstring
      | blank text => exact (withoutBlanksFrom_blank hproper.2 _).trans ih

/-- **Without the space outside its string literals, each layout is the compact one.** -/
theorem withoutBlanks_laidOut (layout : Layout) (v : Json) :
    withoutBlanks ((laidOut layout v).flatMap Lexeme.text) =
      (laidOut .compact v).flatMap Lexeme.text := by
  rw [withoutBlanks_of_separate (separate_laidOut layout v), filter_laidOut]
  rfl

end Json

end Yeast
