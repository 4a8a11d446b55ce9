import Mathlib.Algebra.Group.Nat.Even
import Mathlib.Data.List.Forall2
import Yeast.Proofs.Spelling

set_option autoImplicit false

/-! # Which sequences are replaced

A text is shown by one scan from left to right, but what is shown in place of a character can be
told from its position alone (`Text.ShownAt`): a sequence of the table is replaced wherever it
stands, unless it begins with a backslash and the run of backslashes right before that one is odd in
number (`Text.shownByParity`).

The reason is that the scan takes backslashes in pairs as long as it can, so it is between two units
where a run of backslashes begins, and behind each pair of the run (`withPlaceholders_append`). No
sequence holds a backslash or a blank but at its beginning, hence none is cut by another one and at
most one stands at a position (`Begins.unique`, `Begins.not_within`). That also makes the order
immaterial in which the table is tried.
-/

namespace Yeast

namespace Text

/-- How many backslashes the text ends in. -/
def trailingBackslashes (text : Text) : Nat := (text.reverse.takeWhile (· == '\\')).length

/-- The sequence of the placeholder stands at the position and is replaced: if it begins with a
backslash, the run of backslashes before that one is even in number. -/
structure Begins (text : Text) (i : Nat) (p : Placeholder) : Prop where
  mem : p ∈ Placeholder.table
  sequence : p.sequence <+: text.drop i
  even : p.sequence.head? = some '\\' → Even (trailingBackslashes (text.take i))

/-- No sequence that is replaced runs over the position. -/
def Uncut (text : Text) (i : Nat) : Prop :=
  ∀ j p, Begins text j p → j < i → j + p.sequence.length ≤ i

/-- What is shown in place of the character at the position: the symbol of the sequence that begins
there, nothing within a sequence, and otherwise the character itself. -/
inductive ShownAt (text : Text) (i : Nat) : Text → Prop
  | symbol {p : Placeholder} : Begins text i p → ShownAt text i [p.symbol]
  | within {j : Nat} {p : Placeholder} : Begins text j p → j < i → i < j + p.sequence.length →
      ShownAt text i []
  | kept {c : Char} : text[i]? = some c → (∀ p, ¬ Begins text i p) → Uncut text i →
      ShownAt text i [c]

/-- What replaces the sequences of a text; `mem_table_iff` lists them. -/
structure ShownByParity (text : Text) : Prop where
  /-- What is shown is put together from what is shown in place of each character. -/
  positions : ∃ parts, List.Forall₂ (ShownAt text) (List.range text.length) parts ∧
    text.withPlaceholders = parts.flatten
  /-- And this is determined by the position. -/
  unique : ∀ i part part', ShownAt text i part → ShownAt text i part' → part = part'
  /-- Pairs of backslashes are kept, and no sequence begins with the second half of one. -/
  pairs : ∀ before n rest, before.getLast? ≠ some '\\' →
    text = before ++ (List.replicate (2 * (n + 1)) '\\' ++ rest) →
    text.withPlaceholders =
      before.withPlaceholders ++ (List.replicate (2 * (n + 1)) '\\' ++ rest.withPlaceholders)
  /-- An escape behind any number of pairs is replaced. -/
  behindPairs : ∀ before n p after, before.getLast? ≠ some '\\' → p ∈ Placeholder.table →
    p.sequence.head? = some '\\' →
    text = before ++ (List.replicate (2 * n) '\\' ++ (p.sequence ++ after)) →
    text.withPlaceholders = before.withPlaceholders ++
      (List.replicate (2 * n) '\\' ++ p.symbol :: after.withPlaceholders)
  /-- It does not matter in which order the sequences are tried. -/
  order : ∀ table : List Placeholder, table.Perm Placeholder.table →
    substitute (Placeholder.escapedBackslash :: table.map fun p => ⟨p.sequence, [p.symbol]⟩) text =
      text.withPlaceholders

/-! ## The rows of the table -/

/-- Each sequence with the symbol that replaces it. -/
def replacements : List (Text × Char) :=
  [ (['\\', 'r'], '⏎'),
    (['\\', 'n'], '↓'),
    (['\\', 'x', '8', '5'], '⇓'),
    (['\\', 'u', '2', '0', '2', '8'], '§'),
    (['\\', 'u', '2', '0', '2', '9'], '¶'),
    (['\\', 't'], '→'),
    (['\t'], '→'),
    ([' '], '·'),
    (['\\', 'u', 'F', 'E', 'F', 'F'], '◆'),
    (['\\', 'u', 'f', 'e', 'f', 'f'], '◆') ]

/-- The table has these rows and no others. -/
theorem mem_table_iff {p : Placeholder} :
    p ∈ Placeholder.table ↔ (p.sequence, p.symbol) ∈ replacements := by
  have hrows : Placeholder.table.map (fun p => (p.sequence, p.symbol)) = replacements := rfl
  rw [← hrows, List.mem_map]
  constructor
  · intro h
    exact ⟨p, h, rfl⟩
  · rintro ⟨q, hq, hrow⟩
    obtain ⟨hsequence, hsymbol⟩ := Prod.mk.inj hrow
    obtain rfl : q = p := by
      cases q
      cases p
      exact congrArg₂ Placeholder.mk hsequence hsymbol
    exact hq

/-- So these are the sequences that are replaced, and these are shown for them. -/
theorem begins_iff {text : Text} {i : Nat} {p : Placeholder} :
    Begins text i p ↔
      (p.sequence, p.symbol) ∈ replacements ∧ p.sequence <+: text.drop i ∧
        (p.sequence.head? = some '\\' → Even (trailingBackslashes (text.take i))) := by
  rw [← mem_table_iff]
  constructor
  · rintro ⟨hmem, hsequence, heven⟩
    exact ⟨hmem, hsequence, heven⟩
  · rintro ⟨hmem, hsequence, heven⟩
    exact ⟨hmem, hsequence, heven⟩

/-! ## Runs of backslashes -/

theorem trailingBackslashes_append (text more : Text) :
    trailingBackslashes (text ++ more) =
      if trailingBackslashes more = more.length then more.length + trailingBackslashes text
      else trailingBackslashes more := by
  unfold trailingBackslashes
  rw [List.reverse_append, List.takeWhile_append, List.length_reverse]
  split_ifs
  · rw [List.length_append, List.length_reverse]
  · rfl

theorem trailingBackslashes_eq_zero_iff (text : Text) :
    trailingBackslashes text = 0 ↔ text.getLast? ≠ some '\\' := by
  rcases List.eq_nil_or_concat text with rfl | ⟨before, c, rfl⟩
  · simp [trailingBackslashes]
  · by_cases hc : c = '\\' <;> simp [trailingBackslashes, hc]

/-- What does not end in a backslash adds nothing to a run behind it. -/
theorem trailingBackslashes_append_of_left {text : Text} (h : text.getLast? ≠ some '\\')
    (more : Text) : trailingBackslashes (text ++ more) = trailingBackslashes more := by
  rw [trailingBackslashes_append, (trailingBackslashes_eq_zero_iff text).mpr h]
  split_ifs with hall
  · exact hall.symm
  · rfl

theorem trailingBackslashes_concat (text : Text) :
    trailingBackslashes (text ++ ['\\']) = trailingBackslashes text + 1 := by
  simp [trailingBackslashes]

/-- Behind something that does not end in a backslash there is no run. -/
theorem trailingBackslashes_append_of_right (text : Text) {more : Text} (hne : more ≠ [])
    (hlast : more.getLast? ≠ some '\\') : trailingBackslashes (text ++ more) = 0 := by
  rw [trailingBackslashes_eq_zero_iff, List.getLast?_append]
  rcases List.eq_nil_or_concat more with rfl | ⟨before, c, rfl⟩
  · exact absurd rfl hne
  · simpa using hlast

/-- A backslash before something that begins with none adds nothing to the run at the end. -/
theorem trailingBackslashes_cons {text : Text} (hne : text ≠ [])
    (hhead : text.head? ≠ some '\\') :
    trailingBackslashes ('\\' :: text) = trailingBackslashes text := by
  cases text with
  | nil => exact absurd rfl hne
  | cons c text =>
      have hc : c ≠ '\\' := fun h => hhead (congrArg some h)
      have hpair : ['\\', c].getLast? ≠ some '\\' := by simpa using hc
      have hone : [c].getLast? ≠ some '\\' := by simpa using hc
      exact (trailingBackslashes_append_of_left hpair text).trans
        (trailingBackslashes_append_of_left hone text).symm

theorem even_trailingBackslashes_pair (text : Text) :
    Even (trailingBackslashes ('\\' :: '\\' :: text)) ↔ Even (trailingBackslashes text) := by
  have hpair : trailingBackslashes ['\\', '\\'] = 2 := rfl
  have happend := trailingBackslashes_append ['\\', '\\'] text
  rw [hpair] at happend
  change trailingBackslashes ('\\' :: '\\' :: text) = _ at happend
  rw [happend, Nat.even_iff, Nat.even_iff]
  split_ifs with hall
  · omega
  · rfl

/-! ## Where the scan stands -/

/-- A word that does not hold a character begins before it. -/
theorem prefix_of_prefix_append_cons {w before rest : Text} {c : Char} (hc : c ∉ w)
    (h : w <+: before ++ c :: rest) : w <+: before := by
  rcases List.prefix_or_prefix_of_prefix h (List.prefix_append before (c :: rest)) with hw | hover
  · exact hw
  · obtain ⟨more, rfl⟩ := hover
    rw [List.prefix_append_right_inj] at h
    cases more with
    | nil => exact ⟨[], by simp⟩
    | cons d more =>
        rw [(List.cons_prefix_cons.mp h).1] at hc
        exact absurd (by simp) hc

/-- Where an even run of backslashes ends and another one follows, the scan is between two units. -/
theorem withPlaceholders_append {before : Text} (h : Even (trailingBackslashes before))
    (rest : Text) :
    withPlaceholders (before ++ '\\' :: rest) =
      withPlaceholders before ++ withPlaceholders ('\\' :: rest) := by
  induction before using scan_induction with
  | nil => rfl
  | pair before ih =>
      rw [even_trailingBackslashes_pair] at h
      rw [List.cons_append, List.cons_append, withPlaceholders_pair, ih h, withPlaceholders_pair]
      rfl
  | sequence p hp before ih =>
      have hlast : ∀ p ∈ Placeholder.table, p.sequence.getLast? ≠ some '\\' := by decide
      rw [trailingBackslashes_append_of_left (hlast p hp)] at h
      rw [List.append_assoc, withPlaceholders_sequence hp, ih h, withPlaceholders_sequence hp]
      rfl
  | lone before hrule ih =>
      cases before with
      | nil => exact absurd h (by decide)
      | cons c before =>
          have hhead := head?_ne_of_rule?_eq_none hrule
          have hc : c ≠ '\\' := fun hc => hhead (congrArg some hc)
          rw [trailingBackslashes_cons (List.cons_ne_nil c before) hhead] at h
          -- An escape that began here would have to run over the backslash behind.
          have hmore : rule? Placeholder.rules ('\\' :: (c :: before ++ '\\' :: rest)) = none := by
            rw [rule?_backslash_eq_none_iff] at hrule ⊢
            intro w hw hprefix
            have hends : ∀ w ∈ escapeEnds, w = ['\\'] ∨ '\\' ∉ w := by decide
            rcases hends w hw with rfl | hfree
            · exact absurd (List.cons_prefix_cons.mp hprefix).1 (Ne.symm hc)
            · exact hrule w hw (prefix_of_prefix_append_cons hfree hprefix)
          rw [List.cons_append, withPlaceholders_of_rule?_eq_none hmore, ih h,
            withPlaceholders_of_rule?_eq_none hrule]
          rfl
  | plain c before hb ht hs ih =>
      have hone : [c].getLast? ≠ some '\\' := by simpa using hb
      rw [← List.singleton_append, trailingBackslashes_append_of_left hone] at h
      rw [List.cons_append, withPlaceholders_plain hb ht hs, ih h, withPlaceholders_plain hb ht hs]
      rfl

/-! ## What stands at a position -/

section Positions

variable {text : Text} {i j : Nat} {p q : Placeholder}

/-- No sequence is the beginning of another one. -/
theorem symbol_eq_of_prefix (hp : p ∈ Placeholder.table) (hq : q ∈ Placeholder.table)
    (h : p.sequence <+: q.sequence) : p.symbol = q.symbol ∧ p.sequence = q.sequence := by
  have htable : ∀ p ∈ Placeholder.table, ∀ q ∈ Placeholder.table, p.sequence <+: q.sequence →
      p.symbol = q.symbol ∧ p.sequence = q.sequence := by decide
  exact htable p hp q hq h

/-- At most one sequence begins at a position. -/
theorem Begins.unique (hp : Begins text i p) (hq : Begins text i q) :
    p.symbol = q.symbol ∧ p.sequence = q.sequence := by
  rcases List.prefix_or_prefix_of_prefix hp.sequence hq.sequence with h | h
  · exact symbol_eq_of_prefix hp.mem hq.mem h
  · obtain ⟨hsymbol, hsequence⟩ := symbol_eq_of_prefix hq.mem hp.mem h
    exact ⟨hsymbol.symm, hsequence.symm⟩

def beginnings : List Char := ['\\', '\t', ' ']

theorem Begins.exists_beginning (h : Begins text i p) :
    ∃ c ∈ beginnings, p.sequence.head? = some c ∧ text[i]? = some c := by
  have hhead : ∀ p ∈ Placeholder.table, p.sequence.head?.any (beginnings.contains ·) := by decide
  obtain ⟨c, hsequence, hc⟩ := (Option.any_eq_true _ _).mp (hhead p h.mem)
  rw [List.contains_iff_mem] at hc
  obtain ⟨after, hafter⟩ := h.sequence
  refine ⟨c, hc, hsequence, ?_⟩
  rw [← List.head?_drop, ← hafter, List.head?_append, hsequence]
  rfl

/-- Within a sequence no other one begins. -/
theorem Begins.not_within (h : Begins text j q) (hlow : j < i)
    (hhigh : i < j + q.sequence.length) : ¬ Begins text i p := by
  intro hbegins
  have htail : ∀ q ∈ Placeholder.table, q.sequence.tail.all (!beginnings.contains ·) := by decide
  obtain ⟨c, hc, -, hi⟩ := hbegins.exists_beginning
  obtain ⟨k, rfl⟩ : ∃ k, i = j + (k + 1) := ⟨i - j - 1, by omega⟩
  obtain ⟨after, hafter⟩ := h.sequence
  rw [← List.getElem?_drop, ← hafter, List.getElem?_append_left (by omega)] at hi
  rw [← List.getElem?_tail] at hi
  have hfree := List.all_eq_true.mp (htail q h.mem) c (List.mem_of_getElem? hi)
  rw [Bool.not_eq_true', ← Bool.not_eq_true, List.contains_iff_mem] at hfree
  exact hfree hc

/-- What is shown at a position is determined by it. -/
theorem ShownAt.unique {part part' : Text} (h : ShownAt text i part)
    (h' : ShownAt text i part') : part = part' := by
  cases h with
  -- the three ways exclude each other: a sequence begins here, one goes on here, or neither
  | symbol hp =>
      cases h' with
      | symbol hq => rw [(hp.unique hq).1]
      | within hq hlow hhigh => exact absurd hp (hq.not_within hlow hhigh)
      | kept _ hnone _ => exact absurd hp (hnone _)
  | within hp hlow hhigh =>
      cases h' with
      | symbol hq => exact absurd hq (hp.not_within hlow hhigh)
      | within => rfl
      | kept _ _ huncut =>
          have := huncut _ _ hp hlow
          omega
  | kept hc hnone huncut =>
      cases h' with
      | symbol hq => exact absurd hq (hnone _)
      | within hq hlow hhigh =>
          have := huncut _ _ hq hlow
          omega
      | kept hc' _ _ =>
          rw [hc, Option.some.injEq] at hc'
          rw [hc']

/-! ## The scan, position by position -/

theorem uncut_zero (text : Text) : Uncut text 0 := fun _ _ _ h => absurd h (Nat.not_lt_zero _)

theorem Uncut.succ (h : Uncut text i) (hnone : ∀ p, ¬ Begins text i p) : Uncut text (i + 1) := by
  intro j p hbegins hj
  rcases Nat.lt_succ_iff_lt_or_eq.mp hj with hlt | rfl
  · exact Nat.le_succ_of_le (h j p hbegins hlt)
  · exact absurd hbegins (hnone p)

/-- The position behind a sequence that is replaced. -/
theorem Uncut.behind (h : Uncut text i) (hp : Begins text i p) :
    Uncut text (i + p.sequence.length) := by
  intro j q hq hj
  rcases Nat.lt_trichotomy j i with hlt | rfl | hgt
  · exact Nat.le_add_right_of_le (h j q hq hlt)
  · rw [(hp.unique hq).2]
  · exact absurd hq (hp.not_within hgt hj)

/-- The scan is between two units at the position, and what follows is the rest. -/
structure Between (text : Text) (i : Nat) (rest : Text) : Prop where
  drop : text.drop i = rest
  uncut : Uncut text i
  even : rest.head? = some '\\' → Even (trailingBackslashes (text.take i))

theorem Between.drop_add {u rest : Text} (h : Between text i (u ++ rest)) :
    text.drop (i + u.length) = rest := by
  rw [← List.drop_drop, h.drop, List.drop_left]

theorem Between.take_add {u rest : Text} (h : Between text i (u ++ rest)) :
    text.take (i + u.length) = text.take i ++ u := by
  rw [List.take_add, h.drop, List.take_left]

theorem Between.getElem? {c : Char} {rest : Text} (h : Between text i (c :: rest)) :
    text[i]? = some c := by
  rw [← List.head?_drop, h.drop]
  rfl

theorem Between.getElem?_succ {c d : Char} {rest : Text} (h : Between text i (c :: d :: rest)) :
    text[i + 1]? = some d := by
  rw [← List.getElem?_drop, h.drop]
  rfl

theorem Between.start (text : Text) : Between text 0 text :=
  ⟨rfl, uncut_zero text, fun _ => Even.zero⟩

/-- Where no rule of the scan applies, no sequence is replaced. -/
theorem not_begins_of_rule?_eq_none (h : rule? Placeholder.rules (text.drop i) = none)
    (p : Placeholder) : ¬ Begins text i p := by
  intro hp
  have hmem : ⟨p.sequence, [p.symbol]⟩ ∈ Placeholder.rules :=
    List.mem_cons_of_mem _ (List.mem_map.mpr ⟨p, hp.mem, rfl⟩)
  exact List.find?_eq_none.mp h _ hmem (List.isPrefixOf_iff_prefix.mpr hp.sequence)

/-- The rest of the text is shown as its positions say. -/
def ShownFrom (text : Text) (i : Nat) (rest : Text) : Prop :=
  ∃ parts, List.Forall₂ (ShownAt text) (List.range' i rest.length) parts ∧
    rest.withPlaceholders = parts.flatten

/-- A character that is kept. -/
theorem ShownFrom.kept {c : Char} {rest : Text} (hc : ShownAt text i [c])
    (hrest : ShownFrom text (i + 1) rest)
    (hshown : withPlaceholders (c :: rest) = c :: withPlaceholders rest) :
    ShownFrom text i (c :: rest) := by
  obtain ⟨parts, hparts, hflatten⟩ := hrest
  refine ⟨[c] :: parts, .cons hc hparts, ?_⟩
  rw [hshown, hflatten]
  rfl

/-- A sequence that is replaced: its symbol stands at its first position. -/
theorem ShownFrom.sequence {rest : Text} (hp : Begins text i p)
    (hrest : ShownFrom text (i + p.sequence.length) rest) :
    ShownFrom text i (p.sequence ++ rest) := by
  obtain ⟨parts, hparts, hflatten⟩ := hrest
  have hpos : ∀ p ∈ Placeholder.table, p.sequence.length = p.sequence.length - 1 + 1 := by decide
  have hlength := hpos p hp.mem
  generalize p.sequence.length - 1 = inner at hlength
  have hwithin : List.Forall₂ (ShownAt text) (List.range' (i + 1) inner)
      ((List.range' (i + 1) inner).map fun _ => []) := by
    rw [List.forall₂_map_right_iff, List.forall₂_same]
    intro j hj
    rw [List.mem_range'_1] at hj
    exact .within hp (by omega) (by omega)
  -- Nothing is shown in place of the characters behind the first one.
  refine ⟨[p.symbol] :: ((List.range' (i + 1) inner).map fun _ => []) ++ parts, ?_, ?_⟩
  · rw [List.length_append, ← List.range'_append_1, hlength]
    rw [hlength] at hparts
    exact List.rel_append (.cons (.symbol hp) hwithin) hparts
  · rw [withPlaceholders_sequence hp.mem, hflatten]
    simp

/-- With neither half of a pair a sequence begins. -/
theorem Between.pair {rest : Text} (h : Between text i ('\\' :: '\\' :: rest)) :
    (∀ p, ¬ Begins text i p) ∧ (∀ p, ¬ Begins text (i + 1) p) ∧ Between text (i + 2) rest := by
  have heven : Even (trailingBackslashes (text.take i)) := h.even rfl
  have hone : text.take (i + 1) = text.take i ++ ['\\'] := h.take_add (u := ['\\'])
  have htwo : text.take (i + 2) = text.take i ++ ['\\'] ++ ['\\'] := by
    rw [List.append_assoc]
    exact h.take_add (u := ['\\', '\\'])
  have hi : text[i + 1]? = some '\\' := h.getElem?_succ
  have hfirst : ∀ p, ¬ Begins text i p := by
    intro p hp
    -- no sequence begins with two backslashes, and none is their beginning
    have htable : ∀ p ∈ Placeholder.table,
        ¬ (p.sequence <+: ['\\', '\\'] ∨ ['\\', '\\'] <+: p.sequence) := by decide
    exact htable p hp.mem (List.prefix_or_prefix_of_prefix hp.sequence ⟨rest, h.drop.symm⟩)
  have hsecond : ∀ p, ¬ Begins text (i + 1) p := by
    intro p hp
    -- before the second backslash the run is odd
    obtain ⟨c, -, hhead, hc⟩ := hp.exists_beginning
    have hodd := hp.even (hhead.trans (hc.symm.trans hi))
    rw [hone, trailingBackslashes_concat, Nat.even_add_one] at hodd
    exact hodd heven
  refine ⟨hfirst, hsecond, h.drop_add (u := ['\\', '\\']),
    (h.uncut.succ hfirst).succ hsecond, fun _ => ?_⟩
  rw [htwo, trailingBackslashes_concat, trailingBackslashes_concat, Nat.even_add_one,
    Nat.even_add_one, not_not]
  exact heven

/-- A sequence of the table begins where the scan takes it, and the scan goes on behind it. -/
theorem Between.sequence {rest : Text} (h : Between text i (p.sequence ++ rest))
    (hp : p ∈ Placeholder.table) :
    Begins text i p ∧ Between text (i + p.sequence.length) rest := by
  have hbegins : Begins text i p := by
    refine ⟨hp, ⟨rest, h.drop.symm⟩, fun hhead => h.even ?_⟩
    rw [List.head?_append, hhead]
    rfl
  have hlast : ∀ p ∈ Placeholder.table, p.sequence ≠ [] ∧
      p.sequence.getLast? ≠ some '\\' := by decide
  refine ⟨hbegins, h.drop_add, h.uncut.behind hbegins, fun _ => ?_⟩
  rw [h.take_add, trailingBackslashes_append_of_right _ (hlast p hp).1 (hlast p hp).2]
  exact Even.zero

/-- With a backslash that begins no escape no sequence begins. -/
theorem Between.lone {rest : Text} (h : Between text i ('\\' :: rest))
    (hrule : rule? Placeholder.rules ('\\' :: rest) = none) :
    (∀ p, ¬ Begins text i p) ∧ Between text (i + 1) rest := by
  have hnone := not_begins_of_rule?_eq_none (h.drop ▸ hrule)
  exact ⟨hnone, h.drop_add (u := ['\\']), h.uncut.succ hnone,
    fun hback => absurd hback (head?_ne_of_rule?_eq_none hrule)⟩

/-- With any other character no sequence begins either. -/
theorem Between.plain {c : Char} {rest : Text} (h : Between text i (c :: rest)) (hb : c ≠ '\\')
    (ht : c ≠ '\t') (hs : c ≠ ' ') :
    (∀ p, ¬ Begins text i p) ∧ Between text (i + 1) rest := by
  have hnone := not_begins_of_rule?_eq_none (h.drop ▸ rule?_eq_none_of_plain hb ht hs rest)
  refine ⟨hnone, h.drop_add (u := [c]), h.uncut.succ hnone, fun _ => ?_⟩
  have htake : text.take (i + 1) = text.take i ++ [c] := h.take_add (u := [c])
  rw [htake, trailingBackslashes_append_of_right _ (List.cons_ne_nil _ _) (by simpa using hb)]
  exact Even.zero

/-- **From between two units on, the scan shows the text as its positions say.** -/
theorem Between.shownFrom {rest : Text} (h : Between text i rest) : ShownFrom text i rest := by
  induction rest using scan_induction generalizing i with
  | nil => exact ⟨[], .nil, rfl⟩
  | pair rest ih =>
      obtain ⟨hfirst, hsecond, hnext⟩ := h.pair
      obtain ⟨parts, hparts, hflatten⟩ := ih hnext
      refine ⟨['\\'] :: ['\\'] :: parts, .cons (.kept h.getElem? hfirst h.uncut)
        (.cons (.kept h.getElem?_succ hsecond (h.uncut.succ hfirst)) hparts), ?_⟩
      rw [withPlaceholders_pair, hflatten]
      rfl
  | sequence p hp rest ih =>
      obtain ⟨hbegins, hnext⟩ := h.sequence hp
      exact .sequence hbegins (ih hnext)
  | lone rest hrule ih =>
      obtain ⟨hnone, hnext⟩ := h.lone hrule
      exact .kept (.kept h.getElem? hnone h.uncut) (ih hnext)
        (withPlaceholders_of_rule?_eq_none hrule)
  | plain c rest hb ht hs ih =>
      obtain ⟨hnone, hnext⟩ := h.plain hb ht hs
      exact .kept (.kept h.getElem? hnone h.uncut) (ih hnext)
        (withPlaceholders_plain hb ht hs rest)

end Positions

/-! ## Order -/

/-- If at most one rule applies anywhere, it does not matter in which order they are tried. -/
theorem substitute_congr {rules rules' : List Rule}
    (h : ∀ text, rule? rules text = rule? rules' text) (text : Text) :
    substitute rules text = substitute rules' text := by
  have hfrom : ∀ covered, substituteFrom rules covered text =
      substituteFrom rules' covered text := by
    induction text with
    | nil => intro covered; cases covered <;> rfl
    | cons c rest ih =>
        intro covered
        cases covered with
        | succ covered => exact ih covered
        | zero =>
            rw [substituteFrom, substituteFrom, h]
            cases rule? rules' (c :: rest) <;> simp only [ih]
  exact hfrom 0

theorem prefix_of_rule?_eq_some {rules : List Rule} {text : Text} {r : Rule}
    (h : rule? rules text = some r) : r.sequence <+: text := by
  have hfound : r.sequence.isPrefixOf text = true :=
    List.find?_some (p := fun r : Rule => r.sequence.isPrefixOf text) h
  exact List.isPrefixOf_iff_prefix.mp hfound

/-- Where the sequences exclude each other, the rule that applies is any that may. -/
theorem rule?_eq_some_iff {rules : List Rule}
    (hunique : ∀ r ∈ rules, ∀ r' ∈ rules, r.sequence <+: r'.sequence → r = r') {text : Text}
    {r : Rule} : rule? rules text = some r ↔ r ∈ rules ∧ r.sequence <+: text := by
  constructor
  · intro h
    exact ⟨List.mem_of_find?_eq_some h, prefix_of_rule?_eq_some h⟩
  · rintro ⟨hmem, hprefix⟩
    cases hfound : rule? rules text with
    | none =>
        exact absurd (List.isPrefixOf_iff_prefix.mpr hprefix)
          (List.find?_eq_none.mp hfound r hmem)
    | some r' =>
        have hmem' := List.mem_of_find?_eq_some hfound
        have hprefix' := prefix_of_rule?_eq_some hfound
        rcases List.prefix_or_prefix_of_prefix hprefix hprefix' with h | h
        · rw [hunique r hmem r' hmem' h]
        · rw [hunique r' hmem' r hmem h]

theorem rule?_perm {rules rules' : List Rule} (h : rules.Perm rules')
    (hunique : ∀ r ∈ rules', ∀ r' ∈ rules', r.sequence <+: r'.sequence → r = r') (text : Text) :
    rule? rules text = rule? rules' text := by
  have hunique' : ∀ r ∈ rules, ∀ r' ∈ rules, r.sequence <+: r'.sequence → r = r' :=
    fun r hr r' hr' => hunique r (h.subset hr) r' (h.subset hr')
  ext r
  rw [rule?_eq_some_iff hunique', rule?_eq_some_iff hunique, h.mem_iff]

/-- No sequence of the scan is the beginning of another one. -/
theorem rules_exclusive :
    ∀ r ∈ Placeholder.rules, ∀ r' ∈ Placeholder.rules, r.sequence <+: r'.sequence → r = r' := by
  have hfields : ∀ r ∈ Placeholder.rules, ∀ r' ∈ Placeholder.rules, r.sequence <+: r'.sequence →
      r.sequence = r'.sequence ∧ r.replacement = r'.replacement := by decide
  intro r hr r' hr' h
  obtain ⟨hsequence, hreplacement⟩ := hfields r hr r' hr' h
  cases r
  cases r'
  congr

/-! ## The whole text -/

/-- Pairs of backslashes are kept. -/
theorem withPlaceholders_replicate (n : Nat) (rest : Text) :
    withPlaceholders (List.replicate (2 * n) '\\' ++ rest) =
      List.replicate (2 * n) '\\' ++ withPlaceholders rest := by
  induction n with
  | zero => rfl
  | succ n ih =>
      rw [Nat.mul_succ, List.replicate_succ, List.replicate_succ, List.cons_append,
        List.cons_append, withPlaceholders_pair, ih]
      rfl

/-- Behind something that does not end in a backslash, pairs are kept and the scan goes on. -/
theorem withPlaceholders_append_pairs {before : Text} (h : before.getLast? ≠ some '\\') (n : Nat)
    (rest : Text) (hrest : 0 < n ∨ rest.head? = some '\\') :
    withPlaceholders (before ++ (List.replicate (2 * n) '\\' ++ rest)) =
      withPlaceholders before ++ (List.replicate (2 * n) '\\' ++ withPlaceholders rest) := by
  have hbefore : Even (trailingBackslashes before) := by
    rw [(trailingBackslashes_eq_zero_iff before).mpr h]
    exact Even.zero
  rw [← withPlaceholders_replicate]
  cases n with
  | zero =>
      obtain ⟨more, rfl⟩ := List.head?_eq_some_iff.mp (hrest.resolve_left (Nat.lt_irrefl 0))
      exact withPlaceholders_append hbefore more
  | succ n =>
      rw [Nat.mul_succ, List.replicate_succ]
      exact withPlaceholders_append hbefore _

/-- **Whether a sequence is replaced is told by the backslashes before it.** -/
theorem shownByParity (text : Text) : text.ShownByParity where
  positions := by
    have hstart : Between text 0 text := ⟨rfl, uncut_zero text, fun _ => Even.zero⟩
    rw [List.range_eq_range']
    exact hstart.shownFrom
  unique _ _ _ := ShownAt.unique
  pairs := by
    rintro before n rest hbefore rfl
    exact withPlaceholders_append_pairs hbefore (n + 1) rest (.inl n.succ_pos)
  behindPairs := by
    rintro before n p after hbefore hp hhead rfl
    have hrest : (p.sequence ++ after).head? = some '\\' := by
      rw [List.head?_append, hhead]
      rfl
    rw [withPlaceholders_append_pairs hbefore n _ (.inr hrest), withPlaceholders_sequence hp]
  order := by
    intro table htable
    exact substitute_congr (rule?_perm ((htable.map _).cons _) rules_exclusive) text

/-- The escape behind one backslash pair is replaced, and the one whose backslash is the second of
a pair is not; nor is what only begins like an escape. -/
example : withPlaceholders
    ['\\', '\\', '\\', 'n', '\\', '\\', 'n', '\\', 'u', '2', '0', '2', '\\', 't'] =
    ['\\', '\\', '↓', '\\', '\\', 'n', '\\', 'u', '2', '0', '2', '→'] := by
  decide

end Text

end Yeast
