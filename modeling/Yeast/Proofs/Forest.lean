import Yeast.Proofs.Bracket

set_option autoImplicit false

/-! # Matches, scopes and forests

Which closing letter of a bracket word ends which opening one, and which letters lie between the
two, is a matter of positions in the word (`Matches`, `Encloses`). `forest` reads the same from
left to right: the letters that do not close, in order, each with the numbers of the opening
letters around it. A letter is numbered by how many letters that do not close stand before it
(`rank`). For words that can be read with a stack the two views agree (`mem_around_iff`), and the
letters that nothing ends are those that are left on the stack (`exists_unended`).
-/

namespace Yeast

namespace Bracket

variable {α β : Type} (fits : α → β → Prop)

/-- The letter at `j` ends the scope that the one at `i` opens. -/
def Matches (w : List (Bracket α β)) (i j : Nat) : Prop :=
  ∃ before a inner b after, w = before ++ .opening a :: (inner ++ .closing b :: after) ∧
    Balanced fits inner ∧ before.length = i ∧ i + 1 + inner.length = j

/-- The letter at `j` lies in the scope that the one at `i` opens: behind it, and before the
letter that ends the scope or, where none does, anywhere up to the end of the word. -/
def Encloses (w : List (Bracket α β)) (i j : Nat) : Prop :=
  (∃ a, w[i]? = some (.opening a)) ∧ i < j ∧ ∀ k, Matches fits w i k → j < k

/-- The innermost letter open before `p` is the one at `i`. -/
def Directly (w : List (Bracket α β)) (i p : Nat) : Prop :=
  ∃ before a inner, w.take p = before ++ .opening a :: inner ∧ Balanced fits inner ∧
    before.length = i

/-- The letter at `i` opens a scope that does not end. -/
def Unended (w : List (Bracket α β)) (i : Nat) : Prop :=
  (∃ a, w[i]? = some (.opening a)) ∧ ∀ j, ¬ Matches fits w i j

/-- What a letter that does not close shows. -/
def label? : Bracket α β → Option α
  | .opening a => some a
  | .single a => some a
  | .closing _ => none

/-- How many letters that do not close stand before the position `i`. -/
def rank (w : List (Bracket α β)) (i : Nat) : Nat := ((w.take i).filterMap label?).length

/-- What a letter shows, and the numbers of the opening letters around it, the innermost
first. -/
structure Place (α : Type) where
  label : α
  around : List Nat
  deriving DecidableEq

/-- The places of a word, where `count` letters have been numbered before it and those in `open`
are open. -/
def forestFrom : Nat → List Nat → List (Bracket α β) → List (Place α)
  | _, _, [] => []
  | count, around, .single a :: w => ⟨a, around⟩ :: forestFrom (count + 1) around w
  | count, around, .opening a :: w =>
    ⟨a, around⟩ :: forestFrom (count + 1) (count :: around) w
  | count, around, .closing _ :: w => forestFrom count around.tail w

def forest (w : List (Bracket α β)) : List (Place α) := forestFrom 0 [] w

/-! ## Matching letters -/

variable {fits}

theorem Matches.lt {w : List (Bracket α β)} {i j : Nat} (h : Matches fits w i j) : i < j := by
  obtain ⟨before, a, inner, b, after, -, -, -, hj⟩ := h
  omega

theorem Matches.opening {w : List (Bracket α β)} {i j : Nat} (h : Matches fits w i j) :
    ∃ a, w[i]? = some (.opening a) := by
  obtain ⟨before, a, inner, b, after, rfl, -, rfl, -⟩ := h
  exact ⟨a, by simp⟩

theorem Matches.closing {w : List (Bracket α β)} {i j : Nat} (h : Matches fits w i j) :
    ∃ b, w[j]? = some (.closing b) := by
  obtain ⟨before, a, inner, b, after, rfl, -, rfl, rfl⟩ := h
  refine ⟨b, ?_⟩
  rw [List.getElem?_append_right (by omega)]
  rw [show before.length + 1 + inner.length - before.length = inner.length + 1 by omega]
  simp

theorem Matches.append {w : List (Bracket α β)} {i j : Nat} (h : Matches fits w i j)
    (v : List (Bracket α β)) : Matches fits (w ++ v) i j := by
  obtain ⟨before, a, inner, b, after, rfl, hinner, hi, hj⟩ := h
  exact ⟨before, a, inner, b, after ++ v, by simp, hinner, hi, hj⟩

/-- What follows a closing letter does not matter to its match. -/
theorem Matches.of_append {w v : List (Bracket α β)} {i j : Nat}
    (h : Matches fits (w ++ v) i j) (hj : j < w.length) : Matches fits w i j := by
  obtain ⟨before, a, inner, b, after, heq, hinner, rfl, rfl⟩ := h
  have hw : w = (before ++ .opening a :: (inner ++ .closing b :: after)).take w.length := by
    rw [← heq, List.take_left']
    rfl
  have hsplit : before ++ .opening a :: (inner ++ .closing b :: after) =
      (before ++ .opening a :: (inner ++ [.closing b])) ++ after := by simp
  have hle : (before ++ .opening a :: (inner ++ [Bracket.closing (α := α) b])).length ≤
      w.length := by
    simp only [List.length_append, List.length_cons, List.length_nil]
    omega
  rw [hsplit, List.take_append, List.take_of_length_le hle] at hw
  exact ⟨before, a, inner, b, _, by rw [hw]; simp; rfl, hinner, rfl, rfl⟩

theorem Matches.directly {w : List (Bracket α β)} {i j : Nat} (h : Matches fits w i j) :
    Directly fits w i j := by
  obtain ⟨u, a, v, b, t, rfl, hv, rfl, rfl⟩ := h
  refine ⟨u, a, v, ?_, hv, rfl⟩
  have hsplit : u ++ .opening a :: (v ++ .closing b :: t) =
      (u ++ .opening a :: v) ++ .closing b :: t := by simp
  rw [hsplit, List.take_left']
  simp
  omega

theorem Directly.matches_of_closing {w : List (Bracket α β)} {i j : Nat} {b : β}
    (h : Directly fits w i j) (hj : w[j]? = some (.closing b)) : Matches fits w i j := by
  obtain ⟨u, a, v, htake, hv, rfl⟩ := h
  obtain ⟨hlt, hget⟩ := List.getElem?_eq_some_iff.mp hj
  have hw : w = w.take j ++ .closing b :: w.drop (j + 1) := by
    rw [← hget, ← List.drop_eq_getElem_cons hlt, List.take_append_drop]
  have hlen := congrArg List.length htake
  rw [List.length_take_of_le (by omega), List.length_append, List.length_cons] at hlen
  refine ⟨u, a, v, b, w.drop (j + 1), ?_, hv, rfl, by omega⟩
  conv_lhs => rw [hw, htake]
  simp

variable [DecidableRel fits]

/-- A balanced word has no letter that is open at its end. -/
theorem not_balanced_of_isSome {u v : List (Bracket α β)} {a : α}
    (hv : (remaining fits [] v).isSome) : ¬ Balanced fits (u ++ .opening a :: v) := by
  intro h
  obtain ⟨t, ht⟩ := Option.isSome_iff_exists.mp hv
  rw [balanced_iff, remaining_append] at h
  obtain ⟨s, -, hs⟩ := Option.bind_eq_some_iff.mp h
  have hstack := remaining_append_stack ht (a :: s)
  rw [List.nil_append] at hstack
  rw [remaining_opening, hstack] at hs
  simp at hs

theorem not_balanced_opening {u v : List (Bracket α β)} {a : α} (hv : Balanced fits v) :
    ¬ Balanced fits (u ++ .opening a :: v) :=
  not_balanced_of_isSome (by rw [remaining_of_balanced hv]; rfl)

/-- A balanced word has no letter that closes what was opened before it. -/
theorem not_balanced_closing {u v : List (Bracket α β)} {b : β} (hu : Balanced fits u) :
    ¬ Balanced fits (u ++ .closing b :: v) := by
  intro h
  rw [balanced_iff, remaining_append, remaining_of_balanced hu] at h
  simp at h

/-- The opening letter behind which a word is balanced is determined by the word. -/
theorem opening_unique {u u' v v' : List (Bracket α β)} {a a' : α} (hv : Balanced fits v)
    (hv' : Balanced fits v') (h : u ++ .opening a :: v = u' ++ .opening a' :: v') : u = u' := by
  -- If one of the two stood further left, the part behind it would leave the other one open.
  rcases List.append_eq_append_iff.mp h with ⟨x, rfl, hx⟩ | ⟨x, rfl, hx⟩
  · cases x with
    | nil => simp
    | cons y x =>
        obtain ⟨rfl, rfl⟩ := List.cons_eq_cons.mp hx
        exact absurd hv (not_balanced_opening hv')
  · cases x with
    | nil => simp
    | cons y x =>
        obtain ⟨rfl, rfl⟩ := List.cons_eq_cons.mp hx
        exact absurd hv' (not_balanced_opening hv)

theorem Matches.right_unique {w : List (Bracket α β)} {i j j' : Nat} (h : Matches fits w i j)
    (h' : Matches fits w i j') : j = j' := by
  obtain ⟨u, a, v, b, t, rfl, hv, rfl, rfl⟩ := h
  obtain ⟨u', a', v', b', t', heq, hv', hi, rfl⟩ := h'
  obtain ⟨rfl, htail⟩ := List.append_inj heq hi.symm
  have hinner := (List.cons_eq_cons.mp htail).2
  -- The longer one of the two inner parts would close what stands before it.
  rcases List.append_eq_append_iff.mp hinner with ⟨x, rfl, hx⟩ | ⟨x, rfl, hx⟩
  · cases x with
    | nil => simp
    | cons y x =>
        obtain ⟨rfl, -⟩ := List.cons_eq_cons.mp hx
        exact absurd hv' (not_balanced_closing hv)
  · cases x with
    | nil => simp
    | cons y x =>
        obtain ⟨rfl, -⟩ := List.cons_eq_cons.mp hx
        exact absurd hv (not_balanced_closing hv')

/-! ## The innermost scope around a letter -/

theorem Directly.unique {w : List (Bracket α β)} {i i' p : Nat} (h : Directly fits w i p)
    (h' : Directly fits w i' p) : i = i' := by
  obtain ⟨u, a, v, htake, hv, rfl⟩ := h
  obtain ⟨u', a', v', htake', hv', rfl⟩ := h'
  rw [htake] at htake'
  rw [opening_unique hv hv' htake']

theorem balanced_concat_single {w : List (Bracket α β)} {a : α} :
    Balanced fits (w ++ [.single a]) ↔ Balanced fits w := by
  rw [balanced_iff, balanced_iff, remaining_append]
  cases remaining fits [] w <;> simp

/-- A letter that stands alone does not change which letter is open. -/
theorem directly_succ_iff {w : List (Bracket α β)} {i p : Nat} {a : α}
    (hp : w[p]? = some (.single a)) : Directly fits w i (p + 1) ↔ Directly fits w i p := by
  have htake : w.take (p + 1) = w.take p ++ [.single a] := by rw [List.take_add_one, hp]; rfl
  constructor
  · rintro ⟨u, c, v, h, hv, rfl⟩
    rw [htake] at h
    rcases List.eq_nil_or_concat v with rfl | ⟨v, x, rfl⟩
    · simpa using (List.append_inj' h rfl).2
    · rw [List.concat_eq_append, ← List.cons_append, ← List.append_assoc] at h
      obtain ⟨hbefore, hx⟩ := List.append_inj' h rfl
      obtain rfl := (List.cons_eq_cons.mp hx).1
      rw [List.concat_eq_append] at hv
      exact ⟨u, c, v, hbefore, balanced_concat_single.mp hv, rfl⟩
  · rintro ⟨u, c, v, h, hv, rfl⟩
    exact ⟨u, c, v ++ [.single a], by rw [htake, h]; simp, balanced_concat_single.mpr hv, rfl⟩

/-- In a word that can be read every closing letter ends a scope. -/
theorem exists_matches {w : List (Bracket α β)} {j : Nat} {b : β}
    (h : (remaining fits [] w).isSome) (hj : w[j]? = some (.closing b)) :
    ∃ i, Matches fits w i j := by
  obtain ⟨hlt, hget⟩ := List.getElem?_eq_some_iff.mp hj
  have hw : w = w.take j ++ .closing b :: w.drop (j + 1) := by
    rw [← hget, ← List.drop_eq_getElem_cons hlt, List.take_append_drop]
  rw [hw, remaining_append] at h
  cases hs : remaining fits [] (w.take j) with
  | none => simp [hs] at h
  | some s =>
      cases s with
      | nil => simp [hs] at h
      | cons a s =>
          obtain ⟨u, v, htake, -, hv⟩ := remaining_eq_cons_iff.mp hs
          have hdirect : Directly fits w u.length j := ⟨u, a, v, htake, hv, rfl⟩
          exact ⟨u.length, hdirect.matches_of_closing hj⟩

/-- In a word that can be read a closing letter fits the opening one of its scope. -/
theorem Matches.fits_of_remaining {w : List (Bracket α β)} {i j : Nat} (h : Matches fits w i j)
    (hw : (remaining fits [] w).isSome) {a : α} {b : β} (hi : w[i]? = some (.opening a))
    (hj : w[j]? = some (.closing b)) : fits a b := by
  obtain ⟨u, a', v, b', t, rfl, hv, rfl, rfl⟩ := h
  have ha : a' = a := by simpa using hi
  have hb : b' = b := by
    rw [List.getElem?_append_right (by omega),
      show u.length + 1 + v.length - u.length = v.length + 1 by omega] at hj
    simpa using hj
  subst ha hb
  rw [remaining_append] at hw
  cases hu : remaining fits [] u with
  | none => simp [hu] at hw
  | some s =>
      rw [hu, Option.bind_some, remaining_opening, remaining_append, remaining_of_balanced hv,
        Option.bind_some, remaining_closing_cons] at hw
      split at hw
      · assumption
      · simp at hw

/-! ## Scopes around a letter -/

/-- Behind the letter that opens a scope the word is read on its own as long as the scope is
open. -/
theorem encloses_iff {w : List (Bracket α β)} {i j : Nat}
    (h : (remaining fits [] (w.take j)).isSome) (hj : ∀ b, w[j]? ≠ some (.closing b))
    (hlt : j < w.length) :
    Encloses fits w i j ↔ ∃ u a v, w.take j = u ++ .opening a :: v ∧ u.length = i ∧
      (remaining fits [] v).isSome := by
  obtain ⟨s, hs⟩ := Option.isSome_iff_exists.mp h
  constructor
  · rintro ⟨⟨a, ha⟩, hij, hopen⟩
    have hi : i < w.length := by omega
    have ha' : w[i] = .opening a := by simpa [List.getElem?_eq_getElem hi] using ha
    have hsplit : w.take j = w.take i ++ .opening a :: (w.take j).drop (i + 1) := by
      have hi' : i < (w.take j).length := by rw [List.length_take]; omega
      conv_lhs => rw [← List.take_append_drop i (w.take j), List.drop_eq_getElem_cons hi']
      rw [List.take_take, List.getElem_take, ha', Nat.min_eq_left (by omega)]
    refine ⟨w.take i, a, _, hsplit, by rw [List.length_take]; omega, ?_⟩
    rw [hsplit, remaining_append] at hs
    obtain ⟨t, ht, hs⟩ := Option.bind_eq_some_iff.mp hs
    rw [remaining_opening] at hs
    rcases remaining_cons_cases (s := []) hs with ⟨s₁, hs₁, -⟩ | ⟨inner, b, rest, hv, hinner, -⟩
    · exact Option.isSome_iff_exists.mpr ⟨s₁, hs₁⟩
    · -- The scope would end before `j`.
      have hle : i + 1 + inner.length < j := by
        have := congrArg List.length hv
        simp only [List.length_drop, List.length_take, List.length_append,
          List.length_cons] at this
        omega
      refine absurd (hopen (i + 1 + inner.length) ?_) (by omega)
      refine ⟨w.take i, a, inner, b, rest ++ w.drop j, ?_, balanced_iff.mpr hinner, ?_, rfl⟩
      · conv_lhs => rw [← List.take_append_drop j w, hsplit, hv]
        simp
      · rw [List.length_take]; omega
  · rintro ⟨u, a, v, htake, rfl, hv⟩
    have hw : w = u ++ .opening a :: v ++ w.drop j := by
      rw [← htake, List.take_append_drop]
    have hlen : (u ++ Bracket.opening (β := β) a :: v).length = j := by
      rw [← htake, List.length_take]; omega
    refine ⟨⟨a, by rw [hw]; simp⟩, by simp at hlen; omega, fun k hk => ?_⟩
    by_contra hle
    have hne : k ≠ j := by
      rintro rfl
      obtain ⟨b, hb⟩ := hk.closing
      exact hj b hb
    rw [hw] at hk
    obtain ⟨u', a', inner, b, after, heq, hinner, hu', rfl⟩ := hk.of_append (by omega)
    obtain ⟨rfl, htail⟩ := List.append_inj heq hu'.symm
    obtain ⟨-, rfl⟩ := List.cons_eq_cons.mp htail
    rw [remaining_append, remaining_of_balanced hinner] at hv
    simp at hv

/-! ## Scopes that do not end -/

/-- A scope ends iff the word behind its first letter closes more than it opens. -/
theorem unended_iff {w : List (Bracket α β)} (h : (remaining fits [] w).isSome) {i : Nat} :
    Unended fits w i ↔ ∃ u a v, w = u ++ .opening a :: v ∧ u.length = i ∧
      (remaining fits [] v).isSome := by
  constructor
  · rintro ⟨⟨a, ha⟩, hunended⟩
    obtain ⟨hi, ha⟩ := List.getElem?_eq_some_iff.mp ha
    have hsplit : w = w.take i ++ .opening a :: w.drop (i + 1) := by
      rw [← ha, ← List.drop_eq_getElem_cons hi, List.take_append_drop]
    have hlen : (w.take i).length = i := List.length_take_of_le (Nat.le_of_lt hi)
    refine ⟨w.take i, a, w.drop (i + 1), hsplit, hlen, ?_⟩
    obtain ⟨s, hs⟩ := Option.isSome_iff_exists.mp h
    rw [hsplit, remaining_append] at hs
    obtain ⟨t, -, ht⟩ := Option.bind_eq_some_iff.mp hs
    rw [remaining_opening] at ht
    rcases remaining_cons_cases (s := []) ht with ⟨s₁, hs₁, -⟩ | ⟨inner, b, rest, hv, hinner, -⟩
    · rw [hs₁]
      rfl
    -- the letter behind `inner` would be its partner
    · refine absurd ?_ (hunended (i + 1 + inner.length))
      exact ⟨w.take i, a, inner, b, rest, by rw [← hv, ← hsplit], balanced_iff.mpr hinner, hlen,
        rfl⟩
  · rintro ⟨u, a, v, rfl, rfl, hv⟩
    refine ⟨⟨a, by simp⟩, ?_⟩
    -- a partner in `v` would be an end with nothing open before it
    rintro j ⟨u', a', inner, b, rest, heq, hinner, hu, -⟩
    obtain ⟨rfl, htail⟩ := List.append_inj heq hu.symm
    rw [(List.cons_eq_cons.mp htail).2, remaining_append, remaining_of_balanced hinner] at hv
    simp at hv

/-- A letter behind which the word is balanced begins one more scope that does not end. -/
theorem unended_opening_iff {u v : List (Bracket α β)} {a : α}
    (hu : (remaining fits [] u).isSome) (hv : Balanced fits v) {i : Nat} :
    Unended fits (u ++ .opening a :: v) i ↔ Unended fits u i ∨ i = u.length := by
  have hrest : ∀ s, remaining fits s (.opening a :: v) = some (a :: s) := by
    intro s
    rw [remaining_opening, remaining_of_balanced hv]
  obtain ⟨s, hs⟩ := Option.isSome_iff_exists.mp hu
  have hword : (remaining fits [] (u ++ .opening a :: v)).isSome := by
    rw [remaining_append, hs, Option.bind_some, hrest]
    rfl
  rw [unended_iff hword, unended_iff hu]
  constructor
  · rintro ⟨u', c, v', heq, rfl, hv'⟩
    rcases List.append_eq_append_iff.mp heq with ⟨x, rfl, hx⟩ | ⟨x, rfl, hx⟩
    · cases x with
      | nil => exact Or.inr (by simp)
      | cons y x =>
          -- A letter in `v` cannot begin such a scope, since `v` is balanced.
          obtain ⟨-, rfl⟩ := List.cons_eq_cons.mp hx
          exact absurd hv (not_balanced_of_isSome hv')
    · cases x with
      | nil => exact Or.inr (by simp)
      | cons y x =>
          rw [List.cons_append] at hx
          obtain ⟨rfl, rfl⟩ := List.cons_eq_cons.mp hx
          refine Or.inl ⟨u', c, x, rfl, rfl, ?_⟩
          rw [remaining_append] at hv'
          exact Option.isSome_of_isSome_bind hv'
  · rintro (⟨u', c, v', rfl, rfl, hv'⟩ | rfl)
    · obtain ⟨t, ht⟩ := Option.isSome_iff_exists.mp hv'
      refine ⟨u', c, v' ++ .opening a :: v, by simp, rfl, ?_⟩
      rw [remaining_append, ht, Option.bind_some, hrest]
      rfl
    · exact ⟨u, a, v, rfl, rfl, by rw [remaining_of_balanced hv]; rfl⟩

/-- **The stack holds the letters that begin scopes which do not end**, the last one on top. -/
theorem exists_unended {w : List (Bracket α β)} {s : List α}
    (h : remaining fits [] w = some s) :
    ∃ positions : List Nat, positions.Pairwise (· < ·) ∧
      (∀ i, i ∈ positions ↔ Unended fits w i) ∧
      positions.map (w[·]?) = s.reverse.map fun a => some (.opening a) := by
  -- Behind the letter on top the word is balanced, and before it the rest of the stack is open.
  induction s generalizing w with
  | nil =>
      refine ⟨[], .nil, fun i => ?_, rfl⟩
      rw [unended_iff (by rw [h]; rfl)]
      constructor
      · intro hi
        simp at hi
      · rintro ⟨u, a, v, rfl, -, hv⟩
        exact absurd (balanced_iff.mpr h) (not_balanced_of_isSome hv)
  | cons a s ih =>
      obtain ⟨u, v, rfl, hu, hv⟩ := remaining_eq_cons_iff.mp h
      obtain ⟨positions, hsorted, hmem, hletters⟩ := ih hu
      have hbefore : ∀ i ∈ positions, i < u.length := by
        intro i hi
        obtain ⟨⟨c, hc⟩, -⟩ := (hmem i).mp hi
        exact (List.getElem?_eq_some_iff.mp hc).1
      refine ⟨positions ++ [u.length], ?_, fun i => ?_, ?_⟩
      · rw [List.pairwise_append]
        exact ⟨hsorted, List.pairwise_singleton _ _, by simpa using hbefore⟩
      · rw [List.mem_append, List.mem_singleton, hmem,
          unended_opening_iff (by rw [hu]; rfl) hv]
      · have hsame : positions.map ((u ++ Bracket.opening a :: v)[·]?) = positions.map (u[·]?) :=
          List.map_congr_left fun i hi => List.getElem?_append_left (hbefore i hi)
        rw [List.map_append, hsame, hletters, List.reverse_cons, List.map_append]
        simp

/-! ## The forest of a word -/

/-- The numbers of the letters open behind a word. -/
def openFrom : Nat → List Nat → List (Bracket α β) → List Nat
  | _, around, [] => around
  | count, around, .single _ :: w => openFrom (count + 1) around w
  | count, around, .opening _ :: w => openFrom (count + 1) (count :: around) w
  | count, around, .closing _ :: w => openFrom count around.tail w

theorem forestFrom_append (count : Nat) (around : List Nat) (u v : List (Bracket α β)) :
    forestFrom count around (u ++ v) = forestFrom count around u ++
      forestFrom (count + (u.filterMap label?).length) (openFrom count around u) v := by
  induction u generalizing count around with
  | nil => rfl
  | cons x u ih =>
      cases x with
      | closing b =>
          simpa [forestFrom, openFrom, label?, List.filterMap_cons] using ih count around.tail
      | single a =>
          simp [forestFrom, openFrom, label?, ih, Nat.add_assoc, Nat.add_comm 1]
      | opening a =>
          simp [forestFrom, openFrom, label?, ih, Nat.add_assoc, Nat.add_comm 1]

theorem openFrom_append (count : Nat) (around : List Nat) (u v : List (Bracket α β)) :
    openFrom count around (u ++ v) =
      openFrom (count + (u.filterMap label?).length) (openFrom count around u) v := by
  induction u generalizing count around with
  | nil => rfl
  | cons x u ih =>
      cases x with
      | closing b => simpa [openFrom, label?, List.filterMap_cons] using ih count around.tail
      | single a => simp [openFrom, label?, ih, Nat.add_assoc, Nat.add_comm 1]
      | opening a => simp [openFrom, label?, ih, Nat.add_assoc, Nat.add_comm 1]

/-- There is one place for each letter that does not close, in order. -/
theorem map_label_forestFrom (count : Nat) (around : List Nat) (w : List (Bracket α β)) :
    (forestFrom count around w).map Place.label = w.filterMap label? := by
  induction w generalizing count around with
  | nil => rfl
  | cons x w ih => cases x <;> simp [forestFrom, label?, ih, List.filterMap_cons]

theorem length_forest (w : List (Bracket α β)) :
    (forest w).length = (w.filterMap label?).length := by
  rw [← map_label_forestFrom 0 [] w, List.length_map, forest]

/-- A word that can be read on its own leaves the numbers below its own alone, and adds one for
each letter it leaves open. -/
theorem openFrom_of_remaining {s s' : List α} {w : List (Bracket α β)}
    (h : remaining fits s w = some s') (count : Nat) {p : List Nat}
    (hp : p.length = s.length) (around : List Nat) :
    ∃ r, openFrom count (p ++ around) w = r ++ around ∧ r.length = s'.length := by
  -- the numbers are pushed and popped with the letters they belong to
  induction w generalizing s count p with
  | nil => exact ⟨p, rfl, by simp_all⟩
  | cons x w ih =>
      cases x with
      | single a => exact ih (by simpa using h) (count + 1) hp
      | opening a =>
          exact ih (s := a :: s) (by simpa using h) (count + 1) (p := count :: p) (by simp [hp])
      | closing b =>
          cases s with
          | nil => simp at h
          | cons a s =>
              cases p with
              | nil => simp at hp
              | cons q p =>
                  rw [remaining_closing_cons] at h
                  split at h
                  · exact ih h count (by simpa using hp)
                  · simp at h

/-- The open numbers are those of the letters behind which the word is read on its own. -/
theorem mem_openFrom_iff {w : List (Bracket α β)} (h : (remaining fits [] w).isSome) (q : Nat) :
    q ∈ openFrom 0 [] w ↔ ∃ u a v, w = u ++ .opening a :: v ∧
      (u.filterMap label?).length = q ∧ (remaining fits [] v).isSome := by
  constructor
  · obtain ⟨s, hs⟩ := Option.isSome_iff_exists.mp h
    clear h
    -- The numbers are those of the stack, letter by letter: its top is the last opening letter
    -- behind which the word is balanced, and the rest is the stack before that letter.
    induction s generalizing w with
    | nil =>
        obtain ⟨r, hr, hlen⟩ := openFrom_of_remaining hs 0 (p := []) rfl []
        rw [List.append_nil, List.append_nil] at hr
        intro hq
        rw [hr, List.length_eq_zero_iff.mp hlen] at hq
        simp at hq
    | cons a s ih =>
        obtain ⟨u, v, rfl, hu, hv⟩ := remaining_eq_cons_iff.mp hs
        obtain ⟨r, hr, hlen⟩ := openFrom_of_remaining (remaining_of_balanced hv [])
          ((u.filterMap label?).length + 1) (p := [])
          rfl ((u.filterMap label?).length :: openFrom 0 [] u)
        rw [openFrom_append, openFrom, Nat.zero_add]
        rw [List.nil_append, List.length_eq_zero_iff.mp hlen, List.nil_append] at hr
        rw [hr, List.mem_cons]
        rintro (rfl | hq)
        · exact ⟨u, a, v, rfl, rfl, by simp [remaining_of_balanced hv]⟩
        · obtain ⟨u', c, v', rfl, hq, hv'⟩ := ih hu hq
          obtain ⟨s', hs'⟩ := Option.isSome_iff_exists.mp hv'
          refine ⟨u', c, v' ++ .opening a :: v, by simp, hq, ?_⟩
          simp [remaining_append, hs', remaining_of_balanced hv]
  · rintro ⟨u, a, v, rfl, rfl, hv⟩
    obtain ⟨s', hs'⟩ := Option.isSome_iff_exists.mp hv
    obtain ⟨r, hr, -⟩ := openFrom_of_remaining hs' ((u.filterMap label?).length + 1) (p := [])
      rfl ((u.filterMap label?).length :: openFrom 0 [] u)
    rw [openFrom_append, openFrom, Nat.zero_add]
    rw [List.nil_append] at hr
    rw [hr]
    simp

/-- The number of a letter grows with its position. -/
theorem rank_lt_rank {w : List (Bracket α β)} {i j : Nat} (hij : i < j) {x : Bracket α β}
    {a : α} (hi : w[i]? = some x) (ha : label? x = some a) : rank w i < rank w j := by
  obtain ⟨hlt, hget⟩ := List.getElem?_eq_some_iff.mp hi
  have hle : (w.take (i + 1)).filterMap label? <+: (w.take j).filterMap label? :=
    List.IsPrefix.filterMap _ (List.take_prefix_take_left (by omega))
  have hlen := hle.length_le
  rw [List.take_add_one, hi, List.filterMap_append, List.length_append] at hlen
  simp [ha] at hlen
  exact hlen

theorem rank_inj {w : List (Bracket α β)} {i j : Nat} {x y : Bracket α β} {a c : α}
    (hi : w[i]? = some x) (ha : label? x = some a) (hj : w[j]? = some y)
    (hc : label? y = some c) (h : rank w i = rank w j) : i = j := by
  rcases Nat.lt_trichotomy i j with hlt | rfl | hlt
  · have := rank_lt_rank hlt hi ha
    omega
  · rfl
  · have := rank_lt_rank hlt hj hc
    omega

/-- The place of a letter stands in the forest at the letter's number. -/
theorem forest_getElem?_rank {w : List (Bracket α β)} {j : Nat} {x : Bracket α β} {a : α}
    (hj : w[j]? = some x) (ha : label? x = some a) :
    (forest w)[rank w j]? = some ⟨a, openFrom 0 [] (w.take j)⟩ := by
  obtain ⟨hlt, rfl⟩ := List.getElem?_eq_some_iff.mp hj
  have hw : w = w.take j ++ w[j] :: w.drop (j + 1) := by
    rw [← List.drop_eq_getElem_cons hlt, List.take_append_drop]
  have hlen : (forestFrom 0 [] (w.take j)).length = rank w j := length_forest _
  conv_lhs => rw [forest, hw, forestFrom_append]
  rw [List.getElem?_append_right (Nat.le_of_eq (by rw [hlen, ← hw])), hlen, ← hw,
    Nat.sub_self]
  cases hx : w[j] with
  | closing b => simp [hx, label?] at ha
  | single c =>
      have hc : c = a := by simpa [hx, label?] using ha
      rw [forestFrom, List.getElem?_cons_zero, hc]
  | opening c =>
      have hc : c = a := by simpa [hx, label?] using ha
      rw [forestFrom, List.getElem?_cons_zero, hc]

/-- **The forest says which letters enclose which**: the letter at `i` is among those around the
letter at `j` iff the latter lies in the scope that the former opens. -/
theorem mem_around_iff {w : List (Bracket α β)} (h : (remaining fits [] w).isSome) {i j : Nat}
    {x y : Bracket α β} {a c : α} (hi : w[i]? = some x) (ha : label? x = some a)
    (hj : w[j]? = some y) (hc : label? y = some c) :
    rank w i ∈ openFrom 0 [] (w.take j) ↔ Encloses fits w i j := by
  obtain ⟨hlt, -⟩ := List.getElem?_eq_some_iff.mp hj
  have htake : (remaining fits [] (w.take j)).isSome := by
    rw [← List.take_append_drop j w, remaining_append] at h
    cases hs : remaining fits [] (w.take j) with
    | none => simp [hs] at h
    | some s => rfl
  have hshown : ∀ b, w[j]? ≠ some (.closing b) := by
    intro b hb
    rw [hj, Option.some.injEq] at hb
    simp [hb, label?] at hc
  rw [encloses_iff htake hshown hlt, mem_openFrom_iff htake]
  -- Both sides now speak of an opening letter of the part before `j`, once by its number and
  -- once by its position.
  refine exists_congr fun u => exists_congr fun d => exists_congr fun v => ?_
  refine and_congr_right fun hsplit => and_congr_left fun _ => ?_
  have hu : w[u.length]? = some (.opening d) ∧ w.take u.length = u := by
    have hw : w = u ++ .opening d :: v ++ w.drop j := by
      rw [← hsplit, List.take_append_drop]
    constructor
    · rw [hw]; simp
    · rw [hw]; simp
  constructor
  · intro hrank
    refine rank_inj hu.1 (a := d) rfl hi ha ?_
    rw [rank, hu.2, hrank]
  · rintro rfl
    rw [rank, hu.2]

/-! ## Forests of elements -/

/-- The place of another label, in a forest where `first` more letters stand before it. -/
def Place.relabel {γ : Type} (f : α → γ) (first : Nat) (p : Place α) : Place γ :=
  ⟨f p.label, p.around.map (first + ·)⟩

/-- A letter as an element with a start and an end, which for a letter that stands alone follow
one another. -/
def elementLetters {γ : Type} (f : α → γ) : Bracket α β → List (Bracket γ Unit)
  | .single a => [.opening (f a), .closing ()]
  | .opening a => [.opening (f a)]
  | .closing _ => [.closing ()]

/-- Elements are nested as the letters are that they stand for. -/
theorem forestFrom_elementLetters {γ : Type} (f : α → γ) (first count : Nat)
    (around : List Nat) (w : List (Bracket α β)) :
    forestFrom (first + count) (around.map (first + ·)) (w.flatMap (elementLetters f)) =
      (forestFrom count around w).map (Place.relabel f first) := by
  induction w generalizing count around with
  | nil => rfl
  | cons x w ih =>
      cases x with
      | single a =>
          have ih := ih (count + 1) around
          rw [← Nat.add_assoc] at ih
          simp [elementLetters, forestFrom, Place.relabel, ih]
      | opening a =>
          have ih := ih (count + 1) (count :: around)
          rw [← Nat.add_assoc, List.map_cons] at ih
          simp [elementLetters, forestFrom, Place.relabel, ih]
      | closing b =>
          have ih := ih count around.tail
          rw [List.map_tail] at ih
          simpa [elementLetters, forestFrom] using ih

/-- Letters that close have no place. -/
theorem forestFrom_replicate_closing (count : Nat) (around : List Nat) (n : Nat) (b : β) :
    forestFrom count around (List.replicate n (.closing b : Bracket α β)) = [] := by
  induction n generalizing around with
  | zero => rfl
  | succ n ih => exact ih around.tail

end Bracket

end Yeast
