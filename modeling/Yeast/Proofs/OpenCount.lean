import Yeast.Proofs.Ending
import Yeast.Proofs.Transcript

set_option autoImplicit false

/-! # Counting open scopes

While the entries are written, each pane counts the scopes that are open, and so does the reader of
a stream, with a stack. Behind every prefix of the entries the three agree: the outline and the
source text go on from a count that is the number of opening entries of the prefix which nothing in
the prefix ends (`Model.countsOpen_of_ofLines`). So no count is ever negative and no indentation cut
off at zero, and what the panes end behind the last entry are the scopes that the stream left open.

The stack is what ties the counts together. Its length is what the panes count
(`Outline.foldl_levelAfter`), and its letters are those that nothing ends
(`Bracket.exists_unended`).
-/

namespace Yeast

open Markup

/-! ## Deciding which scopes end -/

namespace Bracket

variable {α β : Type} {fits : α → β → Prop} {w : List (Bracket α β)} {i j : Nat}

instance (x : Option (Bracket α β)) : Decidable (∃ a, x = some (.opening a)) :=
  match x with
  | some (.opening a) => isTrue ⟨a, rfl⟩
  | some (.single _) => isFalse (by simp)
  | some (.closing _) => isFalse (by simp)
  | none => isFalse (by simp)

instance (x : Option (Bracket α β)) : Decidable (∃ b, x = some (.closing b)) :=
  match x with
  | some (.closing b) => isTrue ⟨b, rfl⟩
  | some (.single _) => isFalse (by simp)
  | some (.opening _) => isFalse (by simp)
  | none => isFalse (by simp)

theorem matches_iff : Matches fits w i j ↔ Directly fits w i j ∧ ∃ b, w[j]? = some (.closing b) :=
  ⟨fun h => ⟨h.directly, h.closing⟩, fun ⟨h, _, hb⟩ => h.matches_of_closing hb⟩

theorem directly_iff [DecidableRel fits] {p : Nat} :
    Directly fits w i p ↔ (∃ a, (w.take p)[i]? = some (.opening a)) ∧
      remaining fits [] ((w.take p).drop (i + 1)) = some [] := by
  rw [← balanced_iff]
  constructor
  · rintro ⟨before, a, inner, htake, hinner, rfl⟩
    rw [htake, List.drop_append, List.drop_eq_nil_of_le (Nat.le_succ _)]
    exact ⟨⟨a, by simp⟩, by simpa using hinner⟩
  · rintro ⟨⟨a, ha⟩, hinner⟩
    obtain ⟨hi, ha⟩ := List.getElem?_eq_some_iff.mp ha
    refine ⟨(w.take p).take i, a, _, ?_, hinner, List.length_take_of_le (Nat.le_of_lt hi)⟩
    rw [← ha, ← List.drop_eq_getElem_cons hi, List.take_append_drop]

instance [DecidableEq α] [DecidableRel fits] (w : List (Bracket α β)) (i j : Nat) :
    Decidable (Matches fits w i j) :=
  decidable_of_iff _ (matches_iff.trans (and_congr_left fun _ => directly_iff)).symm

/-- A scope ends within the word, if it does. -/
theorem unended_iff_forall_lt : Unended fits w i ↔
    (∃ a, w[i]? = some (.opening a)) ∧ ∀ j < w.length, ¬ Matches fits w i j := by
  refine and_congr_right fun _ => ⟨fun h j _ => h j, fun h j hj => ?_⟩
  obtain ⟨b, hb⟩ := hj.closing
  exact h j (List.getElem?_eq_some_iff.mp hb).1 hj

instance [DecidableEq α] [DecidableRel fits] (w : List (Bracket α β)) (i : Nat) :
    Decidable (Unended fits w i) := decidable_of_iff _ unended_iff_forall_lt.symm

end Bracket

namespace Model

instance (m : Model) (i : Nat) : Decidable (m.Unended i) := decidable_of_iff _ (unended_iff m i)

/-- The first `k` entries. -/
def cut (m : Model) (k : Nat) : Model := { entries := m.entries.take k }

/-- How many of the first `k` entries begin a scope that none of them ends. -/
def openCount (m : Model) (k : Nat) : Nat := (List.range k).countP fun i => (m.cut k).Unended i

/-- The rows of the entry at the position, with all scopes open before it counted. -/
def rowsAt (m : Model) (i : Nat) : List Outline.Row :=
  m.entries[i]?.elim [] fun e => Outline.entryRows (m.openCount i) e

end Model

/-- The steps by which the outline indents what follows the entries. -/
def Outline.depthBehind (entries : List Entry) : Int := 1 + 2 * entries.foldl levelAfter 0

namespace Model

/-- Both panes count the scopes that are open. -/
structure CountsOpen (m : Model) : Prop where
  /-- Behind any of its entries the outline is indented by two steps for each open scope. -/
  depth : ∀ k, Outline.depthBehind (m.entries.take k) = 1 + 2 * m.openCount k
  positive : ∀ k, 1 ≤ Outline.depthBehind (m.entries.take k)
  /-- No indentation is cut off at zero. -/
  indentation : ∀ k, (Outline.steps ((m.entries.take k).foldl Outline.levelAfter 0) : Int) =
    Outline.depthBehind (m.entries.take k)
  /-- An entry changes the count as it changes the level, so one that closes finds a scope open. -/
  step : ∀ k e, m.entries[k]? = some e →
    Outline.levelAfter (m.openCount k) e = m.openCount (k + 1)
  /-- The outline goes on at the level that counts the open scopes, whatever follows. -/
  outline : ∀ k more, Outline.rowsFrom 0 (m.entries.take k ++ more) =
    (List.range k).flatMap m.rowsAt ++ Outline.rowsFrom (m.openCount k) more
  /-- So does the source text. -/
  sourceText : ∀ k, ∃ written pending, ∀ more,
    SourceText.piecesFrom false 0 (m.entries.take k ++ more) =
      written ++ SourceText.piecesFrom pending (m.openCount k) more
  /-- Behind the last entry each pane ends the scopes that are left open, and as many. -/
  outlineEnd : Outline.rowsFrom 0 m.entries =
    (List.range m.entries.length).flatMap m.rowsAt ++ Outline.closers m.openScopes.length
  sourceTextEnd : ∃ written, SourceText.piecesFrom false 0 m.entries =
    written ++ List.replicate m.openScopes.length SourceText.spanEnd

/-! ## The count is the length of the stack -/

/-- The positions that are counted are those of the letters on the stack. -/
theorem openCount_eq {m : Model} {k : Nat} {openers : List Entry}
    (h : Bracket.remaining Entry.EndedBy [] (m.cut k).brackets = some openers) :
    m.openCount k = openers.length := by
  obtain ⟨positions, hsorted, hmem, hletters⟩ := Bracket.exists_unended h
  have hlength := congrArg List.length hletters
  rw [List.length_map, List.length_map, List.length_reverse] at hlength
  have hunended : ∀ i, i ∈ positions ↔ (m.cut k).Unended i := fun i =>
    (hmem i).trans (unended_iff (m.cut k) i)
  have hlt : ∀ i, (m.cut k).Unended i → i < k := by
    rintro i ⟨⟨o, ho, -⟩, -⟩
    have hi : i < (m.entries.take k).length := (List.getElem?_eq_some_iff.mp ho).1
    rw [List.length_take] at hi
    omega
  have hperm : ((List.range k).filter fun i => (m.cut k).Unended i).Perm positions := by
    refine (List.perm_ext_iff_of_nodup (List.nodup_range.filter _)
      (hsorted.imp Nat.ne_of_lt)).mpr fun i => ?_
    rw [List.mem_filter, List.mem_range, decide_eq_true_iff, hunended]
    exact and_iff_right_of_imp (hlt i)
  rw [openCount, List.countP_eq_length_filter, hperm.length_eq, hlength]

variable {m : Model} {lines : List Text}

/-- The level behind a prefix is the number of the scopes open there. -/
theorem foldl_levelAfter_take (h : ofLines lines = .ok m) (k : Nat) :
    (m.entries.take k).foldl Outline.levelAfter 0 = m.openCount k := by
  have hsplit : m.brackets = (m.cut k).brackets ++ (m.entries.drop k).map Entry.bracket := by
    rw [brackets, brackets, cut, ← List.map_append, List.take_append_drop]
  have hwhole := isSome_remaining_brackets h
  rw [hsplit, Bracket.remaining_append] at hwhole
  obtain ⟨openers, hopeners⟩ := Option.isSome_iff_exists.mp (Option.isSome_of_isSome_bind hwhole)
  have hlevel : (m.entries.take k).foldl Outline.levelAfter (([] : List Entry).length : Int) =
      openers.length := Outline.foldl_levelAfter hopeners
  rw [openCount_eq hopeners]
  exact hlevel

/-- Behind all entries it is the number of the scopes left open. -/
theorem openCount_length (h : ofLines lines = .ok m) :
    m.openCount m.entries.length = m.openScopes.length := by
  have hcount := foldl_levelAfter_take h m.entries.length
  rw [List.take_length] at hcount
  obtain ⟨b, hb, rfl⟩ := Builder.reached_of_ofLines h
  have hlevel := hb.foldl_levelAfter
  have hscopes : b.finish.openScopes.length = b.nesting.length := List.length_reverse
  omega

/-! ## The panes go on from the count -/

/-- One entry takes the count to the one behind it. -/
theorem levelAfter_openCount (h : ofLines lines = .ok m) {k : Nat} {e : Entry}
    (he : m.entries[k]? = some e) :
    Outline.levelAfter (m.openCount k) e = m.openCount (k + 1) := by
  have htake : m.entries.take (k + 1) = m.entries.take k ++ [e] := by
    rw [List.take_add_one, he]
    rfl
  rw [← foldl_levelAfter_take h k, ← foldl_levelAfter_take h (k + 1), htake, List.foldl_append]
  rfl

theorem rowsFrom_take (h : ofLines lines = .ok m) (k : Nat) (more : List Entry) :
    Outline.rowsFrom 0 (m.entries.take k ++ more) =
      (List.range k).flatMap m.rowsAt ++ Outline.rowsFrom (m.openCount k) more := by
  induction k generalizing more with
  | zero =>
      rw [← foldl_levelAfter_take h 0]
      rfl
  | succ k ih =>
      rw [List.range_succ, List.flatMap_append, List.flatMap_singleton, List.take_add_one,
        List.append_assoc, ih, List.append_assoc]
      congr 1
      cases he : m.entries[k]? with
      | none =>
          -- Behind the end of the entries nothing is counted any more.
          have hcount : (m.openCount k : Int) = m.openCount (k + 1) := by
            rw [← foldl_levelAfter_take h k, ← foldl_levelAfter_take h (k + 1),
              List.take_add_one, he, Option.toList_none, List.append_nil]
          rw [rowsAt, he, hcount]
          rfl
      | some e =>
          rw [rowsAt, he, Option.toList_some, List.singleton_append, Outline.rowsFrom,
            levelAfter_openCount h he]
          rfl

theorem exists_piecesFrom_take (h : ofLines lines = .ok m) (k : Nat) :
    ∃ written pending, ∀ more, SourceText.piecesFrom false 0 (m.entries.take k ++ more) =
      written ++ SourceText.piecesFrom pending (m.openCount k) more := by
  obtain ⟨written, hwritten⟩ := SourceText.exists_piecesFrom_append false 0 (m.entries.take k)
  rw [foldl_levelAfter_take h] at hwritten
  exact ⟨written, _, hwritten⟩

/-- **Behind every prefix of the entries of a stream both panes count the scopes open there.** -/
theorem countsOpen_of_ofLines (h : ofLines lines = .ok m) : m.CountsOpen := by
  have hdepth : ∀ k, Outline.depthBehind (m.entries.take k) = 1 + 2 * m.openCount k := by
    intro k
    rw [Outline.depthBehind, foldl_levelAfter_take h]
  refine ⟨hdepth, fun k => ?_, fun k => ?_, fun k e he => levelAfter_openCount h he,
    rowsFrom_take h, exists_piecesFrom_take h, ?_, ?_⟩
  · rw [hdepth]
    omega
  · rw [hdepth, foldl_levelAfter_take h, Outline.steps]
    omega
  · have hall := rowsFrom_take h m.entries.length []
    rwa [List.append_nil, List.take_length, openCount_length h, Outline.rowsFrom,
      Int.toNat_natCast] at hall
  · obtain ⟨written, pending, hwritten⟩ := exists_piecesFrom_take h m.entries.length
    have hall := hwritten []
    rw [List.append_nil, List.take_length, openCount_length h, SourceText.piecesFrom,
      Int.toNat_natCast] at hall
    exact ⟨written, hall⟩

/-- A mapping that is left open, and in it a scalar that gets a marker and ends before another one
is left open as well. -/
theorem countsOpen_unclosed :
    let lines : List Text := ["M".toList, "S".toList, "s".toList, "Sa".toList]
    let m : Model :=
      { entries :=
          [ ⟨⟨'M', .opening, "Mapping".toList⟩, [], some 1, 1, false⟩,
            ⟨⟨'S', .opening, "Scalar".toList⟩, [], some 2, 2, false⟩,
            ⟨CodeTable.empty, ['°'], some 3, 3, true⟩,
            ⟨⟨'s', .closing, "Scalar".toList⟩, [], none, 3, false⟩,
            ⟨⟨'S', .opening, "Scalar".toList⟩, [], some 4, 4, false⟩,
            ⟨CodeTable.text, "a".toList, some 5, 4, false⟩ ]
        openScopes :=
          [⟨1, ⟨'M', .opening, "Mapping".toList⟩⟩, ⟨4, ⟨'S', .opening, "Scalar".toList⟩⟩] }
    ofLines lines = .ok m ∧ (List.range 7).map m.openCount = [0, 1, 2, 2, 1, 2, 2] ∧
      m.CountsOpen := by
  intro lines m
  have h : ofLines lines = .ok m := Stream.ofLines_eq_ok_of_toOption (by decide +kernel)
  exact ⟨h, by decide +kernel, countsOpen_of_ofLines h⟩

end Model

end Yeast
