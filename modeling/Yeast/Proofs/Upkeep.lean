import Mathlib.Data.List.Induction
import Mathlib.Logic.Relation
import Yeast.Proofs.Moves

set_option autoImplicit false

/-! # Reading on after a fault

A record that is refused may leave half of its work done: the text that shares it is written, the
innermost scope is left and perhaps given a marker. A builder that goes on from there is none the
worse for it. At all times it is *orderly* (`Orderly`): it has as many marks as open scopes, each
opened by an opening code; no scope without content lies around one that has content; and the
entries that are shown are numbered from one on. What it has written stays, and what it refuses it
refuses for a fault of the record (`Fares`).

A record is read in *changes*, each of them a move or the leaving of a scope, and a change keeps a
builder orderly and only adds entries. So it does not matter where among its changes a record is
refused (`feed_changes`).
-/

namespace Yeast

/-- The fault of a record on the given line. -/
inductive StreamFault.OfRecord (line : Int) : StreamFault → Prop
  | emptyRecord : OfRecord line (.emptyRecord line)
  | unknownCode (code : Text) : OfRecord line (.unknownCode line code)
  | unopened (closer : Descriptor) : OfRecord line (.unopened line closer)
  | mismatch (fault : Mismatch) : fault.line = line → OfRecord line (.mismatch fault)

namespace Builder

/-- From the inside out the marks are those of scopes without content and then those of scopes
with content. -/
def Layered (marks : List Bool) : Prop :=
  ∃ m n, marks = List.replicate m false ++ List.replicate n true

/-- The entries that are shown have the ids from one on, up to the one before `next`. -/
def Numbered (entries : List Entry) (next : Int) : Prop :=
  ∃ n : Nat, next = n + 1 ∧
    (entries.filter fun e => e.kind ≠ .closing).map Entry.id =
      (List.range n).map fun k : Nat => some (k + 1 : Int)

/-- What holds of a builder at all times. -/
structure Orderly (b : Builder) : Prop where
  length_content : b.content.length = b.nesting.length
  opening : ∀ s ∈ b.nesting, s.descriptor ∈ CodeTable.descriptors ∧ s.descriptor.kind = .opening
  layered : Layered b.content
  numbered : Numbered b.entries.toList b.nextId

/-- The state that a record leads to, whether it is accepted or refused. -/
def after (b : Builder) (line : Text) (number : Int) : Builder :=
  match (feed line number).run b with
  | .ok _ b' => b'
  | .error _ b' => b'

/-- The state that records lead to, each with the number of its line, where a record is read from
whatever state those before it have left. -/
def readOn (feeds : List (Text × Int)) : Builder :=
  feeds.foldl (fun b f => b.after f.1 f.2) {}

/-- How a builder fares that reads on whatever it has refused. -/
structure Fares (feeds : List (Text × Int)) : Prop where
  orderly : (readOn feeds).Orderly
  /-- Entries stay as they are and where they are. -/
  kept : ∀ earlier later, feeds = earlier ++ later →
    (readOn earlier).entries.toList <+: (readOn feeds).entries.toList
  /-- The faults are those of records. -/
  refused : ∀ earlier line number later, feeds = earlier ++ (line, number) :: later →
    ∀ fault b, (feed line number).run (readOn earlier) = .error fault b → fault.OfRecord number

/-! ## Marks and numbers -/

theorem Layered.nil : Layered [] := ⟨0, 0, rfl⟩

theorem Layered.cons_false {marks : List Bool} (h : Layered marks) : Layered (false :: marks) := by
  obtain ⟨m, n, rfl⟩ := h
  exact ⟨m + 1, n, rfl⟩

theorem layered_map_true (marks : List Bool) : Layered (marks.map fun _ => true) :=
  ⟨0, marks.length, List.map_const' ..⟩

theorem Numbered.nil : Numbered [] 1 := ⟨0, rfl, rfl⟩

theorem Numbered.concat_shown {entries : List Entry} {next : Int} (h : Numbered entries next)
    {e : Entry} (he : e.kind ≠ .closing) (hid : e.id = some next) :
    Numbered (entries ++ [e]) (next + 1) := by
  obtain ⟨n, rfl, hids⟩ := h
  have hfilter : [e].filter (fun e => e.kind ≠ .closing) = [e] := by simp [he]
  refine ⟨n + 1, by omega, ?_⟩
  rw [List.filter_append, List.map_append, hids, hfilter, List.range_succ, List.map_append,
    List.map_singleton, List.map_singleton, hid]

theorem Numbered.concat_closing {entries : List Entry} {next : Int} (h : Numbered entries next)
    {e : Entry} (he : e.kind = .closing) : Numbered (entries ++ [e]) next := by
  obtain ⟨n, rfl, hids⟩ := h
  have hfilter : [e].filter (fun e => e.kind ≠ .closing) = [] := by simp [he]
  exact ⟨n, rfl, by rw [List.filter_append, hfilter, List.append_nil, hids]⟩

/-! ## The states that operations lead to -/

theorem left_entries (b : Builder) (line : Int) :
    (b.left line).entries.toList =
      b.entries.toList ++ if b.content.headD true then [] else [b.marker line] := by
  unfold left
  split <;> simp [marked, written, marker]

@[simp]
theorem left_content (b : Builder) (line : Int) :
    (b.left line).content = b.content.tail.map fun _ => true := by
  unfold left
  split <;> rfl

theorem left_nextId (b : Builder) (line : Int) :
    (b.left line).nextId = if b.content.headD true then b.nextId else b.nextId + 1 := by
  unfold left
  split <;> rfl

theorem closed_entries_left (b : Builder) (d : Descriptor) (line : Int) :
    (b.closed d line).entries.toList =
      (b.left line).entries.toList ++ [⟨d, [], none, line, false⟩] := by
  simp [closed]

@[simp]
theorem withLeaf_nextId (b : Builder) (d : Descriptor) (text : Text) (line : Int) :
    (b.withLeaf d text line).nextId = b.nextId + 1 := by
  unfold withLeaf
  split <;> rfl

@[simp]
theorem opened_nextId (b : Builder) (d : Descriptor) (line : Int) :
    (b.opened d line).nextId = b.nextId + 1 := rfl

@[simp]
theorem closed_nextId (b : Builder) (d : Descriptor) (line : Int) :
    (b.closed d line).nextId = (b.left line).nextId := rfl

/-! ## Changes -/

/-- A move, or the leaving of a scope that its end then does not fit. -/
inductive Change : Builder → Builder → Prop
  | move {b b' : Builder} : Move b b' → Change b b'
  | leaving {b : Builder} (line : Int) : Change b (b.left line)

abbrev Changes : Builder → Builder → Prop := Relation.ReflTransGen Change

namespace Orderly

theorem empty : Orderly {} where
  length_content := rfl
  opening := by simp
  layered := .nil
  numbered := .nil

theorem sound {b : Builder} (h : b.Orderly) : b.Sound := by
  refine ⟨h.length_content, ?_⟩
  obtain ⟨n, hn, -⟩ := h.numbered
  omega

theorem left {b : Builder} (h : b.Orderly) (line : Int) : (b.left line).Orderly where
  length_content := (h.sound.left line).length_content
  opening := fun s hs => h.opening s (List.mem_of_mem_tail hs)
  layered := by
    rw [left_content]
    exact layered_map_true _
  numbered := by
    rw [left_entries, left_nextId]
    split
    · rw [List.append_nil]
      exact h.numbered
    · exact h.numbered.concat_shown (by show CodeTable.empty.kind ≠ _; decide) rfl

theorem move {b b' : Builder} (h : b.Orderly) (hmove : Move b b') : b'.Orderly := by
  have hsound := hmove.sound h.sound
  cases hmove with
  | leaf hmem ho hc hline =>
      refine ⟨hsound.length_content, ?_, ?_, ?_⟩
      · rw [withLeaf_nesting]
        exact h.opening
      · rw [withLeaf_content]
        split
        · exact h.layered
        · exact layered_map_true _
      · rw [withLeaf_entries, withLeaf_nextId]
        exact h.numbered.concat_shown hc rfl
  | opening hmem ho hline =>
      refine ⟨hsound.length_content, ?_, ?_, ?_⟩
      · rw [opened_nesting]
        exact List.forall_mem_cons.mpr ⟨⟨hmem, ho⟩, h.opening⟩
      · exact h.layered.cons_false
      · rw [opened_entries, opened_nextId]
        exact h.numbered.concat_shown (by simp [Entry.kind, ho]) rfl
  | @closing d line s outer hmem hc hline hnesting htitle =>
      -- The scope is left as ever, and what is added to that has no id.
      have hleft := h.left line
      refine ⟨hsound.length_content, hleft.opening, ?_, ?_⟩
      · rw [closed_content]
        exact layered_map_true _
      · rw [closed_entries_left, closed_nextId]
        exact hleft.numbered.concat_closing hc

theorem change {b b' : Builder} (h : b.Orderly) (hchange : Change b b') : b'.Orderly := by
  cases hchange with
  | move hmove => exact h.move hmove
  | leaving line => exact h.left line

theorem changes {b b' : Builder} (h : b.Orderly) (hchanges : Changes b b') : b'.Orderly := by
  induction hchanges with
  | refl => exact h
  | tail _ hchange ih => exact ih.change hchange

end Orderly

theorem Change.prefix_entries {b b' : Builder} (h : Change b b') :
    b.entries.toList <+: b'.entries.toList := by
  cases h with
  | move hmove =>
      cases hmove with
      | leaf hmem ho hc hline => exact ⟨_, (withLeaf_entries ..).symm⟩
      | opening hmem ho hline => exact ⟨_, (opened_entries ..).symm⟩
      | closing hmem hc hline hnesting htitle =>
          rw [closed_entries, List.append_assoc]
          exact List.prefix_append _ _
  | leaving line => exact ⟨_, (left_entries ..).symm⟩

theorem Changes.prefix_entries {b b' : Builder} (h : Changes b b') :
    b.entries.toList <+: b'.entries.toList := by
  induction h with
  | refl => exact List.prefix_rfl
  | tail _ hchange ih => exact ih.trans hchange.prefix_entries

/-- A builder that moves lead to is orderly. -/
theorem Reached.orderly {b : Builder} (h : b.Reached) : b.Orderly := by
  induction h with
  | empty => exact .empty
  | move _ hmove ih => exact ih.move hmove

/-! ## Records -/

theorem changes_withShared (b : Builder) (text : Text) {line : Int} (hline : 1 ≤ line) :
    Changes b (b.withShared text line) := by
  unfold withShared
  split
  · exact .refl
  · have hmem := CodeTable.mem_descriptors_of_find? CodeTable.find?_text
    exact .single (.move (.leaf hmem (by decide) (by decide) hline))

/-- A record is read in changes. Where it is refused, the state is that behind some of them, and
the fault is one of a record. -/
theorem feed_changes {b : Builder} (hb : b.Sound) (line : Text) {number : Int}
    (hnumber : 1 ≤ number) :
    Changes b (b.after line number) ∧
      ∀ fault b', (feed line number).run b = .error fault b' → fault.OfRecord number := by
  unfold after
  rw [feed_eq]
  cases hreading : line.reading with
  | blank =>
      refine ⟨.refl, fun fault b' h => ?_⟩
      obtain ⟨rfl, -⟩ := EStateM.Result.error.inj h
      exact .emptyRecord
  | comment =>
      refine ⟨.refl, fun fault b' h => ?_⟩
      simp at h
  | unknown code =>
      refine ⟨.refl, fun fault b' h => ?_⟩
      obtain ⟨rfl, -⟩ := EStateM.Result.error.inj h
      exact .unknownCode _
  | token d text =>
      have hmem := mem_descriptors_of_reading hreading
      dsimp only
      by_cases hopen : d.kind = .opening
      · rw [feedToken_run_opening hb hopen text hnumber]
        have hopened : Change b (b.opened d number) := .move (.opening hmem hopen hnumber)
        exact ⟨.head hopened (changes_withShared _ text hnumber), by simp⟩
      by_cases hclose : d.kind = .closing
      · -- The text in the same record is written before anything can be refused.
        have hshared := changes_withShared b text hnumber
        rw [feedToken_run_closing hb hclose text hnumber,
          closeScope_run (hb.withShared text number) hclose hnumber]
        cases hnesting : (b.withShared text number).nesting with
        | nil =>
            refine ⟨hshared, fun fault b' h => ?_⟩
            obtain ⟨rfl, -⟩ := EStateM.Result.error.inj h
            exact .unopened d
        | cons s outer =>
            dsimp only
            by_cases htitle : s.descriptor.title = d.title
            · rw [if_pos htitle]
              exact ⟨hshared.tail (.move (.closing hmem hclose hnumber hnesting htitle)), by simp⟩
            · rw [if_neg htitle]
              refine ⟨hshared.tail (.leaving number), fun fault b' h => ?_⟩
              obtain ⟨rfl, -⟩ := EStateM.Result.error.inj h
              exact .mismatch _ rfl
      · rw [feedToken_run_leaf hb hopen hclose text hnumber]
        exact ⟨.single (.move (.leaf hmem hopen hclose hnumber)), by simp⟩

/-! ## Runs -/

theorem readOn_concat (feeds : List (Text × Int)) (line : Text) (number : Int) :
    readOn (feeds ++ [(line, number)]) = (readOn feeds).after line number := by
  simp [readOn]

theorem orderly_readOn {feeds : List (Text × Int)} (h : ∀ f ∈ feeds, 1 ≤ f.2) :
    (readOn feeds).Orderly := by
  induction feeds using List.reverseRecOn with
  | nil => exact .empty
  | append_singleton feeds f ih =>
      have hfeeds : (readOn feeds).Orderly := ih fun g hg => h g (List.mem_append_left _ hg)
      have hnumber : 1 ≤ f.2 := h f (by simp)
      rw [readOn_concat]
      exact hfeeds.changes (feed_changes hfeeds.sound f.1 hnumber).1

/-- The records behind some others lead on from their state in changes. -/
theorem changes_readOn_append {earlier later : List (Text × Int)}
    (h : ∀ f ∈ earlier ++ later, 1 ≤ f.2) :
    Changes (readOn earlier) (readOn (earlier ++ later)) := by
  induction later using List.reverseRecOn with
  | nil =>
      rw [List.append_nil]
  | append_singleton later f ih =>
      rw [← List.append_assoc] at h ⊢
      have hbefore : ∀ g ∈ earlier ++ later, 1 ≤ g.2 := fun g hg => h g (List.mem_append_left _ hg)
      have hnumber : 1 ≤ f.2 := h f (by simp)
      rw [readOn_concat]
      exact (ih hbefore).trans (feed_changes (orderly_readOn hbefore).sound f.1 hnumber).1

/-- **A builder stays in order whatever it has refused.** -/
theorem fares_of_pos {feeds : List (Text × Int)} (h : ∀ f ∈ feeds, 1 ≤ f.2) :
    Fares feeds where
  orderly := orderly_readOn h
  kept := by
    rintro earlier later rfl
    exact (changes_readOn_append h).prefix_entries
  refused := by
    rintro earlier line number later rfl fault b hrun
    have hearlier : ∀ f ∈ earlier, 1 ≤ f.2 := fun f hf => h f (List.mem_append_left _ hf)
    have hnumber : 1 ≤ number := h (line, number) (by simp)
    exact (feed_changes (orderly_readOn hearlier).sound line hnumber).2 fault b hrun

/-- A scalar is ended as a sequence, which leaves it with a marker and without an end. The end that
follows finds the mapping around it, which has content by now. -/
theorem fares_mismatch :
    let feeds : List (Text × Int) :=
      [("M".toList, 1), ("S".toList, 2), ("q".toList, 3), ("m".toList, 4), ("s".toList, 5)]
    (∀ f ∈ feeds, 1 ≤ f.2) ∧
      (readOn feeds).entries.toList =
        [ ⟨⟨'M', .opening, "Mapping".toList⟩, [], some 1, 1, false⟩,
          ⟨⟨'S', .opening, "Scalar".toList⟩, [], some 2, 2, false⟩,
          ⟨CodeTable.empty, ['°'], some 3, 3, true⟩,
          ⟨⟨'m', .closing, "Mapping".toList⟩, [], none, 4, false⟩ ] ∧
      Fares feeds := by
  intro feeds
  have h : ∀ f ∈ feeds, 1 ≤ f.2 := by decide
  exact ⟨h, rfl, fares_of_pos h⟩

end Builder

end Yeast
