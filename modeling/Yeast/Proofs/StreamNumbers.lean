import Yeast.Proofs.Dump
import Yeast.Proofs.Transcript

set_option autoImplicit false

/-! # How large the numbers of a stream are

No number in the model of a stream is more than twice the number of its lines
(`Model.fitsWords_of_ofLines`): a line comes to at most two events (`Text.length_events_le`), and
entering an event numbers at most one entry (`Builder.shownCount_enter?`). So no stream that fits
into memory is too long for its dump.
-/

namespace Yeast

namespace Builder

def shownCount (b : Builder) : Nat := b.finish.shown.length

theorem shownCount_eq (b : Builder) :
    b.shownCount = b.entries.toList.countP fun e => e.kind ≠ .closing :=
  List.countP_eq_length_filter.symm

/-- Entering an event adds one entry that is shown, or none. -/
theorem shownCount_enter? {b b' : Builder} {e : Event} {line : Int}
    (h : b.enter? e line = some b') : b'.shownCount ≤ b.shownCount + 1 := by
  rw [shownCount_eq, shownCount_eq]
  by_cases hopen : e.descriptor.kind = .opening
  · rw [enter?_opening b hopen, Option.some.injEq] at h
    rw [← h, opened_entries, List.countP_append]
    exact Nat.add_le_add_left List.countP_le_length _
  by_cases hclose : e.descriptor.kind = .closing
  · obtain ⟨-, rfl⟩ := (enter?_closing_eq_some_iff hclose).mp h
    -- The end itself is not shown, but a marker before it may be.
    have hclosing : [(⟨e.descriptor, [], none, line, false⟩ : Entry)].countP
        (fun e => decide (e.kind ≠ .closing)) = 0 := by
      simp [Entry.kind, hclose]
    rw [closed_entries, List.countP_append, List.countP_append, hclosing]
    split
    · simp
    · exact Nat.add_le_add_left List.countP_le_length _
  · rw [enter?_leaf b hopen hclose, Option.some.injEq] at h
    rw [← h, withLeaf_entries, List.countP_append]
    exact Nat.add_le_add_left List.countP_le_length _

theorem shownCount_enterAll? {b b' : Builder} {events : List (Event × Int)}
    (h : b.enterAll? events = some b') : b'.shownCount ≤ b.shownCount + events.length := by
  induction events generalizing b with
  | nil =>
      rw [enterAll?_nil, Option.some.injEq] at h
      rw [h, List.length_nil]
      omega
  | cons x events ih =>
      obtain ⟨b₁, henter, hrest⟩ := Option.bind_eq_some_iff.mp h
      have hfirst := shownCount_enter? henter
      have hmore := ih hrest
      rw [List.length_cons]
      omega

end Builder

theorem Text.length_sharedEvents_le (text : Text) : text.sharedEvents.length ≤ 1 := by
  unfold sharedEvents
  split_ifs <;> simp

/-- A line comes to two events at most. -/
theorem Text.length_events_le (line : Text) : line.events.length ≤ 2 := by
  unfold events
  split
  · rename_i d text _
    have hshared := text.length_sharedEvents_le
    unfold Descriptor.events
    split <;> simp only [List.length_cons, List.length_append, List.length_nil] <;> omega
  · simp

theorem Stream.length_eventsFrom_le (number : Int) (lines : List Text) :
    (eventsFrom number lines).length ≤ 2 * lines.length := by
  induction lines generalizing number with
  | nil => simp [eventsFrom]
  | cons line lines ih =>
      have hline := line.length_events_le
      have hmore := ih (number + 1)
      rw [eventsFrom, List.length_append, List.length_map, List.length_cons]
      omega

namespace Model

variable {lines : List Text} {m : Model}

theorem length_shown_le (h : ofLines lines = .ok m) : m.shown.length ≤ 2 * lines.length := by
  obtain ⟨-, b, henter, rfl⟩ := Stream.ofLines_eq_ok_iff.mp h
  have hcount := Builder.shownCount_enterAll? henter
  have hevents := Stream.length_eventsFrom_le 1 lines
  have hempty : Builder.shownCount {} = 0 := rfl
  show b.shownCount ≤ _
  omega

/-- The ids are counted through from one. -/
theorem id_le_of_ofLines (h : ofLines lines = .ok m) {e : Entry} (he : e ∈ m.entries) {n : Int}
    (hn : e.id = some n) : 1 ≤ n ∧ n ≤ 2 * lines.length := by
  have hshown : e ∈ m.shown := by
    refine List.mem_filter.mpr ⟨he, decide_eq_true fun hclosing => ?_⟩
    rw [(regular_of_ofLines h e he).id_closing hclosing] at hn
    simp at hn
  have hid := List.mem_map_of_mem (f := Entry.id) hshown
  rw [map_id_shown h, hn] at hid
  obtain ⟨k, hk, hkn⟩ := List.mem_map.mp hid
  have hlength := length_shown_le h
  rw [List.mem_range] at hk
  rw [Option.some.injEq] at hkn
  omega

/-- **The numbers of a stream of less than 0x8000000000000000 lines fit a word.** -/
theorem fitsWords_of_ofLines (h : ofLines lines = .ok m)
    (hlength : lines.length < 0x8000000000000000) : m.FitsWords := by
  have hlines : ∀ e ∈ m.entries, 1 ≤ e.line ∧ e.line ≤ lines.length := fun e he =>
    ⟨(regular_of_ofLines h e he).line_pos, line_le_of_ofLines h e he⟩
  refine ⟨fun e he => ?_, fun e he n hn => ?_, fun s hs => ?_⟩
  · have := hlines e he
    unfold FitsWord
    omega
  · have := id_le_of_ofLines h he hn
    unfold FitsWord
    omega
  · obtain ⟨e, he, rfl⟩ := exists_entry_of_mem_openScopes h hs
    have := hlines e he
    show FitsWord e.line
    unfold FitsWord
    omega

end Model

end Yeast
