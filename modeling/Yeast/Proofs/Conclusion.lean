import Yeast.Proofs.Delivery
import Yeast.Proofs.FileFaults
import Yeast.Proofs.Refusal

set_option autoImplicit false

/-! # How runs end

A run ends with status 0 or 1, and if it ends with 1 it says so in one message behind what it has
logged (`Command.concluded_of_addressable`). There are two ways around this, and both begin in the
arguments. One that drops the value of an option can make the failure escape, and one with a line
feed in it is shown as it is, so that the message has several lines. Nothing else does, neither a
stream nor a file nor a path: what is said has printable characters and those of the arguments.

This is kept by every step of the work (`Machine.Says`): its records are drawn from the arguments,
and so is the message of its failure if it fails.
-/

namespace Yeast

open Command

/-! ## Failures -/

namespace Command

/-- The failure comes from the arguments, from a stream or from files that refuse. -/
inductive Failure.Traced (arguments : List Text) : Failure → Prop
  | options {fault : OptionFault} : fault.Traced arguments → Traced arguments (.options fault)
  | stream {fault : StreamFault} : (Failure.stream fault).isReported = true →
      fault.message.Visible → Traced arguments (.stream fault)
  | unreadable {p : Path} {fault : FileFault} : p.DrawnFrom arguments → fault.Reportable →
      Traced arguments (.unreadable p fault)
  | unwritable {p : Path} {fault : FileFault} : p.DrawnFrom arguments → fault.Reportable →
      Traced arguments (.unwritable p fault)
  | blank {use : ValueUse} : Attached arguments ['-', '-'] → Traced arguments (.blank use)

theorem drawnFrom_fileMessage {arguments : List Text} {attempt : Text} (hattempt : attempt.Visible)
    {p : Path} (hp : p.DrawnFrom arguments) {fault : FileFault} (hfault : fault.Reportable) :
    (fileMessage attempt p fault).DrawnFrom arguments := by
  rw [fileMessage, if_neg hfault.passable]
  simp only [Text.drawnFrom_append]
  exact ⟨⟨⟨hattempt.drawnFrom _, hp.text⟩, Text.Visible.drawnFrom (by decide) _⟩,
    hfault.visible.drawnFrom _⟩

/-- A failure that is not reported has come from a value that was dropped. -/
theorem Failure.Traced.reported_or_blank {arguments : List Text} {failure : Failure}
    (h : failure.Traced arguments) :
    (failure.isReported = true ∧ failure.message.DrawnFrom arguments) ∨
      (∃ use, failure = .blank use) ∧ Attached arguments ['-', '-'] := by
  cases h with
  | options hfault => exact Or.inl ⟨rfl, hfault.drawnFrom_message⟩
  | stream hreported hvisible => exact Or.inl ⟨hreported, hvisible.drawnFrom _⟩
  | unreadable hp hfault =>
      exact Or.inl ⟨decide_eq_true hfault.passable, drawnFrom_fileMessage (by decide) hp hfault⟩
  | unwritable hp hfault =>
      exact Or.inl ⟨decide_eq_true hfault.passable, drawnFrom_fileMessage (by decide) hp hfault⟩
  | blank hdropped => exact Or.inr ⟨⟨_, rfl⟩, hdropped⟩

end Command

/-- A line is to blame for whatever a stream is refused for. -/
theorem Stream.exists_blames {lines : List Text} {fault : StreamFault}
    (h : Model.ofLines lines = .error fault) :
    ∃ before line number, Blames before line number fault := by
  have hillegal : ¬ Legal lines := by
    rw [← exists_ofLines_iff, h]
    simp
  obtain ⟨before, line, after, rfl, hbefore, hline⟩ := exists_first_illegal hillegal
  obtain ⟨first, b, hrun, hblame⟩ := feedAll_run_of_illegal hbefore hline after
  rw [Model.ofLines, hrun, Except.error.injEq] at h
  exact ⟨before, line, _, h ▸ hblame⟩

theorem Stream.results_ofLines (arguments lines : List Text) :
    Results (fun m => Model.ofLines lines = .ok m)
      (fun fault => (Failure.stream fault).Traced arguments) (Model.ofLines lines) := by
  cases hmodel : Model.ofLines lines with
  | ok m => rfl
  | error fault =>
      obtain ⟨before, line, number, hblame⟩ := exists_blames hmodel
      obtain ⟨reason, hmessage, hreason⟩ := hblame.exists_message
      exact .stream hblame.isReported (hmessage ▸ visible_atLine number hreason)

/-! ## Records of the log -/

theorem Model.visible_readingLog {lines : List Text} {m : Model} (h : ofLines lines = .ok m) :
    ∀ r ∈ m.readingLog, r.message.Visible := by
  have hnumber : ∀ n : Nat, (Text.ofNat n).Visible := fun n => Text.visible_ofInt n
  intro r hr
  rcases List.mem_append.mp hr with hwarning | hparsed
  · unfold warnings at hwarning
    split at hwarning
    · exact nomatch hwarning
    · rename_i innermost hlast
      obtain rfl := List.mem_singleton.mp hwarning
      obtain ⟨e, he, rfl⟩ := exists_entry_of_mem_openScopes h (List.mem_of_getLast? hlast)
      have hregular := regular_of_ofLines h e he
      -- No marker opens a scope, but its title is visible as well.
      have htitle : e.descriptor.title.Visible := by
        cases hsynthetic : e.synthetic with
        | false => exact CodeTable.visible_title _ (hregular.of_table hsynthetic)
        | true =>
            rw [(hregular.of_marker hsynthetic).1]
            decide
      simp only [Text.visible_append, hnumber, true_and, Text.visible_ofInt, and_true]
      exact ⟨⟨by decide, htitle⟩, by decide⟩
  · obtain rfl := List.mem_singleton.mp hparsed
    simp only [Text.visible_append, hnumber, and_true]
    decide

namespace Command

variable {arguments : List Text} {r : Request}

theorem Request.Traced.drawnFrom_documentRecord (h : r.Traced arguments) :
    (documentRecord r.output).message.DrawnFrom arguments := by
  refine Text.drawnFrom_append.mpr ⟨Text.Visible.drawnFrom (by decide) _, ?_⟩
  cases houtput : r.output with
  | none => exact Text.Visible.drawnFrom (by decide) _
  | some path =>
      obtain ⟨given, hgiven, rfl⟩ := h.output path houtput
      rcases hgiven.map_ofText with ⟨hblank, -⟩ | ⟨p, hvalue, hp⟩
      · rw [hblank]
        exact Text.Visible.drawnFrom (by decide) _
      · rw [hvalue]
        exact hp.text

/-- The stylesheet of a choice is given by the arguments. -/
inductive StyleChoice.Traced (arguments : List Text) : StyleChoice → Prop
  | builtin : Traced arguments .builtin
  | linked {given : Given Text} : given.Traced arguments →
      Traced arguments (.linked (given.map Path.ofText))
  | embedded {given : Given Text} : given.Traced arguments →
      Traced arguments (.embedded (given.map Path.ofText))

theorem Request.Traced.styleChoice (h : r.Traced arguments) :
    Results (StyleChoice.Traced arguments) (OptionFault.Traced arguments)
      (StyleChoice.ofOptions r.stylesheet r.link) := by
  cases hstylesheet : r.stylesheet with
  | none =>
      cases r.link with
      | false => exact .builtin
      | true => exact .nothingToLink
  | some path =>
      obtain ⟨given, hgiven, rfl⟩ := h.stylesheet path hstylesheet
      cases r.link with
      | false => exact .embedded hgiven
      | true => exact .linked hgiven

end Command

/-! ## What work says -/

/-- A stream that a memory holds has no more lines than a word can count. -/
theorem Bytes.Addressable.length_records {bytes : Bytes} (h : bytes.Addressable) :
    (Text.ofBytes bytes).withoutByteOrderMark.records.length < 0x8000000000000000 := by
  have hlines := Bytes.length_lines_le (.ofBytes bytes) bytes
  rw [Bytes.lines, Charset.read_ofBytes] at hlines
  exact hlines.trans_lt h

namespace Machine

/-- What can be read on the machine is held in a memory. -/
structure Addressable (machine : Machine) : Prop where
  input : machine.input.Addressable
  files : ∀ p bytes, machine.files.read p = .ok bytes → bytes.Addressable

variable {α β : Type}

/-- The work logs only what is drawn from the arguments, each record in a row of its own. What it
comes to is as stated, or else a failure that comes from the arguments, a stream or files. -/
def Says (arguments : List Text) (machine : Machine) (x : Work (StateM Machine) α)
    (Q : α → Prop) : Prop :=
  ∃ records : List LogRecord, (∀ r ∈ records, r.message.DrawnFrom arguments) ∧
    (x.run.run machine).2.diagnostics =
      machine.diagnostics ++ Text.ofRows (records.map (LogRecord.row machine.time)) ∧
    (x.run.run machine).2.time = machine.time ∧
    Results Q (Failure.Traced arguments) (x.run.run machine).1

namespace Says

variable {arguments : List Text} {machine : Machine}

/-- Work that logs nothing. -/
theorem silent {x : Work (StateM Machine) α} {Q : α → Prop} {result : Except Failure α}
    {machine' : Machine} (h : x.run.run machine = (result, machine'))
    (hdiagnostics : machine'.diagnostics = machine.diagnostics)
    (htime : machine'.time = machine.time) (hresult : Results Q (Failure.Traced arguments) result) :
    machine.Says arguments x Q := by
  refine ⟨[], by simp, ?_, ?_, ?_⟩
  · rw [h]
    simpa using hdiagnostics
  · rw [h]
    exact htime
  · rw [h]
    exact hresult

theorem pure {Q : α → Prop} {a : α} (h : Q a) : machine.Says arguments (Pure.pure a) Q :=
  silent rfl rfl rfl h

theorem mono {x : Work (StateM Machine) α} {Q R : α → Prop} (hx : machine.Says arguments x Q)
    (h : ∀ a, Q a → R a) : machine.Says arguments x R := by
  obtain ⟨records, hdrawn, hdiagnostics, htime, hresult⟩ := hx
  refine ⟨records, hdrawn, hdiagnostics, htime, ?_⟩
  rcases hresult.ok_or_error with ⟨a, hok, ha⟩ | ⟨failure, herror, hfailure⟩
  · rw [hok]
    exact h a ha
  · rw [herror]
    exact hfailure

theorem throw {Q : α → Prop} {failure : Failure} (h : failure.Traced arguments) :
    machine.Says arguments (throw failure : Work (StateM Machine) α) Q :=
  silent rfl rfl rfl h

theorem ofExcept {ε : Type} {Q : α → Prop} {failure : ε → Failure} {result : Except ε α}
    (h : Results Q (fun e => (failure e).Traced arguments) result) :
    machine.Says arguments (ofExcept failure result) Q := by
  cases result with
  | ok a => exact pure h
  | error e => exact throw h

/-- What is logged behind other records stands behind them. -/
theorem bind {x : Work (StateM Machine) α} {f : α → Work (StateM Machine) β} {Q : α → Prop}
    {R : β → Prop} (hx : machine.Says arguments x Q)
    (hf : ∀ a (machine' : Machine), Q a → machine'.Says arguments (f a) R) :
    machine.Says arguments (x >>= f) R := by
  obtain ⟨records, hdrawn, hdiagnostics, htime, hresult⟩ := hx
  rcases hrun : x.run.run machine with ⟨result, machine'⟩
  rw [hrun] at hdiagnostics htime hresult
  cases result with
  | error failure =>
      -- nothing is done behind a failure, so its records are all there are
      refine ⟨records, hdrawn, ?_⟩
      rw [View.run_bind_error hrun]
      exact ⟨hdiagnostics, htime, hresult⟩
  | ok a =>
      obtain ⟨more, hdrawn', hdiagnostics', htime', hresult'⟩ := hf a machine' hresult
      dsimp only at hdiagnostics htime
      refine ⟨records ++ more, fun r hr => ?_, ?_⟩
      · rcases List.mem_append.mp hr with hr | hr
        · exact hdrawn r hr
        · exact hdrawn' r hr
      · rw [View.run_bind_ok hrun]
        refine ⟨?_, htime'.trans htime, hresult'⟩
        rw [hdiagnostics', hdiagnostics, htime, List.map_append, Text.ofRows_append,
          List.append_assoc]

theorem log (threshold : LogLevel) {r : LogRecord} (h : r.message.DrawnFrom arguments) :
    machine.Says arguments (log threshold r) fun _ => True := by
  unfold Command.log
  split
  · refine ⟨[r], by simpa using h, ?_, rfl, trivial⟩
    rw [List.map_singleton, Text.ofRows_cons]
    rfl
  · exact pure trivial

theorem logAll (threshold : LogLevel) {records : List LogRecord}
    (h : ∀ r ∈ records, r.message.DrawnFrom arguments) :
    machine.Says arguments (records.forM (Command.log threshold)) fun _ => True := by
  induction records generalizing machine with
  | nil => exact pure trivial
  | cons r records ih =>
      obtain ⟨hr, hrecords⟩ := List.forall_mem_cons.mp h
      exact (log threshold hr).bind fun _ _ _ => ih hrecords

section Passable

variable (hnull : ∀ argument ∈ arguments, '\x00' ∉ argument)

include hnull

/-- What is read of a file is what it holds. -/
theorem readText {p : Path} (hp : p.DrawnFrom arguments) :
    machine.Says arguments (readText p) fun text =>
      ∃ bytes, machine.files.read p = .ok bytes ∧ text = Text.ofBytes bytes := by
  have hfair := machine.files.fair_read (hp.text.not_mem not_printable_null hnull)
  have hrun := readText_run_eq machine p
  rcases hfair.ok_or_error with ⟨bytes, hread, -⟩ | ⟨fault, hread, hfault⟩
  · rw [hread] at hrun
    exact silent hrun rfl rfl ⟨bytes, hread, rfl⟩
  · rw [hread] at hrun
    exact silent hrun rfl rfl (Failure.Traced.unreadable hp hfault)

/-- The lines of a stream that a memory can hold are as many as a word can count. -/
theorem readLines (haddressable : machine.Addressable) {source : Option Path}
    (hsource : ∀ p, source = some p → p.DrawnFrom arguments) :
    machine.Says arguments (readLines source) fun lines =>
      lines.length < 0x8000000000000000 := by
  have hread : machine.Says arguments (readSource source : Work (StateM Machine) Text) fun text =>
      ∃ bytes : Bytes, bytes.Addressable ∧ text = Text.ofBytes bytes := by
    cases source with
    | some p =>
        refine (readText hnull (hsource p rfl)).mono ?_
        rintro text ⟨bytes, hbytes, rfl⟩
        exact ⟨bytes, haddressable.files p bytes hbytes, rfl⟩
    | none =>
        have hinput : (Host.readInput : StateM Machine Bytes).run machine =
            (machine.input, { machine with input := [] }) := rfl
        have hrun : (readSource none : Work (StateM Machine) Text).run.run machine =
            (.ok (Text.ofBytes machine.input), { machine with input := [] }) := by
          rw [readSource, View.run_bind_ok (View.run_lift hinput)]
          rfl
        exact silent hrun rfl rfl ⟨machine.input, haddressable.input, rfl⟩
  refine hread.bind fun text machine' htext => ?_
  obtain ⟨bytes, hbytes, rfl⟩ := htext
  exact pure hbytes.length_records

theorem resolveStyle {choice : StyleChoice} (hchoice : choice.Traced arguments)
    (threshold : LogLevel) :
    machine.Says arguments (resolveStyle threshold choice) fun _ => True := by
  cases hchoice with
  | builtin => exact pure trivial
  | linked hgiven =>
      rcases hgiven.map_ofText with ⟨hblank, hdropped⟩ | ⟨p, hvalue, -⟩
      · rw [hblank]
        exact throw (.blank hdropped)
      · rw [hvalue]
        exact pure trivial
  | embedded hgiven =>
      rcases hgiven.map_ofText with ⟨hblank, hdropped⟩ | ⟨p, hvalue, hp⟩
      · rw [hblank]
        exact (log threshold (Text.Visible.drawnFrom (by decide) _)).bind fun _ _ _ =>
          throw (.blank hdropped)
      · rw [hvalue]
        have hmessage : (embeddingRecord p.text).message.DrawnFrom arguments :=
          Text.drawnFrom_append.mpr ⟨Text.Visible.drawnFrom (by decide) _, hp.text⟩
        refine (log threshold hmessage).bind fun _ _ _ => ?_
        exact (readText hnull hp).bind fun _ _ _ => pure trivial

theorem document {r : Request} (hr : r.Traced arguments) {choice : StyleChoice}
    (hchoice : choice.Traced arguments) {m : Model} (hfits : m.FitsWords) (threshold : LogLevel) :
    machine.Says arguments (document threshold r choice m) fun _ => True := by
  unfold Command.document
  cases r.format with
  | json =>
      -- Only a number that fits no word could make the dump fail.
      obtain ⟨text, htext⟩ : ∃ text, m.dump .indented = .ok text :=
        ⟨_, Model.dump_eq_ok_iff.mpr ⟨hfits, rfl⟩⟩
      rw [htext]
      exact pure trivial
  | html =>
      refine (resolveStyle hnull hchoice threshold).bind fun _ _ _ => ?_
      have htitles : Results (fun _ => True) (Failure.Traced arguments)
          (paneTitles r.outlineTitle r.sourceTitle) := by
        cases houtline : r.outlineTitle with
        | blank => exact .blank (hr.outlineTitle houtline)
        | value outline =>
            cases hsource : r.sourceTitle with
            | blank => exact .blank (hr.sourceTitle hsource)
            | value source => trivial
      exact (ofExcept htitles).bind fun _ _ _ => pure trivial

theorem writeDocument {r : Request} (hr : r.Traced arguments) (text : Text) :
    machine.Says arguments (writeDocument text r.output) fun _ => True := by
  cases houtput : r.output with
  | none => exact silent rfl rfl rfl trivial
  | some given =>
      obtain ⟨text', hgiven, rfl⟩ := hr.output given houtput
      rcases hgiven.map_ofText with ⟨hblank, hdropped⟩ | ⟨p, hvalue, hp⟩
      · rw [hblank]
        exact throw (.blank hdropped)
      · rw [hvalue]
        have hpassable : ∀ name ∈ p.names, '\x00' ∉ name := fun name hname =>
          (hp name hname).not_mem not_printable_null hnull
        have hfair := Fair.writeFileAndParents hpassable (Utf8.encode text) machine
        -- Directories and the file are made on the files alone, so nothing is said meanwhile.
        obtain ⟨act, hact⟩ := FilesOnly.writeFileAndParents p (Utf8.encode text)
        have hrun := writeDocument_run_eq (hact machine)
        rw [hact machine] at hfair
        dsimp only at hfair
        rcases hfair.ok_or_error with ⟨_, hok, -⟩ | ⟨fault, herror, hfault⟩
        · rw [hok] at hrun
          exact silent hrun rfl rfl trivial
        · rw [herror] at hrun
          exact silent hrun rfl rfl (Failure.Traced.unwritable hp hfault)

/-- **The work of a request says nothing but what is drawn from the arguments.** -/
theorem perform (haddressable : machine.Addressable) {r : Request} (hr : r.Traced arguments)
    (threshold : LogLevel) :
    machine.Says arguments (perform threshold r) fun _ => True := by
  have hnumber : ∀ n : Nat, (Text.ofNat n).DrawnFrom arguments := fun n =>
    (Text.visible_ofInt n).drawnFrom _
  have hinput : ∀ p, r.inputs.head? = some p → p.DrawnFrom arguments := fun p hp => by
    obtain ⟨text, htext, rfl⟩ := hr.inputs p (List.mem_of_head? hp)
    exact Path.drawnFrom_ofText (Text.drawnFrom_of_mem htext)
  have hshown : (shownPath r.inputs.head? "<stdin>".toList).DrawnFrom arguments := by
    cases hhead : r.inputs.head? with
    | none => exact Text.Visible.drawnFrom (by decide) _
    | some p => exact (hinput p hhead).text
  unfold Command.perform
  by_cases hinputs : 1 < r.inputs.length
  · rw [if_pos hinputs]
    exact bind (Q := fun _ => False) (throw (.options .tooManyInputs)) fun _ _ h => h.elim
  · rw [if_neg hinputs]
    rcases hr.styleChoice.ok_or_error with ⟨choice, hoptions, hchoice⟩ | ⟨fault, hoptions, hfault⟩
    · rw [hoptions, Command.ofExcept, pure_bind]
      -- The stream is read first, while the machine is still the one whose bytes can be counted.
      refine (readLines hnull haddressable hinput).bind fun lines _ hlength => ?_
      refine (log threshold ?_).bind fun _ _ _ => ?_
      · simp only [linesRecord, Text.drawnFrom_append, hnumber, hshown, and_true]
        exact ⟨Text.Visible.drawnFrom (by decide) _, Text.Visible.drawnFrom (by decide) _⟩
      refine (ofExcept (Stream.results_ofLines arguments lines)).bind fun m _ hm => ?_
      refine (logAll threshold fun record hrecord =>
        (Model.visible_readingLog hm record hrecord).drawnFrom _).bind fun _ _ _ => ?_
      refine (log threshold ?_).bind fun _ _ _ => ?_
      · simp only [modelRecord, Text.drawnFrom_append, hnumber, and_true]
        exact ⟨⟨Text.Visible.drawnFrom (by decide) _, Text.Visible.drawnFrom (by decide) _⟩,
          Text.Visible.drawnFrom (by decide) _⟩
      have hfits := Model.fitsWords_of_ofLines hm hlength
      refine (document hnull hr hchoice hfits threshold).bind fun text _ _ => ?_
      exact (writeDocument hnull hr text).bind fun _ _ _ =>
        log threshold hr.drawnFrom_documentRecord
    · rw [hoptions]
      exact bind (Q := fun _ => False) (throw (.options hfault)) fun _ _ h => h.elim

end Passable

end Says

/-! ## The end of a run -/

/-- What has been reported between the two machines is records of the log, each in a row, and the
final rows behind them. -/
def Told (arguments : List Text) (machine machine' : Machine) (final : List Text) : Prop :=
  ∃ records : List LogRecord,
    machine'.diagnostics = machine.diagnostics ++
      Text.ofRows (records.map (LogRecord.row machine.time) ++ final) ∧
    ∀ row ∈ records.map (LogRecord.row machine.time) ++ final,
      row.DrawnFrom (machine.time :: arguments)

/-- How a run has ended and what it has told. -/
structure Concluded (arguments : List Text) (machine : Machine) (ending : Ending)
    (machine' : Machine) : Prop where
  /-- There is a status, unless an argument drops the value that it attaches to an option. -/
  status : ending = .exit 0 ∨ ending = .exit 1 ∨
    (∃ use, ending = .escaped (.blank use)) ∧ Attached arguments ['-', '-']
  /-- A run that does not fail tells only what it logs. -/
  logged : ending ≠ .exit 1 → machine.Told arguments machine' []
  /-- A run that fails tells why behind what it logs. -/
  failed : ending = .exit 1 → ∃ message,
    machine.Told arguments machine' ["Error: ".toList ++ message]
  /-- It does so in one line, unless an argument has a line feed in it. -/
  oneLine : ending = .exit 1 → '\n' ∉ machine.time → (∀ argument ∈ arguments, '\n' ∉ argument) →
    ∃ (records : List LogRecord) (message : Text),
      machine'.diagnostics = machine.diagnostics ++
        Text.ofRows (records.map (LogRecord.row machine.time) ++ ["Error: ".toList ++ message]) ∧
      ∀ row ∈ records.map (LogRecord.row machine.time) ++ ["Error: ".toList ++ message],
        '\n' ∉ row

section Endings

variable {arguments : List Text} {machine machine' : Machine}

theorem drawnFrom_row {time : Text} {r : LogRecord} (h : r.message.DrawnFrom arguments) :
    (r.row time).DrawnFrom (time :: arguments) := by
  have hname : r.level.name.Visible := by cases r.level <;> decide
  unfold LogRecord.row
  simp only [Text.drawnFrom_append]
  exact ⟨⟨⟨⟨Text.drawnFrom_of_mem List.mem_cons_self, Text.Visible.drawnFrom (by decide) _⟩,
    hname.drawnFrom _⟩, Text.Visible.drawnFrom (by decide) _⟩,
    h.mono (List.subset_cons_self _ _)⟩

theorem Says.told {α : Type} {x : Work (StateM Machine) α} {Q : α → Prop}
    (h : machine.Says arguments x Q) : machine.Told arguments (x.run.run machine).2 [] := by
  obtain ⟨records, hdrawn, hdiagnostics, -, -⟩ := h
  refine ⟨records, by rw [List.append_nil, hdiagnostics], fun row hrow => ?_⟩
  rw [List.append_nil] at hrow
  obtain ⟨r, hr, rfl⟩ := List.mem_map.mp hrow
  exact drawnFrom_row (hdrawn r hr)

theorem Told.reporting (h : machine.Told arguments machine' []) {message : Text}
    (hmessage : message.DrawnFrom arguments) :
    machine.Told arguments (machine'.reporting ("Error: ".toList ++ message ++ ['\n']))
      ["Error: ".toList ++ message] := by
  obtain ⟨records, hdiagnostics, hdrawn⟩ := h
  rw [List.append_nil] at hdiagnostics hdrawn
  refine ⟨records, ?_, fun row hrow => ?_⟩
  · show machine'.diagnostics ++ _ = _
    rw [hdiagnostics, Text.ofRows_append, Text.ofRows_cons, Text.ofRows_nil, List.append_assoc]
  · rcases List.mem_append.mp hrow with hrow | hrow
    · exact hdrawn row hrow
    · rw [List.mem_singleton.mp hrow, Text.drawnFrom_append]
      exact ⟨Text.Visible.drawnFrom (by decide) _, hmessage.mono (List.subset_cons_self _ _)⟩

theorem Told.concluded_zero (h : machine.Told arguments machine' []) :
    machine.Concluded arguments (.exit 0) machine' where
  status := Or.inl rfl
  logged _ := h
  failed hfailed := by simp at hfailed
  oneLine hfailed := by simp at hfailed

theorem Told.concluded_one {message : Text}
    (h : machine.Told arguments machine' ["Error: ".toList ++ message]) :
    machine.Concluded arguments (.exit 1) machine' where
  status := Or.inr (Or.inl rfl)
  logged hne := absurd rfl hne
  failed _ := ⟨message, h⟩
  oneLine _ htime hline := by
    obtain ⟨records, hdiagnostics, hdrawn⟩ := h
    refine ⟨records, message, hdiagnostics, fun row hrow => ?_⟩
    refine (hdrawn row hrow).not_mem (by decide) fun source hsource => ?_
    rcases List.mem_cons.mp hsource with rfl | hargument
    · exact htime
    · exact hline source hargument

theorem Told.concluded_escaped (h : machine.Told arguments machine' []) {use : ValueUse}
    (hdropped : Attached arguments ['-', '-']) :
    machine.Concluded arguments (.escaped (.blank use)) machine' where
  status := Or.inr (Or.inr ⟨⟨use, rfl⟩, hdropped⟩)
  logged _ := h
  failed hfailed := by simp at hfailed
  oneLine hfailed := by simp at hfailed

/-- Whatever comes of a failure is told, or it escapes for a value that was dropped. -/
theorem Told.conclude (h : machine.Told arguments machine' []) {failure : Failure}
    (hfailure : failure.Traced arguments) :
    machine.Concluded arguments ((conclude failure : StateM Machine Ending).run machine').1
      ((conclude failure : StateM Machine Ending).run machine').2 := by
  rcases hfailure.reported_or_blank with ⟨hreported, hmessage⟩ | ⟨⟨use, rfl⟩, hdropped⟩
  · rw [Command.conclude, if_pos hreported]
    exact (h.reporting hmessage).concluded_one
  · exact h.concluded_escaped hdropped

end Endings

end Machine

/-- **Every run ends with a status, and a run that fails tells so in one message.** -/
theorem Command.concluded_of_addressable {arguments : List Text} {machine : Machine}
    (hnull : ∀ argument ∈ arguments, '\x00' ∉ argument) (haddressable : machine.Addressable) :
    machine.Concluded arguments ((run arguments : StateM Machine Ending).run machine).1
      ((run arguments : StateM Machine Ending).run machine).2 := by
  -- a run that ends before its work begins has reported nothing
  have hstart : ∀ output, machine.Told arguments { machine with output } [] := fun _ =>
    ⟨[], (List.append_nil _).symm, fun _ hrow => nomatch hrow⟩
  rw [run]
  rcases (traced_ofArguments arguments).ok_or_error with ⟨r, hrequest, hr⟩ | ⟨halt, hrequest, hhalt⟩
  · rw [hrequest]
    dsimp only
    split_ifs with hmanual
    · exact (hstart _).concluded_zero
    · have hsays := Machine.Says.perform hnull haddressable hr r.threshold
      have htold := hsays.told
      obtain ⟨-, -, -, -, hresult⟩ := hsays
      rcases hperform : (perform r.threshold r : Work (StateM Machine) Unit).run.run machine with
        ⟨result, machine'⟩
      rw [hperform] at htold hresult
      rw [View.run_bind_eq hperform]
      cases result with
      | ok _ => exact htold.concluded_zero
      | error failure => exact htold.conclude hresult
  · rw [hrequest]
    cases hhalt with
    | help => exact (hstart _).concluded_zero
    | fault hfault => exact (hstart machine.output).conclude (.options hfault)

/-- A run that logs that it has read its file, and fails because the file ends what it has not
begun. -/
theorem Command.concluded_unopened :
    let machine : Machine :=
      { files := { nodes := [(["in".toList], .file (Utf8.encode "n".toList))] } }
    let arguments : List Text := ["-v".toList, "in".toList]
    let ended := (run arguments : StateM Machine Ending).run machine
    (∀ argument ∈ arguments, '\x00' ∉ argument) ∧ machine.Addressable ∧
      machine.Concluded arguments ended.1 ended.2 ∧ ended.1 = .exit 1 ∧
      ended.2.diagnostics = Text.ofRows ["00:00:00 [INFO] read 1 lines from in".toList,
        "Error: line 1: end code 'n' (Node) has no open begin code".toList] := by
  intro machine arguments ended
  have hnull : ∀ argument ∈ arguments, '\x00' ∉ argument := by decide
  have haddressable : machine.Addressable := by
    refine ⟨by unfold Bytes.Addressable; decide, fun p bytes hread => ?_⟩
    obtain ⟨location, hnode⟩ := FileTree.exists_node_of_read hread
    obtain ⟨-, hfile⟩ := Prod.mk.inj (List.mem_singleton.mp hnode)
    obtain rfl := FileNode.file.inj hfile
    unfold Bytes.Addressable
    decide
  exact ⟨hnull, haddressable, concluded_of_addressable hnull haddressable, by rfl, by rfl⟩

/-- A path is shown as it is given, so one with a line feed breaks the line, and a value that is
dropped lets its failure escape. -/
theorem Command.concluded_exceptions :
    let broken := (run ["a\nb".toList] : StateM Machine Ending).run {}
    let dropped := (run ["-o--".toList] : StateM Machine Ending).run {}
    broken.1 = .exit 1 ∧
      broken.2.diagnostics.records =
        ["Error: cannot read a".toList, "b: No such file or directory".toList] ∧
      (¬ ∃ rows reason, broken.2.diagnostics.records = rows ++ ["Error: ".toList ++ reason]) ∧
      dropped.1 = .escaped (.blank .outputDirectory) := by
  intro broken dropped
  have hrecords : broken.2.diagnostics.records =
      ["Error: cannot read a".toList, "b: No such file or directory".toList] := by rfl
  refine ⟨by rfl, hrecords, ?_, by rfl⟩
  rintro ⟨rows, reason, h⟩
  have hlast := congrArg List.getLast? (hrecords.symm.trans h)
  rw [List.getLast?_concat] at hlast
  simp at hlast

end Yeast
