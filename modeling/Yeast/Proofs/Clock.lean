import Yeast.Proofs.FileFaults
import Yeast.Proofs.Runs

set_option autoImplicit false

/-! # What the clock decides

The time of day is shown in the rows of the log and decides nothing else: whatever a clock shows
while a run goes on, the run ends in the same way, leaves the same files and the same output, and
reports the same but for the times in the rows (`Command.timeless_run`).

The clock of a host may show another time at each look, so what is compared are runs on hosts that
differ in nothing but their clocks (`Machine.withClock`). Each step of a run comes to the same on
all of them, and steps in order inherit it. For this, what has been reported before a step is left
open (`Machine.Timeless`): the rows of the steps before it show other times as well.
-/

namespace Yeast

open Command

/-! ## Reports -/

/-- What is reported at once. -/
inductive Report where
  /-- A record of the log, in a row of its own. -/
  | row (record : LogRecord)
  | message (text : Text)

namespace Report

def text (time : Text) : Report → Text
  | row record => record.row time ++ ['\n']
  | message text => text

/-- The text shows the reports in order, each at a time of its own. -/
def Shown (reports : List Report) (shown : Text) : Prop :=
  ∃ times : List Text, times.length = reports.length ∧
    shown = (List.zipWith text times reports).flatten

theorem Shown.nil : Shown [] [] := ⟨[], rfl, rfl⟩

theorem Shown.single (time : Text) (report : Report) : Shown [report] (report.text time) := by
  refine ⟨[time], rfl, ?_⟩
  rw [List.zipWith_cons_cons, List.zipWith_nil_left, List.flatten_singleton]

theorem Shown.append {reports more : List Report} {shown shown' : Text} (h : Shown reports shown)
    (h' : Shown more shown') : Shown (reports ++ more) (shown ++ shown') := by
  obtain ⟨times, hlength, rfl⟩ := h
  obtain ⟨times', hlength', rfl⟩ := h'
  refine ⟨times ++ times', ?_, ?_⟩
  · rw [List.length_append, List.length_append, hlength, hlength']
  · rw [List.zipWith_append hlength, List.flatten_append]

end Report

/-! ## Clocks -/

namespace Machine

variable {α β : Type}

/-- Machines as a host with another clock. What it shows may depend on all that is in a machine, so
it may change with each report. -/
@[reducible]
def clocked (clock : Machine → Text) : Host (StateM Machine) :=
  { (inferInstance : Host (StateM Machine)) with
    timeOfDay := fun machine => (clock machine, machine) }

def withClock (clock : Machine → Text) (x : [Host (StateM Machine)] → StateM Machine α) :
    StateM Machine α :=
  let _ := clocked clock
  x

/-- The clock of a machine shows its time. -/
theorem withClock_time (x : [Host (StateM Machine)] → StateM Machine α) :
    withClock Machine.time x = x := rfl

/-- Whatever the clock shows, and whatever has been reported before, the work comes to the same and
reports the same. -/
def Timeless (x : [Host (StateM Machine)] → StateM Machine α) : Prop :=
  ∀ machine : Machine, ∃ (a : α) (machine' : Machine) (reports : List Report),
    ∀ clock diagnostics, ∃ shown, Report.Shown reports shown ∧
      (withClock clock x).run { machine with diagnostics } =
        (a, { machine' with diagnostics := diagnostics ++ shown })

namespace Timeless

/-! ## Steps on a machine -/

/-- Work that neither looks at the clock nor reports anything. -/
theorem silent {x : [Host (StateM Machine)] → StateM Machine α} (act : Machine → α × Machine)
    (h : ∀ clock machine diagnostics, (withClock clock x).run { machine with diagnostics } =
      ((act machine).1, { (act machine).2 with diagnostics })) : Timeless x := by
  intro machine
  refine ⟨(act machine).1, (act machine).2, [], fun clock diagnostics => ⟨[], .nil, ?_⟩⟩
  rw [h, List.append_nil]

theorem pure (a : α) : Timeless (Pure.pure a) :=
  silent (fun machine => (a, machine)) fun _ _ _ => rfl

theorem bind {x : [Host (StateM Machine)] → StateM Machine α}
    {f : [Host (StateM Machine)] → α → StateM Machine β} (hx : Timeless x)
    (hf : ∀ a, Timeless (f a)) : Timeless (x >>= f) := by
  intro machine
  obtain ⟨a, between, reports, hrun⟩ := hx machine
  obtain ⟨b, machine', more, hrun'⟩ := hf a between
  refine ⟨b, machine', reports ++ more, fun clock diagnostics => ?_⟩
  obtain ⟨shown, hshown, hx⟩ := hrun clock diagnostics
  obtain ⟨shown', hshown', hf⟩ := hrun' clock (diagnostics ++ shown)
  refine ⟨shown ++ shown', hshown.append hshown', ?_⟩
  rw [← List.append_assoc, ← hf]
  exact View.run_bind_eq hx

theorem readFile (p : Path) : Timeless (Host.readFile p) :=
  silent (fun machine => (machine.files.read p, machine)) fun _ _ _ => rfl

theorem readInput : Timeless Host.readInput :=
  silent (fun machine => (machine.input, { machine with input := [] })) fun _ _ _ => rfl

theorem print (text : Text) : Timeless (Host.print text) :=
  silent (fun machine => ((), { machine with output := machine.output ++ text })) fun _ _ _ => rfl

theorem report (text : Text) : Timeless (Host.report text) := by
  refine fun machine => ⟨(), machine, [.message text], fun clock diagnostics => ?_⟩
  exact ⟨text, .single [] (.message text), rfl⟩

/-- Directories are made without a look at the clock. -/
theorem withClock_ensureDirectories (clock : Machine → Text) (root : PathRoot)
    (names : List Text) : withClock clock (Host.ensureDirectories root names) =
      (Host.ensureDirectories root names : StateM Machine _) := by
  induction names with
  | nil => rfl
  | cons name outer ih =>
      simp only [withClock, Host.ensureDirectories] at ih ⊢
      rw [ih]
      rfl

theorem writeFileAndParents (p : Path) (content : Bytes) :
    Timeless (Host.writeFileAndParents p content) := by
  obtain ⟨act, hact⟩ := FilesOnly.writeFileAndParents p content
  refine silent (fun machine =>
    ((act machine.files).1, { machine with files := (act machine.files).2 })) ?_
  intro clock machine diagnostics
  have hclock : withClock clock (Host.writeFileAndParents p content) =
      (Host.writeFileAndParents p content : StateM Machine _) := by
    have hdirectories := withClock_ensureDirectories clock p.root p.parent.names.reverse
    simp only [withClock, Host.writeFileAndParents] at hdirectories ⊢
    rw [hdirectories]
    rfl
  rw [hclock, hact]

/-! ## Steps of the work -/

theorem workBind {x : [Host (StateM Machine)] → Work (StateM Machine) α}
    {f : [Host (StateM Machine)] → α → Work (StateM Machine) β} (hx : Timeless x.run)
    (hf : ∀ a, Timeless (f a).run) : Timeless (x >>= f).run := by
  simp only [ExceptT.run_bind]
  refine hx.bind fun result => ?_
  cases result with
  | ok a => exact hf a
  | error failure => exact pure _

theorem lift {y : [Host (StateM Machine)] → StateM Machine α} (h : Timeless y) :
    Timeless (liftM y : Work (StateM Machine) α).run := by
  show Timeless (Functor.map Except.ok y)
  simp only [map_eq_pure_bind]
  exact h.bind fun _ => pure _

theorem ofExcept {ε : Type} (failure : ε → Failure) (result : Except ε α) :
    Timeless (ofExcept failure result : Work (StateM Machine) α).run := by
  cases result with
  | ok a => exact pure _
  | error fault => exact pure _

/-- A record is shown at any time or at none. -/
theorem log (threshold : LogLevel) (r : LogRecord) :
    Timeless (log threshold r : Work (StateM Machine) Unit).run := by
  unfold Command.log
  split
  · intro machine
    refine ⟨.ok (), machine, [.row r], fun clock diagnostics => ?_⟩
    exact ⟨_, .single (clock { machine with diagnostics }) (.row r), rfl⟩
  · exact pure _

theorem logAll (threshold : LogLevel) (records : List LogRecord) :
    Timeless (records.forM (Command.log threshold) : Work (StateM Machine) Unit).run := by
  induction records with
  | nil => exact pure _
  | cons r records ih => exact (log threshold r).workBind fun _ => ih

theorem readText (p : Path) : Timeless (readText p : Work (StateM Machine) Text).run := by
  refine (readFile p).lift.workBind fun result => ?_
  cases result with
  | ok bytes => exact pure _
  | error fault => exact pure _

theorem readLines (source : Option Path) :
    Timeless (readLines source : Work (StateM Machine) (List Text)).run := by
  have hsource : Timeless (readSource source : Work (StateM Machine) Text).run := by
    cases source with
    | some p => exact readText p
    | none => exact readInput.lift.workBind fun _ => pure _
  exact hsource.workBind fun _ => pure _

theorem resolveStyle (threshold : LogLevel) (choice : StyleChoice) :
    Timeless (resolveStyle threshold choice : Work (StateM Machine) Stylesheet).run := by
  cases choice with
  | builtin => exact pure _
  | linked given => cases given <;> exact pure _
  | embedded given =>
      cases given with
      | blank => exact (log threshold _).workBind fun _ => pure _
      | value p =>
          refine (log threshold _).workBind fun _ => ?_
          exact (readText p).workBind fun _ => pure _

theorem document (threshold : LogLevel) (r : Request) (choice : StyleChoice) (m : Model) :
    Timeless (document threshold r choice m : Work (StateM Machine) Text).run := by
  unfold Command.document
  cases r.format with
  | json => exact ofExcept _ _
  | html =>
      refine (resolveStyle threshold choice).workBind fun _ => ?_
      exact (ofExcept _ _).workBind fun _ => pure _

theorem writeDocument (text : Text) (target : Option (Given Path)) :
    Timeless (writeDocument text target : Work (StateM Machine) Unit).run := by
  cases target with
  | none => exact (print text).lift
  | some given =>
      cases given with
      | blank => exact pure _
      | value p =>
          refine (writeFileAndParents p _).lift.workBind fun written => ?_
          cases written with
          | ok _ => exact pure _
          | error fault => exact pure _

/-- **All work on a request comes to the same whatever the clock shows.** -/
theorem perform (threshold : LogLevel) (r : Request) :
    Timeless (perform threshold r : Work (StateM Machine) Unit).run := by
  unfold Command.perform
  by_cases hinputs : 1 < r.inputs.length
  · simp only [if_pos hinputs]
    exact pure (Except.error (Failure.options (.tooManyInputs r.inputs.length)))
  · simp only [if_neg hinputs]
    refine (ofExcept _ _).workBind fun choice => ?_
    refine (readLines _).workBind fun lines => ?_
    refine (log threshold _).workBind fun _ => ?_
    refine (ofExcept _ _).workBind fun m => ?_
    refine (logAll threshold _).workBind fun _ => ?_
    refine (log threshold _).workBind fun _ => ?_
    refine (document threshold r choice m).workBind fun text => ?_
    exact (writeDocument text _).workBind fun _ => log threshold _

end Timeless

end Machine

namespace Command

theorem timeless_conclude (failure : Failure) :
    Machine.Timeless (conclude failure) := by
  unfold conclude
  split
  · exact (Machine.Timeless.report _).bind fun _ => .pure _
  · exact .pure _

/-- **A run under another clock differs in the rows of its log, and there in the times alone.** -/
theorem timeless_run (arguments : List Text) :
    Machine.Timeless (run arguments) := by
  unfold run
  cases Request.ofArguments arguments with
  | error halt =>
      cases halt with
      | help => exact (Machine.Timeless.print help).bind fun _ => .pure _
      | fault fault => exact timeless_conclude (.options fault)
  | ok r =>
      dsimp only
      split
      · exact (Machine.Timeless.print manual).bind fun _ => .pure _
      · refine (Machine.Timeless.perform r.threshold r).bind fun result => ?_
        cases result with
        | ok _ => exact .pure _
        | error failure => exact timeless_conclude failure

end Command

end Yeast
