import Yeast.Proofs.Output

set_option autoImplicit false

/-! # Runs on machines

How the steps of a run go on a machine, where they can be computed: what the source of a stream
supplies, what is logged, and how a run that fails is concluded.
-/

namespace Yeast

open Command

/-- The work on a valid request begins with its stream. -/
theorem Command.prepare_eq {σ : Type} [Host (StateM σ)] (threshold : LogLevel) {r : Request}
    {choice : StyleChoice} (hinputs : r.inputs.length ≤ 1)
    (hchoice : StyleChoice.ofOptions r.stylesheet r.link = .ok choice) :
    (prepare threshold r : Work (StateM σ) Text) = (do
      let lines ← readLines r.inputs.head?
      log threshold (linesRecord lines r.inputs.head?)
      let model ← ofExcept .stream (Model.ofLines lines)
      model.readingLog.forM (log threshold)
      log threshold (modelRecord model)
      document threshold r choice model) := by
  rw [prepare, if_neg (by omega), hchoice]
  simp only [ofExcept, pure_bind]

namespace Machine

variable {machine : Machine}

/-- The machine when the source has been read: the standard input can be read only once. -/
def afterReading (machine : Machine) : Option Path → Machine
  | some _ => machine
  | none => { machine with input := [] }

@[simp]
theorem afterReading_files (source : Option Path) :
    (machine.afterReading source).files = machine.files := by
  cases source <;> rfl

@[simp]
theorem afterReading_output (source : Option Path) :
    (machine.afterReading source).output = machine.output := by
  cases source <;> rfl

@[simp]
theorem afterReading_diagnostics (source : Option Path) :
    (machine.afterReading source).diagnostics = machine.diagnostics := by
  cases source <;> rfl

/-- What a file is seen to hold is read. -/
theorem read_of_holds {p : Path} {bytes : Bytes} (h : view.Holds machine p bytes) :
    machine.files.read p = .ok bytes := by
  obtain ⟨location, hnamed, hcontent⟩ := h
  simp only [view] at hnamed hcontent
  cases hlocate : machine.files.locate p with
  | error fault => simp [hlocate] at hnamed
  | ok location' =>
      rw [hlocate] at hnamed
      obtain rfl := Option.some.inj hnamed
      rw [FileTree.read, hlocate]
      dsimp only
      split at hcontent
      · rename_i content hfind
        rw [hfind, ← Option.some.inj hcontent]
      · simp at hcontent

/-- Reading a file comes to its text or to the reason for which it is refused. -/
theorem readText_run_eq (machine : Machine) (p : Path) :
    (readText p : Work (StateM Machine) Text).run.run machine =
      (((machine.files.read p).map Text.ofBytes).mapError (Failure.unreadable p), machine) := by
  have hread : (Host.readFile p : StateM Machine _).run machine =
      (machine.files.read p, machine) := rfl
  rw [readText, View.run_bind_ok (View.run_lift hread)]
  cases machine.files.read p <;> rfl

theorem readText_run {p : Path} {bytes : Bytes} (h : view.Holds machine p bytes) :
    (readText p : Work (StateM Machine) Text).run.run machine =
      (.ok (Text.ofBytes bytes), machine) := by
  rw [readText_run_eq, read_of_holds h]
  rfl

/-- Writing a document to a file fails as writing the file does. -/
theorem writeDocument_run_eq {machine machine' : Machine} {p : Path} {text : Text}
    {written : Except FileFault Unit}
    (h : (Host.writeFileAndParents p (Utf8.encode text) : StateM Machine _).run machine =
      (written, machine')) :
    (writeDocument text (some (.value p)) : Work (StateM Machine) Unit).run.run machine =
      (written.mapError (Failure.unwritable p), machine') := by
  rw [writeDocument, View.run_bind_ok (View.run_lift h)]
  cases written <;> rfl

theorem readLines_run {source : Option Path} {raw : Bytes} (h : view.Source machine source raw) :
    (readLines source : Work (StateM Machine) (List Text)).run.run machine =
      (.ok (Text.ofBytes raw).withoutByteOrderMark.records, machine.afterReading source) := by
  have hsource : (readSource source : Work (StateM Machine) Text).run.run machine =
      (.ok (Text.ofBytes raw), machine.afterReading source) := by
    cases source with
    | some p => exact readText_run h
    | none =>
        have hinput : (Host.readInput : StateM Machine Bytes).run machine =
            (raw, machine.afterReading none) := Prod.ext h rfl
        rw [readSource, View.run_bind_ok (View.run_lift hinput)]
        rfl
  rw [readLines, View.run_bind_ok hsource]
  rfl

/-- What does not reach the threshold is not logged. -/
theorem log_run_of_lt {threshold : LogLevel} {r : LogRecord}
    (h : r.level.weight < threshold.weight) (machine : Machine) :
    (log threshold r : Work (StateM Machine) Unit).run.run machine = (.ok (), machine) := by
  rw [log, if_neg (by omega)]
  rfl

def reporting (machine : Machine) (text : Text) : Machine :=
  { machine with diagnostics := machine.diagnostics ++ text }

/-- A run whose work fails reports the failure. -/
theorem run_of_error {arguments : List Text} {r : Request} {machine' : Machine}
    {failure : Failure} (hrequest : Request.ofArguments arguments = .ok r)
    (hmanual : r.manual = false)
    (hperform : (perform r.threshold r : Work (StateM Machine) Unit).run.run machine =
      (.error failure, machine'))
    (hreported : failure.isReported = true) :
    (run arguments : StateM Machine Ending).run machine =
      (.exit 1, machine'.reporting ("Error: ".toList ++ failure.message ++ ['\n'])) := by
  rw [run, hrequest]
  dsimp only
  rw [if_neg (by simp [hmanual]), View.run_bind_eq hperform]
  dsimp only
  rw [conclude, if_pos hreported]
  rfl

/-- A run whose work succeeds ends with status 0. -/
theorem run_of_ok {arguments : List Text} {r : Request} {machine' : Machine}
    (hrequest : Request.ofArguments arguments = .ok r) (hmanual : r.manual = false)
    (hperform : (perform r.threshold r : Work (StateM Machine) Unit).run.run machine =
      (.ok (), machine')) :
    (run arguments : StateM Machine Ending).run machine = (.exit 0, machine') := by
  rw [run, hrequest]
  dsimp only
  rw [if_neg (by simp [hmanual]), View.run_bind_eq hperform]
  rfl

end Machine

end Yeast
