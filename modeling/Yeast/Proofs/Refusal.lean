import Yeast.Proofs.ByteRecords
import Yeast.Proofs.Diagnostic
import Yeast.Proofs.Runs

set_option autoImplicit false

/-! # What is said of a stream that is refused

A run whose stream is not legal ends with status 1, leaves files and output alone and reports one
line, in which nothing breaks the line or has no visible form. It tells the number of the record
that is to blame, which is found in the bytes themselves by counting line feeds, however they are
decoded and whatever marks are dropped on the way (`Command.refused_of_illegal`).
-/

namespace Yeast

open Command

namespace Machine

/-- A stream of these bytes is refused: from the one machine the run has come to the other, and to
this end. -/
structure Refused (raw : Bytes) (machine : Machine) (ending : Ending) (machine' : Machine) :
    Prop where
  status : ending = .exit 1
  output : machine'.output = machine.output
  files : machine'.files = machine.files
  /-- Some record is to blame. -/
  exists_record : ∃ before record, Bytes.FirstIllegal raw before record
  /-- It is named by its number in one line that is ended by a line feed. -/
  diagnostics : ∀ before record, Bytes.FirstIllegal raw before record → ∃ row reason,
    row = "Error: line ".toList ++ Text.ofNat (before.count Bytes.lineFeed + 1) ++
      ": ".toList ++ reason ∧
    machine'.diagnostics = machine.diagnostics ++ row ++ ['\n'] ∧
    ∀ c ∈ row, printable c = true ∧ c ∉ Text.lineBreaks

end Machine

namespace Stream

/-- Whatever a line is blamed for is reported to the user. -/
theorem Blames.isReported {before : List Text} {line : Text} {number : Int} {fault : StreamFault}
    (h : Blames before line number fault) : (Failure.stream fault).isReported = true := by
  cases h <;> rfl

end Stream

namespace Command

/-- The command line is valid: it asks for the document of one stream, and its options go
together. -/
structure Valid (arguments : List Text) (r : Request) : Prop where
  request : Request.ofArguments arguments = .ok r
  manual : r.manual = false
  inputs : r.inputs.length ≤ 1
  choice : ∃ choice, StyleChoice.ofOptions r.stylesheet r.link = .ok choice

/-- The work of a request ends where its stream is refused. -/
theorem perform_run_of_refused {r : Request} {machine : Machine} {raw : Bytes}
    {fault : StreamFault} (hinputs : r.inputs.length ≤ 1)
    (hchoice : ∃ choice, StyleChoice.ofOptions r.stylesheet r.link = .ok choice)
    (hraw : Machine.view.Source machine r.inputs.head? raw)
    (hfault : Model.ofLines (Text.ofBytes raw).withoutByteOrderMark.records = .error fault) :
    (perform .warning r : Work (StateM Machine) Unit).run.run machine =
      (.error (.stream fault), machine.afterReading r.inputs.head?) := by
  obtain ⟨choice, hchoice⟩ := hchoice
  have hlevel : ∀ lines, (linesRecord lines r.inputs.head?).level.weight <
      LogLevel.warning.weight := fun _ => Nat.lt_succ_self _
  rw [perform_eq, prepare_eq .warning hinputs hchoice]
  refine View.run_bind_error ?_
  rw [View.run_bind_ok (Machine.readLines_run hraw),
    View.run_bind_ok (Machine.log_run_of_lt (hlevel _) _), hfault]
  exact View.run_bind_error rfl

theorem error_atLine (n : Nat) (reason : Text) :
    "Error: ".toList ++ atLine (n + 1) reason =
      "Error: line ".toList ++ Text.ofNat (n + 1) ++ ": ".toList ++ reason := by
  unfold atLine
  simp only [← List.append_assoc]
  rfl

/-- **A stream that is not legal is refused in one line that names its first illegal record.** -/
theorem refused_of_illegal {arguments : List Text} {r : Request} {machine : Machine} {raw : Bytes}
    (hvalid : Valid arguments r) (hquiet : r.verbose = false)
    (hraw : Machine.view.Source machine r.inputs.head? raw)
    (hillegal : ¬ Stream.Legal (Text.ofBytes raw).withoutByteOrderMark.records) :
    machine.Refused raw ((run arguments : StateM Machine Ending).run machine).1
      ((run arguments : StateM Machine Ending).run machine).2 := by
  rw [← Charset.read_ofBytes] at hillegal
  obtain ⟨before, record, hfirst⟩ := Bytes.exists_firstIllegal hillegal
  obtain ⟨line, fault, hfault, hblame⟩ := hfirst.ofLines
  rw [Bytes.lines, Charset.read_ofBytes] at hfault
  have hthreshold : r.threshold = .warning := by
    rw [Request.threshold, hquiet]
    rfl
  have hperform := perform_run_of_refused hvalid.inputs hvalid.choice hraw hfault
  have hrun := Machine.run_of_error hvalid.request hvalid.manual (hthreshold ▸ hperform)
    hblame.isReported
  rw [hrun]
  refine ⟨rfl, Machine.afterReading_output _, Machine.afterReading_files _,
    ⟨before, record, hfirst⟩, fun before' record' hfirst' => ?_⟩
  -- Reading finds one fault, so every record that is to blame is blamed for the one reported.
  obtain ⟨line', fault', hfault', hblame'⟩ := hfirst'.ofLines
  rw [Bytes.lines, Charset.read_ofBytes, hfault, Except.error.injEq] at hfault'
  subst hfault'
  obtain ⟨reason, hmessage, hreason⟩ := hblame'.exists_message
  have hvisible : Text.Visible
      ("Error: ".toList ++ atLine (before'.count Bytes.lineFeed + 1) reason) :=
    Text.visible_append.mpr ⟨by decide, visible_atLine _ hreason⟩
  refine ⟨_, reason, error_atLine _ reason, ?_, fun c hc =>
    ⟨(Text.visible_iff _).mp hvisible c hc, hvisible.not_mem_lineBreaks hc⟩⟩
  show (machine.afterReading r.inputs.head?).diagnostics ++ _ = _
  have hsaid : (Failure.stream fault).message = atLine (before'.count Bytes.lineFeed + 1) reason :=
    hmessage
  rw [Machine.afterReading_diagnostics, hsaid]
  simp only [List.append_assoc]

/-- An unknown code that breaks lines, behind a byte order mark and a record that ends in CR LF. -/
theorem refused_nextLine :
    let raw : Bytes := [0xEF, 0xBB, 0xBF, 0x54, 0x61, 0x0D, 0x0A, 0xC2, 0x85, 0x7A]
    let machine : Machine := { input := raw }
    let arguments : List Text := ["--format".toList, "json".toList]
    let r : Request := { format := .json }
    let ended := (run arguments : StateM Machine Ending).run machine
    Valid arguments r ∧ r.verbose = false ∧ Machine.view.Source machine r.inputs.head? raw ∧
      ¬ Stream.Legal (Text.ofBytes raw).withoutByteOrderMark.records ∧
      machine.Refused raw ended.1 ended.2 ∧
      ended.2.diagnostics = "Error: line 2: unknown byte code '\\x85'\n".toList := by
  intro raw machine arguments r ended
  have hvalid : Valid arguments r := ⟨by rfl, rfl, Nat.zero_le 1, ⟨.builtin, rfl⟩⟩
  have hlines : (Text.ofBytes raw).withoutByteOrderMark.records =
      ["Ta\r".toList, ['\u0085', 'z']] := by decide
  have hillegal : ¬ Stream.Legal (Text.ofBytes raw).withoutByteOrderMark.records := by
    rw [hlines]
    intro h
    have hcoded : Stream.Coded ['\u0085', 'z'] := h.coded _ (by simp)
    exact Stream.not_coded_of_unknown rfl (by decide) (by decide) hcoded
  exact ⟨hvalid, rfl, rfl, hillegal, refused_of_illegal hvalid rfl rfl hillegal, by rfl⟩

end Command

end Yeast
