import Yeast.Proofs.ByteRecords
import Yeast.Proofs.Runs
import Yeast.Proofs.StreamNumbers
import Yeast.Proofs.Writable

set_option autoImplicit false

/-! # A document does not depend on its way

A document is the same whether its stream comes from a file or from the standard input, and whether
it goes to a file or to the standard output, even if the file it is written to is the one it was
read from or the stylesheet (`Command.exists_delivered`). All reading is done before the document
is made, and none of it changes the files (`Machine.Yields`); only then it is written, in one piece,
to a path that takes it whatever it is.
-/

namespace Yeast

open Command

namespace Machine

variable {α β : Type}

/-- The work succeeds with this result, and leaves files and output as they are. -/
def Yields (machine : Machine) (x : Work (StateM Machine) α) (a : α) : Prop :=
  ∃ machine', x.run.run machine = (.ok a, machine') ∧ machine'.files = machine.files ∧
    machine'.output = machine.output

namespace Yields

variable {machine : Machine}

theorem pure (a : α) : machine.Yields (Pure.pure a) a := ⟨machine, rfl, rfl, rfl⟩

theorem bind {x : Work (StateM Machine) α} {f : α → Work (StateM Machine) β} {a : α} {b : β}
    (hx : machine.Yields x a)
    (hf : ∀ machine' : Machine, machine'.files = machine.files → machine'.Yields (f a) b) :
    machine.Yields (x >>= f) b := by
  obtain ⟨machine', hrun, hfiles, houtput⟩ := hx
  obtain ⟨machine'', hrun', hfiles', houtput'⟩ := hf machine' hfiles
  exact ⟨machine'', (View.run_bind_ok hrun).trans hrun', hfiles'.trans hfiles,
    houtput'.trans houtput⟩

theorem ofExcept {ε : Type} {failure : ε → Failure} {result : Except ε α} {a : α}
    (h : result = .ok a) : machine.Yields (ofExcept failure result) a := by
  rw [h]
  exact pure a

theorem log (threshold : LogLevel) (r : LogRecord) : machine.Yields (log threshold r) () := by
  unfold Command.log
  split
  · exact ⟨_, rfl, rfl, rfl⟩
  · exact pure ()

theorem logAll (threshold : LogLevel) (records : List LogRecord) :
    machine.Yields (records.forM (Command.log threshold)) () := by
  induction records generalizing machine with
  | nil => exact pure ()
  | cons r records ih => exact (log threshold r).bind fun _ _ => ih

theorem readText {p : Path} {bytes : Bytes} (h : view.Holds machine p bytes) :
    machine.Yields (readText p) (Text.ofBytes bytes) := ⟨machine, readText_run h, rfl, rfl⟩

theorem readLines {source : Option Path} {raw : Bytes} (h : view.Source machine source raw) :
    machine.Yields (readLines source) (Text.ofBytes raw).withoutByteOrderMark.records :=
  ⟨_, readLines_run h, afterReading_files source, afterReading_output source⟩

/-- A stylesheet that can be had is resolved. -/
theorem resolveStyle {stylesheet : Option (Given Path)} {link : Bool} {style : Stylesheet}
    {files : FileTree} (h : view.Styled { files } stylesheet link style) {choice : StyleChoice}
    (hchoice : StyleChoice.ofOptions stylesheet link = .ok choice) (threshold : LogLevel)
    (hfiles : machine.files = files) :
    machine.Yields (resolveStyle threshold choice) style := by
  cases h with
  | builtin =>
      obtain rfl := Except.ok.inj hchoice
      exact pure _
  | linked p =>
      obtain rfl := Except.ok.inj hchoice
      exact pure _
  | embedded hbytes =>
      obtain rfl := Except.ok.inj hchoice
      refine (log threshold _).bind fun machine' hfiles' => ?_
      have hread := read_of_holds hbytes
      rw [← hfiles, ← hfiles'] at hread
      exact (readText (holds_of_read hread)).bind fun _ _ => pure _

end Yields

end Machine

/-- The length of the bytes is a signed word, as that of all bytes in a memory is. -/
def Bytes.Addressable (bytes : Bytes) : Prop := bytes.length < 0x8000000000000000

namespace Command

/-- The request with another source and another target. -/
def Request.routed (r : Request) (source target : Option Path) : Request :=
  { r with inputs := source.toList, output := target.map .value }

/-- Its options go together, and what a page is to be made of can be had. -/
structure Presentable (files : FileTree) (r : Request) : Prop where
  manual : r.manual = false
  choice : ∃ choice, StyleChoice.ofOptions r.stylesheet r.link = .ok choice
  titles : r.format = .html → ∃ titles : PaneTitles,
    r.outlineTitle = .value titles.outline ∧ r.sourceTitle = .value titles.source
  style : r.format = .html → ∃ style, Machine.view.Styled { files } r.stylesheet r.link style

end Command

namespace Machine

/-- A run has ended well and has delivered the text: it has printed it and changed no file, or it
has put its encoding under the path and printed nothing. -/
structure Delivered (target : Option Path) (text : Text) (machine : Machine) (ending : Ending)
    (machine' : Machine) : Prop where
  status : ending = .exit 0
  printed : target = none →
    machine'.output = machine.output ++ text ∧ machine'.files = machine.files
  written : ∀ p, target = some p →
    machine'.files.read p = .ok (Utf8.encode text) ∧ machine'.output = machine.output

end Machine

namespace Command

/-- What a document is made of comes to one text, on every machine with these files. -/
theorem exists_document {files : FileTree} {r : Request} (h : Presentable files r) {m : Model}
    (hfits : r.format = .json → m.FitsWords) {choice : StyleChoice}
    (hchoice : StyleChoice.ofOptions r.stylesheet r.link = .ok choice) :
    ∃ text, ∀ (machine : Machine) threshold, machine.files = files →
      machine.Yields (document threshold r choice m) text := by
  cases hformat : r.format with
  | json =>
      obtain ⟨text, htext⟩ : ∃ text, m.dump .indented = .ok text :=
        ⟨_, Model.dump_eq_ok_iff.mpr ⟨hfits hformat, rfl⟩⟩
      refine ⟨text, fun machine threshold _ => ?_⟩
      rw [document, hformat]
      exact .ofExcept htext
  | html =>
      obtain ⟨titles, houtline, hsource⟩ := h.titles hformat
      obtain ⟨style, hstyle⟩ := h.style hformat
      have htitles : paneTitles r.outlineTitle r.sourceTitle = .ok titles := by
        rw [houtline, hsource]
        rfl
      refine ⟨Page.render titles style m, fun machine threshold hfiles => ?_⟩
      rw [document, hformat]
      refine (Machine.Yields.resolveStyle hstyle hchoice threshold hfiles).bind fun _ _ => ?_
      exact (Machine.Yields.ofExcept htitles).bind fun _ _ => .pure _

/-- The work up to the document succeeds if the stream is legal. -/
theorem prepare_yields {machine : Machine} {r : Request} {raw : Bytes} {m : Model} {text : Text}
    {choice : StyleChoice} (hchoice : StyleChoice.ofOptions r.stylesheet r.link = .ok choice)
    (threshold : LogLevel) {source : Option Path} (target : Option Path)
    (hraw : Machine.view.Source machine source raw)
    (hm : Model.ofLines (Text.ofBytes raw).withoutByteOrderMark.records = .ok m)
    (htext : ∀ machine' : Machine, machine'.files = machine.files →
      machine'.Yields (document threshold r choice m) text) :
    machine.Yields (prepare threshold (r.routed source target)) text := by
  have hinputs : (r.routed source target).inputs.length ≤ 1 := by
    cases source <;> simp [Request.routed]
  have hsource : (r.routed source target).inputs.head? = source := by
    cases source <;> rfl
  rw [prepare_eq threshold hinputs hchoice, hsource]
  refine (Machine.Yields.readLines hraw).bind fun _ h₁ => ?_
  refine (Machine.Yields.log threshold _).bind fun _ h₂ => ?_
  refine (Machine.Yields.ofExcept hm).bind fun _ h₃ => ?_
  refine (Machine.Yields.logAll threshold _).bind fun _ h₄ => ?_
  refine (Machine.Yields.log threshold _).bind fun machine' h₅ => ?_
  exact htext machine' (by rw [h₅, h₄, h₃, h₂, h₁])

/-- A text is delivered where it can be written. -/
theorem writeDocument_delivers {machine : Machine} {target : Option Path} (text : Text)
    (hwritable : ∀ p, target = some p → machine.files.Writable p) :
    ∃ machine', (writeDocument text (target.map .value) : Work (StateM Machine) Unit).run.run
        machine = (.ok (), machine') ∧
      machine.Delivered target text (.exit 0) machine' := by
  cases target with
  | none => exact ⟨_, rfl, rfl, fun _ => ⟨rfl, rfl⟩, fun _ h => nomatch h⟩
  | some p =>
      obtain ⟨files, hwrite, hread⟩ :=
        Machine.exists_writeFileAndParents (hwritable p rfl) (Utf8.encode text)
      refine ⟨{ machine with files }, Machine.writeDocument_run_eq hwrite, rfl,
        fun h => (nomatch h), fun p' hp' => ?_⟩
      obtain rfl := Option.some.inj hp'
      exact ⟨hread, rfl⟩

/-- **The document of a legal stream is the same text on every way that it can take.** The
numbers of a dump have to fit words, and those of a stream in a memory do. -/
theorem exists_delivered {files : FileTree} {r : Request} {raw : Bytes} {input output : Path}
    (hpresentable : Presentable files r) (hread : files.read input = .ok raw)
    (hlegal : Stream.Legal (Text.ofBytes raw).withoutByteOrderMark.records)
    (hlength : r.format = .json → raw.Addressable) (hwritable : files.Writable output) :
    ∃ text, ∀ source target, (source = none ∨ source = some input) →
      (target = none ∨ target = some output) → ∀ arguments (machine : Machine),
      Request.ofArguments arguments = .ok (r.routed source target) → machine.files = files →
      (source = none → machine.input = raw) →
      machine.Delivered target text ((run arguments : StateM Machine Ending).run machine).1
        ((run arguments : StateM Machine Ending).run machine).2 := by
  obtain ⟨m, hm⟩ := (Stream.exists_ofLines_iff _).mpr hlegal
  obtain ⟨choice, hchoice⟩ := hpresentable.choice
  have hfits : r.format = .json → m.FitsWords := by
    intro hformat
    refine Model.fitsWords_of_ofLines hm ?_
    have hlines := Bytes.length_lines_le (.ofBytes raw) raw
    rw [Bytes.lines, Charset.read_ofBytes] at hlines
    exact hlines.trans_lt (hlength hformat)
  -- The text is fixed before it is known which way it takes.
  obtain ⟨text, htext⟩ := exists_document hpresentable hfits hchoice
  refine ⟨text, fun source target hsource htarget arguments machine hrequest hfiles hinput => ?_⟩
  have hraw : Machine.view.Source machine source raw := by
    rcases hsource with rfl | rfl
    · exact hinput rfl
    · exact Machine.holds_of_read (by rw [hfiles, hread])
  have hcan : ∀ p, target = some p → files.Writable p := by
    rintro p rfl
    rcases htarget with h | h
    · simp at h
    · rwa [Option.some.inj h]
  obtain ⟨prepared, hprepare, hpfiles, hpoutput⟩ := prepare_yields hchoice r.threshold
    target hraw hm fun machine' h => htext machine' _ (h.trans hfiles)
  obtain ⟨written, hwrite, hdelivered⟩ := writeDocument_delivers text
    fun p hp => hpfiles ▸ hfiles ▸ hcan p hp
  have hyields : written.Yields (log r.threshold (documentRecord (target.map .value))) () :=
    .log _ _
  obtain ⟨final, hlog, hffiles, hfoutput⟩ := hyields
  have hperform : (perform r.threshold (r.routed source target) : Work (StateM Machine) _).run.run
      machine = (.ok (), final) := by
    rw [perform_eq, View.run_bind_ok hprepare]
    exact (View.run_bind_ok hwrite).trans hlog
  rw [Machine.run_of_ok hrequest hpresentable.manual hperform]
  -- What is logged behind the document changes nothing of it.
  refine ⟨rfl, fun htarget => ?_, fun p hp => ?_⟩
  · obtain ⟨hprinted, hkept⟩ := hdelivered.printed htarget
    exact ⟨by rw [hfoutput, hprinted, hpoutput], by rw [hffiles, hkept, hpfiles]⟩
  · obtain ⟨hwritten, hsilent⟩ := hdelivered.written p hp
    exact ⟨by rw [hffiles, hwritten], by rw [hfoutput, hsilent, hpoutput]⟩

/-- A page that is printed, and the same page written over the stylesheet that it embeds. -/
theorem exists_delivered_overStylesheet :
    let raw : Bytes := Utf8.encode "Ta".toList
    let input : Path := Path.ofText "in".toList
    let style : Path := Path.ofText "style.css".toList
    let files : FileTree :=
      { nodes :=
          [(["in".toList], .file raw), (["style.css".toList], .file (Utf8.encode "p".toList))] }
    let r : Request := { stylesheet := some (.value style) }
    let machine : Machine := { files, input := raw }
    let printing : List Text := ["-s".toList, "style.css".toList]
    let writing : List Text :=
      ["-s".toList, "style.css".toList, "-o".toList, "style.css".toList, "in".toList]
    Presentable files r ∧ files.read input = .ok raw ∧
      Stream.Legal (Text.ofBytes raw).withoutByteOrderMark.records ∧
      (r.format = .json → raw.Addressable) ∧ files.Writable style ∧
      ∃ text,
        machine.Delivered none text ((run printing : StateM Machine Ending).run machine).1
          ((run printing : StateM Machine Ending).run machine).2 ∧
        machine.Delivered (some style) text
          ((run writing : StateM Machine Ending).run machine).1
          ((run writing : StateM Machine Ending).run machine).2 := by
  intro raw input style files r machine printing writing
  have hcss : files.read style = .ok (Utf8.encode "p".toList) := by rfl
  have hholds : Machine.view.Holds { files } style (Utf8.encode "p".toList) :=
    Machine.holds_of_read hcss
  have hpresentable : Presentable files r :=
    ⟨rfl, ⟨.embedded (.value style), rfl⟩, fun _ => ⟨⟨_, _⟩, rfl, rfl⟩, fun _ =>
      ⟨_, .embedded hholds⟩⟩
  have hread : files.read input = .ok raw := by rfl
  have hlegal : Stream.Legal (Text.ofBytes raw).withoutByteOrderMark.records := by
    rw [← Stream.exists_ofLines_iff]
    exact ⟨_, rfl⟩
  have hwritable : files.Writable style := ⟨[], _, rfl⟩
  have hlength : r.format = .json → raw.Addressable := fun _ => by
    unfold Bytes.Addressable
    decide
  refine ⟨hpresentable, hread, hlegal, hlength, hwritable, ?_⟩
  obtain ⟨text, htext⟩ := exists_delivered hpresentable hread hlegal hlength hwritable
  refine ⟨text, ?_, ?_⟩
  · exact htext none none (Or.inl rfl) (Or.inl rfl) printing machine rfl rfl fun _ => rfl
  · exact htext (some input) (some style) (Or.inr rfl) (Or.inr rfl) writing machine rfl rfl
      fun _ => rfl

end Command

end Yeast
