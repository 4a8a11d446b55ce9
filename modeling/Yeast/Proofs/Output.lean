import Yeast.Command.Run
import Yeast.Proofs.System

set_option autoImplicit false

/-! # Where the output of a run goes

A run that fails leaves all files and the standard output as they were, and one that succeeds puts
its whole document into one place (`Command.contained_of_lawful`). Until the document is made the
work is quiet: it changes nothing that can be looked at (`prepare_quiet`). Only then something is
written, and this either fails without effect or is the document.
-/

namespace Yeast

open Command

namespace View

variable {σ φ : Type} (v : View σ φ)

/-- The source of a stream, a file or the standard input, holds the bytes. -/
def Source (s : σ) : Option Path → Bytes → Prop
  | some p, bytes => v.Holds s p bytes
  | none, bytes => v.input s = bytes

/-- The stylesheet that a run is given, and the wish to link it, come to the style. -/
inductive Styled (s : σ) : Option (Given Path) → Bool → Stylesheet → Prop
  | builtin : Styled s none false .builtin
  | linked (p : Path) : Styled s (some (.value p)) true (.linked p.text)
  | embedded {p : Path} {bytes : Bytes} : v.Holds s p bytes →
      Styled s (some (.value p)) false (.embedded (Text.ofBytes bytes))

/-- The text shows the model as it is requested. -/
inductive Rendered (s : σ) (r : Request) (m : Model) : Text → Prop
  | json {text : Text} : r.format = .json → m.dump .indented = .ok text → Rendered s r m text
  | html {titles : PaneTitles} {style : Stylesheet} : r.format = .html →
      r.outlineTitle = .value titles.outline → r.sourceTitle = .value titles.source →
      v.Styled s r.stylesheet r.link style → Rendered s r m (Page.render titles style m)

/-- The text is the document that is requested, all of it. -/
def Document (s : σ) (r : Request) (text : Text) : Prop :=
  r.inputs.length ≤ 1 ∧ ∃ bytes m, v.Source s r.inputs.head? bytes ∧
    Model.ofLines (Text.ofBytes bytes).withoutByteOrderMark.records = .ok m ∧
    v.Rendered s r m text

/-- The text has gone to the target, and nothing has gone anywhere else. -/
def Emitted (target : Option (Given Path)) (text : Text) (s s' : σ) : Prop :=
  match target with
  | none => v.Printed text s s'
  | some .blank => False
  | some (.value p) => v.Written p (Utf8.encode text) s s'

/-- What a run has written, from the state `s` to the state `s'`. -/
structure Contained (arguments : List Text) (s : σ) (ending : Ending) (s' : σ) : Prop where
  /-- A run that does not end with status 0 has written nothing. -/
  failed : ending ≠ .exit 0 → v.Kept s s'
  /-- A run that does has written the document, if one was asked for. -/
  succeeded : ∀ r, Request.ofArguments arguments = .ok r → r.manual = false → ending = .exit 0 →
    ∃ text, v.Document s r text ∧ v.Emitted r.output text s s'

/-! ## Quiet work -/

/-- The work changes nothing that can be looked at, and what it yields is as stated. -/
def Quiet {α : Type} (s : σ) (x : Work (StateM σ) α) (Q : α → Prop) : Prop :=
  v.Same s (x.run.run s).2 ∧ ∀ a, (x.run.run s).1 = .ok a → Q a

variable {v}

/-- Work behind other work that succeeds goes on from the state behind it. -/
theorem run_bind_ok {α β : Type} {x : Work (StateM σ) α} {f : α → Work (StateM σ) β} {s t : σ}
    {a : α} (h : x.run.run s = (.ok a, t)) : (x >>= f).run.run s = (f a).run.run t := by
  rw [ExceptT.run_bind, run_bind_eq h]

/-- Work behind other work that fails is not done. -/
theorem run_bind_error {α β : Type} {x : Work (StateM σ) α} {f : α → Work (StateM σ) β}
    {s t : σ} {failure : Failure} (h : x.run.run s = (.error failure, t)) :
    (x >>= f).run.run s = (.error failure, t) := by
  rw [ExceptT.run_bind, run_bind_eq h]
  rfl

theorem run_lift {α : Type} {y : StateM σ α} {s t : σ} {a : α} (h : y.run s = (a, t)) :
    (liftM y : Work (StateM σ) α).run.run s = (.ok a, t) := by
  show (Except.ok <$> y : StateM σ (Except Failure α)).run s = _
  rw [StateT.run_map, h]
  rfl

namespace Quiet

variable {α β : Type} {s : σ}

theorem pure {Q : α → Prop} {a : α} (h : Q a) : v.Quiet s (Pure.pure a) Q := by
  refine ⟨.refl s, fun b hb => ?_⟩
  obtain rfl : a = b := Except.ok.inj hb
  exact h

theorem throw (failure : Failure) (Q : α → Prop) :
    v.Quiet s (throw failure : Work (StateM σ) α) Q :=
  ⟨.refl s, fun _ h => nomatch h⟩

theorem lift {y : StateM σ α} (h : v.Same s (y.run s).2) :
    v.Quiet s (liftM y : Work (StateM σ) α) fun a => a = (y.run s).1 := by
  refine ⟨h, fun a ha => ?_⟩
  exact (Except.ok.inj ha).symm

theorem bind {x : Work (StateM σ) α} {f : α → Work (StateM σ) β} {Q : α → Prop} {R : β → Prop}
    (hx : v.Quiet s x Q) (hf : ∀ a t, v.Same s t → Q a → v.Quiet t (f a) R) :
    v.Quiet s (x >>= f) R := by
  obtain ⟨hsame, hresult⟩ := hx
  unfold Quiet
  rcases hrun : x.run.run s with ⟨result, t⟩
  rw [hrun] at hsame hresult
  cases result with
  | error failure =>
      rw [run_bind_error hrun]
      exact ⟨hsame, fun _ h => nomatch h⟩
  | ok a =>
      obtain ⟨hsame', hresult'⟩ := hf a t hsame (hresult a rfl)
      rw [run_bind_ok hrun]
      exact ⟨hsame.trans hsame', hresult'⟩

theorem ofExcept {ε : Type} (failure : ε → Failure) (result : Except ε α) :
    v.Quiet s (ofExcept failure result : Work (StateM σ) α) fun a => result = .ok a := by
  cases result with
  | ok a => exact pure rfl
  | error fault => exact throw _ _

/-- What is asked for after quiet work is asked of what was there before it. -/
theorem mono {x : Work (StateM σ) α} {Q R : α → Prop} (hx : v.Quiet s x Q)
    (h : ∀ a, Q a → R a) : v.Quiet s x R :=
  ⟨hx.1, fun a ha => h a (hx.2 a ha)⟩

end Quiet

/-! ## The steps before the document is made -/

/-- What is requested is the same behind quiet work. -/
theorem Rendered.of_same {s t : σ} (h : v.Same s t) {r : Request} {m : Model} {text : Text}
    (hrendered : v.Rendered t r m text) : v.Rendered s r m text := by
  cases hrendered with
  | json hformat htext => exact .json hformat htext
  | html hformat houtline hsource hstyle =>
      refine .html hformat houtline hsource ?_
      generalize r.stylesheet = stylesheet, r.link = link at hstyle
      cases hstyle with
      | builtin => exact .builtin
      | linked p => exact .linked p
      | embedded hbytes => exact .embedded ((h.holds_iff _ _).mp hbytes)

theorem Emitted.same {target : Option (Given Path)} {text : Text} {s t u : σ}
    (h : v.Emitted target text s t) (h' : v.Same t u) : v.Emitted target text s u := by
  cases target with
  | none => exact Printed.same h h'
  | some given =>
      cases given with
      | blank => exact h.elim
      | value p => exact Written.same h h'

theorem Emitted.of_kept {target : Option (Given Path)} {text : Text} {s t u : σ}
    (h : v.Kept s t) (h' : v.Emitted target text t u) : v.Emitted target text s u := by
  cases target with
  | none => exact Printed.of_kept h h'
  | some given =>
      cases given with
      | blank => exact h'.elim
      | value p => exact Written.of_kept h h'

variable [Host (StateM σ)]

namespace Lawful

theorem log_quiet (h : v.Lawful) (threshold : LogLevel) (r : LogRecord) (s : σ) :
    v.Quiet s (log threshold r : Work (StateM σ) Unit) fun _ => True := by
  unfold log
  split
  · refine (Quiet.lift (h.timeOfDay_same s)).bind fun time t _ _ => ?_
    exact (Quiet.lift (h.report_same _ t)).mono fun _ _ => trivial
  · exact .pure trivial

theorem logAll_quiet (h : v.Lawful) (threshold : LogLevel) (records : List LogRecord) (s : σ) :
    v.Quiet s (records.forM (log threshold) : Work (StateM σ) Unit) fun _ => True := by
  induction records generalizing s with
  | nil => exact .pure trivial
  | cons r records ih => exact (h.log_quiet threshold r s).bind fun _ t _ _ => ih t

theorem readText_quiet (h : v.Lawful) (p : Path) (s : σ) :
    v.Quiet s (readText p : Work (StateM σ) Text) fun text =>
      ∃ bytes, v.Holds s p bytes ∧ text = Text.ofBytes bytes := by
  refine (Quiet.lift (h.readFile_same p s)).bind fun result t _ hresult => ?_
  cases result with
  | ok bytes => exact .pure ⟨bytes, h.readFile p s bytes hresult.symm, rfl⟩
  | error fault => exact .throw _ _

theorem readLines_quiet (h : v.Lawful) (source : Option Path) (s : σ) :
    v.Quiet s (readLines source : Work (StateM σ) (List Text)) fun lines =>
      ∃ bytes, v.Source s source bytes ∧
        lines = (Text.ofBytes bytes).withoutByteOrderMark.records := by
  have hsource : v.Quiet s (readSource source : Work (StateM σ) Text) fun text =>
      ∃ bytes, v.Source s source bytes ∧ text = Text.ofBytes bytes := by
    cases source with
    | some p => exact h.readText_quiet p s
    | none =>
        refine (Quiet.lift (h.readInput_same s)).bind fun bytes t _ hbytes => ?_
        exact .pure ⟨bytes, (h.readInput s).symm.trans hbytes.symm, rfl⟩
  refine hsource.bind fun text t _ htext => ?_
  obtain ⟨bytes, hbytes, rfl⟩ := htext
  exact .pure ⟨bytes, hbytes, rfl⟩

theorem resolveStyle_quiet (h : v.Lawful) (threshold : LogLevel) {stylesheet : Option (Given Path)}
    {link : Bool} {choice : StyleChoice}
    (hchoice : StyleChoice.ofOptions stylesheet link = .ok choice) (s : σ) :
    v.Quiet s (resolveStyle threshold choice : Work (StateM σ) Stylesheet)
      (v.Styled s stylesheet link) := by
  unfold StyleChoice.ofOptions at hchoice
  split at hchoice
  -- the built-in style
  · obtain rfl := Except.ok.inj hchoice
    exact .pure .builtin
  -- nothing to link
  · simp at hchoice
  -- a linked stylesheet is not read
  · rename_i given
    obtain rfl := Except.ok.inj hchoice
    cases given with
    | blank => exact .throw _ _
    | value p => exact .pure (.linked p)
  -- an embedded one is, behind a row of the log
  · rename_i given
    obtain rfl := Except.ok.inj hchoice
    cases given with
    | blank => exact (h.log_quiet threshold _ s).bind fun _ _ _ _ => .throw _ _
    | value p =>
        refine (h.log_quiet threshold _ s).bind fun _ t hsame _ => ?_
        refine (h.readText_quiet p t).bind fun text u _ htext => ?_
        obtain ⟨bytes, hbytes, rfl⟩ := htext
        exact .pure (.embedded ((hsame.holds_iff p bytes).mp hbytes))

theorem document_quiet (h : v.Lawful) (threshold : LogLevel) (r : Request) {choice : StyleChoice}
    (hchoice : StyleChoice.ofOptions r.stylesheet r.link = .ok choice) (m : Model) (s : σ) :
    v.Quiet s (document threshold r choice m : Work (StateM σ) Text) (v.Rendered s r m) := by
  unfold document
  cases hformat : r.format with
  | json => exact (Quiet.ofExcept _ _).mono fun text htext => .json hformat htext
  | html =>
      refine (h.resolveStyle_quiet threshold hchoice s).bind fun style t _ hstyle => ?_
      refine (Quiet.ofExcept _ _).bind fun titles u _ htitles => .pure ?_
      unfold paneTitles at htitles
      split at htitles
      · rename_i outline source houtline hsource
        obtain rfl := Except.ok.inj htitles
        exact .html hformat houtline hsource hstyle
      · simp at htitles

end Lawful

end View

namespace Command

variable {σ φ : Type} {v : View σ φ} [Host (StateM σ)]

/-- The work up to the whole document. -/
def prepare (threshold : LogLevel) (r : Request) : Work (StateM σ) Text := do
  if 1 < r.inputs.length then throw (.options (.tooManyInputs r.inputs.length))
  let choice ← ofExcept .options (StyleChoice.ofOptions r.stylesheet r.link)
  let lines ← readLines r.inputs.head?
  log threshold (linesRecord lines r.inputs.head?)
  let model ← ofExcept .stream (Model.ofLines lines)
  model.readingLog.forM (log threshold)
  log threshold (modelRecord model)
  document threshold r choice model

/-- The document is made before it is written. -/
theorem perform_eq (threshold : LogLevel) (r : Request) :
    (perform threshold r : Work (StateM σ) Unit) =
      (prepare threshold r >>= fun text => do
        writeDocument text r.output
        log threshold (documentRecord r.output)) := by
  unfold perform prepare
  by_cases hinputs : 1 < r.inputs.length
  · simp [hinputs]
  · simp [hinputs]

/-- **Making the document changes nothing.** -/
theorem prepare_quiet (h : v.Lawful) (threshold : LogLevel) (r : Request) (s : σ) :
    v.Quiet s (prepare threshold r : Work (StateM σ) Text) (v.Document s r) := by
  unfold prepare
  by_cases hinputs : 1 < r.inputs.length
  · rw [if_pos hinputs]
    exact View.Quiet.bind (Q := fun _ => False) (View.Quiet.throw _ _)
      fun _ _ _ hfalse => hfalse.elim
  · rw [if_neg hinputs]
    cases hchoice : StyleChoice.ofOptions r.stylesheet r.link with
    | error fault =>
        exact View.Quiet.bind (Q := fun _ => False) (View.Quiet.throw _ _)
          fun _ _ _ hfalse => hfalse.elim
    | ok choice =>
        rw [ofExcept, pure_bind]
        -- each step is quiet from the state that the one before it has left
        refine (h.readLines_quiet _ s).bind fun lines s₁ h₁ hlines => ?_
        refine (h.log_quiet threshold _ s₁).bind fun _ s₂ h₂ _ => ?_
        refine (View.Quiet.ofExcept _ _).bind fun m s₃ h₃ hmodel => ?_
        refine (h.logAll_quiet threshold _ s₃).bind fun _ s₄ h₄ _ => ?_
        refine (h.log_quiet threshold _ s₄).bind fun _ s₅ h₅ _ => ?_
        refine (h.document_quiet threshold r hchoice m s₅).mono fun text htext => ?_
        have hsame : v.Same s s₅ := h₁.trans (h₂.trans (h₃.trans (h₄.trans h₅)))
        obtain ⟨bytes, hbytes, rfl⟩ := hlines
        exact ⟨by omega, bytes, m, hbytes, hmodel, htext.of_same hsame⟩

/-! ## Writing the document -/

/-- Logging does not fail. -/
theorem log_run (h : v.Lawful) (threshold : LogLevel) (r : LogRecord) (s : σ) :
    ∃ t, (log threshold r : Work (StateM σ) Unit).run.run s = (.ok (), t) ∧ v.Same s t := by
  have hsame := (h.log_quiet threshold r s).1
  refine ⟨_, ?_, hsame⟩
  unfold log
  split <;> rfl

/-- The document goes to its target, or nothing is written. -/
theorem writeDocument_run (h : v.Lawful) (text : Text) (target : Option (Given Path)) (s : σ) :
    (∃ t, (writeDocument text target : Work (StateM σ) Unit).run.run s = (.ok (), t) ∧
        v.Emitted target text s t) ∨
      ∃ failure t, (writeDocument text target : Work (StateM σ) Unit).run.run s =
        (.error failure, t) ∧ v.Kept s t := by
  cases target with
  | none => exact Or.inl ⟨_, rfl, h.print text s⟩
  | some given =>
      cases given with
      | blank => exact Or.inr ⟨_, s, rfl, .refl s⟩
      | value p =>
          rw [writeDocument]
          rcases h.writeFileAndParents p (Utf8.encode text) s with
            ⟨t, hrun, hwritten⟩ | ⟨fault, t, hrun, hkept⟩
          · rw [View.run_bind_ok (View.run_lift hrun)]
            exact Or.inl ⟨t, rfl, hwritten⟩
          · rw [View.run_bind_ok (View.run_lift hrun)]
            exact Or.inr ⟨_, t, rfl, hkept⟩

/-- **A request yields its document in one place, or nothing.** -/
theorem perform_run (h : v.Lawful) (threshold : LogLevel) (r : Request) (s : σ) :
    (∃ text t, (perform threshold r : Work (StateM σ) Unit).run.run s = (.ok (), t) ∧
        v.Document s r text ∧ v.Emitted r.output text s t) ∨
      ∃ failure t, (perform threshold r : Work (StateM σ) Unit).run.run s =
        (.error failure, t) ∧ v.Kept s t := by
  obtain ⟨hsame, hdocument⟩ := prepare_quiet h threshold r s
  rw [perform_eq]
  rcases hprepare : (prepare threshold r : Work (StateM σ) Text).run.run s with ⟨prepared, t⟩
  rw [hprepare] at hsame hdocument
  cases prepared with
  | error failure =>
      rw [View.run_bind_error hprepare]
      exact Or.inr ⟨failure, t, rfl, hsame.toKept⟩
  | ok text =>
      rw [View.run_bind_ok hprepare]
      rcases writeDocument_run h text r.output t with
        ⟨u, hwrite, hemitted⟩ | ⟨failure, u, hwrite, hkept⟩
      · -- What is logged at the end cannot fail any more.
        rw [View.run_bind_ok hwrite]
        obtain ⟨u', hlog, hsame'⟩ := log_run h threshold (documentRecord r.output) u
        exact Or.inl ⟨text, u', hlog, hdocument text rfl,
          (hemitted.of_kept hsame.toKept).same hsame'⟩
      · rw [View.run_bind_error hwrite]
        exact Or.inr ⟨failure, u, rfl, hsame.toKept.trans hkept⟩

/-- The end of a run that has failed is not status 0, and nothing is written any more. -/
theorem conclude_run (h : v.Lawful) (failure : Failure) (s : σ) :
    ((conclude failure : StateM σ Ending).run s).1 ≠ .exit 0 ∧
      v.Kept s ((conclude failure : StateM σ Ending).run s).2 := by
  unfold conclude
  split
  · refine ⟨?_, ?_⟩
    · show Ending.exit 1 ≠ .exit 0
      simp
    · exact (h.report_same _ s).toKept
  · refine ⟨?_, .refl s⟩
    show Ending.escaped failure ≠ .exit 0
    simp

end Command

/-- **A run that fails writes nothing, and one that succeeds writes one document to one place.** -/
theorem Command.contained_of_lawful {σ φ : Type} [Host (StateM σ)] {v : View σ φ} (h : v.Lawful)
    (arguments : List Text) (s : σ) :
    v.Contained arguments s ((run arguments : StateM σ Ending).run s).1
      ((run arguments : StateM σ Ending).run s).2 := by
  rw [run]
  cases hrequest : Request.ofArguments arguments with
  | error halt =>
      cases halt with
      | help =>
          refine ⟨fun hne => absurd rfl hne, fun r hr => ?_⟩
          simp [hrequest] at hr
      -- the options are refused before anything is done
      | fault fault =>
          obtain ⟨hne, hkept⟩ := conclude_run h (.options fault) s
          exact ⟨fun _ => hkept, fun _ _ _ hzero => absurd hzero hne⟩
  | ok r =>
      dsimp only
      by_cases hmanual : r.manual = true
      · rw [if_pos hmanual]
        refine ⟨fun hne => absurd rfl hne, fun r' hr' hfalse => ?_⟩
        rw [hrequest, Except.ok.injEq] at hr'
        rw [← hr', hmanual] at hfalse
        exact absurd hfalse (by decide)
      · rw [if_neg hmanual]
        rcases perform_run h r.threshold r s with
          ⟨text, t, hrun, hdocument, hemitted⟩ | ⟨failure, t, hrun, hkept⟩
        -- the document is written
        · rw [View.run_bind_eq hrun]
          refine ⟨fun hne => absurd rfl hne, fun r' hr' _ _ => ?_⟩
          rw [hrequest, Except.ok.injEq] at hr'
          exact ⟨text, hr' ▸ hdocument, hr' ▸ hemitted⟩
        -- a failure on the way to it, or in writing it
        · rw [View.run_bind_eq hrun]
          obtain ⟨hne, hkept'⟩ := conclude_run h failure t
          exact ⟨fun _ => hkept.trans hkept', fun _ _ _ hzero => absurd hzero hne⟩

/-- A stream that ends a scope which it has not begun, and an output file that is there already. -/
theorem Command.contained_unopened :
    let machine : Machine :=
      { files :=
          { nodes := [(["in".toList], .file (Utf8.encode "s".toList)),
              (["out".toList], .file (Utf8.encode "kept".toList))] } }
    let arguments : List Text := ["-o".toList, "out".toList, "in".toList]
    let ended := (run arguments : StateM Machine Ending).run machine
    Machine.view.Lawful ∧ ended.1 = .exit 1 ∧
      Machine.view.Contained arguments machine ended.1 ended.2 := by
  intro machine arguments ended
  have hending : ended.1 = .exit 1 := by rfl
  exact ⟨Machine.lawful_view, hending, contained_of_lawful Machine.lawful_view arguments machine⟩

end Yeast
