import Mathlib.Data.List.Nodup
import Yeast.Proofs.Clock

set_option autoImplicit false

/-! # The order of options

A command line whose options are written out is made of groups: an option with its value, or the
input. Taken from left to right, each group changes a part of the request that no other group
changes, and it is refused whatever has been requested before or not at all. So two groups may be
given in either order (`Group.give_comm`), and groups in any order amount to the same request
(`Request.ofArguments_perm`), which has what each of them gives because each may be given last. A
run knows no more of its command line than this request, so no order can be told from another
(`interchangeable_of_perm`).
-/

namespace Yeast

namespace Command

/-! ## Groups -/

/-- The option serves the purpose and has the name. -/
structure OptionSpec.Spelled (spec : OptionSpec) (purpose : Purpose) (name : Text) : Prop where
  mem : spec ∈ options
  purpose : spec.purpose = purpose
  name : name ∈ spec.names

/-- Arguments that belong together: the input, or an option other than help and the manual under one
of its names, with its value behind it if it takes one. Only names begin with a hyphen. -/
inductive Group where
  | input (text : Text) (plain : text.head? ≠ some '-')
  | flag (spec : OptionSpec) (flag : Flag) (name : Text) (spelled : spec.Spelled (.flag flag) name)
      (acts : flag ≠ .help ∧ flag ≠ .manual)
  | parameter (spec : OptionSpec) (parameter : Parameter) (name value : Text)
      (spelled : spec.Spelled (.parameter parameter) name) (plain : value.head? ≠ some '-')

namespace Group

def arguments : Group → List Text
  | input text _ => [text]
  | flag _ _ name _ _ => [name]
  | parameter _ _ name value _ _ => [name, value]

/-- What a group is about: an option by its purpose, or else the input. -/
def subject : Group → Option Purpose
  | input _ _ => none
  | flag _ f _ _ _ => some (.flag f)
  | parameter _ a _ _ _ _ => some (.parameter a)

/-- What a request becomes when the group is given. -/
def give : Group → Request → Except Halt Request
  | input text _, r => .ok { r with inputs := r.inputs ++ [Path.ofText text] }
  | flag _ f _ _ _, r => r.setFlag f
  | parameter spec a _ value _ _, r => r.setParameter spec a (.value value)

def giveAll (groups : List Group) (r : Except Halt Request) : Except Halt Request :=
  groups.foldl (fun r g => r.bind g.give) r

end Group

/-! ## Groups commute -/

/-- A format is known or not, whatever else is requested. -/
theorem Request.setParameter_format (spec : OptionSpec) (word : Text) :
    (∃ format, ∀ r : Request, r.setParameter spec .format (.value word) = .ok { r with format }) ∨
      ∀ r : Request, r.setParameter spec .format (.value word) =
        .error (.fault (.unknownFormat spec word)) := by
  cases hword : Format.ofName? word with
  | none => exact Or.inr fun r => by simp only [setParameter, hword]
  | some format => exact Or.inl ⟨format, fun r => by simp only [setParameter, hword]⟩

namespace Group

/-- Only a format can be refused. A group about anything else leaves the format alone. -/
theorem exists_give_eq_ok {g : Group} (h : g.subject ≠ some (.parameter .format)) (r : Request) :
    ∃ r', g.give r = .ok r' ∧ ∀ format, g.give { r with format } = .ok { r' with format } := by
  cases g with
  | input _ _ => exact ⟨_, rfl, fun _ => rfl⟩
  | flag _ f _ _ acts =>
      cases f with
      | help => exact absurd rfl acts.1
      | _ => exact ⟨_, rfl, fun _ => rfl⟩
  | parameter _ a _ _ _ _ =>
      cases a with
      | format => exact absurd rfl h
      | _ => exact ⟨_, rfl, fun _ => rfl⟩

/-- A format may be given before a group about anything else or behind it, and is refused there if
it is refused here. -/
theorem format_give_comm {g : Group} (h : g.subject ≠ some (.parameter .format))
    (spec : OptionSpec) (word : Text) (r : Request) :
    (r.setParameter spec .format (.value word)).bind g.give =
      (g.give r).bind (·.setParameter spec .format (.value word)) := by
  obtain ⟨r', hgive, hframe⟩ := exists_give_eq_ok h r
  rcases Request.setParameter_format spec word with ⟨format, hformat⟩ | hformat
  · rw [hformat, hgive]
    exact (hframe format).trans (hformat r').symm
  · rw [hformat, hgive]
    exact (hformat r').symm

/-- The other groups succeed, and each adds to the inputs or sets a part of its own. -/
theorem give_comm_of_ne_format {g g' : Group} (h : g.subject ≠ g'.subject)
    (hg : g.subject ≠ some (.parameter .format)) (hg' : g'.subject ≠ some (.parameter .format))
    (r : Request) : (g.give r).bind g'.give = (g'.give r).bind g.give := by
  cases g with
  | input _ _ =>
      cases g' with
      | input _ _ => exact absurd rfl h
      | flag _ f' _ _ _ => cases f' <;> rfl
      | parameter _ a' _ _ _ _ => cases a' <;> first | rfl | exact absurd rfl hg'
  | flag _ f _ _ _ =>
      cases g' with
      | input _ _ => cases f <;> rfl
      | flag _ f' _ _ _ => cases f <;> cases f' <;> rfl
      | parameter _ a' _ _ _ _ => cases f <;> cases a' <;> first | rfl | exact absurd rfl hg'
  | parameter _ a _ _ _ _ =>
      cases g' with
      | input _ _ => cases a <;> first | rfl | exact absurd rfl hg
      | flag _ f' _ _ _ => cases a <;> cases f' <;> first | rfl | exact absurd rfl hg
      | parameter _ a' _ _ _ _ =>
          -- The parameters differ, and each is a field of the request.
          cases a <;> cases a' <;>
            first | rfl | exact absurd rfl h | exact absurd rfl hg | exact absurd rfl hg'

theorem exists_give_eq_setParameter {g : Group} (h : g.subject = some (.parameter .format)) :
    ∃ spec word, g.give = fun r => r.setParameter spec .format (.value word) := by
  cases g with
  | input _ _ => simp [subject] at h
  | flag _ _ _ _ _ => simp [subject] at h
  | parameter spec a _ value _ _ =>
      obtain rfl : a = .format := by simpa [subject] using h
      exact ⟨spec, value, rfl⟩

/-- **Groups about different things may be given in either order.** -/
theorem give_comm {g g' : Group} (h : g.subject ≠ g'.subject) (r : Request) :
    (g.give r).bind g'.give = (g'.give r).bind g.give := by
  by_cases hg : g.subject = some (.parameter .format)
  · obtain ⟨spec, word, hgive⟩ := exists_give_eq_setParameter hg
    rw [hgive]
    exact format_give_comm (fun hg' => h (hg.trans hg'.symm)) spec word r
  · by_cases hg' : g'.subject = some (.parameter .format)
    · obtain ⟨spec, word, hgive⟩ := exists_give_eq_setParameter hg'
      rw [hgive]
      exact (format_give_comm hg spec word r).symm
    · exact give_comm_of_ne_format h hg hg' r

theorem giveAll_error (groups : List Group) (halt : Halt) :
    giveAll groups (.error halt) = .error halt := by
  induction groups with
  | nil => rfl
  | cons g groups ih => exact ih

/-- Groups about different things may be given in any order. -/
theorem giveAll_perm {groups groups' : List Group} (h : groups.Perm groups')
    (hnodup : (groups.map subject).Nodup) (r : Except Halt Request) :
    giveAll groups r = giveAll groups' r := by
  apply h.foldl_eq'
  intro g hg g' hg' r
  by_cases hsame : g = g'
  · rw [hsame]
  · have hsubject : g.subject ≠ g'.subject := fun heq =>
      hsame (List.inj_on_of_nodup_map hnodup hg hg' heq)
    cases r with
    | error halt => rfl
    | ok r => exact give_comm hsubject r

end Group

/-! ## What groups come to -/

def Request.IsSet (r : Request) : Flag → Prop
  | .help => False
  | .link => r.link = true
  | .verbose => r.verbose = true
  | .manual => r.manual = true

def Request.HasValue (r : Request) (value : Text) : Parameter → Prop
  | .output => r.output = some (.value (Path.ofText value))
  | .stylesheet => r.stylesheet = some (.value (Path.ofText value))
  | .outlineTitle => r.outlineTitle = .value value
  | .sourceTitle => r.sourceTitle = .value value
  | .format => Format.ofName? value = some r.format

namespace Group

/-- The request has what the group gives. -/
def Honoured (r : Request) : Group → Prop
  | input text _ => Path.ofText text ∈ r.inputs
  | flag _ f _ _ _ => r.IsSet f
  | parameter _ a _ value _ _ => r.HasValue value a

/-- The group gives a format that does not exist, and this is the fault. -/
def Refused (halt : Halt) : Group → Prop
  | parameter spec a _ value _ _ => a = .format ∧ Format.ofName? value = none ∧
      halt = .fault (.unknownFormat spec value)
  | _ => False

theorem results_give (g : Group) (r : Request) :
    Results (fun r' => g.Honoured r') (fun halt => g.Refused halt) (g.give r) := by
  cases g with
  | input text _ => exact List.mem_append_right r.inputs List.mem_cons_self
  | flag _ f _ _ acts =>
      cases f with
      | help => exact absurd rfl acts.1
      | _ => rfl
  | parameter spec a _ value _ _ =>
      cases a with
      | format =>
          rw [give, Request.setParameter]
          cases hword : Format.ofName? value with
          | none => exact ⟨rfl, hword, rfl⟩
          | some format => exact hword
      | _ => rfl

theorem exists_refused {groups : List Group} {r : Request} {halt : Halt}
    (h : giveAll groups (.ok r) = .error halt) : ∃ g ∈ groups, g.Refused halt := by
  induction groups generalizing r with
  | nil => exact nomatch h
  | cons g groups ih =>
      have hgive : giveAll groups (g.give r) = .error halt := h
      cases hg : g.give r with
      | error halt' =>
          rw [hg, giveAll_error] at hgive
          obtain rfl := Except.error.inj hgive
          exact ⟨g, List.mem_cons_self, (g.results_give r).of_error hg⟩
      | ok r' =>
          rw [hg] at hgive
          obtain ⟨g', hg', hrefused⟩ := ih hgive
          exact ⟨g', List.mem_cons_of_mem g hg', hrefused⟩

/-- Any group may be given last, so no other undoes what it gives. -/
theorem honoured_of_giveAll {groups : List Group} (hnodup : (groups.map subject).Nodup)
    {r r' : Request} (h : giveAll groups (.ok r) = .ok r') {g : Group} (hg : g ∈ groups) :
    g.Honoured r' := by
  obtain ⟨before, behind, rfl⟩ := List.append_of_mem hg
  have hlast : (before ++ g :: behind).Perm (before ++ behind ++ [g]) :=
    List.perm_middle.trans (List.perm_append_singleton g _).symm
  rw [giveAll_perm hlast hnodup, giveAll, List.foldl_append] at h
  have hgive : (giveAll (before ++ behind) (.ok r)).bind g.give = .ok r' := h
  cases hothers : giveAll (before ++ behind) (.ok r) with
  | error halt =>
      rw [hothers] at hgive
      exact nomatch hgive
  | ok others =>
      rw [hothers] at hgive
      exact (g.results_give others).of_ok hgive

end Group

/-! ## Groups as words -/

def NameForm.ofName : Text → NameForm
  | '-' :: '-' :: _ => .long
  | _ => .short

theorem OptionSpec.Spelled.word_name {spec : OptionSpec} {purpose : Purpose} {name : Text}
    (h : spec.Spelled purpose name) :
    word name = .ok (.option (.ofName name) spec none) := by
  -- the table of options is fixed, so what its names stand for is decided
  have hshort : ∀ spec ∈ options,
      spec.short.all fun c => c != '-' && shortOption? c = some spec := by
    decide
  have hlong : ∀ spec ∈ options, longOption? spec.long = some spec ∧ ['-', '-'] <+: spec.long := by
    decide
  have hname := h.name
  obtain ⟨hfind, rest, hrest⟩ := hlong spec h.mem
  have hlongName : word spec.long = .ok (.option (.ofName spec.long) spec none) := by
    have hword : word spec.long = longWord spec.long := by
      rw [← hrest]
      rfl
    rw [hword, longWord, hfind, ← hrest]
    rfl
  unfold OptionSpec.names at hname
  cases hc : spec.short with
  | none =>
      rw [hc] at hname
      rw [List.mem_singleton.mp hname, hlongName]
  | some c =>
      rw [hc] at hname
      have hshort := hshort spec h.mem
      simp only [hc, Option.all_some, Bool.and_eq_true, bne_iff_ne, decide_eq_true_eq] at hshort
      rcases List.mem_cons.mp hname with rfl | hname
      · simp [word, shortWord, hshort, NameForm.ofName]
      · rw [List.mem_singleton.mp hname, hlongName]

theorem OptionSpec.Spelled.name_ne {spec : OptionSpec} {purpose : Purpose} {name : Text}
    (h : spec.Spelled purpose name) : name ≠ ['-', '-'] := by
  have hnames : ∀ spec ∈ options, ['-', '-'] ∉ spec.names := by
    decide
  intro heq
  exact hnames spec h.mem (heq ▸ h.name)

theorem word_of_head?_ne {text : Text} (h : text.head? ≠ some '-') :
    word text = .ok (.plain text) := by
  unfold word
  split
  · exact absurd rfl h
  · exact absurd rfl h
  · rfl

/-- An argument other than the terminator is classified by itself. -/
theorem words_cons {argument : Text} {w : Word} (hne : argument ≠ ['-', '-'])
    (hword : word argument = .ok w) {rest : List Text} {ws : List Word}
    (hrest : words rest = .ok ws) : words (argument :: rest) = .ok (w :: ws) := by
  rw [words, if_neg hne, hword, hrest]

namespace Group

def asWords : Group → List Word
  | input text _ => [.plain text]
  | flag spec _ name _ _ => [.option (.ofName name) spec none]
  | parameter spec _ name value _ _ => [.option (.ofName name) spec none, .plain value]

theorem words_arguments_append (g : Group) {rest : List Text} {ws : List Word}
    (h : words rest = .ok ws) : words (g.arguments ++ rest) = .ok (g.asWords ++ ws) := by
  have hplain : ∀ {text : Text}, text.head? ≠ some '-' → text ≠ ['-', '-'] := by
    rintro text hhead rfl
    exact hhead rfl
  cases g with
  | input text plain => exact words_cons (hplain plain) (word_of_head?_ne plain) h
  | flag spec f name spelled acts => exact words_cons spelled.name_ne spelled.word_name h
  | parameter spec a name value spelled plain =>
      have hvalue := words_cons (hplain plain) (word_of_head?_ne plain) h
      exact words_cons spelled.name_ne spelled.word_name hvalue

theorem words_flatMap_arguments (groups : List Group) :
    words (groups.flatMap arguments) = .ok (groups.flatMap asWords) := by
  induction groups with
  | nil => rfl
  | cons g groups ih => exact g.words_arguments_append ih

/-! ## Groups taken from left to right -/

/-- What has become of the inputs behind a group. -/
def runBehind : Group → InputRun → InputRun
  | input _ _, _ => .within
  | _, run => if run = .within then .behind else run

/-- A group that is taken acts on the request, whatever follows. -/
theorem takeWords_append (g : Group) {p : Progress} (h : g.subject = none → p.run ≠ .behind)
    (ws : List Word) :
    takeWords p (g.asWords ++ ws) =
      (g.give p.request).bind fun request =>
        takeWords { p with request, run := g.runBehind p.run } ws := by
  cases g with
  | input text _ =>
      -- behind a run an input would be left over
      have hrun : p.run ≠ .behind := h rfl
      show takeWords (p.takePlain text) ws = _
      rw [Progress.takePlain, if_neg hrun]
      rfl
  | flag spec f name spelled _ =>
      have hcluster : cluster (.ofName name) spec none = .ok ⟨[f], none⟩ := by
        unfold cluster
        rw [spelled.purpose]
      show takeWords p (.option _ spec none :: ws) = _
      rw [takeWords, hcluster]
      dsimp only [give]
      rw [Progress.takeFlags, Request.setFlags]
      cases p.request.setFlag f <;> rfl
  | parameter spec a name value spelled _ =>
      have hcluster : cluster (.ofName name) spec none = .ok ⟨[], some ⟨spec, a, none⟩⟩ := by
        unfold cluster
        rw [spelled.purpose]
      show takeWords p (.option _ spec none :: .plain value :: ws) = _
      rw [takeWords, hcluster]
      dsimp only [give]
      rw [Progress.takeAssignment, Progress.takeFlags, Request.setFlags]
      dsimp only
      rw [Progress.takeValue]
      dsimp only [Progress.endRun]
      cases p.request.setParameter spec a (.value value) <;> rfl

theorem runBehind_ahead {g : Group} (h : g.subject ≠ none) : g.runBehind .ahead = .ahead := by
  cases g with
  | input _ _ => exact absurd rfl h
  | flag _ _ _ _ _ => rfl
  | parameter _ _ _ _ _ _ => rfl

/-- The input is the only plain word that is no value, so as long as it is to come no run of plain
words has begun. -/
theorem takeWords_flatMap {groups : List Group} (hnodup : (groups.map subject).Nodup) (p : Progress)
    (hrun : none ∈ groups.map subject → p.run = .ahead) :
    ∃ run, takeWords p (groups.flatMap asWords) =
      (giveAll groups (.ok p.request)).map fun request => { p with request, run } := by
  induction groups generalizing p with
  | nil => exact ⟨p.run, rfl⟩
  | cons g groups ih =>
      obtain ⟨hfresh, hnodup⟩ := List.nodup_cons.mp hnodup
      have hg : g.subject = none → p.run ≠ .behind := by
        intro hnone
        rw [hrun (List.mem_cons.mpr (Or.inl hnone.symm))]
        decide
      rw [List.flatMap_cons, g.takeWords_append hg]
      -- The first group has been given when the others are taken.
      show ∃ run, _ = Except.map _ (giveAll groups (g.give p.request))
      cases hgive : g.give p.request with
      | error halt =>
          rw [giveAll_error]
          exact ⟨p.run, rfl⟩
      | ok r =>
          refine ih hnodup _ fun hnone => ?_
          have hsubject : g.subject ≠ none := fun heq => hfresh (heq ▸ hnone)
          dsimp only
          rw [hrun (List.mem_cons_of_mem _ hnone), runBehind_ahead hsubject]

end Group

/-- The request of groups is what they come to in order. -/
theorem Request.ofArguments_flatMap {groups : List Group}
    (h : (groups.map Group.subject).Nodup) :
    ofArguments (groups.flatMap Group.arguments) = Group.giveAll groups (.ok {}) := by
  obtain ⟨run, htaken⟩ := Group.takeWords_flatMap h {} fun _ => rfl
  rw [ofArguments, Group.words_flatMap_arguments]
  dsimp only
  rw [htaken]
  cases Group.giveAll groups (.ok {}) <;> rfl

/-- **Groups about different things make the same request in any order.** -/
theorem Request.ofArguments_perm {groups groups' : List Group} (h : groups.Perm groups')
    (hnodup : (groups.map Group.subject).Nodup) :
    ofArguments (groups.flatMap Group.arguments) =
      ofArguments (groups'.flatMap Group.arguments) := by
  have hnodup' : (groups'.map Group.subject).Nodup := (h.map Group.subject).nodup_iff.mp hnodup
  rw [ofArguments_flatMap hnodup, ofArguments_flatMap hnodup', Group.giveAll_perm h hnodup]

/-- What groups come to is what each of them gives, or a format is refused. -/
theorem Request.results_ofArguments {groups : List Group} (h : (groups.map Group.subject).Nodup) :
    Results (fun r => ∀ g ∈ groups, g.Honoured r) (fun halt => ∃ g ∈ groups, g.Refused halt)
      (ofArguments (groups.flatMap Group.arguments)) := by
  rw [ofArguments_flatMap h]
  cases hgroups : Group.giveAll groups (.ok {}) with
  | ok r => exact fun g hg => Group.honoured_of_giveAll h hgroups hg
  | error halt => exact Group.exists_refused hgroups

/-! ## Runs -/

/-- A run knows its command line by the request that it amounts to. -/
theorem run_congr {m : Type → Type} [Monad m] [Host m] {arguments arguments' : List Text}
    (h : Request.ofArguments arguments = Request.ofArguments arguments') :
    (run arguments : m Ending) = run arguments' := by
  unfold run
  rw [h]

/-- No run tells the command lines apart. -/
structure Interchangeable (arguments arguments' : List Text) : Prop where
  /-- They are the same work on every host. -/
  work : ∀ {m : Type → Type} [Monad m] [Host m], (run arguments : m Ending) = run arguments'
  /-- Whatever the clock shows while one or the other runs, the end of the run, the files and the
  output are the same, and so is what is reported, but for the times in rows of the log. -/
  timeless : ∀ machine : Machine,
    ∃ (ending : Ending) (machine' : Machine) (reports : List Report),
      ∀ clock, ∀ given ∈ [arguments, arguments'], ∃ shown, Report.Shown reports shown ∧
        (Machine.withClock clock (run given)).run machine =
          (ending, { machine' with diagnostics := machine.diagnostics ++ shown })

/-- **The groups of a command line may stand in any order.** The request that they amount to has
what each of them gives, unless a format is refused. -/
theorem interchangeable_of_perm {groups groups' : List Group} (hperm : groups.Perm groups')
    (hnodup : (groups.map Group.subject).Nodup) :
    Interchangeable (groups.flatMap Group.arguments) (groups'.flatMap Group.arguments) ∧
      Results (fun r => ∀ g ∈ groups, g.Honoured r) (fun halt => ∃ g ∈ groups, g.Refused halt)
        (Request.ofArguments (groups.flatMap Group.arguments)) := by
  have hrequest := Request.ofArguments_perm hperm hnodup
  refine ⟨⟨run_congr hrequest, fun machine => ?_⟩, Request.results_ofArguments hnodup⟩
  -- Both run as the first does, and that does not depend on the clock.
  obtain ⟨ending, machine', reports, hrun⟩ :=
    timeless_run (groups.flatMap Group.arguments) machine
  refine ⟨ending, machine', reports, fun clock given hgiven => ?_⟩
  have hsame : Machine.withClock clock (run given) =
      Machine.withClock clock (run (groups.flatMap Group.arguments)) := by
    let _ := Machine.clocked clock
    rcases List.mem_pair.mp hgiven with rfl | rfl
    · rfl
    · exact run_congr hrequest.symm
  rw [hsame]
  exact hrun clock machine.diagnostics

/-- An input between options, one of which has a value that is refused, and the same backwards. -/
theorem interchangeable_refusedFormat :
    let output : Group := .parameter ⟨some 'o', "--output".toList, .parameter .output⟩ .output
      "-o".toList "page".toList ⟨by decide, rfl, by decide⟩ (by decide)
    let verbose : Group := .flag ⟨some 'v', "--verbose".toList, .flag .verbose⟩ .verbose
      "--verbose".toList ⟨by decide, rfl, by decide⟩ (by decide)
    let input : Group := .input "in".toList (by decide)
    let format : Group := .parameter ⟨none, "--format".toList, .parameter .format⟩ .format
      "--format".toList "xml".toList ⟨by decide, rfl, by decide⟩ (by decide)
    let groups : List Group := [output, verbose, input, format]
    groups.Perm groups.reverse ∧ (groups.map Group.subject).Nodup ∧
      Interchangeable
        ["-o".toList, "page".toList, "--verbose".toList, "in".toList, "--format".toList,
          "xml".toList]
        ["--format".toList, "xml".toList, "in".toList, "--verbose".toList, "-o".toList,
          "page".toList] ∧
      Results (fun r => ∀ g ∈ groups, g.Honoured r) (fun halt => ∃ g ∈ groups, g.Refused halt)
        (Request.ofArguments ["-o".toList, "page".toList, "--verbose".toList, "in".toList,
          "--format".toList, "xml".toList]) := by
  intro output verbose input format groups
  have hperm : groups.Perm groups.reverse := (List.reverse_perm groups).symm
  have hnodup : (groups.map Group.subject).Nodup := by decide
  exact ⟨hperm, hnodup, interchangeable_of_perm hperm hnodup⟩

end Command

end Yeast
