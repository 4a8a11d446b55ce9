import Yeast.Command.Request
import Yeast.Proofs.Diagnostic

set_option autoImplicit false

/-! # Where the texts of a request come from

Whatever a command line comes to, the texts in it are arguments, or ends of what is attached to an
option in one (`Command.traced_ofArguments`): paths and titles, and what a fault tells. An option is
left without its value only where two hyphens are attached to it. Hence a diagnostic has no
character that is neither printable nor in an argument
(`Command.OptionFault.Traced.drawnFrom_message`).

A word is its argument, or an option with the end of it (`Command.reads_word`), and a cluster ends
with the end of what is attached (`Command.within_cluster`). Taking the words then only moves their
texts into the request or among those left over.
-/

namespace Yeast

/-! ## Characters and their sources -/

namespace Text

/-- Every character of the text is printable or stands in one of the sources. -/
def DrawnFrom (sources : List Text) (text : Text) : Prop :=
  ∀ c ∈ text, printable c = true ∨ ∃ source ∈ sources, c ∈ source

theorem Visible.drawnFrom {text : Text} (h : text.Visible) (sources : List Text) :
    text.DrawnFrom sources := fun c hc => Or.inl ((visible_iff text).mp h c hc)

theorem drawnFrom_of_mem {sources : List Text} {text : Text} (h : text ∈ sources) :
    text.DrawnFrom sources := fun _ hc => Or.inr ⟨text, h, hc⟩

theorem drawnFrom_append {sources : List Text} {text more : Text} :
    DrawnFrom sources (text ++ more) ↔ text.DrawnFrom sources ∧ more.DrawnFrom sources :=
  List.forall_mem_append

theorem DrawnFrom.mono {sources sources' : List Text} {text : Text} (h : text.DrawnFrom sources)
    (hsources : sources ⊆ sources') : text.DrawnFrom sources' := by
  intro c hc
  rcases h c hc with hprintable | ⟨source, hsource, hin⟩
  · exact Or.inl hprintable
  · exact Or.inr ⟨source, hsources hsource, hin⟩

theorem DrawnFrom.suffix {sources : List Text} {text more : Text} (h : more.DrawnFrom sources)
    (hsuffix : text <:+ more) : text.DrawnFrom sources := fun c hc => h c (hsuffix.subset hc)

theorem drawnFrom_joined {sources texts : List Text} {separator : Text}
    (hseparator : separator.Visible) (h : ∀ text ∈ texts, text.DrawnFrom sources) :
    DrawnFrom sources (joined separator texts) := by
  induction texts with
  | nil => exact fun _ hc => nomatch hc
  | cons text texts ih =>
      obtain ⟨htext, hmore⟩ := List.forall_mem_cons.mp h
      cases texts with
      | nil => simpa [joined, List.intercalate] using htext
      | cons next texts =>
          have hcons : joined separator (text :: next :: texts) =
              text ++ (separator ++ joined separator (next :: texts)) := by
            simp [joined, List.intercalate]
          rw [hcons]
          exact drawnFrom_append.mpr
            ⟨htext, drawnFrom_append.mpr ⟨hseparator.drawnFrom sources, ih hmore⟩⟩

/-- A character without a visible form is in the text only if it is in a source. -/
theorem DrawnFrom.not_mem {sources : List Text} {text : Text} {c : Char}
    (h : text.DrawnFrom sources) (hc : printable c = false)
    (hsources : ∀ source ∈ sources, c ∉ source) : c ∉ text := by
  intro hmem
  rcases h c hmem with hprintable | ⟨source, hsource, hin⟩
  · rw [hc] at hprintable
    exact absurd hprintable Bool.false_ne_true
  · exact hsources source hsource hin

theorem mem_of_mem_pieces {parts : Char → Bool} {text piece : Text}
    (h : piece ∈ pieces parts text) : ∀ c ∈ piece, c ∈ text := by
  induction text generalizing piece with
  | nil =>
      rw [pieces, List.mem_singleton] at h
      simp [h]
  | cons d rest ih =>
      intro c hc
      rw [pieces] at h
      split_ifs at h
      -- a separator: the first piece is empty, the others are those of the rest
      · rcases List.mem_cons.mp h with rfl | hrest
        · exact nomatch hc
        · exact List.mem_cons_of_mem d (ih hrest c hc)
      -- another character joins the first piece of the rest
      · cases hpieces : pieces parts rest with
        | nil => simp [hpieces] at h
        | cons first others =>
            rw [hpieces, List.modifyHead_cons] at h
            rcases List.mem_cons.mp h with rfl | hothers
            · rcases List.mem_cons.mp hc with rfl | hc
              · exact List.mem_cons_self
              · exact List.mem_cons_of_mem d (ih (hpieces ▸ List.mem_cons_self) c hc)
            · exact List.mem_cons_of_mem d
                (ih (hpieces ▸ List.mem_cons_of_mem first hothers) c hc)

end Text

namespace Path

/-- The names of the path have printable characters and those of the sources. -/
def DrawnFrom (sources : List Text) (p : Path) : Prop := ∀ name ∈ p.names, name.DrawnFrom sources

/-- Besides its names, the text of a path has slashes, or a dot for the working directory. -/
theorem DrawnFrom.text {sources : List Text} {p : Path} (h : p.DrawnFrom sources) :
    p.text.DrawnFrom sources := by
  unfold Path.text
  split_ifs
  · exact Text.Visible.drawnFrom (by decide) _
  · have hroot : p.root.text.Visible := by cases p.root <;> decide
    exact Text.drawnFrom_append.mpr
      ⟨hroot.drawnFrom _, Text.drawnFrom_joined (by decide) h⟩

/-- The names of a path stand in the text that it is read from. -/
theorem drawnFrom_ofText {sources : List Text} {text : Text} (h : text.DrawnFrom sources) :
    (ofText text).DrawnFrom sources := fun _ hname c hc =>
  h c (Text.mem_of_mem_pieces (List.mem_filter.mp hname).1 c hc)

end Path

namespace Command

/-! ## Words -/

/-- What one argument is read as. -/
inductive Reads (argument : Text) : Except OptionFault Word → Prop
  | plain : Reads argument (.ok (.plain argument))
  | unknown : Reads argument (.ok (.unknown argument))
  | option {form : NameForm} {spec : OptionSpec} {attached : Option Text} : spec ∈ options →
      (∀ text, attached = some text → text <:+ argument) →
      Reads argument (.ok (.option form spec attached))
  | ambiguous {candidates : List OptionSpec} : (∀ spec ∈ candidates, spec ∈ options) →
      Reads argument (.error (.ambiguous argument candidates))

theorem reads_wordWithoutOption (argument : Text) :
    Reads argument (.ok (wordWithoutOption argument)) := by
  unfold wordWithoutOption
  split_ifs
  · exact .plain
  · exact .unknown

theorem suffix_of_splitAtEquals {text value : Text} (h : (splitAtEquals text).2 = some value) :
    value <:+ text := by
  unfold splitAtEquals at h
  split at h
  · simp at h
  · rename_i hdrop
    obtain rfl := Option.some.inj h
    exact (List.suffix_cons _ _).trans (hdrop ▸ List.dropWhile_suffix _)

theorem reads_longWord (argument : Text) : Reads argument (longWord argument) := by
  have hvalue : ∀ text, (splitAtEquals argument).2 = some text → text <:+ argument :=
    fun _ => suffix_of_splitAtEquals
  unfold longWord
  -- In full, in full before `=`, or as the beginning of one name, of none or of several.
  split
  · rename_i hspec
    exact .option (List.mem_of_find?_eq_some hspec) fun _ h => nomatch h
  · dsimp only
    split
    · rename_i hspec
      exact .option (List.mem_of_find?_eq_some hspec) hvalue
    · have hcandidates : ∀ spec ∈ optionsWithPrefix (splitAtEquals argument).1, spec ∈ options :=
        fun _ h => (List.mem_filter.mp h).1
      split
      · exact reads_wordWithoutOption argument
      · rename_i spec hone
        exact .option (hcandidates spec (hone ▸ List.mem_singleton_self spec)) hvalue
      · exact .ambiguous hcandidates

theorem reads_shortWord (c : Char) (attached : Text) :
    Reads ('-' :: c :: attached) (.ok (shortWord c attached)) := by
  have hattached : attached <:+ '-' :: c :: attached :=
    (List.suffix_cons c attached).trans (List.suffix_cons _ _)
  unfold shortWord
  split
  · exact reads_wordWithoutOption _
  · rename_i spec hspec
    have hmem := List.mem_of_find?_eq_some hspec
    split
    · exact .option hmem fun _ h => nomatch h
    · rename_i value
      refine .option hmem fun text h => ?_
      obtain rfl := Option.some.inj h
      exact (List.suffix_cons '=' value).trans hattached
    · refine .option hmem fun text h => ?_
      obtain rfl := Option.some.inj h
      exact hattached

/-- A word is its argument, or an option with the end of it attached. -/
theorem reads_word (argument : Text) : Reads argument (word argument) := by
  unfold word
  split
  · exact reads_longWord _
  · exact reads_shortWord _ _
  · exact .plain

/-! ## What is traced to the arguments -/

/-- A result is as the first says, or a fault as the second. -/
def Results {ε α : Type} (holds : α → Prop) (faulty : ε → Prop) : Except ε α → Prop
  | .ok a => holds a
  | .error e => faulty e

theorem Results.of_ok {ε α : Type} {holds : α → Prop} {faulty : ε → Prop} {result : Except ε α}
    {a : α} (h : Results holds faulty result) (ha : result = .ok a) : holds a := by
  rw [ha] at h
  exact h

theorem Results.of_error {ε α : Type} {holds : α → Prop} {faulty : ε → Prop}
    {result : Except ε α} {e : ε} (h : Results holds faulty result) (he : result = .error e) :
    faulty e := by
  rw [he] at h
  exact h

theorem Results.ok_or_error {ε α : Type} {holds : α → Prop} {faulty : ε → Prop}
    {result : Except ε α} (h : Results holds faulty result) :
    (∃ a, result = .ok a ∧ holds a) ∨ ∃ e, result = .error e ∧ faulty e := by
  cases result with
  | ok a => exact Or.inl ⟨a, rfl, h⟩
  | error e => exact Or.inr ⟨e, rfl, h⟩

/-- The texts of the fault that are not quoted are arguments. -/
inductive OptionFault.Traced (arguments : List Text) : OptionFault → Prop
  | ambiguous {argument : Text} {candidates : List OptionSpec} : argument ∈ arguments →
      (∀ spec ∈ candidates, spec ∈ options) → Traced arguments (.ambiguous argument candidates)
  | unusedValue {spec : OptionSpec} {value : Text} : spec ∈ options →
      Traced arguments (.unusedValue spec value)
  | missingValue {spec : OptionSpec} : spec ∈ options → Traced arguments (.missingValue spec)
  | unknownFormat {spec : OptionSpec} {word : Text} : spec ∈ options →
      Traced arguments (.unknownFormat spec word)
  | unrecognized {leftOver : List Text} : leftOver ⊆ arguments →
      Traced arguments (.unrecognized leftOver)
  | tooManyInputs {count : Nat} : Traced arguments (.tooManyInputs count)
  | nothingToLink : Traced arguments .nothingToLink

/-- The text of the word is an argument, or the end of one. -/
inductive Word.Traced (arguments : List Text) : Word → Prop
  | plain {text : Text} : text ∈ arguments → Traced arguments (.plain text)
  | terminator : ['-', '-'] ∈ arguments → Traced arguments .terminator
  | option {form : NameForm} {spec : OptionSpec} {attached : Option Text} : spec ∈ options →
      (∀ text, attached = some text → ∃ argument ∈ arguments, text <:+ argument) →
      Traced arguments (.option form spec attached)
  | unknown {text : Text} : text ∈ arguments → Traced arguments (.unknown text)

/-- The assignment is that of an option with the end of what is attached. -/
structure Assignment.Within (attached : Option Text) (a : Assignment) : Prop where
  spec : a.spec ∈ options
  attached : ∀ text, a.attached = some text → ∃ more, attached = some more ∧ text <:+ more

/-- The text is attached to an option as its value in one of the arguments. -/
def Attached (arguments : List Text) (text : Text) : Prop :=
  ∃ ws, words arguments = .ok ws ∧ ∃ form spec attached, Word.option form spec attached ∈ ws ∧
    ∃ c, cluster form spec attached = .ok c ∧ ∃ a, c.assignment = some a ∧ a.attached = some text

/-- A value is an argument or attached to an option in one; it is missing where it was dropped. -/
inductive Given.Traced (arguments : List Text) : Given Text → Prop
  | blank : Attached arguments ['-', '-'] → Traced arguments .blank
  | argument {text : Text} : text ∈ arguments → Traced arguments (.value text)
  | attached {text : Text} : Attached arguments text → Traced arguments (.value text)

/-- The values of the request are given by the arguments. -/
structure Request.Traced (arguments : List Text) (r : Request) : Prop where
  inputs : ∀ p ∈ r.inputs, ∃ text ∈ arguments, p = Path.ofText text
  output : ∀ path, r.output = some path →
    ∃ given : Given Text, given.Traced arguments ∧ path = given.map Path.ofText
  stylesheet : ∀ path, r.stylesheet = some path →
    ∃ given : Given Text, given.Traced arguments ∧ path = given.map Path.ofText
  outlineTitle : r.outlineTitle = .blank → Attached arguments ['-', '-']
  sourceTitle : r.sourceTitle = .blank → Attached arguments ['-', '-']

/-- What has been taken from the words is given by the arguments. -/
structure Progress.Traced (arguments : List Text) (p : Progress) : Prop where
  request : p.request.Traced arguments
  leftOver : p.leftOver ⊆ arguments

/-- Why the words are not taken to their end: help is asked for, or a fault tells of arguments. -/
inductive Halt.Traced (arguments : List Text) : Halt → Prop
  | help : Traced arguments .help
  | fault {fault : OptionFault} : fault.Traced arguments → Traced arguments (.fault fault)

section Steps

variable {arguments : List Text}

theorem traced_word {argument : Text} (h : argument ∈ arguments) :
    Results (Word.Traced arguments) (OptionFault.Traced arguments) (word argument) := by
  have hreads := reads_word argument
  cases hword : word argument with
  | error fault =>
      rw [hword] at hreads
      cases hreads with
      | ambiguous hcandidates => exact .ambiguous h hcandidates
  | ok w =>
      rw [hword] at hreads
      cases hreads with
      | plain => exact .plain h
      | unknown => exact .unknown h
      | option hspec hattached =>
          exact .option hspec fun text htext => ⟨argument, h, hattached text htext⟩

theorem traced_words {given : List Text} (h : given ⊆ arguments) :
    Results (fun ws => ∀ w ∈ ws, w.Traced arguments) (OptionFault.Traced arguments)
      (words given) := by
  induction given with
  | nil => exact fun _ hw => nomatch hw
  | cons argument given ih =>
      obtain ⟨hargument, hgiven⟩ := List.cons_subset.mp h
      rw [words]
      split
      -- behind the terminator everything is plain
      · rename_i hterminator
        refine List.forall_mem_cons.mpr ⟨.terminator (hterminator ▸ hargument), fun w hw => ?_⟩
        obtain ⟨text, htext, rfl⟩ := List.mem_map.mp hw
        exact .plain (hgiven htext)
      · rcases (traced_word hargument).ok_or_error with ⟨w, hword, hw⟩ | ⟨fault, hword, hfault⟩
        · rw [hword]
          dsimp only
          rcases (ih hgiven).ok_or_error with ⟨ws, hmore, hws⟩ | ⟨fault, hmore, hfault⟩
          · rw [hmore]
            exact List.forall_mem_cons.mpr ⟨hw, hws⟩
          · rw [hmore]
            exact hfault
        · rw [hword]
          exact hfault

/-- The parameter at the end of a cluster has the end of what is attached. -/
theorem within_clusterFrom {spec : OptionSpec} {flag : Flag} {text : Text}
    (hspec : spec ∈ options) :
    Results (fun c : Cluster => ∀ a, c.assignment = some a → a.Within (some text))
      (OptionFault.Traced arguments) (clusterFrom spec flag text) := by
  induction text generalizing spec flag with
  | nil => exact fun _ ha => nomatch ha
  | cons c rest ih =>
      rw [clusterFrom]
      split
      · exact .unusedValue hspec
      · rename_i next hnext
        have hmem : next ∈ options := List.mem_of_find?_eq_some hnext
        split
        -- a flag: what is attached to it is a cluster again
        · rename_i f _
          rcases (@ih next f hmem).ok_or_error with
            ⟨more, hfrom, hwithin⟩ | ⟨fault, hfrom, hfault⟩
          · rw [hfrom]
            intro a ha
            refine ⟨(hwithin a ha).spec, fun text htext => ⟨_, rfl, ?_⟩⟩
            obtain ⟨_, hrest, hsuffix⟩ := (hwithin a ha).attached text htext
            exact hsuffix.trans (Option.some.inj hrest ▸ List.suffix_cons c rest)
          · rw [hfrom]
            exact hfault
        -- a parameter has all that is left for its value
        · intro a ha
          obtain rfl := Option.some.inj ha
          refine ⟨hmem, fun text htext => ⟨_, rfl, ?_⟩⟩
          dsimp only at htext
          split_ifs at htext
          exact Option.some.inj htext ▸ List.suffix_cons c rest

theorem within_cluster {form : NameForm} {spec : OptionSpec} {attached : Option Text}
    (hspec : spec ∈ options) :
    Results (fun c : Cluster => ∀ a, c.assignment = some a → a.Within attached)
      (OptionFault.Traced arguments) (cluster form spec attached) := by
  unfold cluster
  split
  · intro a ha
    obtain rfl := Option.some.inj ha
    exact ⟨hspec, fun text htext => ⟨text, htext, List.suffix_refl text⟩⟩
  · exact fun _ ha => nomatch ha
  · exact within_clusterFrom hspec
  · exact .unusedValue hspec

theorem Word.Traced.cluster {form : NameForm} {spec : OptionSpec} {attached : Option Text}
    (h : (Word.option form spec attached).Traced arguments) :
    Results (fun c : Cluster => ∀ a, c.assignment = some a → a.Within attached)
      (OptionFault.Traced arguments) (cluster form spec attached) := by
  cases h with
  | option hspec _ => exact within_cluster hspec

theorem Attached.drawnFrom {text : Text} (h : Attached arguments text) :
    text.DrawnFrom arguments := by
  obtain ⟨ws, hwords, form, spec, attached, hmem, c, hcluster, a, ha, htext⟩ := h
  have hword := (traced_words (List.Subset.refl arguments)).of_ok hwords _ hmem
  have hwithin := hword.cluster.of_ok hcluster a ha
  obtain ⟨more, rfl, hsuffix⟩ := hwithin.attached text htext
  cases hword with
  | option _ hattached =>
      obtain ⟨argument, hargument, hmore⟩ := hattached more rfl
      exact (Text.drawnFrom_of_mem hargument).suffix (hsuffix.trans hmore)

theorem Given.traced_ofAttached {text : Text} (h : Attached arguments text) :
    (Given.ofAttached text).Traced arguments := by
  unfold ofAttached
  split_ifs with hdropped
  · exact .blank (hdropped ▸ h)
  · exact .attached h

/-- A path that is given has the characters of the arguments. -/
theorem Given.Traced.map_ofText {given : Given Text} (h : given.Traced arguments) :
    (given.map Path.ofText = .blank ∧ Attached arguments ['-', '-']) ∨
      ∃ p : Path, given.map Path.ofText = .value p ∧ p.DrawnFrom arguments := by
  cases h with
  | blank hdropped => exact Or.inl ⟨rfl, hdropped⟩
  | argument htext =>
      exact Or.inr ⟨_, rfl, Path.drawnFrom_ofText (Text.drawnFrom_of_mem htext)⟩
  | attached htext => exact Or.inr ⟨_, rfl, Path.drawnFrom_ofText htext.drawnFrom⟩

/-! ## Taking the words -/

theorem Request.Traced.setFlags {r : Request} (h : r.Traced arguments) (flags : List Flag) :
    Results (Request.Traced arguments) (Halt.Traced arguments) (r.setFlags flags) := by
  induction flags generalizing r with
  | nil => exact h
  | cons flag flags ih =>
      -- No flag is a value, so the request with it has the same values.
      cases flag with
      | help => exact .help
      | link => exact ih ⟨h.inputs, h.output, h.stylesheet, h.outlineTitle, h.sourceTitle⟩
      | verbose => exact ih ⟨h.inputs, h.output, h.stylesheet, h.outlineTitle, h.sourceTitle⟩
      | manual => exact ih ⟨h.inputs, h.output, h.stylesheet, h.outlineTitle, h.sourceTitle⟩

theorem Request.Traced.setParameter {r : Request} (h : r.Traced arguments) {spec : OptionSpec}
    (hspec : spec ∈ options) (parameter : Parameter) {given : Given Text}
    (hgiven : given.Traced arguments) :
    Results (Request.Traced arguments) (Halt.Traced arguments)
      (r.setParameter spec parameter given) := by
  have hpath : ∀ path, some (given.map Path.ofText) = some path →
      ∃ given : Given Text, given.Traced arguments ∧ path = given.map Path.ofText :=
    fun _ hpath => ⟨given, hgiven, (Option.some.inj hpath).symm⟩
  -- only an attached `--` makes a value blank
  have hblank : given = .blank → Attached arguments ['-', '-'] := by
    rintro rfl
    cases hgiven with
    | blank hattached => exact hattached
  cases parameter with
  | output => exact ⟨h.inputs, hpath, h.stylesheet, h.outlineTitle, h.sourceTitle⟩
  | stylesheet => exact ⟨h.inputs, h.output, hpath, h.outlineTitle, h.sourceTitle⟩
  | outlineTitle => exact ⟨h.inputs, h.output, h.stylesheet, hblank, h.sourceTitle⟩
  | sourceTitle => exact ⟨h.inputs, h.output, h.stylesheet, h.outlineTitle, hblank⟩
  | format =>
      unfold Request.setParameter
      dsimp only
      split
      · exact ⟨h.inputs, h.output, h.stylesheet, h.outlineTitle, h.sourceTitle⟩
      · split
        · exact ⟨h.inputs, h.output, h.stylesheet, h.outlineTitle, h.sourceTitle⟩
        · exact .fault (.unknownFormat hspec)

namespace Progress.Traced

variable {p : Progress}

theorem takePlain (h : p.Traced arguments) {text : Text} (htext : text ∈ arguments) :
    (p.takePlain text).Traced arguments := by
  unfold Progress.takePlain
  split_ifs
  · refine ⟨h.request, List.append_subset.mpr ⟨h.leftOver, ?_⟩⟩
    simpa using htext
  · obtain ⟨hinputs, houtput, hstylesheet, houtline, hsource⟩ := h.request
    refine ⟨⟨fun path hpath => ?_, houtput, hstylesheet, houtline, hsource⟩, h.leftOver⟩
    rcases List.mem_append.mp hpath with hbefore | hnew
    · exact hinputs path hbefore
    · exact ⟨text, htext, List.mem_singleton.mp hnew⟩

theorem takeTerminator (h : p.Traced arguments) (hterminator : ['-', '-'] ∈ arguments) :
    p.takeTerminator.Traced arguments := by
  unfold Progress.takeTerminator
  split_ifs
  · refine ⟨h.request, List.append_subset.mpr ⟨h.leftOver, ?_⟩⟩
    simpa using hterminator
  · exact ⟨h.request, h.leftOver⟩

theorem takeUnknown (h : p.Traced arguments) {text : Text} (htext : text ∈ arguments) :
    (p.takeUnknown text).Traced arguments := by
  refine ⟨h.request, List.append_subset.mpr ⟨h.leftOver, ?_⟩⟩
  simpa using htext

theorem takeFlags (h : p.Traced arguments) (flags : List Flag) :
    Results (Progress.Traced arguments) (Halt.Traced arguments) (p.takeFlags flags) := by
  unfold Progress.takeFlags
  rcases (h.request.setFlags flags).ok_or_error with ⟨r, hset, hr⟩ | ⟨halt, hset, hhalt⟩
  · rw [hset]
    exact ⟨hr, h.leftOver⟩
  · rw [hset]
    exact hhalt

theorem takeValue (h : p.Traced arguments) {a : Assignment} (ha : a.spec ∈ options)
    {given : Given Text} (hgiven : given.Traced arguments) :
    Results (Progress.Traced arguments) (Halt.Traced arguments) (p.takeValue a given) := by
  unfold Progress.takeValue
  rcases (h.request.setParameter ha a.parameter hgiven).ok_or_error with
    ⟨r, hset, hr⟩ | ⟨halt, hset, hhalt⟩
  · rw [hset]
    exact ⟨hr, h.leftOver⟩
  · rw [hset]
    exact hhalt

theorem takeAssignment (h : p.Traced arguments) (flags : List Flag) {a : Assignment}
    (ha : a.spec ∈ options) {given : Given Text} (hgiven : given.Traced arguments) :
    Results (Progress.Traced arguments) (Halt.Traced arguments)
      (p.takeAssignment flags a given) := by
  unfold Progress.takeAssignment
  rcases (h.takeFlags flags).ok_or_error with ⟨p', htaken, hp'⟩ | ⟨halt, htaken, hhalt⟩
  · rw [htaken]
    exact hp'.takeValue ha hgiven
  · rw [htaken]
    exact hhalt

end Progress.Traced

theorem traced_takeWords {all : List Word} (hall : words arguments = .ok all) {p : Progress}
    (hp : p.Traced arguments) {ws : List Word} (hws : ws ⊆ all) :
    Results (Progress.Traced arguments) (Halt.Traced arguments) (takeWords p ws) := by
  have htraced := (traced_words (List.Subset.refl arguments)).of_ok hall
  -- The words that are left are words of the command line, so a value attached to one of them is
  -- attached in it.
  fun_induction takeWords p ws with
  | case1 p => exact hp
  | case2 p text words ih =>
      obtain ⟨hword, hwords⟩ := List.cons_subset.mp hws
      cases htraced _ hword with
      | plain htext => exact ih (hp.takePlain htext) hwords
  | case3 p words ih =>
      obtain ⟨hword, hwords⟩ := List.cons_subset.mp hws
      cases htraced _ hword with
      | terminator hterminator => exact ih (hp.takeTerminator hterminator) hwords
  | case4 p text words ih =>
      obtain ⟨hword, hwords⟩ := List.cons_subset.mp hws
      cases htraced _ hword with
      | unknown htext => exact ih (hp.takeUnknown htext) hwords
  | case5 p form spec attached words fault hcluster =>
      exact .fault ((htraced _ (List.cons_subset.mp hws).1).cluster.of_error hcluster)
  | case6 p form spec attached words flags hcluster halt htake =>
      exact (hp.takeFlags flags).of_error htake
  | case7 p form spec attached words flags hcluster p' htake ih =>
      exact ih ((hp.takeFlags flags).of_ok htake) (List.cons_subset.mp hws).2
  | case8 p form spec attached flags a hcluster value words hattached halt htake =>
      have hword := (List.cons_subset.mp hws).1
      have ha := (htraced _ hword).cluster.of_ok hcluster a rfl
      have hgiven := Given.traced_ofAttached
        ⟨all, hall, form, spec, attached, hword, _, hcluster, a, rfl, hattached⟩
      exact (hp.takeAssignment flags ha.spec hgiven).of_error htake
  | case9 p form spec attached flags a hcluster value words hattached p' htake ih =>
      obtain ⟨hword, hwords⟩ := List.cons_subset.mp hws
      have ha := (htraced _ hword).cluster.of_ok hcluster a rfl
      have hgiven := Given.traced_ofAttached
        ⟨all, hall, form, spec, attached, hword, _, hcluster, a, rfl, hattached⟩
      exact ih ((hp.takeAssignment flags ha.spec hgiven).of_ok htake) hwords
  | case10 p form spec attached flags a hcluster value words hattached halt htake =>
      obtain ⟨hword, hwords⟩ := List.cons_subset.mp hws
      have ha := (htraced _ hword).cluster.of_ok hcluster a rfl
      cases htraced _ (List.cons_subset.mp hwords).1 with
      | plain hvalue => exact (hp.takeAssignment flags ha.spec (.argument hvalue)).of_error htake
  | case11 p form spec attached flags a hcluster value words hattached p' htake ih =>
      obtain ⟨hword, hwords⟩ := List.cons_subset.mp hws
      obtain ⟨hplain, hmore⟩ := List.cons_subset.mp hwords
      have ha := (htraced _ hword).cluster.of_ok hcluster a rfl
      cases htraced _ hplain with
      | plain hvalue =>
          exact ih ((hp.takeAssignment flags ha.spec (.argument hvalue)).of_ok htake) hmore
  | case12 p form spec attached words flags a hcluster hattached hnone =>
      have ha := (htraced _ (List.cons_subset.mp hws).1).cluster.of_ok hcluster a rfl
      exact .fault (.missingValue ha.spec)

/-- **What a command line comes to is traced to its arguments.** -/
theorem traced_ofArguments (arguments : List Text) :
    Results (Request.Traced arguments) (Halt.Traced arguments)
      (Request.ofArguments arguments) := by
  have hstart : Progress.Traced arguments {} := by
    refine ⟨⟨?_, ?_, ?_, ?_, ?_⟩, List.nil_subset _⟩ <;> simp
  unfold Request.ofArguments
  rcases (traced_words (List.Subset.refl arguments)).ok_or_error with
    ⟨ws, hwords, -⟩ | ⟨fault, hwords, hfault⟩
  · rw [hwords]
    dsimp only
    rcases (traced_takeWords hwords hstart (List.Subset.refl ws)).ok_or_error with
      ⟨p, htake, hp⟩ | ⟨halt, htake, hhalt⟩
    · rw [htake]
      dsimp only
      split_ifs
      · exact hp.request
      · exact .fault (.unrecognized hp.leftOver)
    · rw [htake]
      exact hhalt
  · rw [hwords]
    exact .fault hfault

end Steps

/-! ## Wordings -/

theorem visible_displayName : ∀ spec ∈ options, spec.displayName.Visible := by
  decide +kernel

theorem visible_atOption {spec : OptionSpec} (hspec : spec ∈ options) {reason : Text}
    (h : reason.Visible) : (OptionFault.atOption spec reason).Visible := by
  unfold OptionFault.atOption
  simp only [Text.visible_append, h, visible_displayName spec hspec, and_true]
  decide

/-- **What is said of a command line has printable characters and those of its arguments.** -/
theorem OptionFault.Traced.drawnFrom_message {arguments : List Text} {fault : OptionFault}
    (h : fault.Traced arguments) : fault.message.DrawnFrom arguments := by
  cases h with
  | @ambiguous argument candidates hargument hcandidates =>
      have hlong : ∀ spec ∈ options, spec.long.Visible := by decide +kernel
      -- the argument is the user's own, the names behind it are those of the table
      refine Text.drawnFrom_append.mpr ⟨Text.drawnFrom_append.mpr
        ⟨Text.drawnFrom_append.mpr ⟨?_, Text.drawnFrom_of_mem hargument⟩, ?_⟩, ?_⟩
      · exact Text.Visible.drawnFrom (by decide) _
      · exact Text.Visible.drawnFrom (by decide) _
      · refine Text.drawnFrom_joined (by decide) fun name hname => ?_
        obtain ⟨spec, hspec, rfl⟩ := List.mem_map.mp hname
        exact (hlong spec (hcandidates spec hspec)).drawnFrom _
  | unusedValue hspec =>
      refine (visible_atOption hspec (Text.visible_append.mpr ⟨?_, ?_⟩)).drawnFrom _
      · decide
      · exact Text.visible_quoted _
  | missingValue hspec => exact (visible_atOption hspec (by decide)).drawnFrom _
  | unknownFormat hspec =>
      refine (visible_atOption hspec ?_).drawnFrom _
      simp only [Text.visible_append, Text.visible_quoted, and_true]
      decide
  | unrecognized hleftOver =>
      refine Text.drawnFrom_append.mpr ⟨Text.Visible.drawnFrom (by decide) _, ?_⟩
      exact Text.drawnFrom_joined (by decide) fun text htext =>
        Text.drawnFrom_of_mem (hleftOver htext)
  | @tooManyInputs count =>
      refine Text.Visible.drawnFrom (Text.visible_append.mpr ⟨by decide, ?_⟩) _
      exact Text.visible_ofInt count
  | nothingToLink => exact Text.Visible.drawnFrom (by decide) _

end Command

end Yeast
