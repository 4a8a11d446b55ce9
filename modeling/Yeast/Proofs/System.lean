import Mathlib.Tactic.Common
import Yeast.Files.Access

set_option autoImplicit false

/-! # Systems

What can be looked at in a system is a view of its states: what the files hold, which file a path
names, what stands on the standard input and what has been written to the standard output. A view
is lawful if reading and reporting change nothing of it, if making a directory changes no file, and
if opening a path for writing either fails without effect or the write completes
(`View.Lawful`). Machines have a lawful view (`Machine.lawful_view`). Behind a write the path leads
to the file that was written, since no way through the tree is cut off by it
(`FileTree.Keeps.follow`).
-/

namespace Yeast

/-- What can be looked at in the states `σ` of a system with the files `φ`. -/
structure View (σ φ : Type) where
  /-- What a file holds, if it is there. -/
  content : σ → φ → Option Bytes
  /-- The file that a path names, which need not be there. -/
  named? : σ → Path → Option φ
  /-- What has not been read of the standard input. -/
  input : σ → Bytes
  /-- What has been written to the standard output. -/
  output : σ → Text

namespace View

variable {σ φ : Type} (v : View σ φ)

/-- The path names a file, and that holds the bytes. -/
def Holds (s : σ) (p : Path) (bytes : Bytes) : Prop :=
  ∃ f, v.named? s p = some f ∧ v.content s f = some bytes

/-- No file has changed, and nothing has been written to the output. -/
structure Kept (s s' : σ) : Prop where
  content : v.content s' = v.content s
  output : v.output s' = v.output s

/-- Besides, all paths lead where they have led. -/
structure Same (s s' : σ) : Prop extends v.Kept s s' where
  named : v.named? s' = v.named? s

/-- The file that the path leads to holds the bytes now, and nothing else has changed. -/
structure Written (p : Path) (bytes : Bytes) (s s' : σ) : Prop where
  file : ∃ f, v.named? s' p = some f ∧ v.content s' f = some bytes ∧
    ∀ g, g ≠ f → v.content s' g = v.content s g
  output : v.output s' = v.output s

/-- The text has been written to the output, and no file has changed. -/
structure Printed (text : Text) (s s' : σ) : Prop where
  content : v.content s' = v.content s
  output : v.output s' = v.output s ++ text

/-- What a system does when the command asks for it. -/
structure Lawful [Host (StateM σ)] : Prop where
  readFile : ∀ p s bytes, ((Host.readFile p : StateM σ _).run s).1 = .ok bytes → v.Holds s p bytes
  readFile_same : ∀ p s, v.Same s ((Host.readFile p : StateM σ _).run s).2
  isDirectory_same : ∀ p s, v.Same s ((Host.isDirectory p : StateM σ _).run s).2
  makeDirectory_kept : ∀ p s, v.Kept s ((Host.makeDirectory p : StateM σ _).run s).2
  /-- A path that cannot be opened for writing is left alone. -/
  writeFile_error : ∀ p bytes s fault, ((Host.writeFile p bytes : StateM σ _).run s).1 =
    .error fault → v.Kept s ((Host.writeFile p bytes : StateM σ _).run s).2
  /-- Once a path is open, all is written. -/
  writeFile_ok : ∀ p bytes s, ((Host.writeFile p bytes : StateM σ _).run s).1 = .ok () →
    v.Written p bytes s ((Host.writeFile p bytes : StateM σ _).run s).2
  readInput : ∀ s, ((Host.readInput : StateM σ _).run s).1 = v.input s
  readInput_same : ∀ s, v.Same s ((Host.readInput : StateM σ _).run s).2
  print : ∀ text s, v.Printed text s ((Host.print text : StateM σ _).run s).2
  report_same : ∀ text s, v.Same s ((Host.report text : StateM σ _).run s).2
  timeOfDay_same : ∀ s, v.Same s ((Host.timeOfDay : StateM σ _).run s).2

variable {v}

theorem Kept.refl (s : σ) : v.Kept s s := ⟨rfl, rfl⟩

theorem Kept.trans {s t u : σ} (h : v.Kept s t) (h' : v.Kept t u) : v.Kept s u :=
  ⟨h'.content.trans h.content, h'.output.trans h.output⟩

theorem Same.refl (s : σ) : v.Same s s := ⟨.refl s, rfl⟩

theorem Same.trans {s t u : σ} (h : v.Same s t) (h' : v.Same t u) : v.Same s u :=
  ⟨h.toKept.trans h'.toKept, h'.named.trans h.named⟩

theorem Same.holds_iff {s s' : σ} (h : v.Same s s') (p : Path) (bytes : Bytes) :
    v.Holds s' p bytes ↔ v.Holds s p bytes := by
  unfold Holds
  rw [h.content, h.named]

/-- What has changed nothing may come before a write. -/
theorem Written.of_kept {s t u : σ} {p : Path} {bytes : Bytes} (h : v.Kept s t)
    (h' : v.Written p bytes t u) : v.Written p bytes s u := by
  obtain ⟨f, hnamed, hcontent, hothers⟩ := h'.file
  refine ⟨⟨f, hnamed, hcontent, fun g hg => ?_⟩, h'.output.trans h.output⟩
  rw [hothers g hg, h.content]

/-- What changes nothing may come behind a write. -/
theorem Written.same {s t u : σ} {p : Path} {bytes : Bytes} (h : v.Written p bytes s t)
    (h' : v.Same t u) : v.Written p bytes s u := by
  obtain ⟨f, hnamed, hcontent, hothers⟩ := h.file
  refine ⟨⟨f, ?_, ?_, fun g hg => ?_⟩, h'.output.trans h.output⟩
  · rw [h'.named, hnamed]
  · rw [h'.content, hcontent]
  · rw [h'.content, hothers g hg]

theorem Printed.of_kept {s t u : σ} {text : Text} (h : v.Kept s t) (h' : v.Printed text t u) :
    v.Printed text s u :=
  ⟨h'.content.trans h.content, by rw [h'.output, h.output]⟩

theorem Printed.same {s t u : σ} {text : Text} (h : v.Printed text s t) (h' : v.Same t u) :
    v.Printed text s u :=
  ⟨h'.content.trans h.content, h'.output.trans h.output⟩

theorem run_bind_eq {α β : Type} {x : StateM σ α} {f : α → StateM σ β} {s t : σ} {a : α}
    (h : x.run s = (a, t)) : (x >>= f).run s = (f a).run t := by
  rw [StateT.run_bind, h]
  rfl

end View

/-! ## Directories on the way -/

/-- A property of work that work in order inherits from its parts, and that looking for a directory
and making one have. -/
structure Host.Inherited {m : Type → Type} [Monad m] [Host m] (P : ∀ α : Type, m α → Prop) :
    Prop where
  pure : ∀ {α : Type} (a : α), P α (Pure.pure a)
  bind : ∀ {α β : Type} {x : m α} {f : α → m β}, P α x → (∀ a, P β (f a)) → P β (x >>= f)
  isDirectory : ∀ p, P _ (Host.isDirectory p)
  makeDirectory : ∀ p, P _ (Host.makeDirectory p)

namespace Host.Inherited

variable {m : Type → Type} [Monad m] [Host m] {P : ∀ α : Type, m α → Prop}

theorem acceptDirectory (h : Inherited P) (p : Path) (fault : FileFault) :
    P _ (Host.acceptDirectory p fault) := by
  refine h.bind (h.isDirectory p) fun there => ?_
  cases there <;> exact h.pure _

theorem ensureDirectory (h : Inherited P) (p : Path) : P _ (Host.ensureDirectory p) := by
  refine h.bind (h.makeDirectory p) fun made => ?_
  cases made with
  | ok _ => exact h.pure _
  | error fault =>
      cases fault with
      | noEntry => exact h.pure _
      | _ => exact h.acceptDirectory p _

/-- Making all directories on the way has the property, too. -/
theorem ensureDirectories (h : Inherited P) (root : PathRoot) (names : List Text) :
    P _ (Host.ensureDirectories root names) := by
  induction names with
  | nil => exact h.ensureDirectory _
  | cons name outer ih =>
      refine h.bind (h.makeDirectory _) fun made => ?_
      cases made with
      | ok _ => exact h.pure _
      | error fault =>
          cases fault with
          | noEntry =>
              refine h.bind ih fun ensured => ?_
              cases ensured with
              | ok _ => exact h.ensureDirectory _
              | error _ => exact h.pure _
          | _ => exact h.acceptDirectory _ _

end Host.Inherited

namespace View

variable {σ φ : Type} {v : View σ φ}

section Directories

variable [Host (StateM σ)]

namespace Lawful

/-- Making the directories on the way to a file changes no file. -/
theorem ensureDirectories_kept (h : v.Lawful) (root : PathRoot) (names : List Text) (s : σ) :
    v.Kept s ((Host.ensureDirectories root names : StateM σ _).run s).2 := by
  have hkept : Host.Inherited (m := StateM σ) fun _ x => ∀ s, v.Kept s (x.run s).2 :=
    { pure := fun _ s => .refl s
      bind := fun {_ _ x _} hx hf s => (hx s).trans (hf (x.run s).1 (x.run s).2)
      isDirectory := fun p s => (h.isDirectory_same p s).toKept
      makeDirectory := h.makeDirectory_kept }
  exact hkept.ensureDirectories root names s

/-- **Whoever writes a file changes that file alone, or nothing.** -/
theorem writeFileAndParents (h : v.Lawful) (p : Path) (bytes : Bytes) (s : σ) :
    (∃ t, (Host.writeFileAndParents p bytes : StateM σ _).run s = (.ok (), t) ∧
        v.Written p bytes s t) ∨
      ∃ fault t, (Host.writeFileAndParents p bytes : StateM σ _).run s = (.error fault, t) ∧
        v.Kept s t := by
  have hensured := h.ensureDirectories_kept p.root p.parent.names.reverse s
  rcases hdirectories : (Host.ensureDirectories p.root p.parent.names.reverse : StateM σ _).run s
    with ⟨ensured, t⟩
  rw [hdirectories] at hensured
  rw [Host.writeFileAndParents, run_bind_eq hdirectories]
  cases ensured with
  | error fault => exact Or.inr ⟨fault, t, rfl, hensured⟩
  | ok _ =>
      have herror := h.writeFile_error p bytes t
      have hok := h.writeFile_ok p bytes t
      show (∃ u, (Host.writeFile p bytes : StateM σ _).run t = _ ∧ _) ∨ ∃ fault u,
        (Host.writeFile p bytes : StateM σ _).run t = _ ∧ _
      rcases hwrite : (Host.writeFile p bytes : StateM σ _).run t with ⟨written, u⟩
      rw [hwrite] at herror hok
      cases written with
      | error fault => exact Or.inr ⟨fault, u, rfl, hensured.trans (herror fault rfl)⟩
      | ok _ => exact Or.inl ⟨u, rfl, (hok rfl).of_kept hensured⟩

end Lawful

end Directories

end View

/-! ## Machines -/

namespace FileTree

/-- The root is a directory. -/
theorem ne_nil_of_find?_ne {tree : FileTree} {location : Location}
    (h : tree.find? location ≠ some .directory) : location ≠ [] := by
  rintro rfl
  exact h (by simp [find?])

/-- What is read is what the path leads to. -/
theorem exists_location_of_read {tree : FileTree} {p : Path} {bytes : Bytes}
    (h : tree.read p = .ok bytes) :
    ∃ location, tree.locate p = .ok location ∧ tree.find? location = some (.file bytes) := by
  unfold read at h
  cases hlocate : tree.locate p with
  | error fault => simp [hlocate] at h
  | ok location =>
      rw [hlocate] at h
      dsimp only at h
      split at h
      · rename_i content hfind
        obtain rfl := Except.ok.inj h
        exact ⟨location, rfl, hfind⟩
      · simp at h
      · simp at h

theorem write_eq_ok_iff {tree tree' : FileTree} {p : Path} {content : Bytes} :
    tree.write p content = .ok tree' ↔
      ∃ location, tree.locate p = .ok location ∧ endsInName p = true ∧
        tree.find? location ≠ some .directory ∧ tree' = tree.insert location (.file content) := by
  rw [write]
  cases tree.locate p with
  | error fault => simp
  | ok location =>
      by_cases hfree : endsInName p = true ∧ tree.find? location ≠ some .directory
      · simp [hfree.1, hfree.2, eq_comm (a := tree')]
      · have hrefused : (!endsInName p || decide (tree.find? location = some .directory)) := by
          rw [Bool.or_eq_true, Bool.not_eq_true', decide_eq_true_eq]
          rwa [not_and_or, Bool.not_eq_true, not_not] at hfree
        simp only [hrefused, if_true]
        refine iff_of_false (by simp) ?_
        rintro ⟨_, hlocation, hname, hdirectory, -⟩
        obtain rfl := Except.ok.inj hlocation
        exact hfree ⟨hname, hdirectory⟩

/-- A file is written where the path leads, which is no directory and not the root. -/
theorem exists_location_of_write {tree tree' : FileTree} {p : Path} {bytes : Bytes}
    (h : tree.write p bytes = .ok tree') :
    ∃ location, tree.locate p = .ok location ∧ location ≠ [] ∧
      tree.find? location ≠ some .directory ∧ tree' = tree.insert location (.file bytes) := by
  obtain ⟨location, hlocate, -, hfree, htree⟩ := write_eq_ok_iff.mp h
  exact ⟨location, hlocate, ne_nil_of_find?_ne hfree, hfree, htree⟩

/-- A directory is made under a name where nothing has been. -/
theorem makeDirectory_of_locate {tree : FileTree} {p : Path} {location : Location}
    (h : tree.locate p = .ok location) :
    tree.makeDirectory p =
      if tree.find? location = none ∧ endsInName p = true then
        .ok (tree.insert location .directory)
      else .error .occupied := by
  rw [makeDirectory, h]
  by_cases hnone : tree.find? location = none
  · cases endsInName p <;> simp [hnone]
  · simp [hnone, Option.isSome_iff_ne_none]

theorem exists_location_of_makeDirectory {tree tree' : FileTree} {p : Path}
    (h : tree.makeDirectory p = .ok tree') :
    ∃ location, tree.find? location = none ∧ tree' = tree.insert location .directory := by
  cases hlocate : tree.locate p with
  | error fault => simp [makeDirectory, hlocate] at h
  | ok location =>
      rw [makeDirectory_of_locate hlocate] at h
      split_ifs at h with hnew
      exact ⟨location, hnew.1, (Except.ok.inj h).symm⟩

theorem isDirectory_of_locate {tree : FileTree} {p : Path} {location : Location}
    (h : tree.locate p = .ok location) :
    tree.isDirectory p = decide (tree.find? location = some .directory) := by
  rw [isDirectory, h]

/-- The directories of the first tree are directories in the second, and where something stands in
the first something stands in the second. -/
structure Keeps (tree tree' : FileTree) : Prop where
  directory : ∀ location, tree.find? location = some .directory →
    tree'.find? location = some .directory
  taken : ∀ location, (tree.find? location).isSome → (tree'.find? location).isSome

/-- A file put where no directory stands keeps the tree. -/
theorem keeps_insert {tree : FileTree} {target : Location} (content : Bytes) (hroot : target ≠ [])
    (htarget : tree.find? target ≠ some .directory) :
    tree.Keeps (tree.insert target (.file content)) := by
  constructor
  · intro location hdirectory
    have hne : location ≠ target := by
      rintro rfl
      exact htarget hdirectory
    rw [find?_insert tree _ hroot, if_neg hne, hdirectory]
  · intro location htaken
    rw [find?_insert tree _ hroot]
    split_ifs
    · rfl
    · exact htaken

namespace Keeps

variable {tree tree' : FileTree}

theorem enter (h : tree.Keeps tree') {location reached : Location} {name : Text}
    (henter : tree.enter location name = .ok reached) :
    tree'.enter location name = .ok reached := by
  unfold FileTree.enter at henter ⊢
  by_cases hdirectory : tree.find? location = some .directory
  · rw [if_neg (not_not_intro hdirectory)] at henter
    rwa [if_neg (not_not_intro (h.directory location hdirectory))]
  · simp [hdirectory] at henter

/-- A way that leads somewhere is not cut off. -/
theorem follow (h : tree.Keeps tree') {location target : Location} {names : List Text}
    (hfollow : tree.follow location names = .ok target) :
    tree'.follow location names = .ok target := by
  induction names generalizing location with
  | nil => exact hfollow
  | cons name names ih =>
      rw [FileTree.follow] at hfollow ⊢
      cases henter : tree.enter location name with
      | error fault => simp [henter] at hfollow
      | ok reached =>
          rw [henter] at hfollow
          rw [h.enter henter]
          dsimp only at hfollow ⊢
          by_cases hlast : names.isEmpty = true
          · rw [if_pos hlast] at hfollow ⊢
            exact hfollow
          · rw [if_neg hlast] at hfollow ⊢
            cases hfind : tree.find? reached with
            | none => simp [hfind] at hfollow
            | some node =>
                -- what was there still is, so the walk ends no earlier than before
                have htaken := h.taken reached (by rw [hfind]; rfl)
                rw [hfind, if_neg (by simp)] at hfollow
                rw [if_neg (by simpa using Option.isSome_iff_ne_none.mp htaken)]
                exact ih hfollow

theorem locate (h : tree.Keeps tree') {p : Path} {target : Location}
    (hlocate : tree.locate p = .ok target) : tree'.locate p = .ok target := by
  unfold FileTree.locate at hlocate ⊢
  split at hlocate
  · simp at hlocate
  · rename_i hnull
    split at hlocate
    · simp at hlocate
    · rename_i hlength
      rw [if_neg hnull, if_neg hlength]
      exact h.follow hlocate

end Keeps

end FileTree

namespace Machine

/-- What can be looked at in a machine: its files by their locations. -/
def view : View Machine Location where
  content := fun machine location =>
    match machine.files.find? location with
    | some (.file content) => some content
    | _ => none
  named? := fun machine p =>
    match machine.files.locate p with
    | .ok location => some location
    | .error _ => none
  input := Machine.input
  output := Machine.output

/-- Putting a directory where nothing stands changes no file. -/
theorem content_insert_directory {machine : Machine} {location : Location}
    (h : machine.files.find? location = none) :
    view.content { machine with files := machine.files.insert location .directory } =
      view.content machine := by
  have hfree : machine.files.find? location ≠ some .directory := by simp [h]
  have hroot := FileTree.ne_nil_of_find?_ne hfree
  funext other
  simp only [view, FileTree.find?_insert _ _ hroot]
  by_cases hother : other = location
  · rw [if_pos hother, hother, h]
  · rw [if_neg hother]

/-- What a file holds can be looked at where the path leads. -/
theorem holds_of_read {machine : Machine} {p : Path} {bytes : Bytes}
    (h : machine.files.read p = .ok bytes) : view.Holds machine p bytes := by
  obtain ⟨location, hlocate, hfind⟩ := FileTree.exists_location_of_read h
  exact ⟨location, by simp only [view, hlocate], by simp only [view, hfind]⟩

theorem written_of_write {machine : Machine} {files : FileTree} {p : Path} {bytes : Bytes}
    (h : machine.files.write p bytes = .ok files) :
    view.Written p bytes machine { machine with files } := by
  obtain ⟨location, hlocate, hroot, hfree, rfl⟩ := FileTree.exists_location_of_write h
  refine ⟨⟨location, ?_, ?_, fun other hother => ?_⟩, rfl⟩
  · simp only [view, (FileTree.keeps_insert bytes hroot hfree).locate hlocate]
  · simp only [view, FileTree.find?_insert _ _ hroot, if_true]
  · simp only [view, FileTree.find?_insert _ _ hroot, if_neg hother]

/-- **What can be looked at in a machine obeys the laws.** -/
theorem lawful_view : view.Lawful where
  readFile := fun _ _ _ h => holds_of_read h
  readFile_same := fun _ machine => .refl machine
  isDirectory_same := fun _ machine => .refl machine
  makeDirectory_kept := by
    intro p machine
    show view.Kept machine (machine.updateFiles (machine.files.makeDirectory p)).2
    cases hfiles : machine.files.makeDirectory p with
    | error fault => exact .refl machine
    | ok files =>
        obtain ⟨location, hfree, rfl⟩ := FileTree.exists_location_of_makeDirectory hfiles
        exact ⟨content_insert_directory hfree, rfl⟩
  writeFile_error := by
    intro p bytes machine fault h
    have hwrite : (machine.updateFiles (machine.files.write p bytes)).1 = .error fault := h
    show view.Kept machine (machine.updateFiles (machine.files.write p bytes)).2
    cases hfiles : machine.files.write p bytes with
    | error fault => exact .refl machine
    | ok files => simp [hfiles, updateFiles] at hwrite
  writeFile_ok := by
    intro p bytes machine h
    have hwrite : (machine.updateFiles (machine.files.write p bytes)).1 = .ok () := h
    show view.Written p bytes machine (machine.updateFiles (machine.files.write p bytes)).2
    cases hfiles : machine.files.write p bytes with
    | error fault => simp [hfiles, updateFiles] at hwrite
    | ok files => exact written_of_write hfiles
  readInput := fun _ => rfl
  readInput_same := fun machine => ⟨⟨rfl, rfl⟩, rfl⟩
  print := fun _ _ => ⟨rfl, rfl⟩
  report_same := fun _ _ => ⟨⟨rfl, rfl⟩, rfl⟩
  timeOfDay_same := fun machine => .refl machine

end Machine

end Yeast
