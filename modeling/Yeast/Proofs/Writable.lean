import Yeast.Proofs.System

set_option autoImplicit false

/-! # Paths that can be written

Whether a path can be written depends on the files of a machine and on nothing else, least of all
on what is to be written there (`Machine.exists_writeFileAndParents`). What has been written is then
read under the same path. The reason is that making directories and writing work on the files
alone (`Machine.FilesOnly`), and that a file can be written whatever its content is to be. Which
paths these are is said by `FileTree.writable_iff_admits`.
-/

namespace Yeast

namespace FileTree

/-- What has been written is read under the same path. -/
theorem read_of_write {tree tree' : FileTree} {p : Path} {bytes : Bytes}
    (h : tree.write p bytes = .ok tree') : tree'.read p = .ok bytes := by
  obtain ⟨location, hlocate, hroot, hfree, rfl⟩ := exists_location_of_write h
  rw [read, (keeps_insert bytes hroot hfree).locate hlocate]
  dsimp only
  rw [find?_insert _ _ hroot, if_pos rfl]

/-- A file that can be written may get any content. -/
theorem exists_write {tree tree' : FileTree} {p : Path} {bytes : Bytes}
    (h : tree.write p bytes = .ok tree') (bytes' : Bytes) :
    ∃ tree'', tree.write p bytes' = .ok tree'' := by
  obtain ⟨location, hlocate, hname, hfree, -⟩ := write_eq_ok_iff.mp h
  exact ⟨_, write_eq_ok_iff.mpr ⟨location, hlocate, hname, hfree, rfl⟩⟩

end FileTree

namespace Machine

variable {α β : Type}

/-- The work is done on the files alone, whatever else there is in a machine. -/
def FilesOnly (x : StateM Machine α) : Prop :=
  ∃ act : FileTree → α × FileTree, ∀ machine,
    x.run machine = ((act machine.files).1, { machine with files := (act machine.files).2 })

namespace FilesOnly

theorem pure (a : α) : FilesOnly (Pure.pure a) := ⟨fun files => (a, files), fun _ => rfl⟩

theorem bind {x : StateM Machine α} {f : α → StateM Machine β} (hx : FilesOnly x)
    (hf : ∀ a, FilesOnly (f a)) : FilesOnly (x >>= f) := by
  obtain ⟨act, hact⟩ := hx
  choose more hmore using hf
  refine ⟨fun files => more (act files).1 (act files).2, fun machine => ?_⟩
  rw [View.run_bind_eq (hact machine), hmore]

theorem isDirectory (p : Path) : FilesOnly (Host.isDirectory p) :=
  ⟨fun files => (files.isDirectory p, files), fun _ => rfl⟩

/-- Files as they are replaced, if there is no fault. -/
theorem updateFiles (change : FileTree → Except FileFault FileTree) :
    FilesOnly fun machine => machine.updateFiles (change machine.files) := by
  refine ⟨fun files =>
    let updated := Machine.updateFiles { files } (change files)
    (updated.1, updated.2.files), fun machine => ?_⟩
  show machine.updateFiles (change machine.files) = _
  dsimp only
  cases change machine.files <;> rfl

theorem makeDirectory (p : Path) : FilesOnly (Host.makeDirectory p) :=
  updateFiles fun files => files.makeDirectory p

theorem writeFile (p : Path) (content : Bytes) : FilesOnly (Host.writeFile p content) :=
  updateFiles fun files => files.write p content

theorem ensureDirectories (root : PathRoot) (names : List Text) :
    FilesOnly (Host.ensureDirectories root names) := by
  have hfiles : Host.Inherited (m := StateM Machine) fun _ x => FilesOnly x :=
    { pure := pure, bind := bind, isDirectory := isDirectory, makeDirectory := makeDirectory }
  exact hfiles.ensureDirectories root names

end FilesOnly

end Machine

/-- A write succeeds if the directories can be made and the file can be written then. -/
theorem Machine.writeFileAndParents_eq_ok_iff {machine machine' : Machine} {p : Path}
    {content : Bytes} :
    (Host.writeFileAndParents p content : StateM Machine _).run machine = (.ok (), machine') ↔
      ∃ between files,
        (Host.ensureDirectories p.root p.parent.names.reverse : StateM Machine _).run machine =
          (.ok (), between) ∧
        between.files.write p content = .ok files ∧ machine' = { between with files } := by
  rw [Host.writeFileAndParents]
  constructor
  · intro h
    rcases hdirectories :
        (Host.ensureDirectories p.root p.parent.names.reverse : StateM Machine _).run machine
      with ⟨ensured, between⟩
    rw [View.run_bind_eq hdirectories] at h
    cases ensured with
    | error fault => exact absurd (congrArg Prod.fst h) (by simp)
    | ok _ =>
        have hwrite : between.updateFiles (between.files.write p content) = (.ok (), machine') := h
        cases hfiles : between.files.write p content with
        | error fault => simp [hfiles, updateFiles] at hwrite
        | ok files =>
            rw [hfiles, updateFiles, Prod.mk.injEq] at hwrite
            exact ⟨between, files, rfl, hfiles, hwrite.2.symm⟩
  · rintro ⟨between, files, hdirectories, hfiles, rfl⟩
    rw [View.run_bind_eq hdirectories]
    show between.updateFiles (between.files.write p content) = _
    rw [hfiles, updateFiles]

/-- Something can be written under the path. -/
def FileTree.Writable (files : FileTree) (p : Path) : Prop :=
  ∃ content machine, (Host.writeFileAndParents p content : StateM Machine _).run { files } =
    (.ok (), machine)

/-- **What can be written under a path that is writable is anything, on any machine with these
files, and it is read there again.** -/
theorem Machine.exists_writeFileAndParents {machine : Machine} {p : Path}
    (h : machine.files.Writable p) (content : Bytes) :
    ∃ files, (Host.writeFileAndParents p content : StateM Machine _).run machine =
      (.ok (), { machine with files }) ∧ files.read p = .ok content := by
  obtain ⟨content', written, hrun⟩ := h
  obtain ⟨between, files', hdirectories, hwrite, -⟩ := writeFileAndParents_eq_ok_iff.mp hrun
  -- The directories are made as they are for the content that is known to be written.
  obtain ⟨act, hact⟩ := FilesOnly.ensureDirectories p.root p.parent.names.reverse
  rw [hact, Prod.mk.injEq] at hdirectories
  obtain ⟨hensured, rfl⟩ := hdirectories
  dsimp only at hensured hwrite
  obtain ⟨files, hfiles⟩ := FileTree.exists_write hwrite content
  refine ⟨files, writeFileAndParents_eq_ok_iff.mpr ?_, FileTree.read_of_write hfiles⟩
  refine ⟨{ machine with files := (act machine.files).2 }, files, ?_, hfiles, rfl⟩
  rw [hact, hensured]

end Yeast
