import Yeast.Proofs.Encoding
import Yeast.Proofs.Runs
import Yeast.Proofs.Writable

set_option autoImplicit false

/-! # A text that has been written

A text that is written under a path is read again under this path, whatever its characters are, and
no other file notices (`Machine.stored_of_writable`). Two things have to come together. The bytes of
a text are well-formed, so whoever guesses their encoding never gets beyond UTF-8. And what is made
on the way to the file are directories where nothing has stood (`FileTree.Grown`), so no path that
has led somewhere leads elsewhere behind the write.
-/

namespace Yeast

open Command

namespace FileTree

/-! ## Trees that have grown -/

/-- At the location stands what has stood there, or a directory if nothing has. -/
def GrownAt (tree tree' : FileTree) (location : Location) : Prop :=
  tree'.find? location = tree.find? location ∨
    tree.find? location = none ∧ tree'.find? location = some .directory

/-- Directories have been made where nothing stood, and nothing else has changed. -/
def Grown (tree tree' : FileTree) : Prop := ∀ location, tree.GrownAt tree' location

variable {tree tree' tree'' : FileTree}

theorem GrownAt.find? {location : Location} (h : tree.GrownAt tree' location) {node : FileNode}
    (hnode : tree.find? location = some node) : tree'.find? location = some node := by
  rcases h with hsame | ⟨hfree, -⟩
  · rw [hsame, hnode]
  · simp [hnode] at hfree

theorem Grown.refl (tree : FileTree) : tree.Grown tree := fun _ => Or.inl rfl

theorem Grown.trans (h : tree.Grown tree') (h' : tree'.Grown tree'') : tree.Grown tree'' := by
  intro location
  rcases h' location with hsame' | ⟨hfree', hmade'⟩
  · rw [GrownAt, hsame']
    exact h location
  · rcases h location with hsame | ⟨-, hmade⟩
    · exact Or.inr ⟨hsame.symm.trans hfree', hmade'⟩
    · -- What has been made first is not made again.
      simp [hmade] at hfree'

theorem grown_of_makeDirectory {p : Path} (h : tree.makeDirectory p = .ok tree') :
    tree.Grown tree' := by
  obtain ⟨made, hfree, rfl⟩ := exists_location_of_makeDirectory h
  have hdirectory : tree.find? made ≠ some .directory := by simp [hfree]
  have hroot := ne_nil_of_find?_ne hdirectory
  intro location
  rw [GrownAt, find?_insert tree _ hroot]
  split_ifs with hmade
  · exact Or.inr ⟨hmade ▸ hfree, rfl⟩
  · exact Or.inl rfl

/-! ## Trees behind a write -/

/-- There is a file at a location that was free or another file's, and elsewhere the tree has grown
at most. -/
structure Put (tree : FileTree) (target : Location) (content : Bytes) (tree' : FileTree) :
    Prop where
  file : tree'.find? target = some (.file content)
  /-- No directory has had to give way. -/
  free : tree.find? target ≠ some .directory
  elsewhere : ∀ location, location ≠ target → tree.GrownAt tree' location

namespace Put

variable {target : Location} {content : Bytes}

theorem keeps (h : tree.Put target content tree') : tree.Keeps tree' := by
  constructor
  · intro location hdirectory
    have hne : location ≠ target := by
      rintro rfl
      exact h.free hdirectory
    exact (h.elsewhere location hne).find? hdirectory
  · intro location htaken
    obtain ⟨node, hnode⟩ := Option.isSome_iff_exists.mp htaken
    by_cases htarget : location = target
    · rw [htarget, h.file]
      rfl
    · rw [(h.elsewhere location htarget).find? hnode]
      rfl

/-- Any other file is read as before, under each of its paths. -/
theorem read (h : tree.Put target content tree') {p q : Path}
    (hp : tree'.locate p = .ok target) {bytes : Bytes} (hq : tree.read q = .ok bytes)
    (hother : tree.locate q ≠ tree'.locate p) : tree'.read q = .ok bytes := by
  obtain ⟨location, hlocate, hfind⟩ := exists_location_of_read hq
  have hne : location ≠ target := by
    rintro rfl
    exact hother (hlocate.trans hp.symm)
  rw [FileTree.read, h.keeps.locate hlocate]
  dsimp only
  rw [(h.elsewhere location hne).find? hfind]

end Put

end FileTree

namespace Machine

/-- The directories on the way to a file are all that is new behind making them. -/
theorem grown_ensureDirectories (root : PathRoot) (names : List Text) (machine : Machine) :
    machine.files.Grown
      ((Host.ensureDirectories root names : StateM Machine _).run machine).2.files := by
  have hgrown : Host.Inherited (m := StateM Machine) fun _ x =>
      ∀ machine : Machine, machine.files.Grown (x.run machine).2.files :=
    { pure := fun _ machine => .refl machine.files
      bind := fun {_ _ x _} hx hf machine => (hx machine).trans (hf _ (x.run machine).2)
      isDirectory := fun _ machine => .refl machine.files
      makeDirectory := fun p machine => by
        show machine.files.Grown (machine.updateFiles (machine.files.makeDirectory p)).2.files
        cases hfiles : machine.files.makeDirectory p with
        | error fault => exact .refl machine.files
        | ok files => exact FileTree.grown_of_makeDirectory hfiles }
  exact hgrown.ensureDirectories root names machine

/-- Whoever succeeds in writing a file has put it where its path leads now. -/
theorem put_of_writeFileAndParents {machine machine' : Machine} {p : Path} {content : Bytes}
    (h : (Host.writeFileAndParents p content : StateM Machine _).run machine = (.ok (), machine')) :
    ∃ target, machine'.files.locate p = .ok target ∧
      machine.files.Put target content machine'.files := by
  obtain ⟨between, files, hdirectories, hwrite, rfl⟩ := writeFileAndParents_eq_ok_iff.mp h
  have hgrown := grown_ensureDirectories p.root p.parent.names.reverse machine
  rw [hdirectories] at hgrown
  -- Before the directories were there the path may have led nowhere, so its target is theirs.
  obtain ⟨target, hlocate, hroot, hfree, rfl⟩ := FileTree.exists_location_of_write hwrite
  refine ⟨target, (FileTree.keeps_insert content hroot hfree).locate hlocate, ?_⟩
  constructor
  · rw [FileTree.find?_insert _ _ hroot, if_pos rfl]
  · intro hdirectory
    exact hfree ((hgrown target).find? hdirectory)
  · intro location hne
    rw [FileTree.GrownAt, FileTree.find?_insert _ _ hroot, if_neg hne]
    exact hgrown location

/-! ## Texts -/

/-- The second machine is the first with the text stored under the path. -/
structure Stored (machine : Machine) (p : Path) (text : Text) (machine' : Machine) : Prop where
  /-- The file is read as the text. -/
  whole : (readText p : Work (StateM Machine) Text).run.run machine' = (.ok text, machine')
  /-- As a stream it has the records of the text, without a byte order mark before them. -/
  lines : (readLines (some p) : Work (StateM Machine) (List Text)).run.run machine' =
    (.ok (Text.records (if text.head? = some Text.byteOrderMark then text.tail else text)),
      machine')
  /-- No other file and no directory has changed or gone, and what is new is directories. -/
  files : ∃ target, machine'.files.locate p = .ok target ∧
    machine.files.Put target (Utf8.encode text) machine'.files
  /-- Whatever path another file is read by, it is read as before. -/
  others : ∀ q bytes, machine.files.read q = .ok bytes →
    machine.files.locate q ≠ machine'.files.locate p → machine'.files.read q = .ok bytes
  /-- Nothing but the files has changed. -/
  apart : machine' = { machine with files := machine'.files }

/-- **What is written is what is read.** The bytes of a text are read as that text and never in
another encoding, and a text that goes to a path that can be written is stored there. -/
theorem stored_of_writable (text : Text) :
    (Text.ofBytes (Utf8.encode text) = text ∧ Charset.ofBytes (Utf8.encode text) = .utf8) ∧
      ∀ (machine : Machine) (p : Path), machine.files.Writable p →
        ∃ machine', (writeDocument text (some (.value p)) : Work (StateM Machine) Unit).run.run
            machine = (.ok (), machine') ∧
          machine.Stored p text machine' := by
  refine ⟨⟨Text.ofBytes_encode text, Charset.ofBytes_encode text⟩, fun machine p hwritable => ?_⟩
  obtain ⟨files, hwrite, hread⟩ := exists_writeFileAndParents hwritable (Utf8.encode text)
  obtain ⟨target, hlocate, hput⟩ := put_of_writeFileAndParents hwrite
  have hholds : view.Holds { machine with files } p (Utf8.encode text) := holds_of_read hread
  refine ⟨{ machine with files }, writeDocument_run_eq hwrite, ?_, ?_,
    ⟨target, hlocate, hput⟩, ?_, rfl⟩
  · rw [readText_run hholds, Text.ofBytes_encode]
  -- a mark at the start is lost when the records are read
  · have hmark : text.withoutByteOrderMark =
        if text.head? = some Text.byteOrderMark then text.tail else text := by
      cases text with
      | nil => rfl
      | cons c rest => simp [Text.withoutByteOrderMark]
    have hsource : view.Source { machine with files } (some p) (Utf8.encode text) := hholds
    rw [readLines_run hsource, Text.ofBytes_encode, hmark]
    rfl
  · intro q bytes hq hother
    exact hput.read hlocate hq hother

/-- A text beyond ASCII, behind a byte order mark, is written through a directory that has to be
made first, left again by two dots and followed by another new one. -/
theorem stored_beyond_newDirectories :
    let text : Text := [Text.byteOrderMark, 'é', '\n', '😀']
    let files : FileTree :=
      { nodes := [(["old".toList], .directory),
          (["old".toList, "page".toList], .file (Utf8.encode "Ta".toList))] }
    let machine : Machine := { files }
    let p : Path := Path.ofText "new/../old/deep/page".toList
    files.Writable p ∧ ∃ machine',
      (writeDocument text (some (.value p)) : Work (StateM Machine) Unit).run.run machine =
        (.ok (), machine') ∧ machine.Stored p text machine' := by
  intro text files machine p
  have hwritable : files.Writable p := ⟨[], _, rfl⟩
  exact ⟨hwritable, (stored_of_writable text).2 machine p hwritable⟩

end Machine

end Yeast
