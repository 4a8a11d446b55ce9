import Yeast.Proofs.Provenance
import Yeast.Proofs.Writable

set_option autoImplicit false

/-! # What files are refused for

A machine refuses a path for one of a few reasons, all with a visible wording, unless the path holds
U+0000 and cannot be passed to it at all. So a path whose names are free of this character is read,
made or written, or else refused with a fault that can be reported (`Machine.Fair`), and the same
holds of a file that is written with the directories on the way to it
(`Machine.Fair.writeFileAndParents`).
-/

namespace Yeast

open Command

theorem not_printable_null : printable '\x00' = false := by
  decide +kernel

/-- The fault can be reported: the path could be passed to the system, and the wording has a visible
form. -/
structure FileFault.Reportable (fault : FileFault) : Prop where
  passable : fault ≠ .nullCharacter
  visible : fault.message.Visible

/-- If the system refuses, its fault can be reported. -/
abbrev FileFault.Fair {α : Type} (result : Except FileFault α) : Prop :=
  Results (fun _ => True) FileFault.Reportable result

namespace FileTree

variable (tree : FileTree)

theorem fair_enter (location : Location) (name : Text) :
    FileFault.Fair (tree.enter location name) := by
  unfold enter
  split_ifs
  · exact ⟨by simp, by decide⟩
  · trivial
  · exact ⟨by simp, by decide⟩
  · trivial

theorem fair_follow (location : Location) (names : List Text) :
    FileFault.Fair (tree.follow location names) := by
  induction names generalizing location with
  | nil => trivial
  | cons name names ih =>
      rw [follow]
      rcases (tree.fair_enter location name).ok_or_error with
        ⟨reached, henter, -⟩ | ⟨fault, henter, hfault⟩
      · rw [henter]
        dsimp only
        split_ifs
        · trivial
        · exact ⟨by simp, by decide⟩
        · exact ih reached
      · rw [henter]
        exact hfault

variable {p : Path} (hp : '\x00' ∉ p.text)

include hp

theorem fair_locate : FileFault.Fair (tree.locate p) := by
  unfold locate
  split_ifs with hnull
  · exact absurd (List.contains_iff_mem.mp hnull) hp
  · exact ⟨by simp, by decide⟩
  · exact tree.fair_follow [] p.names

theorem fair_read : FileFault.Fair (tree.read p) := by
  unfold read
  rcases (tree.fair_locate hp).ok_or_error with ⟨location, hlocate, -⟩ | ⟨fault, hlocate, hfault⟩
  · rw [hlocate]
    dsimp only
    split
    · trivial
    · exact ⟨by simp, by decide⟩
    · exact ⟨by simp, by decide⟩
  · rw [hlocate]
    exact hfault

theorem fair_makeDirectory : FileFault.Fair (tree.makeDirectory p) := by
  unfold makeDirectory
  rcases (tree.fair_locate hp).ok_or_error with ⟨location, hlocate, -⟩ | ⟨fault, hlocate, hfault⟩
  · rw [hlocate]
    dsimp only
    split_ifs
    · exact ⟨by simp, by decide⟩
    · trivial
  · rw [hlocate]
    exact hfault

theorem fair_write (content : Bytes) : FileFault.Fair (tree.write p content) := by
  unfold write
  rcases (tree.fair_locate hp).ok_or_error with ⟨location, hlocate, -⟩ | ⟨fault, hlocate, hfault⟩
  · rw [hlocate]
    dsimp only
    split_ifs
    · exact ⟨by simp, by decide⟩
    · trivial
  · rw [hlocate]
    exact hfault

end FileTree

/-- What is read stands in a file of the tree. -/
theorem FileTree.exists_node_of_read {tree : FileTree} {p : Path} {bytes : Bytes}
    (h : tree.read p = .ok bytes) : ∃ location, (location, FileNode.file bytes) ∈ tree.nodes := by
  obtain ⟨location, -, hfind⟩ := exists_location_of_read h
  unfold find? at hfind
  split_ifs at hfind
  · simp at hfind
  · obtain ⟨⟨location', node⟩, hentry, rfl⟩ := Option.map_eq_some_iff.mp hfind
    exact ⟨location', List.mem_of_find?_eq_some hentry⟩

namespace Machine

variable {α β : Type}

/-- Whatever the machine, if the action is refused its fault can be reported. -/
def Fair (x : StateM Machine (Except FileFault α)) : Prop :=
  ∀ machine, FileFault.Fair (x.run machine).1

namespace Fair

theorem pure {result : Except FileFault α} (h : FileFault.Fair result) :
    Fair (Pure.pure result) := fun _ => h

theorem bind {x : StateM Machine (Except FileFault α)}
    {f : Except FileFault α → StateM Machine (Except FileFault β)} (hx : Fair x)
    (hok : ∀ a, Fair (f (.ok a))) (herror : ∀ fault, fault.Reportable → Fair (f (.error fault))) :
    Fair (x >>= f) := by
  intro machine
  rcases hrun : x.run machine with ⟨result, machine'⟩
  rw [View.run_bind_eq hrun]
  have hresult := hx machine
  rw [hrun] at hresult
  cases result with
  | ok a => exact hok a machine'
  | error fault => exact herror fault hresult machine'

theorem updateFiles {change : FileTree → Except FileFault FileTree}
    (h : ∀ files, FileFault.Fair (change files)) :
    Fair fun machine => machine.updateFiles (change machine.files) := by
  intro machine
  show FileFault.Fair (machine.updateFiles (change machine.files)).1
  rcases (h machine.files).ok_or_error with ⟨files, hfiles, -⟩ | ⟨fault, hfiles, hfault⟩
  · rw [hfiles]
    trivial
  · rw [hfiles]
    exact hfault

theorem makeDirectory {p : Path} (h : '\x00' ∉ p.text) : Fair (Host.makeDirectory p) :=
  updateFiles fun files => files.fair_makeDirectory h

theorem writeFile {p : Path} (h : '\x00' ∉ p.text) (content : Bytes) :
    Fair (Host.writeFile p content) :=
  updateFiles fun files => files.fair_write h content

theorem acceptDirectory (p : Path) {fault : FileFault} (h : fault.Reportable) :
    Fair (Host.acceptDirectory p fault) := by
  intro machine
  show FileFault.Fair ((if machine.files.isDirectory p then _ else _ : StateM Machine _).run _).1
  split_ifs
  · trivial
  · exact h

theorem ensureDirectory {p : Path} (h : '\x00' ∉ p.text) : Fair (Host.ensureDirectory p) := by
  refine (makeDirectory h).bind (fun _ => pure trivial) fun fault hfault => ?_
  cases fault with
  | noEntry => exact pure hfault
  | _ => exact acceptDirectory p hfault

/-- The directories on the way to a file have the names that its path begins with. -/
theorem ensureDirectories (root : PathRoot) {names : List Text}
    (h : ∀ name ∈ names, '\x00' ∉ name) : Fair (Host.ensureDirectories root names) := by
  -- What is tried on the way has no other names, and what stands between names is a slash.
  have hpath : ∀ names : List Text, (∀ name ∈ names, '\x00' ∉ name) →
      '\x00' ∉ (⟨root, names.reverse⟩ : Path).text := by
    intro names hnames
    have hdrawn : (⟨root, names.reverse⟩ : Path).DrawnFrom names := fun name hname =>
      Text.drawnFrom_of_mem (List.mem_reverse.mp hname)
    exact hdrawn.text.not_mem not_printable_null hnames
  induction names with
  | nil => exact ensureDirectory (hpath [] h)
  | cons name outer ih =>
      refine (makeDirectory (hpath _ h)).bind (fun _ => pure trivial) fun fault hfault => ?_
      cases fault with
      | noEntry =>
          refine (ih (List.forall_mem_cons.mp h).2).bind (fun _ => ensureDirectory (hpath _ h)) ?_
          exact fun fault hfault => pure hfault
      | _ => exact acceptDirectory _ hfault

theorem writeFileAndParents {p : Path} (h : ∀ name ∈ p.names, '\x00' ∉ name) (content : Bytes) :
    Fair (Host.writeFileAndParents p content) := by
  have hdrawn : p.DrawnFrom p.names := fun name => Text.drawnFrom_of_mem
  have hpath : '\x00' ∉ p.text := hdrawn.text.not_mem not_printable_null h
  have hparents : ∀ name ∈ p.parent.names.reverse, '\x00' ∉ name := fun name hname =>
    h name ((List.dropLast_sublist p.names).subset (List.mem_reverse.mp hname))
  exact (ensureDirectories p.root hparents).bind (fun _ => writeFile hpath content)
    fun fault hfault => pure hfault

end Fair

/-- Writing a file touches nothing but the files. -/
theorem FilesOnly.writeFileAndParents (p : Path) (content : Bytes) :
    FilesOnly (Host.writeFileAndParents p content) := by
  refine (ensureDirectories p.root p.parent.names.reverse).bind fun ensured => ?_
  cases ensured with
  | ok _ => exact writeFile p content
  | error _ => exact pure _

end Machine

end Yeast
