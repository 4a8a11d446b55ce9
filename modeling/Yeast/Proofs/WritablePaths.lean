import Yeast.Proofs.Writable
import Mathlib.Data.List.Infix

set_option autoImplicit false

/-! # Which paths can be written

A path can be written if no file is in its way and no directory stands where it leads
(`FileTree.writable_iff_admits`). Without links the names of a path alone settle where it leads: a
name leads one level down and two dots lead one level up again. The locations on the way have to be
directories when the file is written, so what is missing there is made first, and that is possible
wherever no file stands.
-/

namespace Yeast

/-! ## Where names lead -/

namespace Location

/-- One level down, or up again at two dots. -/
def next (location : Location) (name : Text) : Location :=
  if name = ['.', '.'] then location.dropLast else location ++ [name]

/-- Where names lead from the root. -/
def ofNames (names : List Text) : Location := names.foldl next []

/-- The locations that names lead through, the root and the last one included. -/
def way (names : List Text) : List Location := names.inits.map ofNames

theorem ofNames_concat (names : List Text) (name : Text) :
    ofNames (names ++ [name]) = next (ofNames names) name := by
  simp [ofNames]

theorem mem_way {names : List Text} {location : Location} :
    location ∈ way names ↔ ∃ earlier, earlier <+: names ∧ ofNames earlier = location := by
  simp [way, List.mem_inits]

theorem mem_way_nil {location : Location} : location ∈ way [] ↔ location = ofNames [] := by
  simp [way]

theorem mem_way_concat {names : List Text} {name : Text} {location : Location} :
    location ∈ way (names ++ [name]) ↔
      location ∈ way names ∨ location = ofNames (names ++ [name]) := by
  simp only [mem_way, List.prefix_concat_iff]
  constructor
  · rintro ⟨earlier, rfl | hearlier, rfl⟩
    · exact Or.inr rfl
    · exact Or.inl ⟨earlier, hearlier, rfl⟩
  · rintro (⟨earlier, hearlier, rfl⟩ | rfl)
    · exact ⟨earlier, Or.inr hearlier, rfl⟩
    · exact ⟨_, Or.inl rfl, rfl⟩

theorem ofNames_mem_way (names : List Text) : ofNames names ∈ way names :=
  mem_way.mpr ⟨names, List.prefix_rfl, rfl⟩

/-- Whoever goes up again comes to a location that has been passed. -/
theorem dropLast_mem_way {names : List Text} {location : Location} (h : location ∈ way names) :
    location.dropLast ∈ way names := by
  induction names using List.reverseRecOn generalizing location with
  | nil =>
      obtain rfl : location = [] := by simpa [way, ofNames] using h
      exact h
  | append_singleton names name ih =>
      refine mem_way_concat.mpr (Or.inl ?_)
      rcases mem_way_concat.mp h with hbefore | rfl
      · exact ih hbefore
      · rw [ofNames_concat, next]
        split_ifs with hdots
        · exact ih (ih (ofNames_mem_way names))
        · rw [List.dropLast_concat]
          exact ofNames_mem_way names

/-- What holds of the root holds of a way without its end if it holds wherever a part of the names
leads. -/
theorem forall_mem_way_dropLast {names : List Text} {P : Location → Prop} (hroot : P []) :
    (∀ location ∈ way names.dropLast, P location) ↔
      ∀ earlier, earlier <+: names → earlier ≠ names → P (ofNames earlier) := by
  simp only [mem_way, forall_exists_index, and_imp, forall_apply_eq_imp_iff₂]
  rcases List.eq_nil_or_concat' names with rfl | ⟨outer, name, rfl⟩
  · simpa [ofNames] using hroot
  · rw [List.dropLast_concat]
    constructor
    · intro h earlier hearlier hne
      exact h earlier ((List.prefix_concat_iff.mp hearlier).resolve_left hne)
    · intro h earlier hearlier
      refine h earlier (hearlier.trans (List.prefix_append outer [name])) ?_
      rintro rfl
      exact absurd hearlier.length_le (by simp)

/-- Without two dots names lead where they say. -/
theorem ofNames_eq_self {names : List Text} (h : ['.', '.'] ∉ names) : ofNames names = names := by
  induction names using List.reverseRecOn with
  | nil => rfl
  | append_singleton names name ih =>
      rw [List.mem_append, List.mem_singleton, not_or] at h
      rw [ofNames_concat, ih h.1, next, if_neg (Ne.symm h.2)]

theorem mem_way_iff_prefix {names : List Text} (h : ['.', '.'] ∉ names) {location : Location} :
    location ∈ way names ↔ location <+: names := by
  have hself : ∀ earlier, earlier <+: names → ofNames earlier = earlier :=
    fun earlier hearlier => ofNames_eq_self fun hdots => h (hearlier.subset hdots)
  rw [mem_way]
  constructor
  · rintro ⟨earlier, hearlier, rfl⟩
    rwa [hself earlier hearlier]
  · intro hlocation
    exact ⟨location, hlocation, hself location hlocation⟩

end Location

/-! ## Ways that can be gone -/

/-- The path is one that a system takes. -/
@[mk_iff]
structure Path.Fits (p : Path) : Prop where
  noNull : '\x00' ∉ p.text
  short : (Utf8.encode p.text).length < FileTree.pathLimit
  shortNames : ∀ name ∈ p.names, (Utf8.encode name).length ≤ FileTree.nameLimit

theorem Path.parent_concat (root : PathRoot) (names : List Text) (name : Text) :
    Path.parent ⟨root, names ++ [name]⟩ = ⟨root, names⟩ := by
  rw [Path.parent, List.dropLast_concat]

theorem Text.joined_prefix_joined (separator : Text) (texts : List Text) (text : Text) :
    joined separator texts <+: joined separator (texts ++ [text]) := by
  induction texts with
  | nil => exact List.nil_prefix
  | cons first texts ih =>
      cases texts with
      | nil => simp [joined, List.intercalate]
      | cons next texts =>
          have hcons : ∀ others, joined separator (first :: next :: others) =
              first ++ separator ++ joined separator (next :: others) := by
            intro others
            simp [joined, List.intercalate]
          rw [List.cons_append, List.cons_append, hcons, hcons]
          exact (List.prefix_append_right_inj _).mpr ih

/-- Systems that take a path take the directories on its way. -/
theorem Path.Fits.outer {root : PathRoot} {names : List Text} {name : Text}
    (h : Path.Fits ⟨root, names ++ [name]⟩) : Path.Fits ⟨root, names⟩ := by
  have hnames : ∀ other ∈ names, (Utf8.encode other).length ≤ FileTree.nameLimit :=
    fun other hother => h.shortNames other (List.mem_append_left [name] hother)
  by_cases hdot : root = .relative ∧ names = []
  · obtain ⟨rfl, rfl⟩ := hdot
    exact ⟨by decide, by decide, hnames⟩
  · have hbegins : Path.text ⟨root, names⟩ <+: Path.text ⟨root, names ++ [name]⟩ := by
      rw [Path.text, Path.text, if_neg hdot, if_neg (by simp)]
      exact (List.prefix_append_right_inj _).mpr (Text.joined_prefix_joined _ names name)
    refine ⟨fun hnull => h.noNull (hbegins.subset hnull), ?_, hnames⟩
    exact lt_of_le_of_lt (hbegins.flatMap String.utf8EncodeChar).length_le h.short

namespace FileTree

variable {tree : FileTree}

theorem enter_eq_ok_iff {location reached : Location} {name : Text} :
    tree.enter location name = .ok reached ↔
      tree.find? location = some .directory ∧ (Utf8.encode name).length ≤ nameLimit ∧
        Location.next location name = reached := by
  unfold enter Location.next
  by_cases hdirectory : tree.find? location = some .directory
  · by_cases hdots : name = ['.', '.']
    · subst hdots
      have hshort : (Utf8.encode ['.', '.']).length ≤ nameLimit := by decide
      simp [hdirectory, hshort]
    · by_cases hshort : (Utf8.encode name).length ≤ nameLimit
      · simp [hdirectory, hdots, hshort, not_lt.mpr hshort]
      · simp [hdirectory, hdots, hshort, not_le.mp hshort]
  · simp [hdirectory]

/-- The rest of the way is gone from where the first name leads. -/
theorem follow_cons_eq_ok_iff {location target : Location} {name : Text} {names : List Text} :
    tree.follow location (name :: names) = .ok target ↔
      tree.find? location = some .directory ∧ (Utf8.encode name).length ≤ nameLimit ∧
        tree.follow (Location.next location name) names = .ok target := by
  rw [follow]
  cases henter : tree.enter location name with
  | error fault =>
      refine iff_of_false (by simp) ?_
      rintro ⟨hdirectory, hshort, -⟩
      simp [enter_eq_ok_iff.mpr ⟨hdirectory, hshort, rfl⟩] at henter
  | ok reached =>
      obtain ⟨hdirectory, hshort, rfl⟩ := enter_eq_ok_iff.mp henter
      simp only [hdirectory, hshort, true_and]
      cases names with
      | nil => simp [follow]
      | cons name' names =>
          rw [if_neg (by simp)]
          split_ifs with hmissing
          · -- Nothing is entered from a location where nothing stands.
            have hnone := Option.isNone_iff_eq_none.mp hmissing
            simp [follow, enter, hnone]
          · exact Iff.rfl

/-- Names lead on if all locations that are passed are those of directories. -/
theorem follow_eq_ok_iff {location target : Location} {names : List Text} :
    tree.follow location names = .ok target ↔
      names.foldl Location.next location = target ∧
        (∀ name ∈ names, (Utf8.encode name).length ≤ nameLimit) ∧
        ∀ earlier, earlier <+: names → earlier ≠ names →
          tree.find? (earlier.foldl Location.next location) = some .directory := by
  induction names generalizing location with
  | nil => simp [follow]
  | cons name names ih =>
      rw [follow_cons_eq_ok_iff, ih, List.foldl_cons, List.forall_mem_cons]
      constructor
      · rintro ⟨hdirectory, hshort, htarget, hshorts, hways⟩
        refine ⟨htarget, ⟨hshort, hshorts⟩, fun earlier hearlier hne => ?_⟩
        rcases List.prefix_cons_iff.mp hearlier with rfl | ⟨between, rfl, hbetween⟩
        · exact hdirectory
        · exact hways between hbetween fun h => hne (by rw [h])
      · rintro ⟨htarget, ⟨hshort, hshorts⟩, hways⟩
        refine ⟨hways [] List.nil_prefix (by simp), hshort, htarget, hshorts, ?_⟩
        intro between hbetween hne
        exact hways (name :: between) (List.cons_prefix_cons.mpr ⟨rfl, hbetween⟩)
          (by simpa using hne)

/-- Nothing stands at the location, or a directory. -/
def Clear (tree : FileTree) (location : Location) : Prop :=
  tree.find? location = none ∨ tree.find? location = some .directory

/-- Where no file is in the way, a way is broken off at something missing only. -/
theorem follow_eq_ok_or_noEntry {location : Location} {names : List Text}
    (hdirectory : tree.find? location = some .directory)
    (hshorts : ∀ name ∈ names, (Utf8.encode name).length ≤ nameLimit)
    (hclear : ∀ earlier, earlier <+: names → earlier ≠ names →
      tree.Clear (earlier.foldl Location.next location)) :
    (∃ target, tree.follow location names = .ok target) ∨
      tree.follow location names = .error .noEntry := by
  induction names generalizing location with
  | nil => exact Or.inl ⟨location, rfl⟩
  | cons name names ih =>
      rw [List.forall_mem_cons] at hshorts
      have henter : tree.enter location name = .ok (Location.next location name) :=
        enter_eq_ok_iff.mpr ⟨hdirectory, hshorts.1, rfl⟩
      rw [follow, henter]
      dsimp only
      split_ifs with hlast hmissing
      · exact Or.inl ⟨_, rfl⟩
      · exact Or.inr rfl
      -- more names follow, so this location is one on the way
      · have hne : [name] ≠ name :: names := by
          simpa [eq_comm] using mt List.isEmpty_iff.mpr hlast
        have hreached : tree.find? (Location.next location name) = some .directory := by
          rcases hclear [name] (by simp) hne with hnone | hdirectory'
          · exact absurd hnone (mt Option.isNone_iff_eq_none.mpr hmissing)
          · exact hdirectory'
        refine ih hreached hshorts.2 fun between hbetween hne => ?_
        exact hclear (name :: between) (List.cons_prefix_cons.mpr ⟨rfl, hbetween⟩)
          (by simpa using hne)

/-- A path leads somewhere if all locations before the last one are those of directories, which the
root always is. -/
theorem locate_eq_ok_iff {p : Path} {target : Location} :
    tree.locate p = .ok target ↔
      p.Fits ∧ Location.ofNames p.names = target ∧
        ∀ location ∈ Location.way p.parent.names, tree.find? location = some .directory := by
  rw [Path.parent, Location.forall_mem_way_dropLast (by simp [find?])]
  unfold locate
  split_ifs with hnull hlong
  · exact iff_of_false (by simp) fun h => h.1.noNull (by simpa using hnull)
  · exact iff_of_false (by simp) fun h => absurd h.1.short (not_lt.mpr hlong)
  · rw [follow_eq_ok_iff]
    constructor
    · rintro ⟨htarget, hshorts, hways⟩
      exact ⟨⟨by simpa using hnull, not_le.mp hlong, hshorts⟩, htarget, hways⟩
    · rintro ⟨hfits, htarget, hways⟩
      exact ⟨htarget, hfits.shortNames, hways⟩

theorem locate_concat {root : PathRoot} {names : List Text} {name : Text}
    (hfits : Path.Fits ⟨root, names ++ [name]⟩)
    (hways : ∀ location ∈ Location.way names, tree.find? location = some .directory) :
    tree.locate ⟨root, names ++ [name]⟩ = .ok (Location.ofNames (names ++ [name])) := by
  refine locate_eq_ok_iff.mpr ⟨hfits, rfl, ?_⟩
  rwa [Path.parent_concat]

/-- If no file is in the way and nothing is missing there, directories are all there is. -/
theorem directory_of_clear {root : PathRoot} {names : List Text} {name : Text}
    (hfits : Path.Fits ⟨root, names ++ [name]⟩)
    (hclear : ∀ location ∈ Location.way names, tree.Clear location)
    (hentry : tree.locate ⟨root, names ++ [name]⟩ ≠ .error .noEntry) :
    ∀ location ∈ Location.way names, tree.find? location = some .directory := by
  have hproper : ∀ earlier, earlier <+: names ++ [name] → earlier ≠ names ++ [name] →
      tree.Clear (earlier.foldl Location.next []) := by
    intro earlier hearlier hne
    have hbefore := (List.prefix_concat_iff.mp hearlier).resolve_left hne
    exact hclear _ (Location.mem_way.mpr ⟨earlier, hbefore, rfl⟩)
  have hnull : (Path.text ⟨root, names ++ [name]⟩).contains '\x00' = false := by
    simpa using hfits.noNull
  have hfollow : tree.locate ⟨root, names ++ [name]⟩ = tree.follow [] (names ++ [name]) := by
    rw [locate, hnull, if_neg (by simp), if_neg (not_le.mpr hfits.short)]
  rcases follow_eq_ok_or_noEntry (by simp [find?]) hfits.shortNames hproper
    with ⟨target, htarget⟩ | hnoEntry
  · have hways := (locate_eq_ok_iff.mp (hfollow.trans htarget)).2.2
    rwa [Path.parent_concat] at hways
  · exact absurd (hfollow.trans hnoEntry) hentry

end FileTree

/-! ## Directories on the way -/

namespace Machine

open FileTree

variable {machine machine' : Machine}

theorem run_acceptDirectory (p : Path) (fault : FileFault) (machine : Machine) :
    (Host.acceptDirectory p fault : StateM Machine _).run machine =
      (if machine.files.isDirectory p then .ok () else .error fault, machine) := by
  have hlook : (Host.isDirectory p : StateM Machine _).run machine =
      (machine.files.isDirectory p, machine) := rfl
  rw [Host.acceptDirectory, View.run_bind_eq hlook]
  split <;> rfl

theorem run_ensureDirectory (p : Path) (machine : Machine) :
    (Host.ensureDirectory p : StateM Machine _).run machine =
      match machine.files.makeDirectory p with
      | .ok files => (.ok (), { machine with files })
      | .error .noEntry => (.error .noEntry, machine)
      | .error fault =>
        (if machine.files.isDirectory p then .ok () else .error fault, machine) := by
  have hmake : (Host.makeDirectory p : StateM Machine _).run machine =
      machine.updateFiles (machine.files.makeDirectory p) := rfl
  rw [Host.ensureDirectory]
  cases hmade : machine.files.makeDirectory p with
  | ok files =>
      rw [hmade, updateFiles] at hmake
      rw [View.run_bind_eq hmake]
      rfl
  | error fault =>
      rw [hmade, updateFiles] at hmake
      rw [View.run_bind_eq hmake]
      cases fault with
      | noEntry => rfl
      | _ => exact run_acceptDirectory p _ machine

/-- A directory is there in the end if it has been there or can be made. -/
theorem ensureDirectory_eq_ok_iff {p : Path} :
    (Host.ensureDirectory p : StateM Machine _).run machine = (.ok (), machine') ↔
      ∃ location, machine.files.locate p = .ok location ∧
        (machine.files.find? location = some .directory ∧ machine' = machine ∨
          machine.files.find? location = none ∧ endsInName p = true ∧
            machine' = { machine with files := machine.files.insert location .directory }) := by
  rw [run_ensureDirectory]
  change @Eq (Except FileFault Unit × Machine) _ _ ↔ _
  cases hlocate : machine.files.locate p with
  | error fault =>
      have hmade : machine.files.makeDirectory p = .error fault := by
        simp [FileTree.makeDirectory, hlocate]
      have hnone : machine.files.isDirectory p = false := by simp [FileTree.isDirectory, hlocate]
      rw [hmade, hnone]
      refine iff_of_false ?_ (by simp)
      cases fault <;> simp
  | ok location =>
      rw [makeDirectory_of_locate hlocate]
      by_cases hnew : machine.files.find? location = none ∧ endsInName p = true
      -- a new directory
      · rw [if_pos hnew]
        simp [hnew, eq_comm (a := machine')]
      -- it cannot be made, which is forgiven where a directory stands already
      · rw [if_neg hnew]
        dsimp only
        rw [isDirectory_of_locate hlocate]
        by_cases hdirectory : machine.files.find? location = some .directory
        · simp [hdirectory, eq_comm (a := machine')]
        · refine iff_of_false (by simp [hdirectory]) ?_
          rintro ⟨_, hlocation, ⟨hthere, -⟩ | ⟨hnone, hname, -⟩⟩
          · obtain rfl := Except.ok.inj hlocation
            exact hdirectory hthere
          · obtain rfl := Except.ok.inj hlocation
            exact hnew ⟨hnone, hname⟩

/-- If nothing on the way is missing, there is one directory to make. -/
theorem run_ensureDirectories_concat {root : PathRoot} {names : List Text} {name : Text}
    (h : machine.files.makeDirectory ⟨root, names ++ [name]⟩ ≠ .error .noEntry) :
    (Host.ensureDirectories root (names ++ [name]).reverse : StateM Machine _).run machine =
      (Host.ensureDirectory ⟨root, names ++ [name]⟩ : StateM Machine _).run machine := by
  have hmake : (Host.makeDirectory ⟨root, names ++ [name]⟩ : StateM Machine _).run machine =
      machine.updateFiles (machine.files.makeDirectory ⟨root, names ++ [name]⟩) := rfl
  rw [List.reverse_concat, Host.ensureDirectories, ← List.reverse_concat, List.reverse_reverse,
    View.run_bind_eq hmake, run_ensureDirectory]
  cases hmade : machine.files.makeDirectory ⟨root, names ++ [name]⟩ with
  | ok files => rfl
  | error fault =>
      cases fault with
      | noEntry => exact absurd hmade h
      | _ => exact run_acceptDirectory _ _ machine

/-- If something on the way is missing, the outer directories are made first. -/
theorem ensureDirectories_concat_eq_ok_iff {root : PathRoot} {names : List Text} {name : Text}
    (h : machine.files.makeDirectory ⟨root, names ++ [name]⟩ = .error .noEntry) :
    (Host.ensureDirectories root (names ++ [name]).reverse : StateM Machine _).run machine =
        (.ok (), machine') ↔
      ∃ between,
        (Host.ensureDirectories root names.reverse : StateM Machine _).run machine =
          (.ok (), between) ∧
        (Host.ensureDirectory ⟨root, names ++ [name]⟩ : StateM Machine _).run between =
          (.ok (), machine') := by
  have hmake : (Host.makeDirectory ⟨root, names ++ [name]⟩ : StateM Machine _).run machine =
      (.error .noEntry, machine) := by
    show machine.updateFiles _ = _
    rw [h, updateFiles]
  rw [List.reverse_concat, Host.ensureDirectories, ← List.reverse_concat, List.reverse_reverse,
    View.run_bind_eq hmake]
  rcases houter : (Host.ensureDirectories root names.reverse : StateM Machine _).run machine
    with ⟨_ | ⟨⟨⟩⟩, between⟩
  -- an outer directory that cannot be made ends it
  · rw [View.run_bind_eq houter]
    constructor
    · intro hrun
      exact absurd (congrArg Prod.fst hrun) (by simp)
    · rintro ⟨_, hrun, -⟩
      exact absurd (congrArg Prod.fst hrun) (by simp)
  -- the outer ones are there now, and the second attempt decides
  · rw [View.run_bind_eq houter]
    constructor
    · intro hlast
      exact ⟨between, rfl, hlast⟩
    · rintro ⟨_, hrun, hlast⟩
      obtain ⟨-, rfl⟩ := Prod.mk.inj hrun
      exact hlast

end Machine

/-! ## What is made on the way -/

namespace FileTree

/-- All locations that the names lead through are those of directories, and elsewhere the tree is as
before. -/
def Opened (tree : FileTree) (names : List Text) (tree' : FileTree) : Prop :=
  ∀ location, tree'.find? location =
    if location ∈ Location.way names then some .directory else tree.find? location

variable {tree tree' tree'' : FileTree} {names : List Text} {name : Text}

theorem opened_self (h : ∀ location ∈ Location.way names, tree.find? location = some .directory) :
    tree.Opened names tree := by
  intro location
  split_ifs with hway
  · exact h location hway
  · rfl

namespace Opened

theorem directory (h : tree.Opened names tree') {location : Location}
    (hway : location ∈ Location.way names) : tree'.find? location = some .directory := by
  rw [h location, if_pos hway]

theorem clear (h : tree.Opened names tree') {location : Location} (hclear : tree.Clear location) :
    tree'.Clear location := by
  rw [Clear, h location]
  split_ifs
  · exact Or.inr rfl
  · exact hclear

/-- A location that is clear in the end has been clear if that holds of the way. -/
theorem clear_of_clear (h : tree.Opened names tree')
    (hclear : ∀ location ∈ Location.way names, tree.Clear location) {location : Location}
    (h' : tree'.Clear location) : tree.Clear location := by
  by_cases hway : location ∈ Location.way names
  · exact hclear location hway
  · rwa [Clear, h location, if_neg hway] at h'

/-- One directory more at the end of the way. -/
theorem concat (h : tree.Opened names tree')
    (h' : ∀ location, tree''.find? location =
      if location = Location.ofNames (names ++ [name]) then some .directory
      else tree'.find? location) :
    tree.Opened (names ++ [name]) tree'' := by
  intro location
  simp only [h' location, h location, Location.mem_way_concat]
  by_cases hlast : location = Location.ofNames (names ++ [name])
  · simp [hlast]
  · simp [hlast]

end Opened

end FileTree

namespace Machine

open FileTree

variable {machine machine' : Machine} {root : PathRoot} {names : List Text} {name : Text}

/-- A directory that is there in the end stands where nothing or a directory has been, all before it
on its way are directories, and it is all that may have been made. -/
theorem clear_of_ensureDirectory {p : Path}
    (h : (Host.ensureDirectory p : StateM Machine _).run machine = (.ok (), machine')) :
    (∀ location ∈ Location.way p.parent.names, machine.files.find? location = some .directory) ∧
      machine.files.Clear (Location.ofNames p.names) ∧
      ∀ location, machine'.files.find? location =
        if location = Location.ofNames p.names then some .directory
        else machine.files.find? location := by
  obtain ⟨target, hlocate, hthere⟩ := ensureDirectory_eq_ok_iff.mp h
  obtain ⟨-, rfl, hways⟩ := locate_eq_ok_iff.mp hlocate
  rcases hthere with ⟨hdirectory, rfl⟩ | ⟨hnone, -, rfl⟩
  · refine ⟨hways, Or.inr hdirectory, fun location => ?_⟩
    split_ifs with htarget
    · rw [htarget, hdirectory]
    · rfl
  · have hfree : machine.files.find? (Location.ofNames p.names) ≠ some .directory := by
      simp [hnone]
    exact ⟨hways, Or.inl hnone, find?_insert _ _ (ne_nil_of_find?_ne hfree)⟩

/-- Directories that have been made are those on the way, and no file has been in it. -/
theorem opened_of_ensureDirectories
    (h : (Host.ensureDirectories root names.reverse : StateM Machine _).run machine =
      (.ok (), machine')) :
    (∀ location ∈ Location.way names, machine.files.Clear location) ∧
      machine.files.Opened names machine'.files := by
  induction names using List.reverseRecOn generalizing machine' with
  | nil =>
      obtain ⟨-, hclear, hmade⟩ := clear_of_ensureDirectory h
      constructor
      · intro location hlocation
        rw [Location.mem_way_nil.mp hlocation]
        exact hclear
      · intro location
        simpa only [Location.mem_way_nil] using hmade location
  | append_singleton names name ih =>
      -- Whether outer directories had to be made or not, the way up to here is open.
      have hbetween : ∃ between : Machine,
          (∀ location ∈ Location.way names, machine.files.Clear location) ∧
          machine.files.Opened names between.files ∧
          (Host.ensureDirectory ⟨root, names ++ [name]⟩ : StateM Machine _).run between =
            (.ok (), machine') := by
        by_cases hmissing :
            machine.files.makeDirectory ⟨root, names ++ [name]⟩ = .error .noEntry
        · obtain ⟨between, houter, hlast⟩ := (ensureDirectories_concat_eq_ok_iff hmissing).mp h
          exact ⟨between, (ih houter).1, (ih houter).2, hlast⟩
        · rw [run_ensureDirectories_concat hmissing] at h
          obtain ⟨hways, -, -⟩ := clear_of_ensureDirectory h
          rw [Path.parent_concat] at hways
          exact ⟨machine, fun location hway => Or.inr (hways location hway), opened_self hways, h⟩
      obtain ⟨between, hways, hopened, hlast⟩ := hbetween
      obtain ⟨-, hclear, hmade⟩ := clear_of_ensureDirectory hlast
      refine ⟨fun location hlocation => ?_, hopened.concat hmade⟩
      rcases Location.mem_way_concat.mp hlocation with hbefore | rfl
      · exact hways location hbefore
      · exact hopened.clear_of_clear hways hclear

theorem exists_ensureDirectory (hfits : Path.Fits ⟨root, names ++ [name]⟩)
    (hways : ∀ location ∈ Location.way names, machine.files.find? location = some .directory)
    (hclear : machine.files.Clear (Location.ofNames (names ++ [name]))) :
    ∃ machine', (Host.ensureDirectory ⟨root, names ++ [name]⟩ : StateM Machine _).run machine =
      (.ok (), machine') := by
  have hlocate := locate_concat hfits hways
  rcases hclear with hnone | hdirectory
  · have hname : endsInName ⟨root, names ++ [name]⟩ = true := by
      have hdots : name ≠ ['.', '.'] := by
        rintro rfl
        -- Two dots lead to a location that has been passed and is that of a directory.
        rw [Location.ofNames_concat, Location.next, if_pos rfl,
          hways _ (Location.dropLast_mem_way (Location.ofNames_mem_way names))] at hnone
        simp at hnone
      simpa [endsInName] using hdots
    exact ⟨_, ensureDirectory_eq_ok_iff.mpr ⟨_, hlocate, Or.inr ⟨hnone, hname, rfl⟩⟩⟩
  · exact ⟨machine, ensureDirectory_eq_ok_iff.mpr ⟨_, hlocate, Or.inl ⟨hdirectory, rfl⟩⟩⟩

/-- If no file is in the way, the directories can be made. -/
theorem exists_ensureDirectories (hfits : Path.Fits ⟨root, names⟩)
    (hclear : ∀ location ∈ Location.way names, machine.files.Clear location) :
    ∃ machine', (Host.ensureDirectories root names.reverse : StateM Machine _).run machine =
      (.ok (), machine') := by
  induction names using List.reverseRecOn with
  | nil =>
      have hlocate : machine.files.locate ⟨root, []⟩ = .ok [] := by
        refine locate_eq_ok_iff.mpr ⟨hfits, rfl, fun location hlocation => ?_⟩
        rw [Location.mem_way_nil.mp hlocation]
        rfl
      exact ⟨machine, ensureDirectory_eq_ok_iff.mpr ⟨[], hlocate, Or.inl ⟨rfl, rfl⟩⟩⟩
  | append_singleton names name ih =>
      have hways : ∀ location ∈ Location.way names, machine.files.Clear location :=
        fun location hway => hclear location (Location.mem_way_concat.mpr (Or.inl hway))
      have hlast := hclear _ (Location.ofNames_mem_way (names ++ [name]))
      by_cases hmissing : machine.files.makeDirectory ⟨root, names ++ [name]⟩ = .error .noEntry
      -- an outer directory is missing, so those are made first
      · obtain ⟨between, houter⟩ := ih hfits.outer hways
        have hopened := (opened_of_ensureDirectories houter).2
        obtain ⟨machine', hmade⟩ :=
          exists_ensureDirectory hfits (fun _ => hopened.directory) (hopened.clear hlast)
        exact ⟨machine', (ensureDirectories_concat_eq_ok_iff hmissing).mpr ⟨between, houter, hmade⟩⟩
      -- nothing on the way is missing
      · rw [run_ensureDirectories_concat hmissing]
        have hentry : machine.files.locate ⟨root, names ++ [name]⟩ ≠ .error .noEntry :=
          fun hnoEntry => hmissing (by rw [FileTree.makeDirectory, hnoEntry])
        exact exists_ensureDirectory hfits (directory_of_clear hfits hways hentry) hlast

end Machine

/-! ## Writable paths -/

namespace FileTree

/-- No file is in the way of a path, and it ends in a name under which a file can stand. -/
@[mk_iff]
structure Admits (tree : FileTree) (p : Path) : Prop where
  fits : p.Fits
  named : endsInName p
  clear : ∀ location ∈ Location.way p.parent.names, tree.Clear location
  /-- The path leads to no directory, nor to one that has to be made for it. -/
  noDirectory : tree.find? (Location.ofNames p.names) ≠ some .directory
  beyondWay : Location.ofNames p.names ∉ Location.way p.parent.names

variable {files : FileTree} {p : Path}

theorem Writable.admits (h : files.Writable p) : files.Admits p := by
  obtain ⟨content, machine, hrun⟩ := h
  obtain ⟨between, written, hensured, hwrite, -⟩ := Machine.writeFileAndParents_eq_ok_iff.mp hrun
  obtain ⟨hclear, hopened⟩ := Machine.opened_of_ensureDirectories hensured
  obtain ⟨target, hlocate, hname, hfree, -⟩ := write_eq_ok_iff.mp hwrite
  obtain ⟨hfits, rfl, -⟩ := locate_eq_ok_iff.mp hlocate
  have hbeyond : Location.ofNames p.names ∉ Location.way p.parent.names :=
    fun hway => hfree (hopened.directory hway)
  refine ⟨hfits, hname, hclear, fun hdirectory => hfree ?_, hbeyond⟩
  rw [hopened, if_neg hbeyond, hdirectory]

theorem Admits.writable (h : files.Admits p) : files.Writable p := by
  obtain ⟨root, names⟩ := p
  rcases List.eq_nil_or_concat' names with rfl | ⟨outer, name, rfl⟩
  · exact absurd h.named (by simp [endsInName])
  have hclear := h.clear
  have hbeyond := h.beyondWay
  rw [Path.parent_concat] at hclear hbeyond
  obtain ⟨between, hensured⟩ : ∃ between,
      (Host.ensureDirectories root outer.reverse : StateM Machine _).run { files } =
        (.ok (), between) :=
    Machine.exists_ensureDirectories h.fits.outer hclear
  have hopened := (Machine.opened_of_ensureDirectories hensured).2
  have hlocate := locate_concat h.fits fun _ => hopened.directory
  have hfree : between.files.find? (Location.ofNames (outer ++ [name])) ≠ some .directory := by
    rw [hopened, if_neg hbeyond]
    exact h.noDirectory
  have hwrite : between.files.write ⟨root, outer ++ [name]⟩ [] = .ok _ :=
    write_eq_ok_iff.mpr ⟨_, hlocate, h.named, hfree, rfl⟩
  refine ⟨[], _, Machine.writeFileAndParents_eq_ok_iff.mpr ⟨between, _, ?_, hwrite, rfl⟩⟩
  rw [Path.parent_concat]
  exact hensured

/-- **A path can be written if no file is in its way and no directory stands where it leads.** -/
theorem writable_iff_admits : files.Writable p ↔ files.Admits p :=
  ⟨Writable.admits, Admits.writable⟩

instance (tree : FileTree) (location : Location) : Decidable (tree.Clear location) :=
  inferInstanceAs (Decidable (_ ∨ _))

instance (p : Path) : Decidable p.Fits := decidable_of_iff _ p.fits_iff.symm

/-- So it can be found out without writing anything. -/
instance : Decidable (files.Writable p) :=
  decidable_of_iff _ ((files.admits_iff p).symm.trans writable_iff_admits.symm)

example :
    let files : FileTree := { nodes := [(["log".toList], .file [])] }
    files.Writable (Path.ofText "out/../page.html".toList) ∧
      ¬ files.Writable (Path.ofText "log/page.html".toList) ∧
      ¬ files.Writable (Path.ofText "out/../out".toList) := by
  decide

/-- Without two dots the locations on the way are the beginnings of the path itself. -/
theorem writable_iff_of_plain (hplain : ['.', '.'] ∉ p.names) :
    files.Writable p ↔
      p.Fits ∧ p.names ≠ [] ∧ (∀ earlier, earlier <+: p.parent.names → files.Clear earlier) ∧
        files.find? p.names ≠ some .directory := by
  have hparent : ['.', '.'] ∉ p.parent.names :=
    fun hdots => hplain (List.dropLast_subset p.names hdots)
  have hends : endsInName p = true ↔ p.names ≠ [] := by
    rcases List.eq_nil_or_concat' p.names with hnames | ⟨outer, name, hnames⟩
    · simp [endsInName, hnames]
    · rw [hnames, List.mem_append, List.mem_singleton, not_or] at hplain
      simp [endsInName, hnames, Ne.symm hplain.2]
  rw [writable_iff_admits, admits_iff, hends, Location.ofNames_eq_self hplain]
  simp only [Location.mem_way_iff_prefix hparent]
  constructor
  · rintro ⟨hfits, hnames, hclear, hfree, -⟩
    exact ⟨hfits, hnames, hclear, hfree⟩
  · rintro ⟨hfits, hnames, hclear, hfree⟩
    refine ⟨hfits, hnames, hclear, hfree, fun hbegins => ?_⟩
    -- A path is longer than the way to its last name.
    have hlength := hbegins.length_le
    have hpos := List.length_pos_iff.mpr hnames
    rw [Path.parent, List.length_dropLast] at hlength
    omega

end FileTree

end Yeast
