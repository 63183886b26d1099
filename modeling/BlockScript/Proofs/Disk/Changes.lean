/-
  What changes on a disk and what does not.

  A disk extends another if relative paths start from the same place and every directory is still
  there; then each path that was followed is followed to the same place (`Extends.resolve`). Writing
  a file sets the place of its path (`writeFile_eq`) and extends the disk. Making directories extends
  it too, and leaves every file as it was (`makeDirectories_growsOver`); once they are made, they are
  there (`isDirectory_of_makeDirectories`).
-/
import BlockScript.Proofs.Disk.Landing

namespace BlockScript.Disk

open BlockScript.Results

/-! ## Files -/

/-- The content of the file at a place. -/
def fileAt (d : Disk) (place : Place) : Option ByteArray :=
  match d.get? place with
  | some (.file content) => some content
  | _ => none

theorem fileAt_congr {d later : Disk} {place : Place} (h : later.get? place = d.get? place) :
    later.fileAt place = d.fileAt place := by
  unfold fileAt
  rw [h]

theorem get?_of_fileAt {d : Disk} {place : Place} {content : ByteArray}
    (h : d.fileAt place = some content) : d.get? place = some (.file content) := by
  unfold fileAt at h
  split at h
  case h_1 found hnode =>
    cases h
    exact hnode
  case h_2 => cases h

theorem fileAt_set_of_ne (d : Disk) {place other : Place} (h : other ≠ place) (node : Node) :
    (d.set place node).fileAt other = d.fileAt other :=
  fileAt_congr (d.get?_set_of_ne h node)

theorem fileAt_set_self (d : Disk) {place : Place} (h : place ≠ []) (content : ByteArray) :
    (d.set place (.file content)).fileAt place = some content := by
  unfold fileAt
  rw [d.get?_set_self h]

/-! ## Extensions -/

/-- Relative paths start from the same place, and every directory is still there. -/
structure Extends (d later : Disk) : Prop where
  here : later.here = d.here
  directories : ∀ place, d.get? place = some .directory → later.get? place = some .directory

theorem Extends.refl (d : Disk) : d.Extends d := ⟨rfl, fun _ h => h⟩

theorem Extends.trans {d later last : Disk} (h : d.Extends later) (h' : later.Extends last) :
    d.Extends last :=
  ⟨h'.here.trans h.here, fun place hp => h'.directories place (h.directories place hp)⟩

theorem extends_set {d : Disk} {place : Place} (h : d.get? place ≠ some .directory) (node : Node) :
    d.Extends (d.set place node) := by
  refine ⟨rfl, fun other ho => ?_⟩
  have hne : other ≠ place := by
    rintro rfl
    exact h ho
  rw [d.get?_set_of_ne hne, ho]

theorem Extends.follow {d later : Disk} (h : d.Extends later) {place next : Place} {piece : String}
    (hf : d.follow place piece = .ok next) : later.follow place piece = .ok next := by
  have hd := (follow_eq_ok hf).1
  unfold Disk.follow at hf ⊢
  rw [hd] at hf
  rw [h.directories place hd]
  exact hf

theorem Extends.foldlM_follow {d later : Disk} (h : d.Extends later) {pieces : List String}
    {place next : Place} (hf : pieces.foldlM d.follow place = .ok next) :
    pieces.foldlM later.follow place = .ok next := by
  induction pieces generalizing place with
  | nil => exact hf
  | cons piece rest ih =>
    rw [List.foldlM_cons] at hf ⊢
    obtain ⟨between, hfirst, hrest⟩ := bind_eq_ok.mp hf
    exact bind_eq_ok.mpr ⟨between, h.follow hfirst, ih hrest⟩

/-- A path that was followed is followed to the same place on a disk that extends the first. -/
theorem Extends.resolve {d later : Disk} (h : d.Extends later) {p : Path} {place : Place}
    (hr : d.resolve p = .ok place) : later.resolve p = .ok place := by
  unfold Disk.resolve at hr ⊢
  rw [h.here]
  split_ifs at hr ⊢
  all_goals exact h.foldlM_follow hr

/-! ## Writing -/

/-- The place of the file that is written under a path. -/
def writePlace (d : Disk) (p : Path) : Except Trouble Place := do
  let place ← d.resolve p
  match d.get? place with
  | some .directory => .error .isDirectory
  | _ => if endsInSlash p then .error .isDirectory else .ok place

theorem writeFile_eq (d : Disk) (p : Path) (content : ByteArray) :
    d.writeFile p content = (d.writePlace p).map fun place => d.set place (.file content) := by
  unfold writeFile writePlace
  cases d.resolve p with
  | error trouble => rfl
  | ok place =>
    dsimp only [bind, Except.bind]
    cases d.get? place with
    | none => cases endsInSlash p <;> rfl
    | some node => cases node <;> cases endsInSlash p <;> rfl

theorem writePlace_eq_ok {d : Disk} {p : Path} {place : Place} (h : d.writePlace p = .ok place) :
    d.resolve p = .ok place ∧ d.get? place ≠ some .directory ∧ endsInSlash p = false := by
  obtain ⟨resolved, hr, h⟩ := bind_eq_ok.mp h
  split at h
  · cases h
  · rename_i hnode
    split_ifs at h with hslash
    cases h
    exact ⟨hr, hnode, Bool.eq_false_iff.mpr hslash⟩

/-- What is written under a path lands where the path leads. -/
theorem writePlace_eq_landing {d : Disk} {p : Path} {place : Place}
    (h : d.writePlace p = .ok place) : place = p.landing d.here :=
  resolve_eq_ok (writePlace_eq_ok h).1

theorem readFile_of_resolve {d : Disk} {p : Path} {place : Place} {content : ByteArray}
    (hr : d.resolve p = .ok place) (hs : endsInSlash p = false)
    (hf : d.fileAt place = some content) : d.readFile p = .ok content := by
  unfold readFile find
  rw [hr]
  simp only [bind, Except.bind, get?_of_fileAt hf, hs, Bool.false_eq_true, if_false]

/-! ## Making directories -/

/-- The disk is an extension, and every file is as it was. -/
structure GrowsOver (d later : Disk) : Prop where
  extension : d.Extends later
  files : ∀ place, later.fileAt place = d.fileAt place

theorem GrowsOver.refl (d : Disk) : d.GrowsOver d := ⟨.refl d, fun _ => rfl⟩

theorem GrowsOver.trans {d later last : Disk} (h : d.GrowsOver later) (h' : later.GrowsOver last) :
    d.GrowsOver last :=
  ⟨h.extension.trans h'.extension, fun place => (h'.files place).trans (h.files place)⟩

theorem makeDirectory_growsOver {d made : Disk} {p : Path} (h : d.makeDirectory p = .ok made) :
    d.GrowsOver made := by
  obtain ⟨place, -, h⟩ := bind_eq_ok.mp h
  split at h
  · cases h
  · rename_i hnone
    cases h
    refine ⟨extends_set (by rw [hnone]; exact nofun) _, fun other => ?_⟩
    by_cases ho : other = place
    · subst ho
      have hne : other ≠ [] := by
        rintro rfl
        cases hnone
      unfold fileAt
      rw [d.get?_set_self hne, hnone]
    · exact fileAt_set_of_ne d ho _

theorem makeEach_growsOver (d : Disk) (paths : List Path) :
    d.GrowsOver (d.makeEach paths).1 := by
  induction paths generalizing d with
  | nil => exact .refl d
  | cons p above ih =>
    unfold makeEach
    split_ifs
    · exact .refl d
    · dsimp only
      split
      · exact makeDirectory_growsOver ‹_›
      · -- the path is tried once more below what was made above it
        have habove := ih d
        split
        · rename_i hmade
          rw [hmade] at habove
          exact habove
        · rename_i hmade
          rw [hmade] at habove
          split
          · exact habove.trans (makeDirectory_growsOver ‹_›)
          · exact habove
      · exact .refl d

/-- Making directories keeps all that was there, whether it succeeds or not. -/
theorem makeDirectories_growsOver (d : Disk) (p : Path) : d.GrowsOver (d.makeDirectories p).1 :=
  makeEach_growsOver d p.ancestors

/-! ## Directories that are there -/

theorem isDirectory_iff {d : Disk} {p : Path} :
    d.isDirectory p = true ↔ ∃ place, d.resolve p = .ok place ∧ d.get? place = some .directory := by
  unfold isDirectory find
  cases d.resolve p with
  | error trouble => simp [bind, Except.bind]
  | ok place =>
    cases hn : d.get? place with
    | none => simp [bind, Except.bind, hn]
    | some node => cases node <;> cases endsInSlash p <;> simp [bind, Except.bind, hn]

theorem Extends.isDirectory {d later : Disk} (h : d.Extends later) {p : Path}
    (hp : d.isDirectory p = true) : later.isDirectory p = true := by
  obtain ⟨place, hr, hd⟩ := isDirectory_iff.mp hp
  exact isDirectory_iff.mpr ⟨place, h.resolve hr, h.directories place hd⟩

theorem isDirectory_of_makeDirectory {d made : Disk} {p : Path} (h : d.makeDirectory p = .ok made) :
    made.isDirectory p = true := by
  have hextends := (makeDirectory_growsOver h).extension
  obtain ⟨place, hr, h⟩ := bind_eq_ok.mp h
  split at h
  · cases h
  · rename_i hnone
    cases h
    have hne : place ≠ [] := by
      rintro rfl
      cases hnone
    exact isDirectory_iff.mpr ⟨place, hextends.resolve hr, d.get?_set_self hne _⟩

theorem isDirectory_of_makeEach {d made : Disk} {p : Path} {above : List Path}
    (h : d.makeEach (p :: above) = (made, none)) (hp : p.text ≠ "") :
    made.isDirectory p = true := by
  unfold makeEach at h
  rw [if_neg hp] at h
  dsimp only at h
  have hthere : ∀ {e : Disk} {trouble : Trouble},
      (e, if e.isDirectory p then none else some trouble) = (made, none) →
        made.isDirectory p = true := by
    intro e trouble heq
    obtain ⟨rfl, hnone⟩ := Prod.mk.inj heq
    split at hnone
    · assumption
    · cases hnone
  split at h
  · cases h
    exact isDirectory_of_makeDirectory ‹_›
  · split at h
    · cases h
    · split at h
      · cases h
        exact isDirectory_of_makeDirectory ‹_›
      · exact hthere h
  · exact hthere h

/-- A directory that was made is there. -/
theorem isDirectory_of_makeDirectories {d made : Disk} {p : Path}
    (h : d.makeDirectories p = (made, none)) (hp : p.text ≠ "") : made.isDirectory p = true := by
  obtain ⟨above, habove⟩ : ∃ above, p.ancestors = p :: above := by
    unfold Path.ancestors Path.ancestorsWithin
    split <;> exact ⟨_, rfl⟩
  unfold makeDirectories at h
  rw [habove] at h
  exact isDirectory_of_makeEach h hp

/-! ## Files that are there -/

theorem find_eq_file_iff {d : Disk} {p : Path} {content : ByteArray} :
    d.find p = .ok (.file content) ↔
      ∃ place, d.resolve p = .ok place ∧ endsInSlash p = false ∧ d.fileAt place = some content := by
  unfold find fileAt
  cases d.resolve p with
  | error trouble => simp [bind, Except.bind]
  | ok place =>
    cases hn : d.get? place with
    | none => simp [bind, Except.bind, hn]
    | some node => cases node <;> cases endsInSlash p <;> simp [bind, Except.bind, hn]

theorem isDirectory_of_file {d : Disk} {p : Path} {content : ByteArray}
    (h : d.find p = .ok (.file content)) : d.isDirectory p = false := by
  unfold isDirectory
  rw [h]

end BlockScript.Disk
