/-
  Unpacking stays in its directory.

  The name of an entry that is enclosed never climbs above its start, so all that its path comes by
  below the directory lies in it, and all that it comes by before is a directory already
  (`enters_entry`). Hence unpacking an entry changes nothing outside, however it ends
  (`Entered.inside`), and neither does the whole unpacking once its directory is made
  (`extract_confined`). One that succeeds has delivered all its entries (`extract_staysInside`).
-/
import BlockScript.Proofs.Command.Extraction
import BlockScript.Proofs.Disk.Passage

namespace BlockScript

open BlockScript.Command.Run BlockScript.Disk

/-! ## Enclosed names -/

namespace Archive.Entry

variable {e : Entry} {home place : Place}

/-- A name that is enclosed stays below its start: by induction on its pieces, `more` being how it
    has come down from there so far. -/
theorem home_prefix_of_foldlM {pieces : List (List Char)} {more : Place} {depth : Nat}
    (h : pieces.foldlM depthAfter? more.length = some depth) :
    home <+: (pieces.map String.ofList).foldl onward (home ++ more) := by
  induction pieces generalizing more with
  | nil => exact List.prefix_append home more
  | cons piece pieces ih =>
    rw [List.foldlM_cons] at h
    obtain ⟨between, hfirst, hrest⟩ := Option.bind_eq_some_iff.mp h
    have hidle : String.ofList piece = "" ∨ String.ofList piece = "." ↔
        piece = [] ∨ piece = ['.'] := by
      rw [← String.ofList_inj, ← String.ofList_inj]
    have hclimb : String.ofList piece = ".." ↔ piece = ['.', '.'] := by
      rw [← String.ofList_inj]
    rw [List.map_cons, List.foldl_cons]
    unfold onward
    unfold depthAfter? at hfirst
    split_ifs at hfirst with hi hc hzero
    · cases hfirst
      rw [if_pos (hidle.mpr hi)]
      exact ih hrest
    · cases hfirst
      rw [if_neg (mt hidle.mp hi), if_pos (hclimb.mpr hc)]
      have hne : more ≠ [] := by
        rintro rfl
        exact hzero rfl
      rw [List.dropLast_append_of_ne_nil hne]
      rw [← List.length_dropLast] at hrest
      exact ih hrest
    · cases hfirst
      rw [if_neg (mt hidle.mp hi), if_neg (mt hclimb.mp hc), List.append_assoc]
      apply ih
      rw [List.length_append]
      exact hrest

theorem isAbsolute_of_isEnclosed (h : e.isEnclosed = true) :
    (⟨e.name⟩ : Disk.Path).isAbsolute = false := by
  unfold isEnclosed at h
  simp only [Bool.and_eq_true, bne_iff_ne] at h
  unfold Path.isAbsolute
  rw [beq_eq_false_iff_ne]
  exact h.1.2

/-- All that an enclosed name comes by lies where it starts or below. -/
theorem home_prefix_of_isEnclosed (h : e.isEnclosed = true)
    (hplace : (⟨e.name⟩ : Disk.Path).Passes home place) : home <+: place := by
  have habsolute := isAbsolute_of_isEnclosed h
  unfold isEnclosed at h
  simp only [Bool.and_eq_true] at h
  obtain ⟨depth, hdepth⟩ := Option.isSome_iff_exists.mp h.2
  obtain ⟨front, ⟨back, hpieces⟩, rfl⟩ := hplace
  unfold Path.pieces at hpieces
  obtain ⟨parts, others, hparts, rfl, -⟩ := List.map_eq_append_iff.mp hpieces.symm
  rw [hparts, List.foldlM_append] at hdepth
  obtain ⟨between, hbetween, -⟩ := Option.bind_eq_some_iff.mp hdepth
  have hstart : (⟨e.name⟩ : Disk.Path).origin home = home ++ [] := by
    unfold Path.origin
    rw [habsolute, List.append_nil]
    rfl
  rw [hstart]
  exact home_prefix_of_foldlM hbetween

end Archive.Entry

/-! ## Changes inside a place -/

namespace Disk

/-- Outside of a place all is as it was. -/
def Inside (home : Place) (d later : Disk) : Prop :=
  ∀ place, ¬ home <+: place → later.get? place = d.get? place

theorem Inside.refl (home : Place) (d : Disk) : Inside home d d := fun _ _ => rfl

theorem Inside.trans {home : Place} {d later last : Disk} (h : Inside home d later)
    (h' : Inside home later last) : Inside home d last :=
  fun place hplace => (h' place hplace).trans (h place hplace)

theorem inside_set {home place : Place} (h : home <+: place) (d : Disk) (node : Node) :
    Inside home d (d.set place node) := by
  intro other hother
  apply d.get?_set_of_ne
  rintro rfl
  exact hother h

/-- All that the path comes by is inside the place or is a directory already. -/
def Enters (home : Place) (p : Path) (d : Disk) : Prop :=
  ∀ place, p.Passes d.here place → home <+: place ∨ d.get? place = some .directory

theorem Enters.parent {home : Place} {p above : Path} {d : Disk} (h : Enters home p d)
    (habove : p.parent? = some above) : Enters home above d :=
  fun place hplace => h place (Path.passes_of_parent habove hplace)

theorem Enters.extends {home : Place} {p : Path} {d later : Disk} (h : Enters home p d)
    (hextends : d.Extends later) : Enters home p later := by
  intro place hplace
  rw [hextends.here] at hplace
  exact (h place hplace).imp_right (hextends.directories place)

theorem Enters.inside_makeDirectories {home : Place} {p : Path} {d : Disk} (h : Enters home p d) :
    Inside home d (d.makeDirectories p).1 := by
  intro place hplace
  rcases makeDirectories_adds d p place with hsame | ⟨hnone, -, q, hq, rfl⟩
  · exact hsame
  · rcases h _ (Path.passes_of_mem_ancestors hq d.here) with hin | hdirectory
    · exact absurd hin hplace
    · rw [hnone] at hdirectory
      cases hdirectory

theorem Enters.prefix_of_writePlace {home place : Place} {p : Path} {d : Disk}
    (h : Enters home p d) (hplace : d.writePlace p = .ok place) : home <+: place := by
  have hpasses := p.passes_landing d.here
  rw [← writePlace_eq_landing hplace] at hpasses
  exact (h place hpasses).resolve_right (writePlace_eq_ok hplace).2.1

/-- Behind the making of a directory its path enters the place it leads to. -/
theorem enters_of_makeDirectories {d made : Disk} {p : Path}
    (h : d.makeDirectories p = (made, none)) : Enters (p.landing made.here) p made := by
  intro place hplace
  by_cases hp : p.text = ""
  · obtain ⟨text⟩ := p
    subst hp
    rw [Path.eq_of_passes_empty hplace]
    exact .inl List.prefix_rfl
  · obtain ⟨landed, hresolve, hdirectory⟩ :=
      isDirectory_iff.mp (isDirectory_of_makeDirectories h hp)
    rcases directory_of_passes hresolve hplace with rfl | hbefore
    · exact .inr hdirectory
    · exact .inr hbefore

end Disk

namespace Command

open BlockScript.Archive

/-- From a directory that is there, the path of an enclosed entry enters the directory. -/
theorem enters_entry {out : Disk.Path} {e : Entry} {d : Disk}
    (hout : Enters (out.landing d.here) out d) (he : e.isEnclosed = true) :
    Enters (out.landing d.here) (out.join e.name) d := by
  intro place hplace
  rcases Path.passes_join (Entry.isAbsolute_of_isEnclosed he) hplace with hfirst | hsecond
  · exact hout place hfirst
  · exact .inl (Entry.home_prefix_of_isEnclosed he hsecond)

/-- The path of a directory entry is not the empty one. -/
theorem join_ne_empty {out : Disk.Path} {e : Entry} (h : e.isDirectory = true) :
    (out.join e.name).text ≠ "" := by
  have hname : e.name ≠ "" := by
    intro hempty
    unfold Entry.isDirectory at h
    rw [hempty] at h
    cases h
  unfold Path.join
  split_ifs
  · exact hname
  · rw [Ne, String.append_eq_empty_iff]
    exact fun hempty => hname hempty.2
  · rw [Ne, String.append_eq_empty_iff]
    exact fun hempty => hname hempty.2

/-! ## One entry, however it ends -/

/-- The disk on which a file is written: with the directory that the file stands in. -/
def withParent (d : Disk) (p : Disk.Path) : Disk :=
  match p.parent? with
  | some parent => (d.makeDirectories parent).1
  | none => d

/-- How the unpacking of an entry ends, and what it makes of the disk. -/
inductive Entered (out : Disk.Path) (e : Entry) (d : Disk) : Except Failure Bool → Disk → Prop
  | unopened (failure : Failure) : Entered out e d (.error failure) d
  | skipped (he : e.isEnclosed = false) : Entered out e d (.ok false) d
  | directory (he : e.isEnclosed = true) (hd : e.isDirectory = true) {result : Except Failure Bool}
    (hresult : result = .ok false ∨ ∃ failure, result = .error failure) :
    Entered out e d result (d.makeDirectories (out.join e.name)).1
  | unwritten (he : e.IsUnpackedFile) (failure : Failure) :
    Entered out e d (.error failure) (withParent d (out.join e.name))
  | written (he : e.IsUnpackedFile) {place : Place} (content : ByteArray)
    (hplace : (withParent d (out.join e.name)).writePlace (out.join e.name) = .ok place) :
    Entered out e d (.ok true) ((withParent d (out.join e.name)).set place (.file content))

theorem exists_archiveBytes_run (place : Place) (w : World) :
    ∃ bytes, (archiveBytes place).run w = (.ok bytes, w) := by
  unfold archiveBytes
  rw [run_bind_of_ok (run_disk w)]
  split
  · exact ⟨_, run_pure w _⟩
  · exact ⟨_, run_pure w _⟩

section

variable {out : Disk.Path} {e : Entry} {d : Disk} {result : Except Failure Bool} {w next : World}

theorem writeOpened_entered {opened : Opened} (he : e.IsUnpackedFile)
    (hw : w.disk = withParent d (out.join e.name))
    (h : (writeOpened (out.join e.name) opened).run w = (result, next)) :
    Entered out e d result next.disk := by
  unfold writeOpened at h
  split at h
  case h_1 content hread =>
    cases hplace : w.disk.writePlace (out.join e.name) with
    | error trouble =>
      rw [run_bind_of_error (by rw [run_writeFile, hplace])] at h
      cases h
      rw [hw]
      exact .unwritten he _
    | ok place =>
      rw [run_bind_of_ok (by rw [run_writeFile, hplace]), run_pure] at h
      cases h
      rw [hw] at hplace ⊢
      exact .written he content hplace
  case h_2 =>
    cases h
    rw [hw]
    exact .unwritten he _

/-- Unpacking an entry ends in one of these ways. -/
theorem extractEntry_entered {place : Place}
    (h : (extractEntry place out e).run w = (result, next)) :
    Entered out e w.disk result next.disk := by
  obtain ⟨bytes, hbytes⟩ := exists_archiveBytes_run place w
  unfold extractEntry at h
  rw [run_bind_of_ok hbytes] at h
  split at h
  case h_1 opened _ =>
    dsimp only at h
    split at h
    case isTrue he =>
      rw [run_pure] at h
      cases h
      exact .skipped (by simpa using he)
    case isFalse he =>
      have henclosed : e.isEnclosed = true := by simpa using he
      split at h
      case isTrue hd =>
        cases htrouble : (w.disk.makeDirectories (out.join e.name)).2 with
        | none =>
          rw [run_bind_of_ok (by rw [run_makeDirectories, htrouble]), run_pure] at h
          cases h
          exact .directory henclosed hd (.inl rfl)
        | some trouble =>
          rw [run_bind_of_error (by rw [run_makeDirectories, htrouble])] at h
          cases h
          exact .directory henclosed hd (.inr ⟨_, rfl⟩)
      case isFalse hd =>
        have hfile : e.IsUnpackedFile := ⟨henclosed, Bool.eq_false_iff.mpr hd⟩
        split at h
        case h_1 parent hparent =>
          have hmade : withParent w.disk (out.join e.name) =
              (w.disk.makeDirectories parent).1 := by
            unfold withParent
            rw [hparent]
          cases htrouble : (w.disk.makeDirectories parent).2 with
          | none =>
            rw [run_bind_of_ok (by rw [run_makeDirectories, htrouble])] at h
            exact writeOpened_entered hfile hmade.symm h
          | some trouble =>
            rw [run_bind_of_error (by rw [run_makeDirectories, htrouble])] at h
            cases h
            dsimp only
            rw [← hmade]
            exact .unwritten hfile _
        case h_2 hparent =>
          refine writeOpened_entered hfile ?_ h
          unfold withParent
          rw [hparent]
  case h_2 =>
    cases h
    exact .unopened _

theorem growsOver_withParent (d : Disk) (p : Disk.Path) : d.GrowsOver (withParent d p) := by
  unfold withParent
  split
  · exact makeDirectories_growsOver d _
  · exact .refl d

theorem Entered.extends {later : Disk} (h : Entered out e d result later) : d.Extends later := by
  cases h with
  | unopened _ => exact .refl d
  | skipped _ => exact .refl d
  | directory _ _ _ => exact (makeDirectories_growsOver d _).extension
  | unwritten _ _ => exact (growsOver_withParent d _).extension
  | written _ _ hplace =>
    exact (growsOver_withParent d _).extension.trans (extends_set (writePlace_eq_ok hplace).2.1 _)

theorem inside_withParent {home : Place} {p : Disk.Path} (h : Enters home p d) :
    Inside home d (withParent d p) := by
  unfold withParent
  split
  · exact (h.parent ‹_›).inside_makeDirectories
  · exact .refl home d

/-- Unpacking an entry changes nothing outside of the directory. -/
theorem Entered.inside {later : Disk} (hout : Enters (out.landing d.here) out d)
    (h : Entered out e d result later) : Inside (out.landing d.here) d later := by
  cases h with
  | unopened _ => exact .refl _ d
  | skipped _ => exact .refl _ d
  | directory he _ _ => exact (enters_entry hout he).inside_makeDirectories
  | unwritten he _ => exact inside_withParent (enters_entry hout he.1)
  | written he _ hplace =>
    have henters := enters_entry hout he.1
    have hparent := henters.extends (growsOver_withParent d (out.join e.name)).extension
    have hlands := hparent.prefix_of_writePlace hplace
    exact (inside_withParent henters).trans (inside_set hlands _ _)

/-- An entry is counted exactly if it is a file that is unpacked. -/
theorem Entered.counted {later : Disk} {written : Bool} (h : Entered out e d (.ok written) later) :
    written = decide e.IsUnpackedFile := by
  cases h with
  | skipped he => simp [Entry.IsUnpackedFile, he]
  | directory _ hd hresult =>
    rcases hresult with hresult | ⟨failure, hresult⟩
    · cases hresult
      simp [Entry.IsUnpackedFile, hd]
    · cases hresult
  | written he _ _ => exact (decide_eq_true he).symm

/-- An entry that is not enclosed leaves no trace. -/
theorem Entered.untouched {later : Disk} (h : Entered out e d result later)
    (he : e.isEnclosed = false) :
    later = d ∧ (result = .ok false ∨ ∃ failure, result = .error failure) := by
  have hopen : ¬ e.isEnclosed = true := by rw [he]; decide
  cases h with
  | unopened failure => exact ⟨rfl, .inr ⟨failure, rfl⟩⟩
  | skipped _ => exact ⟨rfl, .inl rfl⟩
  | directory he' _ _ => exact absurd he' hopen
  | unwritten he' _ => exact absurd he'.1 hopen
  | written he' _ _ => exact absurd he'.1 hopen

end

/-! ## All entries, however they end -/

section

variable {place : Place} {out : Disk.Path} {e : Entry} {rest : List Entry} {w next : World}

theorem extractEntries_cons_of_ok {written : Bool}
    (h : (extractEntry place out e).run w = (.ok written, next)) :
    (extractEntries place out (e :: rest)).run w =
      (((extractEntries place out rest).run next).1.map (· + if written then 1 else 0),
        ((extractEntries place out rest).run next).2) := by
  rw [extractEntries, run_bind_of_ok h]
  cases hrest : (extractEntries place out rest).run next with
  | mk result last =>
    cases result with
    | error failure => rw [run_bind_of_error hrest]; rfl
    | ok count => rw [run_bind_of_ok hrest]; rfl

theorem extractEntries_cons_of_error {failure : Failure}
    (h : (extractEntry place out e).run w = (.error failure, next)) :
    (extractEntries place out (e :: rest)).run w = (.error failure, next) := by
  rw [extractEntries, run_bind_of_error h]

end

/-- Unpacking entries changes nothing outside of the directory, wherever it ends. -/
theorem extractEntries_inside (place : Place) {out : Disk.Path} (entries : List Entry) {w : World}
    (hout : Enters (out.landing w.disk.here) out w.disk) :
    Inside (out.landing w.disk.here) w.disk ((extractEntries place out entries).run w).2.disk := by
  induction entries generalizing w with
  | nil => exact .refl _ _
  | cons e rest ih =>
    cases hrun : (extractEntry place out e).run w with
    | mk result next =>
      have hentered := extractEntry_entered hrun
      cases result with
      | error failure =>
        rw [extractEntries_cons_of_error hrun]
        exact hentered.inside hout
      | ok written =>
        rw [extractEntries_cons_of_ok hrun]
        have hhere := hentered.extends.here
        have hrest := ih (w := next) (by rw [hhere]; exact hout.extends hentered.extends)
        rw [hhere] at hrest
        exact (hentered.inside hout).trans hrest

theorem extractEntries_counted {place : Place} {out : Disk.Path} {entries : List Entry}
    {w next : World} {count : Nat}
    (h : (extractEntries place out entries).run w = (.ok count, next)) :
    count = entries.countP fun e => decide e.IsUnpackedFile := by
  induction entries generalizing w count with
  | nil =>
    rw [extractEntries, run_pure] at h
    cases h
    rfl
  | cons e rest ih =>
    rw [extractEntries] at h
    obtain ⟨written, between, hfirst, h'⟩ := run_bind_eq_ok.mp h
    obtain ⟨count', last, hrest, hreturned⟩ := run_bind_eq_ok.mp h'
    rw [run_pure] at hreturned
    cases hreturned
    rw [List.countP_cons, ih hrest, (extractEntry_entered hfirst).counted]

theorem extractEntry_skipped {place : Place} {out : Disk.Path} {e : Entry} {w next : World}
    {result : Except Failure Bool} (he : e.isEnclosed = false)
    (h : (extractEntry place out e).run w = (result, next)) :
    next = w ∧ (result = .ok false ∨ ∃ failure, result = .error failure) := by
  obtain ⟨hdisk, hresult⟩ := (extractEntry_entered h).untouched he
  have hevents := (keeps_extractEntry place out e).of_run h
  obtain ⟨disk, events⟩ := next
  cases hdisk
  cases hevents
  exact ⟨rfl, hresult⟩

/-- Entries that are not enclosed leave no trace: the world is the one that the others alone leave,
    as far as the unpacking gets. -/
theorem extractEntries_enclosed (place : Place) (out : Disk.Path) (entries : List Entry)
    (w : World) :
    ∃ kept, kept <+: entries.filter Entry.isEnclosed ∧
      ((extractEntries place out entries).run w).2 = ((extractEntries place out kept).run w).2 ∧
      ∀ count, ((extractEntries place out entries).run w).1 = .ok count →
        kept = entries.filter Entry.isEnclosed := by
  induction entries generalizing w with
  | nil => exact ⟨[], List.prefix_rfl, rfl, fun _ _ => rfl⟩
  | cons e rest ih =>
    cases hrun : (extractEntry place out e).run w with
    | mk result next =>
      by_cases he : e.isEnclosed = true
      · rw [List.filter_cons_of_pos he]
        cases result with
        | error failure =>
          refine ⟨[e], List.cons_prefix_cons.mpr ⟨rfl, List.nil_prefix⟩, ?_, fun count h => ?_⟩
          · rw [extractEntries_cons_of_error hrun, extractEntries_cons_of_error hrun]
          · rw [extractEntries_cons_of_error hrun] at h
            cases h
        | ok written =>
          obtain ⟨kept, hkept, hworld, hall⟩ := ih next
          refine ⟨e :: kept, List.cons_prefix_cons.mpr ⟨rfl, hkept⟩, ?_, fun count h => ?_⟩
          · rw [extractEntries_cons_of_ok hrun, extractEntries_cons_of_ok hrun, hworld]
          · rw [extractEntries_cons_of_ok hrun] at h
            obtain ⟨others, hothers, -⟩ := Results.map_eq_ok.mp h
            rw [hall others hothers]
      · rw [List.filter_cons_of_neg he]
        obtain ⟨rfl, hresult⟩ := extractEntry_skipped (Bool.eq_false_iff.mpr he) hrun
        rcases hresult with rfl | ⟨failure, rfl⟩
        · obtain ⟨kept, hkept, hworld, hall⟩ := ih next
          refine ⟨kept, hkept, ?_, fun count h => ?_⟩
          · rw [extractEntries_cons_of_ok hrun, hworld]
          · rw [extractEntries_cons_of_ok hrun] at h
            obtain ⟨others, hothers, -⟩ := Results.map_eq_ok.mp h
            exact hall others hothers
        · refine ⟨[], List.nil_prefix, ?_, fun count h => ?_⟩
          · rw [extractEntries_cons_of_error hrun]
            rfl
          · rw [extractEntries_cons_of_error hrun] at h
            cases h

/-! ## The whole unpacking -/

/-- Outside of the place that a path leads to all is as it was, except that there may be new
    directories where the paths above it lead. -/
def Confined (out : Disk.Path) (d later : Disk) : Prop :=
  ∀ place, ¬ out.landing d.here <+: place → later.get? place = d.get? place ∨
    d.get? place = none ∧ later.get? place = some .directory ∧
      ∃ p ∈ out.ancestors, p.landing d.here = place

theorem Confined.refl (out : Disk.Path) (d : Disk) : Confined out d d := fun _ _ => .inl rfl

/-- However an unpacking ends, it is confined to its directory. -/
theorem extract_confined (archive out : Disk.Path) (w : World) :
    Confined out w.disk ((extract archive out).run w).2.disk := by
  unfold extract
  cases hopen : (openArchive archive).run w with
  | mk result next =>
    have hdisk : next.disk = w.disk := (keeps_openArchive archive).of_run hopen
    cases result with
    | error failure =>
      rw [run_bind_of_error hopen, hdisk]
      exact .refl out w.disk
    | ok found =>
      obtain ⟨place, entries⟩ := found
      rw [run_bind_of_ok hopen]
      dsimp only
      have hadds := makeDirectories_adds next.disk out
      have hhere := (makeDirectories_growsOver next.disk out).extension.here
      cases hmade : next.disk.makeDirectories out with
      | mk made trouble =>
        rw [hmade, hdisk] at hadds hhere
        cases trouble with
        | some trouble =>
          rw [run_bind_of_error (by rw [run_makeDirectories, hmade])]
          exact fun stop _ => hadds stop
        | none =>
          rw [run_bind_of_ok (by rw [run_makeDirectories, hmade])]
          have hinside := extractEntries_inside place entries (w := { next with disk := made })
            (enters_of_makeDirectories hmade)
          dsimp only at hinside hhere
          rw [hhere] at hinside
          intro stop hstop
          dsimp only
          rw [hinside stop hstop]
          exact hadds stop

/-! ## What an unpacking delivers -/

/-- The last of the files among some entries that lands at a place. -/
def lastAt (out : Disk.Path) (here : Place) (entries : List Entry) (place : Place) :
    Option Entry :=
  entries.reverse.find? fun e =>
    decide (e.IsUnpackedFile ∧ (out.join e.name).landing here = place)

theorem lastAt_eq_some {out : Disk.Path} {here place : Place} {entries : List Entry} {e : Entry}
    (h : lastAt out here entries place = some e) :
    e.IsUnpackedFile ∧ (out.join e.name).landing here = place ∧
      ∃ before after, entries = before ++ e :: after ∧
        ∀ e' ∈ after, e'.IsUnpackedFile → (out.join e'.name).landing here ≠ place := by
  obtain ⟨he, after, before, hreverse, hnone⟩ := List.find?_eq_some_iff_append.mp h
  obtain ⟨hfile, hplace⟩ := of_decide_eq_true he
  refine ⟨hfile, hplace, before.reverse, after.reverse, ?_, fun e' he' hfile' hplace' => ?_⟩
  · rw [← entries.reverse_reverse, hreverse]
    simp
  · have hnot := hnone e' (List.mem_reverse.mp he')
    simp [hfile', hplace'] at hnot

theorem lastAt_eq_none {out : Disk.Path} {here place : Place} {entries : List Entry}
    (h : lastAt out here entries place = none) :
    ∀ e ∈ entries, e.IsUnpackedFile → (out.join e.name).landing here ≠ place := by
  intro e he hfile hplace
  have hnot := List.find?_eq_none.mp h e (List.mem_reverse.mpr he)
  exact hnot (decide_eq_true ⟨hfile, hplace⟩)

section

variable {bytes : ByteArray} {out : Disk.Path} {entries : List Entry} {d later : Disk}

/-- The path of a file that was unpacked still leads to where it went. -/
theorem UnpacksAll.resolve_there (h : UnpacksAll bytes out entries d later) {e : Entry}
    (he : e ∈ entries) (hfile : e.IsUnpackedFile) :
    later.resolve (out.join e.name) = .ok ((out.join e.name).landing d.here) ∧
      endsInSlash (out.join e.name) = false := by
  induction h with
  | nil d => cases he
  | @cons first rest d between later hfirst hrest ih =>
    rcases List.mem_cons.mp he with rfl | he
    · obtain ⟨content, -, hthere⟩ := hfirst.file_there hfile
      obtain ⟨place, hresolve, hslash, -⟩ := find_eq_file_iff.mp hthere
      rw [← hfirst.extends.here, ← resolve_eq_ok hresolve]
      exact ⟨hrest.extends.resolve hresolve, hslash⟩
    · rw [← hfirst.extends.here]
      exact ih he

/-- A directory that was unpacked is there. -/
theorem UnpacksAll.directory_there (h : UnpacksAll bytes out entries d later) {e : Entry}
    (he : e ∈ entries) (henclosed : e.isEnclosed = true) (hdirectory : e.isDirectory = true) :
    later.isDirectory (out.join e.name) = true := by
  induction h with
  | nil d => cases he
  | @cons first rest d between later hfirst hrest ih =>
    rcases List.mem_cons.mp he with rfl | he
    · apply hrest.extends.isDirectory
      cases hfirst with
      | skipped hskipped => exact absurd henclosed (by rw [hskipped]; decide)
      | directory _ _ hmade => exact isDirectory_of_makeDirectories hmade (join_ne_empty hdirectory)
      | file hfile _ _ _ => exact absurd hdirectory (by rw [hfile.2]; decide)
    · exact ih he

end

/-- What an unpacking has made of the disk `d` when it has succeeded: it has counted its files, each
    of them has the content of the last one that lands there, each directory is there, and every
    other file is as it was. -/
structure Delivered (bytes : ByteArray) (entries : List Entry) (out : Disk.Path) (count : Nat)
    (d later : Disk) : Prop where
  counted : count = entries.countP fun e => decide e.IsUnpackedFile
  files : ∀ e ∈ entries, e.IsUnpackedFile → ∃ last content,
    lastAt out d.here entries ((out.join e.name).landing d.here) = some last ∧
      last.content? bytes = some content ∧ later.find (out.join e.name) = .ok (.file content)
  directories : ∀ e ∈ entries, e.isEnclosed = true → e.isDirectory = true →
    later.isDirectory (out.join e.name) = true
  others : ∀ place, lastAt out d.here entries place = none → later.fileAt place = d.fileAt place

theorem delivered_of_unpacks {bytes : ByteArray} {entries : List Entry} {out : Disk.Path}
    {count : Nat} {d made later : Disk} (hmade : d.GrowsOver made)
    (h : UnpacksAll bytes out entries made later)
    (hcount : count = entries.countP fun e => decide e.IsUnpackedFile) :
    Delivered bytes entries out count d later := by
  have hhere := hmade.extension.here
  refine ⟨hcount, fun e he hfile => ?_, fun e => h.directory_there, fun place hnone => ?_⟩
  · cases hlast : lastAt out d.here entries ((out.join e.name).landing d.here) with
    | none => exact absurd rfl (lastAt_eq_none hlast e he hfile)
    | some last =>
      obtain ⟨hlastFile, hsame, before, after, rfl, hafter⟩ := lastAt_eq_some hlast
      rw [← hhere] at hafter hsame
      obtain ⟨content, hcontent, hthere⟩ := h.file_there hlastFile (hsame ▸ hafter)
      obtain ⟨place, hresolve, -, hcontains⟩ := find_eq_file_iff.mp hthere
      obtain ⟨hresolve', hslash⟩ := h.resolve_there he hfile
      refine ⟨last, content, rfl, hcontent, find_eq_file_iff.mpr ⟨_, hresolve', hslash, ?_⟩⟩
      rw [← hsame, ← h.extends.here, ← resolve_eq_ok hresolve]
      exact hcontains
  · rw [h.fileAt_of_forall_ne, hmade.files]
    rw [hhere]
    exact lastAt_eq_none hnone

/-- An unpacking never reaches outside of its directory, whether it succeeds or fails, and entries
    that are not enclosed leave no trace. One that succeeds, and of which no file lands on the
    archive itself, has delivered all its entries. -/
theorem extract_staysInside (archive out : Disk.Path) (w : World) :
    Confined out w.disk ((extract archive out).run w).2.disk ∧
    (∀ (place : Place) (entries : List Entry) (v : World), ∃ kept,
      kept <+: entries.filter Entry.isEnclosed ∧
      ((extractEntries place out entries).run v).2 = ((extractEntries place out kept).run v).2 ∧
      ∀ count, ((extractEntries place out entries).run v).1 = .ok count →
        kept = entries.filter Entry.isEnclosed) ∧
    ∀ count next, (extract archive out).run w = (.ok count, next) →
      (∀ e ∈ listedEntries w.disk archive, e.IsUnpackedFile →
        (out.join e.name).landing w.disk.here ≠ archive.landing w.disk.here) →
      ∃ place bytes entries, ArchiveAt w.disk archive place bytes entries ∧
        Delivered bytes entries out count w.disk next.disk := by
  refine ⟨extract_confined archive out w, fun place => extractEntries_enclosed place out, ?_⟩
  intro count next hrun hspared
  obtain ⟨⟨place, entries⟩, v, hopen, -⟩ := run_bind_eq_ok.mp hrun
  obtain ⟨rfl, bytes, hat⟩ := openArchive_eq_ok hopen
  rw [hat.listedEntries, ← resolve_eq_ok hat.resolve] at hspared
  obtain ⟨made, hmade, hentries, hunpacks⟩ := extract_unpacks hat hspared hrun
  have hgrows := makeDirectories_growsOver v.disk out
  rw [hmade] at hgrows
  exact ⟨place, bytes, entries, hat,
    delivered_of_unpacks hgrows hunpacks (extractEntries_counted hentries)⟩

/-- An archive of an entry that climbs, `../e`, and two files that land at the same place, `a` and
    `./a`. -/
def tangled : ByteArray := ⟨#[
  80, 75, 3, 4, 20, 0, 0, 0, 0, 0, 0, 0, 33, 0, 0, 0, 0, 0, 0, 0, 0, 0, 0, 0, 0, 0, 4, 0, 0, 0, 46,
  46, 47, 101, 80, 75, 3, 4, 20, 0, 0, 0, 0, 0, 0, 0, 33, 0, 0, 0, 0, 0, 0, 0, 0, 0, 0, 0, 0, 0, 1,
  0, 0, 0, 97, 80, 75, 3, 4, 20, 0, 0, 0, 0, 0, 0, 0, 33, 0, 13, 190, 213, 26, 1, 0, 0, 0, 1, 0, 0,
  0, 3, 0, 0, 0, 46, 47, 97, 50, 80, 75, 1, 2, 20, 0, 20, 0, 0, 0, 0, 0, 0, 0, 33, 0, 0, 0, 0, 0,
  0, 0, 0, 0, 0, 0, 0, 0, 4, 0, 0, 0, 0, 0, 0, 0, 0, 0, 0, 0, 128, 1, 0, 0, 0, 0, 46, 46, 47, 101,
  80, 75, 1, 2, 20, 0, 20, 0, 0, 0, 0, 0, 0, 0, 33, 0, 0, 0, 0, 0, 0, 0, 0, 0, 0, 0, 0, 0, 1, 0, 0,
  0, 0, 0, 0, 0, 0, 0, 0, 0, 128, 1, 34, 0, 0, 0, 97, 80, 75, 1, 2, 20, 0, 20, 0, 0, 0, 0, 0, 0, 0,
  33, 0, 13, 190, 213, 26, 1, 0, 0, 0, 1, 0, 0, 0, 3, 0, 0, 0, 0, 0, 0, 0, 0, 0, 0, 0, 128, 1, 65,
  0, 0, 0, 46, 47, 97, 80, 75, 5, 6, 0, 0, 0, 0, 3, 0, 3, 0, 146, 0, 0, 0, 99, 0, 0, 0, 0, 0]⟩

/-- A disk with nothing but the archive. -/
def tangledShelf : World where
  disk.nodes := [(["pack.sb3"], .file tangled)]
  disk.here := []

theorem extract_staysInside_tangled :
    ∃ next, (extract ⟨"pack.sb3"⟩ ⟨"out/in"⟩).run tangledShelf = (.ok 2, next) ∧
      Confined ⟨"out/in"⟩ tangledShelf.disk next.disk ∧
      ∃ place bytes entries, ArchiveAt tangledShelf.disk ⟨"pack.sb3"⟩ place bytes entries ∧
        Delivered bytes entries ⟨"out/in"⟩ 2 tangledShelf.disk next.disk := by
  have hruns : ((extract ⟨"pack.sb3"⟩ ⟨"out/in"⟩).run tangledShelf).1 = .ok 2 ∧
      ∀ e ∈ listedEntries tangledShelf.disk ⟨"pack.sb3"⟩, e.IsUnpackedFile →
        (Path.join ⟨"out/in"⟩ e.name).landing tangledShelf.disk.here ≠
          Path.landing tangledShelf.disk.here ⟨"pack.sb3"⟩ := by
    decide +kernel
  obtain ⟨hrun, hspared⟩ := hruns
  obtain ⟨hconfined, -, hdelivers⟩ := extract_staysInside ⟨"pack.sb3"⟩ ⟨"out/in"⟩ tangledShelf
  exact ⟨_, run_eq_of_fst hrun, hconfined, hdelivers 2 _ (run_eq_of_fst hrun) hspared⟩

end Command

end BlockScript
