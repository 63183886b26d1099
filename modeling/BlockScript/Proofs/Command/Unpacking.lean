/-
  What unpacking an archive does to the disk.

  One entry is passed over, makes a directory, or makes the directory it is in and writes a file
  (`Unpacks`). As long as no file lands on the archive itself, every entry is read from the same
  bytes, and an unpacking that succeeds is such a step for each entry in turn
  (`extractEntries_unpacks`). It keeps all directories, and a place holds what the last entry that
  lands there holds, or else what it held before (`UnpacksAll.file_there`,
  `UnpacksAll.fileAt_of_forall_ne`). Reading from an archive keeps every part of the world, and
  unpacking it keeps what was reported (`keeps_readProjectText`, `keeps_extract`).
-/
import BlockScript.Command.Source
import BlockScript.Proofs.Command.Runs

namespace BlockScript

open BlockScript.Command.Run BlockScript.Disk

namespace Archive

/-! ## Entries -/

/-- Whether unpacking writes a file for the entry. -/
def Entry.IsUnpackedFile (e : Entry) : Prop := e.isEnclosed = true ∧ e.isDirectory = false

/-- The content of an entry in the bytes of its archive. -/
def Entry.content? (e : Entry) (bytes : ByteArray) : Option ByteArray :=
  (e.open? bytes).bind Opened.read?

/-- No two entries of an archive have the same name. -/
theorem nodup_names_entries {bytes : ByteArray} {entries : List Entry}
    (h : entries? bytes = some entries) : (entries.map Entry.name).Nodup := by
  obtain ⟨listed, -, rfl⟩ := Option.map_eq_some_iff.mp h
  have hkeys : ∀ entry ∈ Keyed.settle (listed.map fun e => (e.name, e)),
      (Entry.name ∘ Prod.snd) entry = entry.1 := by
    intro entry hentry
    obtain ⟨e, -, rfl⟩ := List.mem_map.mp (Keyed.mem_settle hentry)
    rfl
  rw [List.map_map, List.map_congr_left hkeys]
  exact Keyed.nodup_keys_settle _

theorem name_ne_of_nodup {before after : List Entry} {e e' : Entry}
    (h : ((before ++ e :: after).map Entry.name).Nodup) (he' : e' ∈ after) : e'.name ≠ e.name := by
  rw [List.map_append, List.map_cons] at h
  have hafter := (List.nodup_cons.mp (List.nodup_append.mp h).2.1).1
  intro heq
  exact hafter (heq ▸ List.mem_map_of_mem he')

end Archive

namespace Command

open BlockScript.Archive

/-! ## Opening an archive -/

/-- An archive on a disk: where its file stands, the bytes of the file and the entries it lists. -/
structure ArchiveAt (d : Disk) (archive : Disk.Path) (place : Place) (bytes : ByteArray)
    (entries : List Entry) : Prop where
  resolve : d.resolve archive = .ok place
  plain : endsInSlash archive = false
  file : d.fileAt place = some bytes
  listed : entries? bytes = some entries

theorem ArchiveAt.find {d : Disk} {archive : Disk.Path} {place : Place} {bytes : ByteArray}
    {entries : List Entry} (h : ArchiveAt d archive place bytes entries) :
    d.find archive = .ok (.file bytes) :=
  find_eq_file_iff.mpr ⟨place, h.resolve, h.plain, h.file⟩

theorem ArchiveAt.unique {d : Disk} {archive : Disk.Path} {place place' : Place}
    {bytes bytes' : ByteArray} {entries entries' : List Entry}
    (h : ArchiveAt d archive place bytes entries)
    (h' : ArchiveAt d archive place' bytes' entries') :
    place' = place ∧ bytes' = bytes ∧ entries' = entries := by
  have hplace : place' = place := Except.ok.inj (h'.resolve.symm.trans h.resolve)
  have hfile := h'.file
  rw [hplace] at hfile
  have hbytes : bytes' = bytes := Option.some.inj (hfile.symm.trans h.file)
  have hlisted := h'.listed
  rw [hbytes] at hlisted
  exact ⟨hplace, hbytes, Option.some.inj (hlisted.symm.trans h.listed)⟩

theorem openArchive_eq_ok {w next : World} {archive : Disk.Path} {place : Place}
    {entries : List Entry} (h : (openArchive archive).run w = (.ok (place, entries), next)) :
    next = w ∧ ∃ bytes, ArchiveAt w.disk archive place bytes entries := by
  unfold openArchive at h
  rw [run_bind_of_ok (run_disk w)] at h
  dsimp only at h
  split at h
  case h_1 found bytes hresolve hfind =>
    split at h
    case h_1 listed hlisted =>
      rw [run_pure] at h
      cases h
      obtain ⟨place, hplace, hplain, hfile⟩ := find_eq_file_iff.mp hfind
      rw [hresolve] at hplace
      cases hplace
      exact ⟨rfl, bytes, hresolve, hplain, hfile, hlisted⟩
    case h_2 => cases h
  case h_2 => cases h
  case h_3 => cases h

theorem archiveBytes_run {w : World} {place : Place} {bytes : ByteArray}
    (h : w.disk.fileAt place = some bytes) : (archiveBytes place).run w = (.ok bytes, w) := by
  unfold archiveBytes
  rw [run_bind_of_ok (run_disk w), get?_of_fileAt h]
  rfl

/-- The text that is read from an archive is the content of its project file. -/
theorem readProjectText_eq_ok {w next : World} {archive : Disk.Path} {text : String}
    (h : (readProjectText archive).run w = (.ok text, next)) :
    next = w ∧ ∃ place bytes entries entry content, ArchiveAt w.disk archive place bytes entries ∧
      entry ∈ entries ∧ entry.name = projectFile ∧ entry.content? bytes = some content ∧
        String.fromUTF8? content = some text := by
  unfold readProjectText at h
  obtain ⟨⟨place, entries⟩, v, hopen, hrest⟩ := run_bind_eq_ok.mp h
  obtain ⟨rfl, bytes, hat⟩ := openArchive_eq_ok hopen
  dsimp only at hrest
  rw [run_bind_of_ok (archiveBytes_run hat.file)] at hrest
  split at hrest
  case h_1 opened hopened =>
    obtain ⟨entry, hentry, hopened⟩ := Option.bind_eq_some_iff.mp hopened
    split at hrest
    case h_1 found hfound =>
      rw [run_pure] at hrest
      cases hrest
      obtain ⟨content, hcontent, htext⟩ := Option.bind_eq_some_iff.mp hfound
      have hname := List.find?_some hentry
      refine ⟨rfl, place, bytes, entries, entry, content, hat, List.mem_of_find?_eq_some hentry,
        eq_of_beq hname, ?_, htext⟩
      exact Option.bind_eq_some_iff.mpr ⟨opened, hopened, hcontent⟩
    case h_2 => cases hrest
  case h_2 => cases hrest

/-! ## One entry -/

/-- What unpacking one entry into a directory makes of a disk. -/
inductive Unpacks (bytes : ByteArray) (out : Disk.Path) (e : Entry) (d : Disk) : Disk → Prop
  | skipped (he : e.isEnclosed = false) : Unpacks bytes out e d d
  | directory {made : Disk} (he : e.isEnclosed = true) (hd : e.isDirectory = true)
    (hmade : d.makeDirectories (out.join e.name) = (made, none)) : Unpacks bytes out e d made
  | file {made : Disk} {place : Place} {content : ByteArray} (he : e.IsUnpackedFile)
    (hmade : d.GrowsOver made) (hcontent : e.content? bytes = some content)
    (hplace : made.writePlace (out.join e.name) = .ok place) :
    Unpacks bytes out e d (made.set place (.file content))

/-- What unpacking does with an entry that is a file once it stands in a directory. -/
def writeOpened (path : Disk.Path) (opened : Opened) : Run Bool := do
  let some content := opened.read? | Run.diskFailure []
  Run.writeFile path content
  return true

theorem writeOpened_unpacks {d : Disk} {v next : World} {out : Disk.Path} {e : Entry}
    {opened : Opened} {written : Bool} {bytes : ByteArray} (he : e.IsUnpackedFile)
    (hopened : e.open? bytes = some opened) (hmade : d.GrowsOver v.disk)
    (h : (writeOpened (out.join e.name) opened).run v = (.ok written, next)) :
    Unpacks bytes out e d next.disk := by
  unfold writeOpened at h
  split at h
  case h_1 content hread =>
    obtain ⟨_, between, hwritten, hreturned⟩ := run_bind_eq_ok.mp h
    rw [run_pure] at hreturned
    cases hreturned
    obtain ⟨landed, hplace, hnext⟩ := writeFile_eq_ok hwritten
    rw [hnext]
    exact .file he hmade (Option.bind_eq_some_iff.mpr ⟨opened, hopened, hread⟩) hplace
  case h_2 => cases h

theorem extractEntry_unpacks {w next : World} {place : Place} {out : Disk.Path} {e : Entry}
    {written : Bool} {bytes : ByteArray} (hbytes : w.disk.fileAt place = some bytes)
    (h : (extractEntry place out e).run w = (.ok written, next)) :
    Unpacks bytes out e w.disk next.disk := by
  unfold extractEntry at h
  rw [run_bind_of_ok (archiveBytes_run hbytes)] at h
  cases ho : e.open? bytes with
  | none => rw [ho] at h; cases h
  | some opened =>
    rw [ho] at h
    dsimp only at h
    split at h
    case isTrue he =>
      rw [run_pure] at h
      cases h
      exact .skipped (by simpa using he)
    case isFalse he =>
      have henclosed : e.isEnclosed = true := by simpa using he
      split at h
      case isTrue hd =>
        obtain ⟨_, between, hmade, hreturned⟩ := run_bind_eq_ok.mp h
        rw [run_pure] at hreturned
        cases hreturned
        exact .directory henclosed hd (makeDirectories_eq_ok hmade)
      case isFalse hd =>
        have hfile : e.IsUnpackedFile := ⟨henclosed, Bool.eq_false_iff.mpr hd⟩
        split at h
        case h_1 parent _ =>
          obtain ⟨_, between, hmade, hrest⟩ := run_bind_eq_ok.mp h
          have hgrows := makeDirectories_growsOver w.disk parent
          rw [makeDirectories_eq_ok hmade] at hgrows
          exact writeOpened_unpacks hfile ho hgrows hrest
        case h_2 => exact writeOpened_unpacks hfile ho (.refl _) h

section

variable {bytes : ByteArray} {out : Disk.Path} {e : Entry} {d later : Disk}

theorem Unpacks.extends (h : Unpacks bytes out e d later) : d.Extends later := by
  cases h with
  | skipped _ => exact .refl d
  | directory _ _ hmade =>
    have hgrows := makeDirectories_growsOver d (out.join e.name)
    rw [hmade] at hgrows
    exact hgrows.extension
  | file _ hmade _ hplace =>
    exact hmade.extension.trans (extends_set (writePlace_eq_ok hplace).2.1 _)

/-- A place at which no file lands holds the file that it held. -/
theorem Unpacks.fileAt_of_ne (h : Unpacks bytes out e d later) {place : Place}
    (hne : e.IsUnpackedFile → (out.join e.name).landing d.here ≠ place) :
    later.fileAt place = d.fileAt place := by
  cases h with
  | skipped _ => rfl
  | directory _ _ hmade =>
    have hgrows := makeDirectories_growsOver d (out.join e.name)
    rw [hmade] at hgrows
    exact hgrows.files place
  | @file made landed content he hmade _ hplace =>
    have hlanded : landed = (out.join e.name).landing d.here := by
      rw [writePlace_eq_landing hplace, hmade.extension.here]
    rw [fileAt_set_of_ne made (hlanded ▸ (hne he).symm), hmade.files]

/-- A file that was unpacked is there. -/
theorem Unpacks.file_there (h : Unpacks bytes out e d later) (he : e.IsUnpackedFile) :
    ∃ content, e.content? bytes = some content ∧
      later.find (out.join e.name) = .ok (.file content) := by
  have hextends := h.extends
  cases h with
  | skipped hskipped => exact absurd he.1 (by rw [hskipped]; decide)
  | directory _ hd _ => exact absurd he.2 (by rw [hd]; decide)
  | @file made landed content _ hmade hcontent hplace =>
    obtain ⟨hresolve, hnode, hslash⟩ := writePlace_eq_ok hplace
    have hne : landed ≠ [] := by
      rintro rfl
      exact hnode rfl
    refine ⟨content, hcontent, find_eq_file_iff.mpr ⟨landed, ?_, hslash, ?_⟩⟩
    · exact (extends_set hnode _).resolve hresolve
    · exact fileAt_set_self made hne content

end

/-! ## All entries -/

/-- What unpacking some entries one after the other makes of a disk. -/
inductive UnpacksAll (bytes : ByteArray) (out : Disk.Path) : List Entry → Disk → Disk → Prop
  | nil (d : Disk) : UnpacksAll bytes out [] d d
  | cons {e : Entry} {rest : List Entry} {d between later : Disk}
    (he : Unpacks bytes out e d between) (hrest : UnpacksAll bytes out rest between later) :
    UnpacksAll bytes out (e :: rest) d later

section

variable {bytes : ByteArray} {out : Disk.Path} {entries : List Entry} {d later : Disk}

theorem UnpacksAll.extends (h : UnpacksAll bytes out entries d later) : d.Extends later := by
  induction h with
  | nil d => exact .refl d
  | cons he _ ih => exact he.extends.trans ih

theorem UnpacksAll.fileAt_of_forall_ne (h : UnpacksAll bytes out entries d later) {place : Place}
    (hne : ∀ e ∈ entries, e.IsUnpackedFile → (out.join e.name).landing d.here ≠ place) :
    later.fileAt place = d.fileAt place := by
  induction h with
  | nil d => rfl
  | cons he hrest ih =>
    rw [ih, he.fileAt_of_ne (hne _ (List.mem_cons_self ..))]
    intro e' he'
    rw [he.extends.here]
    exact hne e' (List.mem_cons_of_mem _ he')

/-- The last file that lands at a place is there in the end. -/
theorem UnpacksAll.file_there {before after : List Entry} {e : Entry}
    (h : UnpacksAll bytes out (before ++ e :: after) d later) (he : e.IsUnpackedFile)
    (hlast : ∀ e' ∈ after, e'.IsUnpackedFile →
      (out.join e'.name).landing d.here ≠ (out.join e.name).landing d.here) :
    ∃ content, e.content? bytes = some content ∧
      later.find (out.join e.name) = .ok (.file content) := by
  induction before generalizing d with
  | nil =>
    cases h with
    | cons hfirst hrest =>
      obtain ⟨content, hcontent, hthere⟩ := hfirst.file_there he
      obtain ⟨place, hresolve, hslash, hfile⟩ := find_eq_file_iff.mp hthere
      have hhere := hfirst.extends.here
      refine ⟨content, hcontent, find_eq_file_iff.mpr ⟨place, hrest.extends.resolve hresolve, hslash,
        ?_⟩⟩
      rw [hrest.fileAt_of_forall_ne, hfile]
      intro e' he'
      rw [resolve_eq_ok hresolve, hhere]
      exact hlast e' he'
  | cons first before ih =>
    cases h with
    | cons hfirst hrest =>
      apply ih hrest
      rw [hfirst.extends.here]
      exact hlast

end

/-- An unpacking that succeeds goes through the entries in turn, each read from the same bytes, if
    no file lands on the archive. -/
theorem extractEntries_unpacks {w next : World} {place : Place} {out : Disk.Path}
    {entries : List Entry} {count : Nat} {bytes : ByteArray}
    (hbytes : w.disk.fileAt place = some bytes)
    (hspared : ∀ e ∈ entries, e.IsUnpackedFile → (out.join e.name).landing w.disk.here ≠ place)
    (h : (extractEntries place out entries).run w = (.ok count, next)) :
    UnpacksAll bytes out entries w.disk next.disk := by
  induction entries generalizing w count with
  | nil =>
    rw [extractEntries, run_pure] at h
    cases h
    exact .nil _
  | cons e rest ih =>
    rw [extractEntries] at h
    obtain ⟨written, between, hfirst, h'⟩ := run_bind_eq_ok.mp h
    obtain ⟨count', last, hrest, hreturned⟩ := run_bind_eq_ok.mp h'
    rw [run_pure] at hreturned
    cases hreturned
    have hunpacks := extractEntry_unpacks hbytes hfirst
    refine .cons hunpacks (ih ?_ ?_ hrest)
    · rw [hunpacks.fileAt_of_ne (hspared e (List.mem_cons_self ..)), hbytes]
    · intro e' he'
      rw [hunpacks.extends.here]
      exact hspared e' (List.mem_cons_of_mem _ he')

/-- An unpacking that succeeds makes its directory and then goes through the entries of the
    archive. -/
theorem extract_unpacks {w next : World} {archive out : Disk.Path} {place : Place}
    {bytes : ByteArray} {entries : List Entry} {count : Nat}
    (hat : ArchiveAt w.disk archive place bytes entries)
    (hspared : ∀ e ∈ entries, e.IsUnpackedFile → (out.join e.name).landing w.disk.here ≠ place)
    (h : (extract archive out).run w = (.ok count, next)) :
    ∃ made : World, w.disk.makeDirectories out = (made.disk, none) ∧
      (extractEntries place out entries).run made = (.ok count, next) ∧
      UnpacksAll bytes out entries made.disk next.disk := by
  unfold extract at h
  obtain ⟨⟨place', entries'⟩, v, hopen, hrest⟩ := run_bind_eq_ok.mp h
  obtain ⟨rfl, bytes', hat'⟩ := openArchive_eq_ok hopen
  obtain ⟨rfl, rfl, rfl⟩ := hat.unique hat'
  obtain ⟨_, made, hmade, hrest⟩ := run_bind_eq_ok.mp hrest
  have hmade := makeDirectories_eq_ok hmade
  have hgrows := makeDirectories_growsOver v.disk out
  rw [hmade] at hgrows
  refine ⟨made, hmade, hrest, extractEntries_unpacks ?_ ?_ hrest⟩
  · rw [hgrows.files, hat.file]
  · rw [hgrows.extension.here]
    exact hspared

/-! ## What the steps keep -/

section

variable {γ : Type} {part : World → γ}

theorem keeps_openArchive (archive : Disk.Path) : Keeps part (openArchive archive) := by
  unfold openArchive
  refine keeps_disk.bind fun d => ?_
  dsimp only
  split
  · split
    · exact keeps_pure _
    · exact keeps_throw _
  · exact keeps_throw _
  · exact keeps_diskFailure _

theorem keeps_archiveBytes (place : Place) : Keeps part (archiveBytes place) := by
  unfold archiveBytes
  refine keeps_disk.bind fun d => ?_
  split
  · exact keeps_pure _
  · exact keeps_pure _

theorem keeps_readProjectText (archive : Disk.Path) : Keeps part (readProjectText archive) := by
  unfold readProjectText
  refine (keeps_openArchive archive).bind fun found => ?_
  refine (keeps_archiveBytes found.1).bind fun bytes => ?_
  split
  · split
    · exact keeps_pure _
    · exact keeps_diskFailure _
  · exact keeps_throw _

end

theorem keeps_writeOpened (path : Disk.Path) (opened : Opened) :
    Keeps World.events (writeOpened path opened) := by
  unfold writeOpened
  split
  · exact (keeps_writeFile _ _).bind fun _ => keeps_pure _
  · exact keeps_diskFailure _

theorem keeps_extractEntry (place : Place) (out : Disk.Path) (e : Entry) :
    Keeps World.events (extractEntry place out e) := by
  unfold extractEntry
  refine (keeps_archiveBytes place).bind fun bytes => ?_
  split
  case h_1 opened _ =>
    dsimp only
    split
    · exact keeps_pure _
    · split
      · exact (keeps_makeDirectories _ _).bind fun _ => keeps_pure _
      · split
        · exact (keeps_makeDirectories _ _).bind fun _ => keeps_writeOpened _ opened
        · exact keeps_writeOpened _ opened
  case h_2 => exact keeps_throw _

theorem keeps_extractEntries (place : Place) (out : Disk.Path) (entries : List Entry) :
    Keeps World.events (extractEntries place out entries) := by
  induction entries with
  | nil => exact keeps_pure _
  | cons e rest ih =>
    rw [extractEntries]
    exact (keeps_extractEntry place out e).bind fun _ => ih.bind fun _ => keeps_pure _

/-- Nothing of an unpacking is reported, nor does it look at what was. -/
theorem keeps_extract (archive out : Disk.Path) : Keeps World.events (extract archive out) := by
  unfold extract
  refine (keeps_openArchive archive).bind fun opened => ?_
  exact (keeps_makeDirectories _ _).bind fun _ => keeps_extractEntries _ _ _

end Command

end BlockScript
