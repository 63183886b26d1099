/-
  Unpacking an archive first and reading the project from the directory.

  The project file of an archive is unpacked into the directory itself, where a search looks first,
  and holds the text that is read from the archive directly. So the project is the same either way,
  whatever else the archive and the directory hold, provided that no other file lands on it and none
  on the archive (`Unobstructed`), that the path of the archive is not taken for that of a document,
  and that the directory has a path at all (`loadProject_extract`). The last two are needed
  (`not_same_project_of_extract`).
-/
import BlockScript.Command.Basic
import BlockScript.Proofs.Command.Unpacking

namespace BlockScript.Command

open BlockScript.Archive BlockScript.Command.Run BlockScript.Disk

/-! ## Reading a project -/

/-- The failure to read a project that was found at `origin`. -/
def unreadable (origin : Disk.Path) (error : ProjectError) : Failure where
  contexts := ["Failed to load project from '" ++ origin.text ++ "'."]
  cause := .project error

theorem loadProject_of_source {w : World} {input origin : Disk.Path} {text : String}
    (h : (sourceText input).run w = (.ok (text, origin), w)) :
    (loadProject input).run w = ((Project.ofText text).mapError (unreadable origin), w) := by
  unfold loadProject
  rw [run_bind_of_ok h]
  dsimp only
  cases Project.ofText text <;> rfl

/-- From the path of an archive the text in the archive is read. -/
theorem loadProject_archive {w : World} {archive : Disk.Path} {text : String}
    (hread : (readProjectText archive).run w = (.ok text, w))
    (hdirectory : w.disk.isDirectory archive = false) (hjson : isJsonFile archive = false) :
    (loadProject archive).run w = ((Project.ofText text).mapError (unreadable archive), w) := by
  apply loadProject_of_source
  unfold sourceText
  rw [run_bind_of_ok (run_disk w), hdirectory, hjson]
  exact run_bind_of_ok hread

/-- From a directory with a project file in it the text in this file is read. -/
theorem loadProject_directory {w : World} {directory : Disk.Path} {content : ByteArray}
    {text : String} (hdirectory : w.disk.isDirectory directory = true)
    (hfile : w.disk.find (directory.join projectFile) = .ok (.file content))
    (htext : String.fromUTF8? content = some text) :
    (loadProject directory).run w =
      ((Project.ofText text).mapError (unreadable (directory.join projectFile)), w) := by
  have hisFile : w.disk.isFile (directory.join projectFile) = true := by
    unfold isFile
    rw [hfile]
  have hlocate : (locate directory).run w = (.ok (directory.join projectFile), w) := by
    unfold locate
    rw [run_bind_of_ok (run_disk w)]
    unfold searchFrom
    dsimp only
    rw [if_pos hisFile]
    rfl
  have hread : (readText (directory.join projectFile)).run w = (.ok text, w) := by
    unfold readText
    rw [run_bind_of_ok (run_disk w)]
    unfold readFile
    rw [hfile]
    dsimp only [bind, Except.bind]
    rw [htext]
    rfl
  apply loadProject_of_source
  unfold sourceText
  rw [run_bind_of_ok (run_disk w), hdirectory]
  exact (run_bind_of_ok hlocate).trans (run_bind_of_ok hread)

/-! ## After unpacking -/

/-- The entries of the archive that a path leads to. -/
def listedEntries (d : Disk) (archive : Disk.Path) : List Entry :=
  match d.find archive with
  | .ok (.file bytes) => (entries? bytes).getD []
  | _ => []

theorem ArchiveAt.listedEntries {d : Disk} {archive : Disk.Path} {place : Place}
    {bytes : ByteArray} {entries : List Entry} (h : ArchiveAt d archive place bytes entries) :
    listedEntries d archive = entries := by
  unfold Command.listedEntries
  rw [h.find]
  dsimp only
  rw [h.listed]
  rfl

/-- Of the files in an archive none but the project file lands where the project file lands, and
    none lands on the archive itself. -/
structure Unobstructed (d : Disk) (archive directory : Disk.Path) : Prop where
  soleProject : ∀ e ∈ listedEntries d archive, e.IsUnpackedFile → e.name ≠ projectFile →
    (directory.join e.name).landing d.here ≠ (directory.join projectFile).landing d.here
  sparesArchive : ∀ e ∈ listedEntries d archive, e.IsUnpackedFile →
    (directory.join e.name).landing d.here ≠ archive.landing d.here

instance (e : Entry) : Decidable e.IsUnpackedFile := inferInstanceAs (Decidable (_ ∧ _))

instance (d : Disk) (archive directory : Disk.Path) :
    Decidable (Unobstructed d archive directory) :=
  decidable_of_iff (_ ∧ _) ⟨fun h => ⟨h.1, h.2⟩, fun h => ⟨h.soleProject, h.sparesArchive⟩⟩

theorem isUnpackedFile_of_projectFile {e : Entry} (h : e.name = projectFile) :
    e.IsUnpackedFile := by
  unfold Entry.IsUnpackedFile Entry.isEnclosed Entry.isDirectory
  rw [h]
  decide

/-- What an unpacking that succeeds leaves of the archive, and what it makes of the directory. -/
structure Unpacked (d later : Disk) (archive directory : Disk.Path) (bytes : ByteArray) : Prop where
  intact : later.find archive = .ok (.file bytes)
  made : directory.text ≠ "" → later.isDirectory directory = true
  filled : ∀ e ∈ listedEntries d archive, e.name = projectFile →
    ∃ content, e.content? bytes = some content ∧
      later.find (directory.join projectFile) = .ok (.file content)

theorem unpacked_of_extract {w next : World} {archive directory : Disk.Path} {place : Place}
    {bytes : ByteArray} {entries : List Entry} {count : Nat}
    (hat : ArchiveAt w.disk archive place bytes entries)
    (hclear : Unobstructed w.disk archive directory)
    (h : (extract archive directory).run w = (.ok count, next)) :
    Unpacked w.disk next.disk archive directory bytes := by
  have hspared : ∀ e ∈ entries, e.IsUnpackedFile →
      (directory.join e.name).landing w.disk.here ≠ place := by
    intro e he hfile
    rw [resolve_eq_ok hat.resolve]
    exact hclear.sparesArchive e (hat.listedEntries ▸ he) hfile
  obtain ⟨made, hmade, -, hunpacks⟩ := extract_unpacks hat hspared h
  have hgrows := makeDirectories_growsOver w.disk directory
  rw [hmade] at hgrows
  have hhere := hgrows.extension.here
  have hbytes : made.disk.fileAt place = some bytes := by rw [hgrows.files, hat.file]
  rw [← hhere] at hspared
  refine ⟨?_, fun hd => ?_, fun e he hname => ?_⟩
  · refine find_eq_file_iff.mpr ⟨place, ?_, hat.plain, ?_⟩
    · exact (hgrows.extension.trans hunpacks.extends).resolve hat.resolve
    · rw [hunpacks.fileAt_of_forall_ne hspared, hbytes]
  · exact hunpacks.extends.isDirectory (isDirectory_of_makeDirectories hmade hd)
  · rw [hat.listedEntries] at he
    obtain ⟨before, after, rfl⟩ := List.append_of_mem he
    rw [← hname]
    refine hunpacks.file_there (isUnpackedFile_of_projectFile hname) fun e' he' hfile => ?_
    have hne : e'.name ≠ e.name := name_ne_of_nodup (nodup_names_entries hat.listed) he'
    rw [hhere, hname]
    refine hclear.soleProject e' ?_ hfile (hname ▸ hne)
    rw [hat.listedEntries]
    exact List.mem_append_right _ (List.mem_cons_of_mem _ he')

/-! ## The command with and without unpacking -/

/-- What the command does with a project: it converts the project and tells if targets were passed
    over. -/
def handOver (project : Project) (out : Disk.Path) (options : Options) : Run Unit := do
  let written ← convertProject project out options
  let count := written.length
  let targets := project.targets.length
  if count < targets then
    Run.note .warning (s!"{count} of {targets} targets written to '" ++ out.text ++ "'")

/-- What the command does with the text of a project that was found at `origin`. -/
def convertText (origin : Disk.Path) (text : String) (out : Disk.Path) (options : Options) :
    Run Unit :=
  match Project.ofText text with
  | .ok project => handOver project out options
  | .error error => throw (unreadable origin error)

/-- The directory that the scripts of an input go to. -/
def outputOf (arguments : Arguments) (d : Disk) (input : Disk.Path) : Disk.Path :=
  (arguments.output.map Disk.Path.mk).getD (defaultOutput d input)

theorem exists_run_stage (w : World) (label : String) (step total : Nat) :
    ∃ v : World, v.disk = w.disk ∧ (stage label step total).run w = (.ok (), v) := by
  refine ⟨_, ?_, run_report w _⟩
  rfl

theorem convertStages_of_text {arguments : Arguments} {input source origin : Disk.Path}
    {text : String} {w : World}
    (hload : ∀ v : World, v.disk = w.disk →
      (loadProject source).run v = ((Project.ofText text).mapError (unreadable origin), v)) :
    ∃ v : World, v.disk = w.disk ∧ (convertStages arguments input source).run w =
      (convertText origin text (outputOf arguments w.disk input)
        ⟨arguments.extension, arguments.keepGoing⟩).run v := by
  unfold convertStages convertText
  obtain ⟨v, hv, hreading⟩ := exists_run_stage w "Reading project" (stageCount arguments - 1)
    (stageCount arguments)
  dsimp only
  rw [run_bind_of_ok hreading]
  have hloaded := hload v hv
  cases hp : Project.ofText text with
  | error error =>
    rw [hp] at hloaded
    exact ⟨v, hv, run_bind_of_error hloaded⟩
  | ok project =>
    rw [hp] at hloaded
    obtain ⟨u, hu, hconverting⟩ := exists_run_stage v "Converting targets" (stageCount arguments)
      (stageCount arguments)
    rw [run_bind_of_ok hloaded, run_bind_of_ok hconverting, run_bind_of_ok (run_disk u), hu, hv]
    exact ⟨u, hu.trans hv, rfl⟩

theorem canonicalInput_run {w : World} {input path : Disk.Path}
    (h : w.disk.canonical input = .ok path) : (canonicalInput input).run w = (.ok path, w) := by
  have hexists : w.disk.pathExists input = true := by
    unfold pathExists
    obtain ⟨place, -, hfound⟩ := Results.bind_eq_ok.mp h
    obtain ⟨node, hnode, -⟩ := Results.bind_eq_ok.mp hfound
    rw [hnode]
  unfold canonicalInput
  rw [run_bind_of_ok (run_disk w), hexists, h]
  rfl

/-- The stage ends as the unpacking ends, and does to the disk what the unpacking does. -/
theorem extractStage_run (arguments : Arguments) {archive : Disk.Path} (directory : Disk.Path)
    {w v : World} (hv : v.disk = w.disk)
    (h : ¬ (w.disk.isDirectory archive || isJsonFile archive) = true) :
    ((extractStage arguments archive directory).run v).1 =
        ((extract archive directory).run w).1.map (fun _ => ()) ∧
      ((extractStage arguments archive directory).run v).2.disk =
        ((extract archive directory).run w).2.disk := by
  unfold extractStage
  obtain ⟨shown, hshown, hstage⟩ := exists_run_stage v "Extracting archive" 2
    (stageCount arguments)
  rw [run_bind_of_ok (run_disk v), hv, if_neg h]
  dsimp only
  rw [run_bind_of_ok hstage]
  cases hextract : (extract archive directory).run w with
  | mk result next =>
    have hrun := (keeps_extract archive directory).run_of_disk (hshown.trans hv) hextract
    cases result with
    | error failure =>
      rw [run_bind_of_error hrun]
      exact ⟨rfl, rfl⟩
    | ok count =>
      rw [run_bind_of_ok hrun, run_note]
      exact ⟨rfl, rfl⟩

/-- A stage whose unpacking succeeds does to the disk what the unpacking does. -/
theorem extractStage_of_extract {arguments : Arguments} {archive directory : Disk.Path}
    {w v unpacked : World} {count : Nat} (hv : v.disk = w.disk)
    (hdirectory : w.disk.isDirectory archive = false) (hjson : isJsonFile archive = false)
    (hextract : (extract archive directory).run w = (.ok count, unpacked)) :
    ∃ u : World, u.disk = unpacked.disk ∧
      (extractStage arguments archive directory).run v = (.ok (), u) := by
  have haccepted : ¬ (w.disk.isDirectory archive || isJsonFile archive) = true := by
    simp [hdirectory, hjson]
  obtain ⟨hresult, hdisk⟩ := extractStage_run arguments directory hv haccepted
  rw [hextract] at hresult hdisk
  exact ⟨_, hdisk, run_eq_of_fst hresult⟩

section

variable (arguments : Arguments) {w : World} {archive : Disk.Path} {text : String}

/-- Once its input is resolved, a command that converts has two ways to go on. -/
theorem run_of_canonical (hinput : w.disk.canonical ⟨arguments.input⟩ = .ok archive)
    (hconverts : arguments.extractOnly = false) :
    ∃ v : World, v.disk = w.disk ∧ (run arguments).run w =
      (match arguments.extract with
        | none => convertStages arguments archive archive
        | some directory => do
          extractStage arguments archive ⟨directory⟩
          convertStages arguments archive ⟨directory⟩).run v := by
  obtain ⟨v, hv, hresolving⟩ := exists_run_stage w "Resolving input path" 1 (stageCount arguments)
  have hresolved : (canonicalInput ⟨arguments.input⟩).run v = (.ok archive, v) :=
    canonicalInput_run (by rw [hv]; exact hinput)
  refine ⟨v, hv, ?_⟩
  unfold run
  rw [if_neg (by simp [hconverts]), run_bind_of_ok hresolving, run_bind_of_ok hresolved, hconverts]
  rfl

/-- Without unpacking the command converts what is read from its input. -/
theorem run_directly (hinput : w.disk.canonical ⟨arguments.input⟩ = .ok archive)
    (hconverts : arguments.extractOnly = false)
    (hload : ∀ v : World, v.disk = w.disk →
      (loadProject archive).run v = ((Project.ofText text).mapError (unreadable archive), v)) :
    ∃ v : World, v.disk = w.disk ∧ (run { arguments with extract := none }).run w =
      (convertText archive text (outputOf arguments w.disk archive)
        ⟨arguments.extension, arguments.keepGoing⟩).run v := by
  obtain ⟨v, hv, hrun⟩ := run_of_canonical { arguments with extract := none } hinput hconverts
  rw [hrun]
  rw [← hv] at hload ⊢
  exact convertStages_of_text hload

/-- With unpacking it converts what is read from the directory, into the same place. -/
theorem run_unpacking {directory : String} {unpacked : World} {origin : Disk.Path} {count : Nat}
    (hinput : w.disk.canonical ⟨arguments.input⟩ = .ok archive)
    (hconverts : arguments.extractOnly = false) (hjson : isJsonFile archive = false)
    (hbefore : w.disk.isDirectory archive = false)
    (hafter : unpacked.disk.isDirectory archive = false)
    (hextract : (extract archive ⟨directory⟩).run w = (.ok count, unpacked))
    (hload : ∀ v : World, v.disk = unpacked.disk →
      (loadProject ⟨directory⟩).run v = ((Project.ofText text).mapError (unreadable origin), v)) :
    ∃ v : World, v.disk = unpacked.disk ∧
      (run { arguments with extract := some directory }).run w =
        (convertText origin text (outputOf arguments w.disk archive)
          ⟨arguments.extension, arguments.keepGoing⟩).run v := by
  have hout : outputOf arguments w.disk archive = outputOf arguments unpacked.disk archive := by
    unfold outputOf defaultOutput
    rw [hbefore, hafter]
  obtain ⟨v, hv, hrun⟩ := run_of_canonical { arguments with extract := some directory } hinput
    hconverts
  obtain ⟨u, hu, hstage⟩ := extractStage_of_extract hv hbefore hjson hextract
  rw [hrun, hout]
  dsimp only
  rw [run_bind_of_ok hstage]
  rw [← hu] at hload ⊢
  exact convertStages_of_text hload

end

/-! ## Either way the same project -/

/-- The project that is read from an archive is the one that is read from the directory after
    unpacking it there, down to the error, and the command converts the same text into the same
    place with the same options whether it unpacks the archive or not. -/
theorem loadProject_extract {w unpacked : World} {archive directory : Disk.Path} {text : String}
    {count : Nat} (hread : (readProjectText archive).run w = (.ok text, w))
    (hextract : (extract archive directory).run w = (.ok count, unpacked))
    (hclear : Unobstructed w.disk archive directory) (hjson : isJsonFile archive = false)
    (hpath : directory.text ≠ "") :
    (loadProject archive).run w = ((Project.ofText text).mapError (unreadable archive), w) ∧
      (loadProject directory).run unpacked =
        ((Project.ofText text).mapError (unreadable (directory.join projectFile)), unpacked) ∧
      ∀ arguments : Arguments, w.disk.canonical ⟨arguments.input⟩ = .ok archive →
        arguments.extractOnly = false →
        (∃ v : World, v.disk = w.disk ∧ (run { arguments with extract := none }).run w =
          (convertText archive text (outputOf arguments w.disk archive)
            ⟨arguments.extension, arguments.keepGoing⟩).run v) ∧
        ∃ v : World, v.disk = unpacked.disk ∧
          (run { arguments with extract := some directory.text }).run w =
            (convertText (directory.join projectFile) text (outputOf arguments w.disk archive)
              ⟨arguments.extension, arguments.keepGoing⟩).run v := by
  obtain ⟨-, place, bytes, entries, entry, content, hat, hentry, hname, hcontent, htext⟩ :=
    readProjectText_eq_ok hread
  have hunpacked := unpacked_of_extract hat hclear hextract
  have hbefore : w.disk.isDirectory archive = false := isDirectory_of_file hat.find
  have hafter : unpacked.disk.isDirectory archive = false := isDirectory_of_file hunpacked.intact
  obtain ⟨content', hcontent', hfile⟩ :=
    hunpacked.filled entry (hat.listedEntries ▸ hentry) hname
  rw [hcontent] at hcontent'
  cases hcontent'
  -- Neither reading looks at what was reported, so it gives the same at any stage of the command.
  have hdirect : ∀ v : World, v.disk = w.disk →
      (loadProject archive).run v = ((Project.ofText text).mapError (unreadable archive), v) := by
    intro v hv
    have hreadHere := (keeps_readProjectText archive).run_of_disk hv hread
    rw [← hv] at hreadHere hbefore
    exact loadProject_archive hreadHere hbefore hjson
  have hthrough : ∀ v : World, v.disk = unpacked.disk → (loadProject directory).run v =
      ((Project.ofText text).mapError (unreadable (directory.join projectFile)), v) := by
    intro v hv
    rw [← hv] at hunpacked hfile
    exact loadProject_directory (hunpacked.made hpath) hfile htext
  refine ⟨hdirect w rfl, hthrough unpacked rfl, fun arguments hinput hconverts => ⟨?_, ?_⟩⟩
  · exact run_directly arguments hinput hconverts hdirect
  · exact run_unpacking arguments hinput hconverts hjson hbefore hafter hextract hthrough

/-- An archive of a project file, whose text is `emptyProject`, among other entries: a project file
    further down, an entry that climbs, a directory, and a file by a detour. -/
def packed : ByteArray := ⟨#[
  80, 75, 3, 4, 20, 0, 0, 0, 0, 0, 0, 0, 33, 0, 67, 191, 166, 163, 2, 0, 0, 0, 2, 0, 0, 0, 14, 0, 0,
  0, 97, 47, 112, 114, 111, 106, 101, 99, 116, 46, 106, 115, 111, 110, 123, 125, 80, 75, 3, 4, 20,
  0, 0, 0, 0, 0, 0, 0, 33, 0, 0, 0, 0, 0, 0, 0, 0, 0, 0, 0, 0, 0, 4, 0, 0, 0, 46, 46, 47, 101, 80,
  75, 3, 4, 20, 0, 0, 0, 0, 0, 0, 0, 33, 0, 0, 0, 0, 0, 0, 0, 0, 0, 0, 0, 0, 0, 2, 0, 0, 0, 100, 47,
  80, 75, 3, 4, 20, 0, 0, 0, 0, 0, 0, 0, 33, 0, 138, 235, 35, 179, 14, 0, 0, 0, 14, 0, 0, 0, 12, 0,
  0, 0, 112, 114, 111, 106, 101, 99, 116, 46, 106, 115, 111, 110, 123, 34, 116, 97, 114, 103, 101,
  116, 115, 34, 58, 91, 93, 125, 80, 75, 3, 4, 20, 0, 0, 0, 0, 0, 0, 0, 33, 0, 183, 239, 220, 131,
  1, 0, 0, 0, 1, 0, 0, 0, 6, 0, 0, 0, 98, 47, 46, 46, 47, 99, 49, 80, 75, 1, 2, 20, 0, 20, 0, 0, 0,
  0, 0, 0, 0, 33, 0, 67, 191, 166, 163, 2, 0, 0, 0, 2, 0, 0, 0, 14, 0, 0, 0, 0, 0, 0, 0, 0, 0, 0, 0,
  128, 1, 0, 0, 0, 0, 97, 47, 112, 114, 111, 106, 101, 99, 116, 46, 106, 115, 111, 110, 80, 75, 1,
  2, 20, 0, 20, 0, 0, 0, 0, 0, 0, 0, 33, 0, 0, 0, 0, 0, 0, 0, 0, 0, 0, 0, 0, 0, 4, 0, 0, 0, 0, 0, 0,
  0, 0, 0, 0, 0, 128, 1, 46, 0, 0, 0, 46, 46, 47, 101, 80, 75, 1, 2, 20, 0, 20, 0, 0, 0, 0, 0, 0, 0,
  33, 0, 0, 0, 0, 0, 0, 0, 0, 0, 0, 0, 0, 0, 2, 0, 0, 0, 0, 0, 0, 0, 0, 0, 0, 0, 128, 1, 80, 0, 0,
  0, 100, 47, 80, 75, 1, 2, 20, 0, 20, 0, 0, 0, 0, 0, 0, 0, 33, 0, 138, 235, 35, 179, 14, 0, 0, 0,
  14, 0, 0, 0, 12, 0, 0, 0, 0, 0, 0, 0, 0, 0, 0, 0, 128, 1, 112, 0, 0, 0, 112, 114, 111, 106, 101,
  99, 116, 46, 106, 115, 111, 110, 80, 75, 1, 2, 20, 0, 20, 0, 0, 0, 0, 0, 0, 0, 33, 0, 183, 239,
  220, 131, 1, 0, 0, 0, 1, 0, 0, 0, 6, 0, 0, 0, 0, 0, 0, 0, 0, 0, 0, 0, 128, 1, 168, 0, 0, 0, 98,
  47, 46, 46, 47, 99, 80, 75, 5, 6, 0, 0, 0, 0, 5, 0, 5, 0, 12, 1, 0, 0, 205, 0, 0, 0, 0, 0]⟩

def emptyProject : String := "\x7b\"targets\":[]\x7d"

/-- A disk with the archive at its root, under the given name, and a directory with an older project
    file. -/
def shelf (name : String) : World where
  disk.nodes := [([name], .file packed), (["out"], .directory),
    (["out", projectFile], .file "stale".toUTF8)]
  disk.here := []

theorem loadProject_extract_shelf :
    ∃ (project : Project) (unpacked : World),
      (readProjectText ⟨"/pack.sb3"⟩).run (shelf "pack.sb3") =
        (.ok emptyProject, shelf "pack.sb3") ∧
      (listedEntries (shelf "pack.sb3").disk ⟨"/pack.sb3"⟩).map Entry.name =
        ["a/project.json", "../e", "d/", projectFile, "b/../c"] ∧
      (extract ⟨"/pack.sb3"⟩ ⟨"out"⟩).run (shelf "pack.sb3") = (.ok 3, unpacked) ∧
      Unobstructed (shelf "pack.sb3").disk ⟨"/pack.sb3"⟩ ⟨"out"⟩ ∧
      (loadProject ⟨"/pack.sb3"⟩).run (shelf "pack.sb3") = (.ok project, shelf "pack.sb3") ∧
      (loadProject ⟨"out"⟩).run unpacked = (.ok project, unpacked) ∧
      ∃ v : World, v.disk = unpacked.disk ∧
        (run { input := "pack.sb3", extract := some "out" }).run (shelf "pack.sb3") =
          (convertText ⟨"out/project.json"⟩ emptyProject ⟨"/pack_scs"⟩ {}).run v := by
  have hruns : ((readProjectText ⟨"/pack.sb3"⟩).run (shelf "pack.sb3")).1 = .ok emptyProject ∧
      (listedEntries (shelf "pack.sb3").disk ⟨"/pack.sb3"⟩).map Entry.name =
        ["a/project.json", "../e", "d/", projectFile, "b/../c"] ∧
      ((extract ⟨"/pack.sb3"⟩ ⟨"out"⟩).run (shelf "pack.sb3")).1 = .ok 3 ∧
      Unobstructed (shelf "pack.sb3").disk ⟨"/pack.sb3"⟩ ⟨"out"⟩ := by
    decide +kernel
  obtain ⟨hread, hlisted, hextract, hclear⟩ := hruns
  have hread := run_eq_of_fst hread
  obtain ⟨hsame, -⟩ := readProjectText_eq_ok hread
  rw [hsame] at hread
  obtain ⟨hbefore, hafter, hrun⟩ := loadProject_extract hread (run_eq_of_fst hextract) hclear
    (by decide +kernel) (by decide)
  obtain ⟨-, hunpacking⟩ := hrun { input := "pack.sb3" } (by decide +kernel) rfl
  have hsome : (Project.ofText emptyProject).toOption.isSome = true := by decide +kernel
  obtain ⟨project, hproject⟩ := Option.isSome_iff_exists.mp hsome
  rw [Results.toOption_eq_some.mp hproject] at hbefore hafter
  exact ⟨project, _, hread, hlisted, run_eq_of_fst hextract, hclear, hbefore, hafter, hunpacking⟩

/-- An unpacking that succeeds, of an archive whose project is read, unobstructed, and whether the
    project is then read from the path of the archive and from the directory. -/
def Attempt (w : World) (archive directory : Disk.Path) (fromArchive fromDirectory : Bool) : Prop :=
  ((readProjectText archive).run w).1.isOk = true ∧
    ((extract archive directory).run w).1.isOk = true ∧
    Unobstructed w.disk archive directory ∧
    ((loadProject archive).run w).1.isOk = fromArchive ∧
    ((loadProject directory).run ((extract archive directory).run w).2).1.isOk = fromDirectory

instance (w : World) (archive directory : Disk.Path) (fromArchive fromDirectory : Bool) :
    Decidable (Attempt w archive directory fromArchive fromDirectory) :=
  inferInstanceAs (Decidable (_ ∧ _))

/-- An archive under the name of a document is read as one, and unpacking into the empty path fills
    the working directory, which that path does not lead to. -/
theorem not_same_project_of_extract :
    Attempt (shelf "pack.json") ⟨"pack.json"⟩ ⟨"out"⟩ false true ∧
      Attempt (shelf "pack.sb3") ⟨"pack.sb3"⟩ ⟨""⟩ true false := by
  decide +kernel

end BlockScript.Command
