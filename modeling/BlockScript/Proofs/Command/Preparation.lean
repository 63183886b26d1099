/-
  A run before it converts.

  A run of the command first prepares: it checks its options, resolves its input, unpacks it if
  asked to and reads the project. What then goes on is the conversion alone (`run_eq_prepare`). Of
  the preparation only the unpacking touches the disk (`prepare_disk`), and it does so only once the
  input has turned out to be an archive (`extract_invalid`). So a run that fails before it converts
  leaves the disk as it was, or is confined to the directory it unpacks to, and a run that only
  unpacks succeeds if the unpacking does, whatever was unpacked (`run_beforeConversion`).
-/
import BlockScript.Proofs.Command.Enclosure
import BlockScript.Proofs.Disk.Tree

namespace BlockScript.Command

open BlockScript.Archive BlockScript.Command.Run BlockScript.Disk

/-! ## Preparation and conversion -/

/-- The project that is read from `source`, and the directory that the scripts of `input` go to. -/
def readStages (arguments : Arguments) (input source : Disk.Path) :
    Run (Project × Disk.Path) := do
  let total := stageCount arguments
  stage "Reading project" (total - 1) total
  let project ← loadProject source
  stage "Converting targets" total total
  return (project, outputOf arguments (← Run.disk) input)

/-- All that a run does before it converts. There is nothing to convert if it only unpacks. -/
def prepare (arguments : Arguments) : Run (Option (Project × Disk.Path)) := do
  if arguments.extractOnly && arguments.extract.isNone then
    throw (.plain "--extract-only requires --extract.")
  stage "Resolving input path" 1 (stageCount arguments)
  let input ← canonicalInput ⟨arguments.input⟩
  match arguments.extract with
  | none => return some (← readStages arguments input input)
  | some directory =>
    extractStage arguments input ⟨directory⟩
    if arguments.extractOnly then return none
    return some (← readStages arguments input ⟨directory⟩)

/-- What a run does with what it has prepared. -/
def convertPrepared (arguments : Arguments) : Option (Project × Disk.Path) → Run Unit
  | none => return
  | some (project, out) => handOver project out ⟨arguments.extension, arguments.keepGoing⟩

theorem convertStages_eq (arguments : Arguments) (input source : Disk.Path) :
    convertStages arguments input source =
      readStages arguments input source >>= fun prepared =>
        convertPrepared arguments (some prepared) := by
  unfold convertStages readStages
  simp only [bind_assoc, pure_bind]
  rfl

/-- A run prepares and then converts. -/
theorem run_eq_prepare (arguments : Arguments) :
    run arguments = prepare arguments >>= convertPrepared arguments := by
  unfold run prepare
  cases arguments.extract with
  | none =>
    by_cases honly : arguments.extractOnly = true
    · simp [honly]
    · simp [honly, convertStages_eq]
  | some directory =>
    by_cases honly : arguments.extractOnly = true
    · simp [honly, convertPrepared]
    · simp [honly, convertStages_eq]

/-! ## What the stages keep -/

section

variable {γ : Type} {part : World → γ}

theorem keeps_canonicalInput (input : Disk.Path) : Keeps part (canonicalInput input) := by
  unfold canonicalInput
  refine keeps_disk.bind fun d => ?_
  dsimp only
  split
  · exact keeps_throw _
  · split
    · exact keeps_pure _
    · exact keeps_diskFailure _

theorem keeps_locate (directory : Disk.Path) : Keeps part (locate directory) := by
  unfold locate
  exact keeps_disk.bind fun d => keeps_result _

theorem keeps_readText (file : Disk.Path) : Keeps part (readText file) := by
  unfold readText
  refine keeps_disk.bind fun d => ?_
  split
  · split
    · exact keeps_pure _
    · exact keeps_diskFailure _
  · exact keeps_diskFailure _

theorem keeps_sourceText (input : Disk.Path) : Keeps part (sourceText input) := by
  unfold sourceText
  refine keeps_disk.bind fun d => ?_
  split
  · refine (keeps_locate input).bind fun file => ?_
    exact (keeps_readText file).bind fun _ => keeps_pure _
  · split
    · exact (keeps_readText input).bind fun _ => keeps_pure _
    · exact (keeps_readProjectText input).bind fun _ => keeps_pure _

theorem keeps_loadProject (input : Disk.Path) : Keeps part (loadProject input) := by
  unfold loadProject
  refine (keeps_sourceText input).bind fun source => ?_
  dsimp only
  cases Project.ofText source.1 with
  | ok project => exact keeps_pure project
  | error error => exact keeps_throw _

end

theorem keeps_stage (label : String) (step total : Nat) :
    Keeps World.disk (stage label step total) :=
  keeps_report _

theorem keeps_readStages (arguments : Arguments) (input source : Disk.Path) :
    Keeps World.disk (readStages arguments input source) := by
  unfold readStages
  refine (keeps_stage _ _ _).bind fun _ => ?_
  refine (keeps_loadProject source).bind fun project => ?_
  refine (keeps_stage _ _ _).bind fun _ => ?_
  exact keeps_disk.bind fun _ => keeps_pure _

/-! ## The stage that unpacks -/

theorem canonicalInput_eq_ok {input path : Disk.Path} {w next : World}
    (h : (canonicalInput input).run w = (.ok path, next)) :
    next = w ∧ w.disk.canonical input = .ok path := by
  unfold canonicalInput at h
  rw [run_bind_of_ok (run_disk w)] at h
  split_ifs at h with hexists
  · cases h
  · dsimp only at h
    cases hpath : w.disk.canonical input with
    | ok found =>
      rw [hpath] at h
      cases h
      exact ⟨rfl, rfl⟩
    | error trouble =>
      rw [hpath] at h
      cases h

/-- An unpacking leaves the disk as it was unless the path leads to an archive. -/
theorem extract_invalid {archive out : Disk.Path} {w : World}
    (h : ∀ place bytes entries, ¬ ArchiveAt w.disk archive place bytes entries) :
    ((extract archive out).run w).2.disk = w.disk := by
  unfold extract
  cases hopen : (openArchive archive).run w with
  | mk result next =>
    cases result with
    | error failure =>
      rw [run_bind_of_error hopen]
      exact (keeps_openArchive archive).of_run hopen
    | ok found =>
      obtain ⟨-, bytes, hat⟩ := openArchive_eq_ok hopen
      exact absurd hat (h _ _ _)

theorem extractStage_refused {arguments : Arguments} {archive directory : Disk.Path} {w : World}
    (h : (w.disk.isDirectory archive || isJsonFile archive) = true) :
    (extractStage arguments archive directory).run w =
      (.error (.plain "--extract needs an .sb3 archive as input."), w) := by
  unfold extractStage
  rw [run_bind_of_ok (run_disk w), if_pos h]
  rfl

/-! ## What a preparation leaves behind -/

theorem keeps_prepare {arguments : Arguments} (h : arguments.extract = none) :
    Keeps World.disk (prepare arguments) := by
  by_cases honly : arguments.extractOnly = true
  · have hconflict : prepare arguments = throw (.plain "--extract-only requires --extract.") := by
      simp [prepare, h, honly]
    rw [hconflict]
    exact keeps_throw _
  · unfold prepare
    rw [h, if_neg (by simp [honly])]
    refine (keeps_stage _ _ _).bind fun _ => ?_
    refine (keeps_canonicalInput _).bind fun input => ?_
    exact (keeps_readStages arguments input input).bind fun _ => keeps_pure _

/-- Once its input is resolved, a run that unpacks has only to look. -/
theorem prepare_unpacking {arguments : Arguments} {directory : String} {w : World}
    {archive : Disk.Path} (h : arguments.extract = some directory)
    (hinput : w.disk.canonical ⟨arguments.input⟩ = .ok archive) :
    ∃ v : World, v.disk = w.disk ∧ (prepare arguments).run w =
      (do
        extractStage arguments archive ⟨directory⟩
        if arguments.extractOnly then return none
        return some (← readStages arguments archive ⟨directory⟩)).run v := by
  obtain ⟨v, hv, hstage⟩ := exists_run_stage w "Resolving input path" 1 (stageCount arguments)
  have hresolved : (canonicalInput ⟨arguments.input⟩).run v = (.ok archive, v) :=
    canonicalInput_run (by rw [hv]; exact hinput)
  refine ⟨v, hv, ?_⟩
  unfold prepare
  rw [h, if_neg (by simp), run_bind_of_ok hstage, run_bind_of_ok hresolved]

theorem prepare_unresolved {arguments : Arguments} {directory : String} {w : World}
    {trouble : Trouble} (h : arguments.extract = some directory)
    (hinput : w.disk.canonical ⟨arguments.input⟩ = .error trouble) :
    ∃ failure, ∃ v : World, v.disk = w.disk ∧ (prepare arguments).run w = (.error failure, v) := by
  obtain ⟨v, hv, hstage⟩ := exists_run_stage w "Resolving input path" 1 (stageCount arguments)
  unfold prepare
  rw [h, if_neg (by simp), run_bind_of_ok hstage]
  cases hresolved : (canonicalInput ⟨arguments.input⟩).run v with
  | mk result next =>
    cases result with
    | error failure =>
      have hkept : next.disk = v.disk := (keeps_canonicalInput _).of_run hresolved
      exact ⟨failure, next, hkept.trans hv, run_bind_of_error hresolved⟩
    | ok archive =>
      obtain ⟨-, hcanonical⟩ := canonicalInput_eq_ok hresolved
      rw [hv, hinput] at hcanonical
      cases hcanonical

/-- Of the preparation only the unpacking touches the disk. -/
theorem prepare_disk {arguments : Arguments} {directory : String} {w : World}
    (h : arguments.extract = some directory) :
    ((prepare arguments).run w).2.disk = w.disk ∨
      ∃ archive, w.disk.canonical ⟨arguments.input⟩ = .ok archive ∧ isJsonFile archive = false ∧
        ((prepare arguments).run w).2.disk = ((extract archive ⟨directory⟩).run w).2.disk := by
  cases hinput : w.disk.canonical ⟨arguments.input⟩ with
  | error trouble =>
    obtain ⟨failure, v, hv, hrun⟩ := prepare_unresolved h hinput
    rw [hrun]
    exact .inl hv
  | ok archive =>
    obtain ⟨v, hv, hrun⟩ := prepare_unpacking h hinput
    have hdisk : ((prepare arguments).run w).2.disk =
        ((extractStage arguments archive ⟨directory⟩).run v).2.disk := by
      rw [hrun]
      refine part_bind (fun _ => (?_ : Keeps World.disk _)) v
      split
      · exact keeps_pure _
      · exact (keeps_readStages _ _ _).bind fun _ => keeps_pure _
    rw [hdisk]
    by_cases hrefused : (w.disk.isDirectory archive || isJsonFile archive) = true
    · rw [← hv] at hrefused
      rw [extractStage_refused hrefused]
      exact .inl hv
    · refine .inr ⟨archive, rfl, ?_, (extractStage_run arguments _ hv hrefused).2⟩
      rw [Bool.or_eq_true, not_or] at hrefused
      exact Bool.eq_false_iff.mpr hrefused.2

theorem prepare_confined {arguments : Arguments} {directory : String}
    (h : arguments.extract = some directory) (w : World) :
    Confined ⟨directory⟩ w.disk ((prepare arguments).run w).2.disk := by
  rcases prepare_disk (w := w) h with hsame | ⟨archive, -, -, hextract⟩
  · rw [hsame]
    exact .refl _ _
  · rw [hextract]
    exact extract_confined archive ⟨directory⟩ w

/-! ## Inputs that cannot be unpacked -/

/-- The input is missing, a directory, a document, or a file that is no archive. -/
def Unusable (d : Disk) (input : Disk.Path) : Prop :=
  d.pathExists input = false ∨ d.isDirectory input = true ∨ isJsonFile input = true ∨
    ∀ bytes, d.find input = .ok (.file bytes) → entries? bytes = none

/-- The canonical path of a document is that of a document. -/
theorem isJsonFile_canonical {d : Disk} (h : d.IsTree) {p path : Disk.Path}
    (hpath : d.canonical p = .ok path) (hjson : isJsonFile p = true) : isJsonFile path = true := by
  unfold isJsonFile Path.extension? at hjson ⊢
  cases hname : p.fileName? with
  | none =>
    rw [hname] at hjson
    cases hjson
  | some name =>
    rw [hname] at hjson
    rw [h.fileName?_canonical hpath hname]
    exact hjson

/-- What a path leads to is an archive if its canonical path leads to one. -/
theorem find_of_archiveAt_canonical {d : Disk} (h : d.IsTree) {p path : Disk.Path} {place : Place}
    {bytes : ByteArray} {entries : List Entry} (hpath : d.canonical p = .ok path)
    (hat : ArchiveAt d path place bytes entries) : d.find p = .ok (.file bytes) := by
  obtain ⟨node, hnode, -⟩ := canonical_eq_ok hpath
  have hget := get?_of_find hnode
  rw [← h.landing_canonical hpath, ← resolve_eq_ok hat.resolve, get?_of_fileAt hat.file] at hget
  cases hget
  exact hnode

/-- With an input that cannot be unpacked the preparation leaves the disk as it was. -/
theorem prepare_unusable {arguments : Arguments} {directory : String} {w : World}
    (htree : w.disk.IsTree) (h : arguments.extract = some directory)
    (hinput : Unusable w.disk ⟨arguments.input⟩) :
    ((prepare arguments).run w).2.disk = w.disk := by
  rcases prepare_disk (w := w) h with hsame | ⟨archive, hcanonical, hdocument, hextract⟩
  · exact hsame
  · rw [hextract]
    refine extract_invalid fun place bytes entries hat => ?_
    have hfind := find_of_archiveAt_canonical htree hcanonical hat
    rcases hinput with hmissing | hdirectory | hjson | hinvalid
    · unfold pathExists at hmissing
      rw [hfind] at hmissing
      cases hmissing
    · rw [isDirectory_of_file hfind] at hdirectory
      cases hdirectory
    · rw [isJsonFile_canonical htree hcanonical hjson] at hdocument
      cases hdocument
    · have hlisted := hat.listed
      rw [hinvalid bytes hfind] at hlisted
      cases hlisted

/-! ## Runs that only unpack -/

theorem run_extractOnly {arguments : Arguments} {directory : String} {w : World}
    {archive : Disk.Path} (h : arguments.extract = some directory)
    (honly : arguments.extractOnly = true)
    (hinput : w.disk.canonical ⟨arguments.input⟩ = .ok archive) :
    ∃ v : World, v.disk = w.disk ∧
      (run arguments).run w = (extractStage arguments archive ⟨directory⟩).run v := by
  obtain ⟨v, hv, hprepare⟩ := prepare_unpacking h hinput
  refine ⟨v, hv, ?_⟩
  rw [run_eq_prepare, run_bind_congr hprepare, if_pos honly, bind_assoc]
  simp only [pure_bind]
  exact congrArg (fun x : Run Unit => x.run v) (bind_pure_unit (x := extractStage _ _ _))

theorem run_extractOnly_eq_ok {arguments : Arguments} {directory : String} {w next : World}
    (h : arguments.extract = some directory) (honly : arguments.extractOnly = true)
    (hrun : (run arguments).run w = (.ok (), next)) :
    ∃ archive count, w.disk.canonical ⟨arguments.input⟩ = .ok archive ∧
      (w.disk.isDirectory archive || isJsonFile archive) = false ∧
      ((extract archive ⟨directory⟩).run w).1 = .ok count ∧
      ((extract archive ⟨directory⟩).run w).2.disk = next.disk := by
  cases hinput : w.disk.canonical ⟨arguments.input⟩ with
  | error trouble =>
    obtain ⟨failure, v, -, hprepare⟩ := prepare_unresolved h hinput
    rw [run_eq_prepare, run_bind_of_error hprepare] at hrun
    cases hrun
  | ok archive =>
    obtain ⟨v, hv, hstage⟩ := run_extractOnly h honly hinput
    rw [hstage] at hrun
    by_cases hrefused : (w.disk.isDirectory archive || isJsonFile archive) = true
    · rw [← hv] at hrefused
      rw [extractStage_refused hrefused] at hrun
      cases hrun
    · obtain ⟨hresult, hdisk⟩ := extractStage_run arguments ⟨directory⟩ hv hrefused
      rw [hrun] at hresult hdisk
      obtain ⟨count, hcount, -⟩ := Results.map_eq_ok.mp hresult.symm
      exact ⟨archive, count, rfl, Bool.eq_false_iff.mpr hrefused, hcount, hdisk.symm⟩

/-- A run that only unpacks succeeds if and only if its input is there, is neither a directory nor a
    document, and can be unpacked. -/
theorem run_extractOnly_iff {arguments : Arguments} {directory : String} {w : World}
    (h : arguments.extract = some directory) (honly : arguments.extractOnly = true) :
    (∃ next, (run arguments).run w = (.ok (), next)) ↔
      ∃ archive count, w.disk.canonical ⟨arguments.input⟩ = .ok archive ∧
        (w.disk.isDirectory archive || isJsonFile archive) = false ∧
        ((extract archive ⟨directory⟩).run w).1 = .ok count := by
  constructor
  · rintro ⟨next, hrun⟩
    obtain ⟨archive, count, hinput, haccepted, hcount, -⟩ := run_extractOnly_eq_ok h honly hrun
    exact ⟨archive, count, hinput, haccepted, hcount⟩
  · rintro ⟨archive, count, hinput, haccepted, hcount⟩
    obtain ⟨v, hv, hstage⟩ := run_extractOnly h honly hinput
    have hresult :=
      (extractStage_run arguments ⟨directory⟩ hv (Bool.eq_false_iff.mp haccepted)).1
    rw [hcount] at hresult
    exact ⟨_, hstage.trans (run_eq_of_fst hresult)⟩

/-! ## Runs that do not convert -/

/-- A run prepares and then converts. If the preparation fails, so does the run, and the disk is as
    it was if the run does not unpack or its input cannot be unpacked; otherwise what happened is
    confined to the directory it unpacks to. A run that only unpacks is confined to it too, and
    succeeds if and only if its input can be unpacked, whatever the archive holds. -/
theorem run_beforeConversion (arguments : Arguments) (w : World) (htree : w.disk.IsTree) :
    run arguments = prepare arguments >>= convertPrepared arguments ∧
    (∀ failure next, (prepare arguments).run w = (.error failure, next) →
      (run arguments).run w = (.error failure, next) ∧
      (arguments.extract = none ∨ Unusable w.disk ⟨arguments.input⟩ → next.disk = w.disk) ∧
      ∀ directory, arguments.extract = some directory →
        Confined ⟨directory⟩ w.disk next.disk) ∧
    ∀ directory, arguments.extract = some directory → arguments.extractOnly = true →
      (∀ next, (run arguments).run w = (.ok (), next) → Confined ⟨directory⟩ w.disk next.disk) ∧
      ((∃ next, (run arguments).run w = (.ok (), next)) ↔
        ∃ archive count, w.disk.canonical ⟨arguments.input⟩ = .ok archive ∧
          (w.disk.isDirectory archive || isJsonFile archive) = false ∧
          ((extract archive ⟨directory⟩).run w).1 = .ok count) := by
  refine ⟨run_eq_prepare arguments, fun failure next hprepare => ?_, fun directory h honly => ?_⟩
  · have hdisk : ((prepare arguments).run w).2.disk = next.disk := by rw [hprepare]
    refine ⟨?_, fun hinput => ?_, fun directory h => ?_⟩
    · rw [run_eq_prepare]
      exact run_bind_of_error hprepare
    · cases h : arguments.extract with
      | none => exact (keeps_prepare h).of_run hprepare
      | some directory =>
        rw [← hdisk]
        exact prepare_unusable htree h (hinput.resolve_left (by rw [h]; exact nofun))
    · rw [← hdisk]
      exact prepare_confined h w
  · refine ⟨fun next hrun => ?_, run_extractOnly_iff h honly⟩
    obtain ⟨archive, count, -, -, -, hdisk⟩ := run_extractOnly_eq_ok h honly hrun
    rw [← hdisk]
    exact extract_confined archive ⟨directory⟩ w

/-- An archive of a project file that is no project. -/
def garbled : ByteArray := ⟨#[
  80, 75, 3, 4, 20, 0, 0, 0, 0, 0, 0, 0, 33, 0, 241, 103, 187, 46, 1, 0, 0, 0, 1, 0, 0, 0, 12, 0, 0,
  0, 112, 114, 111, 106, 101, 99, 116, 46, 106, 115, 111, 110, 91, 80, 75, 1, 2, 20, 0, 20, 0, 0, 0,
  0, 0, 0, 0, 33, 0, 241, 103, 187, 46, 1, 0, 0, 0, 1, 0, 0, 0, 12, 0, 0, 0, 0, 0, 0, 0, 0, 0, 0, 0,
  128, 1, 0, 0, 0, 0, 112, 114, 111, 106, 101, 99, 116, 46, 106, 115, 111, 110, 80, 75, 5, 6, 0, 0,
  0, 0, 1, 0, 1, 0, 58, 0, 0, 0, 43, 0, 0, 0, 0, 0]⟩

/-- A disk with nothing but the archive. -/
def garbledShelf : World where
  disk.nodes := [(["pack.sb3"], .file garbled)]
  disk.here := []

theorem isTree_shelf {name : String} (h : IsName name) (content : ByteArray) :
    (⟨[([name], .file content)], []⟩ : Disk).IsTree where
  distinct := List.pairwise_singleton _ [name]
  above := by
    intro entry hentry
    rw [List.mem_singleton.mp hentry]
    exact ⟨List.cons_ne_nil name [], rfl⟩
  named := by
    intro entry hentry piece hpiece
    rw [List.mem_singleton.mp hentry] at hpiece
    rw [List.mem_singleton.mp hpiece]
    exact h

/-- The command line that unpacks the archive of either disk into `out`. -/
def unpackOut (extractOnly : Bool) : Arguments :=
  { input := "pack.sb3", extract := some "out", extractOnly }

theorem run_beforeConversion_shelves :
    (∃ failure next, (prepare (unpackOut false)).run garbledShelf = (.error failure, next) ∧
      (run (unpackOut false)).run garbledShelf = (.error failure, next) ∧
      Confined ⟨"out"⟩ garbledShelf.disk next.disk) ∧
    ∀ w ∈ [garbledShelf, tangledShelf], ∃ next,
      (run (unpackOut true)).run w = (.ok (), next) ∧ Confined ⟨"out"⟩ w.disk next.disk := by
  have hname : IsName "pack.sb3" := by decide +kernel
  constructor
  · have hfails : ((prepare (unpackOut false)).run garbledShelf).1.isOk = false := by
      decide +kernel
    obtain ⟨-, hearly, -⟩ := run_beforeConversion (unpackOut false) garbledShelf
      (isTree_shelf hname garbled)
    cases hprepare : (prepare (unpackOut false)).run garbledShelf with
    | mk result next =>
      rw [hprepare] at hfails
      cases result with
      | ok prepared => cases hfails
      | error failure =>
        obtain ⟨hrun, -, hconfined⟩ := hearly failure next hprepare
        exact ⟨failure, next, rfl, hrun, hconfined "out" rfl⟩
  · have hunpacks : ∀ w ∈ [garbledShelf, tangledShelf],
        w.disk.canonical ⟨"pack.sb3"⟩ = .ok ⟨"/pack.sb3"⟩ ∧
        (w.disk.isDirectory ⟨"/pack.sb3"⟩ || isJsonFile ⟨"/pack.sb3"⟩) = false ∧
        ((extract ⟨"/pack.sb3"⟩ ⟨"out"⟩).run w).1.isOk = true := by
      decide +kernel
    intro w hw
    have htree : w.disk.IsTree := by
      rcases List.mem_pair.mp hw with rfl | rfl
      · exact isTree_shelf hname garbled
      · exact isTree_shelf hname tangled
    obtain ⟨-, -, honly⟩ := run_beforeConversion (unpackOut true) w htree
    obtain ⟨hconfined, hsucceeds⟩ := honly "out" rfl rfl
    obtain ⟨hinput, haccepted, hextract⟩ := hunpacks w hw
    obtain ⟨count, hcount⟩ := Results.isOk_iff.mp hextract
    obtain ⟨next, hrun⟩ := hsucceeds.mpr ⟨_, count, hinput, haccepted, hcount⟩
    exact ⟨next, hrun, hconfined next hrun⟩

end BlockScript.Command
