/-
  The course of a conversion.

  Once its directory is there, a conversion takes one target after the other. A turn goes by if the
  script of the target is written or, where failing targets are passed over, if there is none. The
  first turn that does not go by ends the conversion (`Ending`). So the targets are cut in two,
  those whose turns went by and those from the turn that ended it on (`Course`), and this cut
  decides the result, the disk and all that is reported (`convertObserved_follows`).
-/
import BlockScript.Proofs.Command.Preservation
import BlockScript.Proofs.Graph.Blame

namespace BlockScript.Command

open BlockScript.Command.Run BlockScript.Disk BlockScript.Results BlockScript.Script

/-- Writes files one after the other, up to the first that cannot be written. -/
def writeAll (d : Disk) (files : List (Disk.Path × String)) : Except Trouble Disk :=
  files.foldlM (fun d file => d.writeFile file.1 file.2.toUTF8) d

section

variable (project : Project) (out : Disk.Path) (options : Options)

/-- The paths and the texts of the scripts of those targets that can be rendered. -/
def scriptFiles (targets : List Target) : List (Disk.Path × String) :=
  targets.filterMap fun target =>
    (targetText project target).toOption.map fun text => (scriptPath out options target, text)

/-- What is noted in a turn that goes by. -/
def turnNote (target : Target) : Event :=
  match targetText project target with
  | .ok _ => .note .info ("wrote " ++ (scriptPath out options target).text)
  | .error halt =>
    .note .warning ("Skipping target '" ++ target.name ++ "': " ++ halt.message)

/-- What is reported in the turns of some targets that go by, the first of which has the given
    number. -/
def turnEvents (observer : Observer) (total index : Nat) (targets : List Target) : List Event :=
  (targets.zipIdx index).flatMap fun (target, index) =>
    observer index total target.name ++ [turnNote project out options target]

/-- What is reported in the turn that ends a conversion, which is the turn of the first target that
    is left. -/
def lastCall (observer : Observer) (total index : Nat) (rest : List Target) : List Event :=
  (rest.take 1).flatMap fun target => observer index total target.name

/-- How a conversion ends when its disk is `d` and some targets are left: behind the last one, at a
    target with a fault, or at a file that cannot be written. -/
inductive Ending (d : Disk) : List Target → Except Failure Unit → Prop
  | finished : Ending d [] (.ok ())
  | faulty {target : Target} {rest : List Target} {fault : Fault}
    (hk : options.keepGoing = false) (hr : targetText project target = .error (.fault fault)) :
    Ending d (target :: rest)
      (.error { contexts := ["Failed to convert target '" ++ target.name ++ "'."]
                cause := .script (.fault fault) })
  | refused {target : Target} {rest : List Target} {text : String} {trouble : Trouble}
    (hr : targetText project target = .ok text)
    (hw : d.writeFile (scriptPath out options target) text.toUTF8 = .error trouble) :
    Ending d (target :: rest)
      (.error { contexts := ["Failed to write '" ++ (scriptPath out options target).text ++ "'."]
                cause := .disk })

/-- The course of a conversion of some targets from the disk `d` on: the turns of `done` went by,
    all their scripts are on the disk `after`, and the conversion ended before the turns of `rest`
    could go by. Without `keepGoing` no target was passed over. -/
structure Course (d : Disk) (targets done rest : List Target) (after : Disk)
    (result : Except Failure Unit) : Prop where
  cut : targets = done ++ rest
  strict : options.keepGoing = false → ∀ target ∈ done, (targetText project target).isOk = true
  written : writeAll d (scriptFiles project out options done) = .ok after
  ending : Ending project out options after rest result

end

section

variable {project : Project} {out : Disk.Path} {options : Options}

/-! ## Files and events of one more target -/

theorem scriptFiles_of_ok {target : Target} {text : String} (done : List Target)
    (hr : targetText project target = .ok text) :
    scriptFiles project out options (target :: done) =
      (scriptPath out options target, text) :: scriptFiles project out options done := by
  simp [scriptFiles, hr, Except.toOption]

theorem scriptFiles_of_error {target : Target} {halt : Halt} (done : List Target)
    (hr : targetText project target = .error halt) :
    scriptFiles project out options (target :: done) = scriptFiles project out options done := by
  simp [scriptFiles, hr, Except.toOption]

theorem turnEvents_cons (observer : Observer) (total index : Nat) (target : Target)
    (done : List Target) :
    turnEvents project out options observer total index (target :: done) =
      observer index total target.name ++ [turnNote project out options target] ++
        turnEvents project out options observer total (index + 1) done := rfl

theorem writeAll_cons {d after : Disk} {file : Disk.Path × String}
    {files : List (Disk.Path × String)} :
    writeAll d (file :: files) = .ok after ↔
      ∃ between, d.writeFile file.1 file.2.toUTF8 = .ok between ∧
        writeAll between files = .ok after := by
  unfold writeAll
  rw [List.foldlM_cons]
  exact bind_eq_ok

theorem writeFile_eq_ok_iff {d next : Disk} {p : Disk.Path} {content : ByteArray} :
    d.writeFile p content = .ok next ↔
      ∃ place, d.writePlace p = .ok place ∧ next = d.set place (.file content) := by
  rw [writeFile_eq, map_eq_ok]
  simp only [eq_comm]

theorem writePlace_of_writeFile_error {d : Disk} {p : Disk.Path} {content : ByteArray}
    {trouble : Trouble} (h : d.writeFile p content = .error trouble) :
    d.writePlace p = .error trouble := by
  rw [writeFile_eq] at h
  cases hp : d.writePlace p with
  | error found => rw [hp] at h; cases h; rfl
  | ok place => rw [hp] at h; cases h

/-! ## One turn -/

/-- The result of a target as a conversion takes it. -/
def resultOf (project : Project) (target : Target) : Output :=
  ⟨target.name, targetText project target⟩

variable (observer : Observer) (total : Nat)

section

variable {target : Target} {index : Nat} {w : World}

/-- A turn in which the script of the target is written. -/
theorem convertOutput_goesBy {text : String} {d next : Disk} {events : List Event}
    (hr : targetText project target = .ok text)
    (hw : d.writeFile (scriptPath out options target) text.toUTF8 = .ok next) :
    (convertOutput observer out options total index (resultOf project target)).run
        { disk := d, events } =
      (.ok (some (scriptPath out options target)),
        { disk := next
          events := events ++ observer index total target.name ++
            [turnNote project out options target] }) := by
  obtain ⟨place, hplace, rfl⟩ := writeFile_eq_ok_iff.mp hw
  have hresult : (resultOf project target).result = .ok text := hr
  have hlands : ({ disk := d, events } : World).disk.writePlace
      (out.join ((resultOf project target).fileName options.extension)) = .ok place := hplace
  rw [convertOutput_written hresult hlands]
  unfold turnNote
  rw [hr]
  rfl

/-- A turn in which the target is passed over. -/
theorem convertOutput_passesOver {halt : Halt} (hr : targetText project target = .error halt)
    (hk : options.keepGoing = true) :
    (convertOutput observer out options total index (resultOf project target)).run w =
      (.ok none,
        { w with events := w.events ++ observer index total target.name ++
            [turnNote project out options target] }) := by
  have hresult : (resultOf project target).result = .error halt := hr
  rw [convertOutput_skipped hresult hk]
  unfold turnNote
  rw [hr]
  rfl

/-- The first turn that does not go by is the last one. -/
theorem convertOutputs_of_ending {rest : List Target} {result : Except Failure Unit}
    (h : Ending project out options w.disk rest result) :
    (convertOutputs observer out options total index (rest.map (resultOf project))).run w =
      (result.map fun _ => [],
        { w with events := w.events ++ lastCall observer total index rest }) := by
  cases h with
  | finished =>
    rw [List.map_nil, convertOutputs, run_pure]
    simp [lastCall, Except.map]
  | @faulty target rest fault hk hr =>
    have hresult : (resultOf project target).result = .error (.fault fault) := hr
    rw [List.map_cons,
      convertOutputs_cons_of_error (convertOutput_aborted hresult (by rw [hk]; decide))]
    simp [lastCall, Except.map, resultOf]
  | @refused target rest text trouble hr hw =>
    have hresult : (resultOf project target).result = .ok text := hr
    have hplace := writePlace_of_writeFile_error hw
    rw [List.map_cons, convertOutputs_cons_of_error (convertOutput_refused hresult hplace)]
    simp [lastCall, Except.map, resultOf, scriptPath, Output.fileName]

end

/-! ## A course is followed -/

/-- The turns of a course, by induction on those that go by. -/
theorem convertOutputs_of_course {d after : Disk} {targets done rest : List Target}
    {result : Except Failure Unit} (index : Nat) (events : List Event)
    (h : Course project out options d targets done rest after result) :
    (convertOutputs observer out options total index (targets.map (resultOf project))).run
        { disk := d, events } =
      (result.map fun _ => (scriptFiles project out options done).map Prod.fst,
        { disk := after
          events := events ++ turnEvents project out options observer total index done ++
            lastCall observer total (index + done.length) rest }) := by
  induction done generalizing d targets index events with
  | nil =>
    obtain ⟨rfl, -, hwritten, hending⟩ := h
    cases hwritten
    rw [convertOutputs_of_ending observer total hending]
    simp [turnEvents, scriptFiles]
  | cons target done ih =>
    obtain ⟨rfl, hstrict, hwritten, hending⟩ := h
    have hstrict' : options.keepGoing = false →
        ∀ target ∈ done, (targetText project target).isOk = true :=
      fun hk t ht => hstrict hk t (List.mem_cons_of_mem _ ht)
    have hnumber : index + 1 + done.length = index + (target :: done).length := by
      rw [List.length_cons]
      omega
    rw [List.cons_append, List.map_cons, turnEvents_cons, ← hnumber]
    cases hr : targetText project target with
    | error halt =>
      -- a target without a script goes by only if it is passed over
      have hk : options.keepGoing = true := by
        rw [← Bool.not_eq_false]
        intro hk
        have hok := hstrict hk target (List.mem_cons_self ..)
        rw [hr] at hok
        cases hok
      rw [scriptFiles_of_error done hr] at hwritten ⊢
      rw [convertOutputs_cons_of_ok (convertOutput_passesOver observer total hr hk),
        ih (index + 1) _ ⟨rfl, hstrict', hwritten, hending⟩]
      cases result <;> simp [Except.map]
    | ok text =>
      rw [scriptFiles_of_ok done hr] at hwritten ⊢
      obtain ⟨between, hfirst, hothers⟩ := writeAll_cons.mp hwritten
      rw [convertOutputs_cons_of_ok (convertOutput_goesBy observer total hr hfirst),
        ih (index + 1) _ ⟨rfl, hstrict', hothers, hending⟩]
      cases result <;> simp [Except.map]

/-! ## There is a course -/

omit observer total in
/-- A course of the remaining targets is one of all behind a turn that goes by. -/
theorem Course.cons {d between after : Disk} {target : Target} {targets done rest : List Target}
    {result : Except Failure Unit}
    (hfirst : writeAll d (scriptFiles project out options [target]) = .ok between)
    (hstrict : options.keepGoing = false → (targetText project target).isOk = true)
    (h : Course project out options between targets done rest after result) :
    Course project out options d (target :: targets) (target :: done) rest after result := by
  obtain ⟨rfl, hothers, hwritten, hending⟩ := h
  refine ⟨rfl, fun hk => List.forall_mem_cons.mpr ⟨hstrict hk, hothers hk⟩, ?_, hending⟩
  have hfiles : scriptFiles project out options (target :: done) =
      scriptFiles project out options [target] ++ scriptFiles project out options done := by
    unfold scriptFiles
    rw [← List.filterMap_append, List.singleton_append]
  rw [hfiles]
  unfold writeAll at hfirst hwritten ⊢
  rw [List.foldlM_append, hfirst]
  exact hwritten

omit observer total in
theorem exists_course (targets : List Target) (h : ∀ target ∈ targets, target.Acyclic) (d : Disk) :
    ∃ done rest after result, Course project out options d targets done rest after result := by
  induction targets generalizing d with
  | nil => exact ⟨[], [], d, .ok (), rfl, fun _ => nofun, rfl, .finished⟩
  | cons target targets ih =>
    obtain ⟨hacyclic, hothers⟩ := List.forall_mem_cons.mp h
    cases hr : targetText project target with
    | ok text =>
      cases hw : d.writeFile (scriptPath out options target) text.toUTF8 with
      | error trouble =>
        exact ⟨[], _, d, _, rfl, fun _ => nofun, rfl, .refused hr hw⟩
      | ok between =>
        obtain ⟨done, rest, after, result, hcourse⟩ := ih hothers between
        refine ⟨target :: done, rest, after, result, hcourse.cons ?_ fun _ => ?_⟩
        · rw [scriptFiles_of_ok [] hr]
          exact writeAll_cons.mpr ⟨between, hw, rfl⟩
        · rw [hr]
          rfl
    | error halt =>
      cases hk : options.keepGoing with
      | false =>
        obtain ⟨fault, rfl, -⟩ := ((meets_targetText project target hacyclic).error_iff halt).mp hr
        exact ⟨[], _, d, _, rfl, fun _ => nofun, rfl, .faulty hk hr⟩
      | true =>
        obtain ⟨done, rest, after, result, hcourse⟩ := ih hothers d
        refine ⟨target :: done, rest, after, result, hcourse.cons ?_ fun hk' => ?_⟩
        · rw [scriptFiles_of_error [] hr]
          rfl
        · rw [hk] at hk'
          cases hk'

/-! ## The conversion -/

/-- Once its directory is there, a conversion of targets without circles has a course, and whatever
    course it has decides what it returns, what it writes and what it reports. The observer is told
    of every target whose turn comes, before anything else happens in the turn, and has no part in
    the result and in the files. -/
theorem convertObserved_follows {w : World} {made : Disk}
    (hacyclic : ∀ target ∈ project.targets, target.Acyclic)
    (hmade : w.disk.makeDirectories out = (made, none)) :
    (∃ done rest after result,
      Course project out options made project.targets done rest after result) ∧
    ∀ done rest after result,
      Course project out options made project.targets done rest after result →
      (convertObserved observer project out options).run w =
        (result.map fun _ => (scriptFiles project out options done).map Prod.fst,
          { disk := after
            events := w.events ++
              turnEvents project out options observer project.targets.length 1 done ++
              lastCall observer project.targets.length (1 + done.length) rest }) ∧
      ((convertProject project out options).run w).1 =
        ((convertObserved observer project out options).run w).1 ∧
      ((convertProject project out options).run w).2.disk =
        ((convertObserved observer project out options).run w).2.disk := by
  refine ⟨exists_course project.targets hacyclic made, fun done rest after result hcourse => ?_⟩
  have hrun : ∀ observer : Observer, (convertObserved observer project out options).run w =
      (result.map fun _ => (scriptFiles project out options done).map Prod.fst,
        { disk := after
          events := w.events ++
            turnEvents project out options observer project.targets.length 1 done ++
            lastCall observer project.targets.length (1 + done.length) rest }) := by
    intro observer
    have htotal : (outputs project).length = project.targets.length := List.length_map ..
    rw [convertObserved_of_made observer project out options w hmade, htotal]
    exact convertOutputs_of_course observer project.targets.length 1 w.events hcourse
  unfold convertProject
  rw [hrun observer, hrun]
  exact ⟨rfl, rfl, rfl⟩

end

/-- Three targets, of which the second refers to a block that it does not have. -/
def brokenSecond : Project where
  targets :=
    [⟨"A", true, [], [], []⟩,
      ⟨"B", false, [], [], [{ Block.bare "r" "when" (some "ghost") [] with topLevel := true }]⟩,
      ⟨"C", false, [], [], []⟩]
  monitors := []

/-- The failure that its second target ends a conversion with. -/
def brokenFailure : Failure where
  contexts := ["Failed to convert target 'B'."]
  cause := .script (.fault (.missingBlock "B" "r" "when" "ghost"))

theorem acyclic_brokenSecond : ∀ target ∈ brokenSecond.targets, target.Acyclic := by
  intro target ht
  refine Target.acyclic_of_measure (fun id => if id = "r" then 1 else 0) ?_
  revert target
  decide

/-- With and without passing over the second target. -/
theorem convertObserved_follows_brokenSecond :
    (∀ target ∈ brokenSecond.targets, target.Acyclic) ∧
    ∃ made after last : Disk, Disk.makeDirectories ⟨[], []⟩ ⟨"out"⟩ = (made, none) ∧
      (convertObserved (fun i n name => [.target i n name]) brokenSecond ⟨"out"⟩ {}).run
          { disk := ⟨[], []⟩ } =
        (.error brokenFailure,
          { disk := after
            events := [.target 1 3 "A", .note .info "wrote out/A.scs", .target 2 3 "B"] }) ∧
      (convertObserved (fun i n name => [.target i n name]) brokenSecond ⟨"out"⟩
          { keepGoing := true }).run { disk := ⟨[], []⟩ } =
        (.ok [⟨"out/A.scs"⟩, ⟨"out/C.scs"⟩],
          { disk := last
            events := [.target 1 3 "A", .note .info "wrote out/A.scs", .target 2 3 "B",
              .note .warning ("Skipping target 'B': target 'B': block 'r' (when) references " ++
                "missing block 'ghost'"),
              .target 3 3 "C", .note .info "wrote out/C.scs"] }) := by
  have hmade : Disk.makeDirectories ⟨[], []⟩ ⟨"out"⟩ =
      ((Disk.makeDirectories ⟨[], []⟩ ⟨"out"⟩).1, none) :=
    Prod.ext rfl (by decide +kernel)
  obtain ⟨after, hafter⟩ : ∃ after, writeAll (Disk.makeDirectories ⟨[], []⟩ ⟨"out"⟩).1
      (scriptFiles brokenSecond ⟨"out"⟩ {} (brokenSecond.targets.take 1)) = .ok after :=
    isOk_iff.mp (by decide +kernel)
  obtain ⟨last, hlast⟩ : ∃ last, writeAll (Disk.makeDirectories ⟨[], []⟩ ⟨"out"⟩).1
      (scriptFiles brokenSecond ⟨"out"⟩ { keepGoing := true } brokenSecond.targets) = .ok last :=
    isOk_iff.mp (by decide +kernel)
  refine ⟨acyclic_brokenSecond, _, after, last, hmade, ?_, ?_⟩
  · have hcourse : Course brokenSecond ⟨"out"⟩ {} (Disk.makeDirectories ⟨[], []⟩ ⟨"out"⟩).1
        brokenSecond.targets (brokenSecond.targets.take 1) (brokenSecond.targets.drop 1) after
        (.error brokenFailure) :=
      ⟨rfl, fun _ => by decide +kernel, hafter, .faulty rfl (by decide +kernel)⟩
    refine ((convertObserved_follows _ acyclic_brokenSecond hmade).2 _ _ _ _ hcourse).1.trans ?_
    refine Prod.ext rfl (congrArg (World.mk after) ?_)
    decide +kernel
  · have hcourse : Course brokenSecond ⟨"out"⟩ { keepGoing := true }
        (Disk.makeDirectories ⟨[], []⟩ ⟨"out"⟩).1 brokenSecond.targets brokenSecond.targets [] last
        (.ok ()) :=
      ⟨rfl, nofun, hlast, .finished⟩
    refine ((convertObserved_follows _ acyclic_brokenSecond hmade).2 _ _ _ _ hcourse).1.trans ?_
    refine Prod.ext (congrArg Except.ok ?_) (congrArg (World.mk last) ?_)
    · decide +kernel
    · decide +kernel

end BlockScript.Command
