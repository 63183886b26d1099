/-
  The files that a conversion writes.

  A conversion makes its directory and then writes one file after the other, until a target or a
  write fails. `writes` lists these files with the places they went to. The disk that a conversion
  leaves, whether it succeeds or not, is the disk with these files on it (`convertObserved_disk`),
  and one that succeeds has written every target that can be rendered (`convertObserved_eq_ok`).
-/
import BlockScript.Command.Convert
import BlockScript.Proofs.Command.Runs

namespace BlockScript.Command

open BlockScript.Command.Run BlockScript.Disk BlockScript.Results BlockScript.Script

section

variable {observer : Observer} {out : Disk.Path} {options : Options} {total index : Nat}
variable {output : Output} {w next : World}

/-! ## The turn of one target -/

theorem convertOutput_written {text : String} {place : Place} (hr : output.result = .ok text)
    (hp : w.disk.writePlace (out.join (output.fileName options.extension)) = .ok place) :
    (convertOutput observer out options total index output).run w =
      (.ok (some (out.join (output.fileName options.extension))),
        { disk := w.disk.set place (.file text.toUTF8)
          events := w.events ++ observer index total output.name ++
            [.note .info ("wrote " ++ (out.join (output.fileName options.extension)).text)] }) := by
  unfold convertOutput
  rw [run_bind_of_ok (run_report w _), hr]
  dsimp only
  rw [run_bind_of_ok (by rw [run_writeFile, hp]), run_bind_of_ok (run_note _ _ _), run_pure]

theorem convertOutput_refused {text : String} {trouble : Trouble} (hr : output.result = .ok text)
    (hp : w.disk.writePlace (out.join (output.fileName options.extension)) = .error trouble) :
    (convertOutput observer out options total index output).run w =
      (.error { contexts := ["Failed to write '" ++
                  (out.join (output.fileName options.extension)).text ++ "'."]
                cause := .disk },
        { w with events := w.events ++ observer index total output.name }) := by
  unfold convertOutput
  rw [run_bind_of_ok (run_report w _), hr]
  dsimp only
  rw [run_bind_of_error (by rw [run_writeFile, hp])]

theorem convertOutput_skipped {halt : Halt} (hr : output.result = .error halt)
    (hk : options.keepGoing = true) :
    (convertOutput observer out options total index output).run w =
      (.ok none,
        { w with events := w.events ++ observer index total output.name ++
            [.note .warning ("Skipping target '" ++ output.name ++ "': " ++ halt.message)] }) := by
  unfold convertOutput
  rw [run_bind_of_ok (run_report w _), hr]
  dsimp only
  rw [if_pos hk, run_bind_of_ok (run_note _ _ _), run_pure]

theorem convertOutput_aborted {halt : Halt} (hr : output.result = .error halt)
    (hk : options.keepGoing ≠ true) :
    (convertOutput observer out options total index output).run w =
      (.error { contexts := ["Failed to convert target '" ++ output.name ++ "'."]
                cause := .script halt },
        { w with events := w.events ++ observer index total output.name }) := by
  unfold convertOutput
  rw [run_bind_of_ok (run_report w _), hr]
  dsimp only
  rw [if_neg hk, run_throw]

/-! ## All targets -/

theorem convertOutputs_cons_of_ok {path : Option Disk.Path} {rest : List Output}
    (h : (convertOutput observer out options total index output).run w = (.ok path, next)) :
    (convertOutputs observer out options total index (output :: rest)).run w =
      (((convertOutputs observer out options total (index + 1) rest).run next).1.map
          (path.toList ++ ·),
        ((convertOutputs observer out options total (index + 1) rest).run next).2) := by
  rw [convertOutputs, run_bind_of_ok h]
  cases hrest : (convertOutputs observer out options total (index + 1) rest).run next with
  | mk result last =>
    cases result with
    | error failure => rw [run_bind_of_error hrest]; rfl
    | ok paths => rw [run_bind_of_ok hrest]; rfl

theorem convertOutputs_cons_of_error {failure : Failure} {rest : List Output}
    (h : (convertOutput observer out options total index output).run w = (.error failure, next)) :
    (convertOutputs observer out options total index (output :: rest)).run w =
      (.error failure, next) := by
  rw [convertOutputs, run_bind_of_error h]

end

/-- A file that is written: its name below the directory of the conversion, the place it goes to,
    and its text. -/
structure Write where
  name : String
  place : Place
  text : String

/-- The disk with some more files on it. -/
def applied (d : Disk) (files : List Write) : Disk :=
  files.foldl (fun d x => d.set x.place (.file x.text.toUTF8)) d

/-- The files that are written for some targets, as far as the conversion gets. -/
def writes (out : Disk.Path) (options : Options) : Disk → List Output → List Write
  | _, [] => []
  | d, output :: rest =>
    match output.result with
    | .error _ => if options.keepGoing then writes out options d rest else []
    | .ok text =>
      match d.writePlace (out.join (output.fileName options.extension)) with
      | .error _ => []
      | .ok place =>
        ⟨output.fileName options.extension, place, text⟩ ::
          writes out options (d.set place (.file text.toUTF8)) rest

/-- The names and the texts of the files of all targets that can be rendered. -/
def rendered (extension : String) (outputs : List Output) : List (String × String) :=
  outputs.filterMap fun output =>
    output.result.toOption.map fun text => (output.fileName extension, text)

theorem rendered_of_error {output : Output} {halt : Halt} (hr : output.result = .error halt)
    {extension : String} {rest : List Output} :
    rendered extension (output :: rest) = rendered extension rest := by
  simp [rendered, hr, Except.toOption]

theorem rendered_of_ok {output : Output} {text : String} (hr : output.result = .ok text)
    {extension : String} {rest : List Output} :
    rendered extension (output :: rest) =
      (output.fileName extension, text) :: rendered extension rest := by
  simp [rendered, hr, Except.toOption]

theorem mem_rendered_outputs {project : Project} {extension : String} {file : String × String} :
    file ∈ rendered extension (outputs project) ↔
      ∃ target ∈ project.targets, file.1 = target.name ++ "." ++ extension ∧
        targetText project target = .ok file.2 := by
  unfold rendered outputs
  rw [List.filterMap_map, List.mem_filterMap]
  constructor
  · rintro ⟨target, ht, hfile⟩
    obtain ⟨text, htext, rfl⟩ := Option.map_eq_some_iff.mp hfile
    exact ⟨target, ht, rfl, toOption_eq_some.mp htext⟩
  · rintro ⟨target, ht, hname, htext⟩
    refine ⟨target, ht, ?_⟩
    dsimp only [Function.comp]
    rw [htext]
    exact congrArg some (Prod.ext hname.symm rfl)

/-! ## What was written -/

section

variable (out : Disk.Path) (options : Options)

theorem applied_cons (d : Disk) (x : Write) (files : List Write) :
    applied d (x :: files) = applied (d.set x.place (.file x.text.toUTF8)) files := rfl

theorem writes_of_ok {d : Disk} {output : Output} {text : String} {place : Place}
    (hr : output.result = .ok text)
    (hp : d.writePlace (out.join (output.fileName options.extension)) = .ok place)
    (rest : List Output) :
    writes out options d (output :: rest) =
      ⟨output.fileName options.extension, place, text⟩ ::
        writes out options (d.set place (.file text.toUTF8)) rest := by
  rw [writes, hr]
  dsimp only
  rw [hp]

theorem writes_of_refused {d : Disk} {output : Output} {text : String} {trouble : Trouble}
    (hr : output.result = .ok text)
    (hp : d.writePlace (out.join (output.fileName options.extension)) = .error trouble)
    (rest : List Output) : writes out options d (output :: rest) = [] := by
  rw [writes, hr]
  dsimp only
  rw [hp]

theorem writes_of_error {d : Disk} {output : Output} {halt : Halt}
    (hr : output.result = .error halt) (rest : List Output) :
    writes out options d (output :: rest) =
      if options.keepGoing then writes out options d rest else [] := by
  rw [writes, hr]

/-- The disk behind the turns of some targets, however they end. -/
theorem convertOutputs_disk (observer : Observer) (total index : Nat) (outputs : List Output)
    (w : World) :
    ((convertOutputs observer out options total index outputs).run w).2.disk =
      applied w.disk (writes out options w.disk outputs) := by
  induction outputs generalizing index w with
  | nil => rfl
  | cons output rest ih =>
    cases hr : output.result with
    | error halt =>
      rw [writes_of_error out options hr]
      by_cases hk : options.keepGoing = true
      · rw [if_pos hk, convertOutputs_cons_of_ok (convertOutput_skipped hr hk)]
        exact ih _ _
      · rw [if_neg hk, convertOutputs_cons_of_error (convertOutput_aborted hr hk)]
        rfl
    | ok text =>
      cases hp : w.disk.writePlace (out.join (output.fileName options.extension)) with
      | error trouble =>
        rw [writes_of_refused out options hr hp,
          convertOutputs_cons_of_error (convertOutput_refused hr hp)]
        rfl
      | ok place =>
        rw [writes_of_ok out options hr hp,
          convertOutputs_cons_of_ok (convertOutput_written hr hp), applied_cons]
        exact ih _ _

/-- Turns that all succeed return the paths of the files they wrote, and pass over no target that
    can be rendered. -/
theorem convertOutputs_eq_ok {observer : Observer} {total index : Nat} {outputs : List Output}
    {w : World} {paths : List Disk.Path}
    (h : ((convertOutputs observer out options total index outputs).run w).1 = .ok paths) :
    paths = (writes out options w.disk outputs).map (fun x => out.join x.name) ∧
      (writes out options w.disk outputs).map (fun x => (x.name, x.text)) =
        rendered options.extension outputs := by
  induction outputs generalizing index w paths with
  | nil => cases h; exact ⟨rfl, rfl⟩
  | cons output rest ih =>
    cases hr : output.result with
    | error halt =>
      rw [writes_of_error out options hr, rendered_of_error hr]
      by_cases hk : options.keepGoing = true
      · rw [convertOutputs_cons_of_ok (convertOutput_skipped hr hk)] at h
        obtain ⟨more, hmore, rfl⟩ := map_eq_ok.mp h
        rw [if_pos hk]
        have hrest := ih hmore
        exact hrest
      · rw [convertOutputs_cons_of_error (convertOutput_aborted hr hk)] at h
        cases h
    | ok text =>
      cases hp : w.disk.writePlace (out.join (output.fileName options.extension)) with
      | error trouble =>
        rw [convertOutputs_cons_of_error (convertOutput_refused hr hp)] at h
        cases h
      | ok place =>
        rw [convertOutputs_cons_of_ok (convertOutput_written hr hp)] at h
        obtain ⟨more, hmore, rfl⟩ := map_eq_ok.mp h
        obtain ⟨hpaths, hnames⟩ := ih hmore
        rw [writes_of_ok out options hr hp, rendered_of_ok hr, List.map_cons, List.map_cons,
          ← hnames, hpaths]
        exact ⟨rfl, rfl⟩

/-- Every file that is written has the name and the text of a target. -/
theorem mem_rendered_of_mem_writes {d : Disk} {outputs : List Output} {x : Write}
    (hx : x ∈ writes out options d outputs) :
    (x.name, x.text) ∈ rendered options.extension outputs := by
  fun_induction writes out options d outputs with
  | case1 d => cases hx
  | case2 d output rest halt hr hk ih =>
    rw [rendered_of_error hr]
    exact ih hx
  | case3 d output rest halt hr hk => cases hx
  | case4 d output rest text hr trouble hp => cases hx
  | case5 d output rest text hr place hp ih =>
    rw [rendered_of_ok hr]
    rcases List.mem_cons.mp hx with rfl | hx
    · exact List.mem_cons_self ..
    · exact List.mem_cons_of_mem _ (ih hx)

/-! ## Where it went -/

theorem extends_applied (d : Disk) (outputs : List Output) :
    d.Extends (applied d (writes out options d outputs)) := by
  fun_induction writes out options d outputs with
  | case1 d => exact .refl d
  | case2 d output rest halt hr hk ih => exact ih
  | case3 d output rest halt hr hk => exact .refl d
  | case4 d output rest text hr trouble hp => exact .refl d
  | case5 d output rest text hr place hp ih =>
    exact (extends_set (writePlace_eq_ok hp).2.1 _).trans ih

/-- While a file is written the disk extends what it was before, and is extended by what it is in
    the end. -/
theorem exists_of_mem_writes {d : Disk} {outputs : List Output} {x : Write}
    (hx : x ∈ writes out options d outputs) :
    ∃ between : Disk, d.Extends between ∧
      between.Extends (applied d (writes out options d outputs)) ∧
      between.writePlace (out.join x.name) = .ok x.place := by
  fun_induction writes out options d outputs with
  | case1 d => cases hx
  | case2 d output rest halt hr hk ih => exact ih hx
  | case3 d output rest halt hr hk => cases hx
  | case4 d output rest text hr trouble hp => cases hx
  | case5 d output rest text hr place hp ih =>
    have hset := extends_set (writePlace_eq_ok hp).2.1 (.file text.toUTF8)
    rcases List.mem_cons.mp hx with rfl | hx
    · exact ⟨d, .refl d, hset.trans (extends_applied out options _ rest), hp⟩
    · obtain ⟨between, hbefore, hafter, hplace⟩ := ih hx
      exact ⟨between, hset.trans hbefore, hafter, hplace⟩

/-- A file goes where its name leads as seen from the directory of the conversion. -/
theorem place_of_mem_writes {d : Disk} {outputs : List Output} {x : Write}
    (hx : x ∈ writes out options d outputs) :
    x.place = (⟨x.name⟩ : Disk.Path).landing (out.landing d.here) := by
  obtain ⟨between, hbefore, -, hplace⟩ := exists_of_mem_writes out options hx
  rw [writePlace_eq_landing hplace, hbefore.here, Path.landing_join]

theorem place_ne_nil_of_mem_writes {d : Disk} {outputs : List Output} {x : Write}
    (hx : x ∈ writes out options d outputs) : x.place ≠ [] := by
  obtain ⟨between, -, -, hplace⟩ := exists_of_mem_writes out options hx
  intro hnil
  rw [hnil] at hplace
  exact (writePlace_eq_ok hplace).2.1 rfl

end

/-! ## What is on the disk -/

theorem fileAt_applied_of_forall_ne {files : List Write} {place : Place}
    (h : ∀ x ∈ files, x.place ≠ place) (d : Disk) :
    (applied d files).fileAt place = d.fileAt place := by
  induction files generalizing d with
  | nil => rfl
  | cons x files ih =>
    obtain ⟨hx, hfiles⟩ := List.forall_mem_cons.mp h
    rw [applied_cons, ih hfiles, fileAt_set_of_ne d (Ne.symm hx)]

/-- Of files that go to different places each is there in the end. -/
theorem fileAt_applied_of_mem {files : List Write} (hdistinct : (files.map (·.place)).Nodup)
    {x : Write} (hx : x ∈ files) (hne : x.place ≠ []) (d : Disk) :
    (applied d files).fileAt x.place = some x.text.toUTF8 := by
  induction files generalizing d with
  | nil => cases hx
  | cons first files ih =>
    rw [List.map_cons, List.nodup_cons] at hdistinct
    rw [applied_cons]
    rcases List.mem_cons.mp hx with rfl | hx
    · have hothers : ∀ y ∈ files, y.place ≠ x.place := by
        intro y hy heq
        exact hdistinct.1 (heq ▸ List.mem_map_of_mem hy)
      rw [fileAt_applied_of_forall_ne hothers, fileAt_set_self d hne]
    · exact ih hdistinct.2 hx _

/-! ## The whole conversion -/

section

variable (observer : Observer) (project : Project) (out : Disk.Path) (options : Options) (w : World)

/-- The files that a conversion writes. -/
def conversionWrites (d : Disk) : List Write :=
  match d.makeDirectories out with
  | (made, none) => writes out options made (outputs project)
  | (_, some _) => []

theorem convertObserved_of_made {made : Disk} (h : w.disk.makeDirectories out = (made, none)) :
    (convertObserved observer project out options).run w =
      (convertOutputs observer out options (outputs project).length 1 (outputs project)).run
        { w with disk := made } := by
  unfold convertObserved
  exact run_bind_of_ok (by rw [run_makeDirectories, h])

theorem convertObserved_of_not_made {made : Disk} {trouble : Trouble}
    (h : w.disk.makeDirectories out = (made, some trouble)) :
    (convertObserved observer project out options).run w =
      (.error { contexts := ["Failed to create '" ++ out.text ++ "'."], cause := .disk },
        { w with disk := made }) := by
  unfold convertObserved
  exact run_bind_of_error (by rw [run_makeDirectories, h])

/-- However a conversion ends, the disk has the directories that were made and the files that were
    written, and is otherwise as it was. -/
theorem convertObserved_disk :
    ((convertObserved observer project out options).run w).2.disk =
      applied (w.disk.makeDirectories out).1 (conversionWrites project out options w.disk) := by
  unfold conversionWrites
  cases h : w.disk.makeDirectories out with
  | mk made trouble =>
    cases trouble with
    | some trouble => rw [convertObserved_of_not_made observer project out options w h]; rfl
    | none =>
      rw [convertObserved_of_made observer project out options w h]
      exact convertOutputs_disk out options observer _ _ _ _

variable {observer project out options w}

/-- A conversion that succeeds returns the paths of the files it wrote, which are those of all
    targets that can be rendered. -/
theorem convertObserved_eq_ok {paths : List Disk.Path}
    (h : ((convertObserved observer project out options).run w).1 = .ok paths) :
    paths = (conversionWrites project out options w.disk).map (fun x => out.join x.name) ∧
      (conversionWrites project out options w.disk).map (fun x => (x.name, x.text)) =
        rendered options.extension (outputs project) := by
  unfold conversionWrites
  cases hm : w.disk.makeDirectories out with
  | mk made trouble =>
    cases trouble with
    | some trouble =>
      rw [convertObserved_of_not_made observer project out options w hm] at h
      cases h
    | none =>
      rw [convertObserved_of_made observer project out options w hm] at h
      exact convertOutputs_eq_ok out options h

theorem conversionWrites_eq {d : Disk} {x : Write}
    (hx : x ∈ conversionWrites project out options d) :
    conversionWrites project out options d =
      writes out options (d.makeDirectories out).1 (outputs project) := by
  unfold conversionWrites at hx ⊢
  split at hx
  · rename_i made hm
    rw [hm]
  · cases hx

/-- Every file of a conversion goes where its name leads as seen from the directory. -/
theorem place_of_mem_conversionWrites {d : Disk} {x : Write}
    (hx : x ∈ conversionWrites project out options d) :
    x.place = (⟨x.name⟩ : Disk.Path).landing (out.landing d.here) := by
  rw [conversionWrites_eq hx] at hx
  rw [place_of_mem_writes out options hx, (makeDirectories_growsOver d out).extension.here]

end

end BlockScript.Command
