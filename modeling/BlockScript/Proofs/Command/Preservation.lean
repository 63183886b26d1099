/-
  Whether the file of every target is there in the end.

  A conversion that succeeds has written the script of every target that can be rendered. Each of
  them is still there, in a file of its own, and is the script that asking for the target by its
  name gives, exactly if no two of the files lead to the same place and no target shares its name
  with an earlier one that cannot be rendered (`convertProject_preserved_iff`). Nothing ensures
  this: of two targets of one name only the last is left (`not_preserved_of_sameName`).
-/
import BlockScript.Proofs.Command.Writes
import Mathlib.Data.List.Nodup

namespace BlockScript.Command

open BlockScript.Disk BlockScript.Results BlockScript.Script

/-! ## One target by its name -/

/-- Asking for a target by its name gives the script of the first target of the name. -/
theorem convertTarget_eq_ok {text : String} {project : Project}
    (hp : Project.ofText text = .ok project) {name script : String} :
    convertTarget text name = .ok script ↔
      ∃ target, project.target? name = some target ∧ targetText project target = .ok script := by
  unfold convertTarget
  rw [hp]
  dsimp only [Except.mapError, bind, Except.bind]
  cases project.target? name with
  | none =>
    constructor
    · intro h; cases h
    · rintro ⟨target, h, -⟩; cases h
  | some target =>
    have hgoal : (∃ other, some target = some other ∧ targetText project other = .ok script) ↔
        targetText project target = .ok script := by
      simp
    rw [hgoal]
    exact mapError_eq_ok

/-! ## Files after a conversion -/

section

variable {project : Project} {out : Disk.Path} {options : Options} {w : World}

/-- In the end the path of a file still leads to where the file went. -/
theorem resolve_of_mem_conversionWrites (observer : Observer) {x : Write}
    (hx : x ∈ conversionWrites project out options w.disk) :
    ((convertObserved observer project out options).run w).2.disk.resolve (out.join x.name) =
        .ok x.place ∧
      endsInSlash (out.join x.name) = false ∧ x.place ≠ [] := by
  have hfiles := conversionWrites_eq hx
  rw [convertObserved_disk, hfiles]
  rw [hfiles] at hx
  obtain ⟨between, -, hafter, hplace⟩ := exists_of_mem_writes out options hx
  obtain ⟨hresolve, -, hslash⟩ := writePlace_eq_ok hplace
  exact ⟨hafter.resolve hresolve, hslash, place_ne_nil_of_mem_writes out options hx⟩

/-- The places of the files of all targets that can be rendered. -/
def scriptPlaces (project : Project) (out : Disk.Path) (options : Options) (here : Place) :
    List Place :=
  (rendered options.extension (outputs project)).map fun file =>
    (⟨file.1⟩ : Disk.Path).landing (out.landing here)

variable {observer : Observer}

theorem map_place_conversionWrites {written : List Disk.Path}
    (hr : ((convertObserved observer project out options).run w).1 = .ok written) :
    (conversionWrites project out options w.disk).map (·.place) =
      scriptPlaces project out options w.disk.here := by
  unfold scriptPlaces
  rw [← (convertObserved_eq_ok hr).2, List.map_map]
  exact List.map_congr_left fun x hx => place_of_mem_conversionWrites hx

/-- A conversion that succeeds has written different files exactly if the places of the files are
    different. -/
theorem pairwise_resolve_iff {written : List Disk.Path}
    (hr : ((convertObserved observer project out options).run w).1 = .ok written) :
    (written.Pairwise fun p q =>
        ((convertObserved observer project out options).run w).2.disk.resolve p ≠
          ((convertObserved observer project out options).run w).2.disk.resolve q) ↔
      (scriptPlaces project out options w.disk.here).Nodup := by
  rw [← map_place_conversionWrites hr, (convertObserved_eq_ok hr).1, List.pairwise_map, List.Nodup,
    List.pairwise_map]
  apply List.Pairwise.iff_of_mem
  intro x y hx hy
  rw [(resolve_of_mem_conversionWrites observer hx).1,
    (resolve_of_mem_conversionWrites observer hy).1, Ne, Except.ok.injEq]

/-- If the places of the files are different, each file has the script of its target. -/
theorem readFile_of_nodup {written : List Disk.Path}
    (hr : ((convertObserved observer project out options).run w).1 = .ok written)
    (hplaces : (scriptPlaces project out options w.disk.here).Nodup) {name text : String}
    (hfile : (name, text) ∈ rendered options.extension (outputs project)) :
    ((convertObserved observer project out options).run w).2.disk.readFile (out.join name) =
      .ok text.toUTF8 := by
  rw [← (convertObserved_eq_ok hr).2] at hfile
  obtain ⟨x, hx, hxfile⟩ := List.mem_map.mp hfile
  obtain ⟨rfl, rfl⟩ := Prod.mk.inj hxfile
  obtain ⟨hresolve, hslash, hne⟩ := resolve_of_mem_conversionWrites observer hx
  refine readFile_of_resolve hresolve hslash ?_
  rw [convertObserved_disk]
  rw [← map_place_conversionWrites hr] at hplaces
  exact fileAt_applied_of_mem hplaces hx hne _

/-! ## All files -/

/-- The path of the file of a target. -/
def scriptPath (out : Disk.Path) (options : Options) (target : Target) : Disk.Path :=
  out.join (target.name ++ "." ++ options.extension)

/-- Every script is in its file, the files that were written are different ones, and each has the
    script that asking for its target by name gives. -/
structure Preserved (text : String) (project : Project) (out : Disk.Path) (options : Options)
    (written : List Disk.Path) (after : Disk) : Prop where
  kept : ∀ target ∈ project.targets, ∀ script, targetText project target = .ok script →
    after.readFile (scriptPath out options target) = .ok script.toUTF8
  distinct : written.Pairwise fun p q => after.resolve p ≠ after.resolve q
  single : ∀ target ∈ project.targets, ∀ script, targetText project target = .ok script →
    ∃ found, convertTarget text target.name = .ok found ∧
      after.readFile (scriptPath out options target) = .ok found.toUTF8

/-- No two files of targets that can be rendered lead to one place, and the first target of the name
    of such a target can be rendered too. -/
structure Distinguished (project : Project) (out : Disk.Path) (options : Options) (here : Place) :
    Prop where
  places : (scriptPlaces project out options here).Nodup
  first : ∀ target ∈ project.targets, (∃ script, targetText project target = .ok script) →
    ∃ first, project.target? target.name = some first ∧
      ∃ script, targetText project first = .ok script

/-- Targets of one name whose files have different places are the same as far as their scripts
    go. -/
theorem script_eq_of_nodup {here : Place} (h : (scriptPlaces project out options here).Nodup)
    {name script other : String}
    (hs : (name, script) ∈ rendered options.extension (outputs project))
    (ho : (name, other) ∈ rendered options.extension (outputs project)) : script = other := by
  have heq := List.inj_on_of_nodup_map h hs ho rfl
  exact (Prod.mk.inj heq).2

/-- A conversion that succeeds has lost no script if and only if its files are distinguished. -/
theorem convertProject_preserved_iff {text : String} (hp : Project.ofText text = .ok project)
    {written : List Disk.Path}
    (hr : ((convertProject project out options).run w).1 = .ok written) :
    Preserved text project out options written
        ((convertProject project out options).run w).2.disk ↔
      Distinguished project out options w.disk.here := by
  constructor
  · intro h
    refine ⟨(pairwise_resolve_iff hr).mp h.distinct, ?_⟩
    rintro target ht ⟨script, hs⟩
    obtain ⟨found, hfound, -⟩ := h.single target ht script hs
    obtain ⟨first, hfirst, hscript⟩ := (convertTarget_eq_ok hp).mp hfound
    exact ⟨first, hfirst, found, hscript⟩
  · intro h
    have hkept : ∀ target ∈ project.targets, ∀ script, targetText project target = .ok script →
        ((convertProject project out options).run w).2.disk.readFile
          (scriptPath out options target) = .ok script.toUTF8 := by
      intro target ht script hs
      exact readFile_of_nodup hr h.places (mem_rendered_outputs.mpr ⟨target, ht, rfl, hs⟩)
    refine ⟨hkept, (pairwise_resolve_iff hr).mpr h.places, fun target ht script hs => ?_⟩
    -- the first target of the name has the same file, so by the places it has the same script
    obtain ⟨first, hfirst, found, hfound⟩ := h.first target ht ⟨script, hs⟩
    have hbeq := List.find?_some hfirst
    have hname : first.name = target.name := eq_of_beq hbeq
    have hsame : found = script :=
      script_eq_of_nodup h.places
        (mem_rendered_outputs.mpr ⟨first, List.mem_of_find?_eq_some hfirst, by rw [hname], hfound⟩)
        (mem_rendered_outputs.mpr ⟨target, ht, rfl, hs⟩)
    exact ⟨found, (convertTarget_eq_ok hp).mpr ⟨first, hfirst, hfound⟩,
      hsame ▸ hkept target ht script hs⟩

end

/-! ## Targets that share a name -/

/-- A project of two targets with different names. -/
def twoNames : String :=
  "\x7b\"targets\": [\x7b\"name\": \"A\", \"isStage\": true\x7d, " ++
    "\x7b\"name\": \"B\", \"isStage\": false\x7d]\x7d"

theorem preserved_twoNames :
    ∃ project written, Project.ofText twoNames = .ok project ∧
      ((convertProject project ⟨"out"⟩ {}).run { disk := ⟨[], []⟩ }).1 = .ok written ∧
      Preserved twoNames project ⟨"out"⟩ {} written
        ((convertProject project ⟨"out"⟩ {}).run { disk := ⟨[], []⟩ }).2.disk := by
  have hrun : (Project.ofText twoNames).toOption.map (fun project =>
      (((convertProject project ⟨"out"⟩ {}).run { disk := ⟨[], []⟩ }).1.toOption,
        scriptPlaces project ⟨"out"⟩ {} [],
        project.targets.all fun target => (project.target? target.name).any fun first =>
          (targetText project first).toOption.isSome)) =
      some (some [⟨"out/A.scs"⟩, ⟨"out/B.scs"⟩], [["out", "A.scs"], ["out", "B.scs"]], true) := by
    decide +kernel
  obtain ⟨project, hproject, hall⟩ := Option.map_eq_some_iff.mp hrun
  obtain ⟨hwritten, hplaces, hfirst⟩ := Prod.mk.inj hall |>.imp id Prod.mk.inj
  have hp := toOption_eq_some.mp hproject
  have hr := toOption_eq_some.mp hwritten
  refine ⟨project, _, hp, hr, (convertProject_preserved_iff hp hr).mpr ⟨?_, ?_⟩⟩
  · dsimp only
    rw [hplaces]
    decide
  · intro target ht _
    have hany := List.all_eq_true.mp hfirst target ht
    obtain ⟨first, hf, hsome⟩ := (Option.any_eq_true _ _).mp hany
    obtain ⟨script, hs⟩ := Option.isSome_iff_exists.mp hsome
    exact ⟨first, hf, script, toOption_eq_some.mp hs⟩

/-- A project of two targets of one name with different scripts. -/
def sameName : String :=
  "\x7b\"targets\": [\x7b\"name\": \"A\", \"isStage\": true\x7d, " ++
    "\x7b\"name\": \"A\", \"isStage\": false\x7d]\x7d"

/-- Its conversion succeeds, and the script of the first target is gone. -/
theorem not_preserved_of_sameName :
    ∃ project written, Project.ofText sameName = .ok project ∧
      ((convertProject project ⟨"out"⟩ {}).run { disk := ⟨[], []⟩ }).1 = .ok written ∧
      ¬ Preserved sameName project ⟨"out"⟩ {} written
        ((convertProject project ⟨"out"⟩ {}).run { disk := ⟨[], []⟩ }).2.disk := by
  have hrun : (Project.ofText sameName).toOption.map (fun project =>
      (((convertProject project ⟨"out"⟩ {}).run { disk := ⟨[], []⟩ }).1.toOption,
        project.targets.map fun target => (target.name, (targetText project target).toOption))) =
      some (some [⟨"out/A.scs"⟩, ⟨"out/A.scs"⟩],
        [("A", some "// Generate by scratch-script\n#meta(true, \"A\");\n"),
          ("A", some "// Generate by scratch-script\n#meta(false, \"A\");\n")]) := by
    decide +kernel
  obtain ⟨project, hproject, hall⟩ := Option.map_eq_some_iff.mp hrun
  obtain ⟨hwritten, htargets⟩ := Prod.mk.inj hall
  refine ⟨project, _, toOption_eq_some.mp hproject, toOption_eq_some.mp hwritten, fun h => ?_⟩
  have hread : ∀ file ∈ project.targets.map fun target =>
      (target.name, (targetText project target).toOption), ∀ script, file.2 = some script →
      ((convertProject project ⟨"out"⟩ {}).run { disk := ⟨[], []⟩ }).2.disk.readFile
        (Path.join ⟨"out"⟩ (file.1 ++ "." ++ defaultExtension)) = .ok script.toUTF8 := by
    intro file hfile script hs
    obtain ⟨target, ht, rfl⟩ := List.mem_map.mp hfile
    exact h.kept target ht script (toOption_eq_some.mp hs)
  rw [htargets] at hread
  have hfirst := hread _ (List.mem_cons_self ..) _ rfl
  have hlast := hread _ (List.mem_cons_of_mem _ (List.mem_cons_self ..)) _ rfl
  rw [hfirst] at hlast
  exact absurd (Except.ok.inj hlast) (by decide +kernel)

end BlockScript.Command
