/-
  Where a conversion may write.

  A conversion is contained in its directory if every file it writes goes below the directory and
  every file elsewhere is as it was. Nothing looks at the name of a target before its file is
  written: a conversion is contained exactly if the names of the files it writes lead below the
  directory (`convertObserved_contained_iff`). Names without slashes do (`contained_of_plain`); a
  name that climbs does not (`not_contained_of_climbing`).
-/
import BlockScript.Proofs.Command.Writes

namespace BlockScript.Command

open BlockScript.Disk BlockScript.Results

/-- All that was written went below a place, and every file elsewhere is as it was. -/
structure Contained (home : Place) (files : List Write) (before after : Disk) : Prop where
  written : ∀ x ∈ files, Below home x.place
  elsewhere : ∀ place, ¬ Below home place → after.fileAt place = before.fileAt place

section

variable (observer : Observer) (project : Project) (out : Disk.Path) (options : Options) (w : World)

theorem contained_of_below
    (h : ∀ x ∈ conversionWrites project out options w.disk,
      Below (out.landing w.disk.here) x.place) :
    Contained (out.landing w.disk.here) (conversionWrites project out options w.disk) w.disk
      ((convertObserved observer project out options).run w).2.disk := by
  refine ⟨h, fun place hplace => ?_⟩
  have hne : ∀ x ∈ conversionWrites project out options w.disk, x.place ≠ place := by
    rintro x hx rfl
    exact hplace (h x hx)
  rw [convertObserved_disk, fileAt_applied_of_forall_ne hne]
  exact (makeDirectories_growsOver w.disk out).files place

/-- However a conversion ends, the disk is what its writes leave, and it is contained in its
    directory if and only if the name of every file it writes leads below the directory. -/
theorem convertObserved_contained_iff :
    ((convertObserved observer project out options).run w).2.disk =
        applied (w.disk.makeDirectories out).1 (conversionWrites project out options w.disk) ∧
      (Contained (out.landing w.disk.here) (conversionWrites project out options w.disk) w.disk
          ((convertObserved observer project out options).run w).2.disk ↔
        ∀ x ∈ conversionWrites project out options w.disk,
          Below (out.landing w.disk.here)
            ((⟨x.name⟩ : Disk.Path).landing (out.landing w.disk.here))) := by
  refine ⟨convertObserved_disk observer project out options w, fun h x hx => ?_, fun h => ?_⟩
  · rw [← place_of_mem_conversionWrites hx]
    exact h.written x hx
  · refine contained_of_below observer project out options w fun x hx => ?_
    rw [place_of_mem_conversionWrites hx]
    exact h x hx

variable {project out options w}

/-- The file of a target has a plain name if the name of the target and the extension have no
    slashes, and the extension is neither empty nor a dot. -/
theorem below_landing_fileName {name extension : String} (hname : '/' ∉ name.toList)
    (hslash : '/' ∉ extension.toList) (hempty : extension ≠ "") (hdot : extension ≠ ".")
    (home : Place) : Below home ((⟨name ++ "." ++ extension⟩ : Disk.Path).landing home) := by
  have htext : (name ++ "." ++ extension).toList = name.toList ++ '.' :: extension.toList := by
    simp
  have hlength : 1 ≤ extension.toList.length := by
    rw [Nat.one_le_iff_ne_zero, Ne, List.length_eq_zero_iff, String.toList_eq_nil_iff]
    exact hempty
  have htwo : 2 ≤ (name ++ "." ++ extension).toList.length := by
    rw [htext, List.length_append, List.length_cons]
    omega
  apply below_landing_of_plain
  · rw [htext, List.mem_append, List.mem_cons]
    rintro (h | h | h)
    · exact hname h
    · exact absurd h (by decide)
    · exact hslash h
  · intro h
    rw [h] at htwo
    exact absurd htwo (by decide)
  · intro h
    rw [h] at htwo
    exact absurd htwo (by decide)
  · intro h
    have hdots : name.toList ++ '.' :: extension.toList = ['.', '.'] := by
      rw [← htext, h]
      rfl
    have hnil : name.toList = [] := by
      have hsum := congrArg List.length hdots
      simp only [List.length_append, List.length_cons, List.length_nil] at hsum
      exact List.length_eq_zero_iff.mp (by omega)
    rw [hnil] at hdots
    exact hdot (String.toList_inj.mp (List.cons.inj hdots).2)

/-- Names without slashes keep a conversion in its directory. -/
theorem contained_of_plain (hnames : ∀ target ∈ project.targets, '/' ∉ target.name.toList)
    (hslash : '/' ∉ options.extension.toList) (hempty : options.extension ≠ "")
    (hdot : options.extension ≠ ".") :
    Contained (out.landing w.disk.here) (conversionWrites project out options w.disk) w.disk
      ((convertObserved observer project out options).run w).2.disk := by
  refine contained_of_below observer project out options w fun x hx => ?_
  rw [place_of_mem_conversionWrites hx]
  rw [conversionWrites_eq hx] at hx
  obtain ⟨target, ht, hname, -⟩ :=
    mem_rendered_outputs.mp (mem_rendered_of_mem_writes out options hx)
  dsimp only at hname
  rw [hname]
  exact below_landing_fileName (hnames target ht) hslash hempty hdot _

end

/-! ## A name that climbs -/

/-- A project with one target, whose name leads out of the directory. -/
def climbingName : String :=
  "\x7b\"targets\": [\x7b\"name\": \"../evil\", \"isStage\": false\x7d]\x7d"

/-- A project text whose conversion writes beside the directory it was given. -/
theorem not_contained_of_climbing :
    ∃ project, Project.ofText climbingName = .ok project ∧
      ¬ Contained (Path.landing [] ⟨"a/out"⟩) (conversionWrites project ⟨"a/out"⟩ {} ⟨[], []⟩)
        ⟨[], []⟩ ((convertProject project ⟨"a/out"⟩ {}).run { disk := ⟨[], []⟩ }).2.disk := by
  have hfile : (Project.ofText climbingName).toOption.map (fun project =>
      (((convertProject project ⟨"a/out"⟩ {}).run { disk := ⟨[], []⟩ }).2.disk.fileAt
        ["a", "evil.scs"]).isSome) = some true := by
    decide +kernel
  obtain ⟨project, hproject, hfile⟩ := Option.map_eq_some_iff.mp hfile
  refine ⟨project, toOption_eq_some.mp hproject, fun hcontained => ?_⟩
  rw [hcontained.elsewhere ["a", "evil.scs"] (by decide)] at hfile
  cases hfile

end BlockScript.Command
