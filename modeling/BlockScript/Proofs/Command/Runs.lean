/-
  Steps of the command as functions of the world: what each returns and what world it leaves. A
  failing step ends the run, and the world it leaves is the one the run leaves
  (`run_bind_of_error`). A step does not look at what was reported, and most leave a part of the
  world as it was (`Keeps`): one that changes the disk keeps the reports, one that reports keeps the
  disk, and one that only looks keeps every part.
-/
import BlockScript.Command.World
import BlockScript.Proofs.Disk.Changes

namespace BlockScript.Command.Run

open BlockScript.Disk

variable {α β : Type} {w next : World} {x : Run α} {f : α → Run β}

theorem bind_eq_bindCont : (x >>= f).run w = ExceptT.bindCont f (x.run w).1 (x.run w).2 := rfl

/-- Behind a step that returned the run goes on in the world that the step left. -/
theorem run_bind_of_ok {a : α} (h : x.run w = (.ok a, next)) : (x >>= f).run w = (f a).run next := by
  rw [bind_eq_bindCont, h]
  rfl

/-- A step that failed is the last one. -/
theorem run_bind_of_error {failure : Failure} (h : x.run w = (.error failure, next)) :
    (x >>= f).run w = (.error failure, next) := by
  rw [bind_eq_bindCont, h]
  rfl

/-- A run that returned is made of two that did. -/
theorem run_bind_eq_ok {b : β} :
    (x >>= f).run w = (.ok b, next) ↔
      ∃ a between, x.run w = (.ok a, between) ∧ (f a).run between = (.ok b, next) := by
  cases hx : x.run w with
  | mk result between =>
    cases result with
    | error failure =>
      rw [run_bind_of_error hx]
      constructor
      · intro h; cases h
      · rintro ⟨a, v, h, -⟩; cases h
    | ok a =>
      rw [run_bind_of_ok hx]
      constructor
      · intro h; exact ⟨a, between, rfl, h⟩
      · rintro ⟨a', v, h, hf⟩; cases h; exact hf

theorem run_bind_congr {v : World} {y : Run α} (h : x.run w = y.run v) :
    (x >>= f).run w = (y >>= f).run v := by
  rw [bind_eq_bindCont, bind_eq_bindCont, h]

theorem run_eq_of_fst {result : Except Failure α} (h : (x.run w).1 = result) :
    x.run w = (result, (x.run w).2) :=
  Prod.ext h rfl

variable (w)

theorem run_pure (a : α) : (pure a : Run α).run w = (.ok a, w) := rfl

theorem run_throw (failure : Failure) : (throw failure : Run α).run w = (.error failure, w) := rfl

theorem run_disk : disk.run w = (.ok w.disk, w) := rfl

theorem run_modify (change : World → World) :
    (modify change : Run Unit).run w = (.ok (), change w) := rfl

theorem run_report (events : List Event) :
    (report events).run w = (.ok (), { w with events := w.events ++ events }) := rfl

theorem run_note (level : Level) (text : String) :
    (note level text).run w = (.ok (), { w with events := w.events ++ [.note level text] }) := rfl

theorem run_writeFile (p : Disk.Path) (content : ByteArray) :
    (writeFile p content).run w =
      match w.disk.writePlace p with
      | .ok place => (.ok (), { w with disk := w.disk.set place (.file content) })
      | .error _ =>
        (.error { contexts := ["Failed to write '" ++ p.text ++ "'."], cause := .disk }, w) := by
  unfold writeFile
  rw [run_bind_of_ok (run_disk w), writeFile_eq]
  cases w.disk.writePlace p <;> rfl

theorem run_makeDirectories (contexts : List String) (p : Disk.Path) :
    (makeDirectories contexts p).run w =
      (match (w.disk.makeDirectories p).2 with
        | none => .ok ()
        | some _ => .error { contexts, cause := .disk },
        { w with disk := (w.disk.makeDirectories p).1 }) := by
  unfold makeDirectories
  rw [run_bind_of_ok (run_disk w)]
  dsimp only
  rw [run_bind_of_ok (run_modify w _)]
  cases (w.disk.makeDirectories p).2 <;> rfl

variable {w}

theorem writeFile_eq_ok {p : Disk.Path} {content : ByteArray}
    (h : (writeFile p content).run w = (.ok (), next)) :
    ∃ place, w.disk.writePlace p = .ok place ∧ next.disk = w.disk.set place (.file content) := by
  rw [run_writeFile] at h
  split at h
  case h_1 place hplace =>
    cases h
    exact ⟨place, hplace, rfl⟩
  case h_2 => cases h

theorem makeDirectories_eq_ok {contexts : List String} {p : Disk.Path}
    (h : (makeDirectories contexts p).run w = (.ok (), next)) :
    w.disk.makeDirectories p = (next.disk, none) := by
  rw [run_makeDirectories] at h
  obtain ⟨hresult, rfl⟩ := Prod.mk.inj h
  split at hresult
  case h_1 htrouble => rw [← htrouble]
  case h_2 => cases hresult

/-! ## What steps keep -/

section

variable {γ : Type} {part : World → γ} {x : Run α} {f : α → Run β}

/-- What the step returns and what it makes of the disk is up to the disk alone, and however it
    ends, it leaves a part of the world as it was. -/
structure Keeps (part : World → γ) (x : Run α) : Prop where
  byDisk : ∀ {v w : World}, v.disk = w.disk →
    (x.run v).1 = (x.run w).1 ∧ (x.run v).2.disk = (x.run w).2.disk
  kept : ∀ w : World, part (x.run w).2 = part w

theorem keeps_result (result : Except Failure α) : Keeps part (ExceptT.mk (pure result)) where
  byDisk h := ⟨rfl, h⟩
  kept _ := rfl

theorem keeps_pure (a : α) : Keeps part (pure a : Run α) := keeps_result (.ok a)

theorem keeps_throw (failure : Failure) : Keeps part (throw failure : Run α) :=
  keeps_result (.error failure)

theorem keeps_diskFailure (contexts : List String) : Keeps part (diskFailure contexts : Run α) :=
  keeps_throw _

theorem keeps_disk : Keeps part disk where
  byDisk h := ⟨congrArg Except.ok h, h⟩
  kept _ := rfl

/-- Steps that keep a part of the world leave it as the step before them left it. -/
theorem part_bind (hf : ∀ a, Keeps part (f a)) (w : World) :
    part ((x >>= f).run w).2 = part (x.run w).2 := by
  rw [bind_eq_bindCont]
  cases (x.run w).1 with
  | error failure => rfl
  | ok a => exact (hf a).kept (x.run w).2

theorem Keeps.bind (hx : Keeps part x) (hf : ∀ a, Keeps part (f a)) : Keeps part (x >>= f) where
  byDisk := by
    intro v w h
    obtain ⟨hresult, hdisk⟩ := hx.byDisk h
    rw [bind_eq_bindCont, bind_eq_bindCont, hresult]
    cases (x.run w).1 with
    | error failure => exact ⟨rfl, hdisk⟩
    | ok a => exact (hf a).byDisk hdisk
  kept w := (part_bind hf w).trans (hx.kept w)

theorem Keeps.of_run (hx : Keeps part x) {result : Except Failure α} {w next : World}
    (h : x.run w = (result, next)) : part next = part w := by
  have hkept := hx.kept w
  rw [h] at hkept
  exact hkept

/-- A step that keeps what was reported does the same in every world with the same disk. -/
theorem Keeps.run_of_disk (hx : Keeps World.events x) {v w next : World} (h : v.disk = w.disk)
    {result : Except Failure α} (hw : x.run w = (result, next)) :
    x.run v = (result, { next with events := v.events }) := by
  obtain ⟨hresult, hdisk⟩ := hx.byDisk h
  have hevents := hx.kept v
  rw [hw] at hresult hdisk
  generalize x.run v = after at hresult hdisk hevents
  obtain ⟨_, disk, events⟩ := after
  cases hresult
  cases hdisk
  cases hevents
  rfl

end

theorem keeps_report (events : List Event) : Keeps World.disk (report events) where
  byDisk h := ⟨rfl, h⟩
  kept _ := rfl

theorem keeps_makeDirectories (contexts : List String) (p : Disk.Path) :
    Keeps World.events (makeDirectories contexts p) where
  byDisk h := by
    rw [run_makeDirectories, run_makeDirectories, h]
    exact ⟨rfl, rfl⟩
  kept w := by rw [run_makeDirectories]

theorem keeps_writeFile (p : Disk.Path) (content : ByteArray) :
    Keeps World.events (writeFile p content) where
  byDisk {v w} h := by
    rw [run_writeFile, run_writeFile, h]
    cases w.disk.writePlace p with
    | ok place => exact ⟨rfl, rfl⟩
    | error trouble => exact ⟨rfl, h⟩
  kept w := by
    rw [run_writeFile]
    cases w.disk.writePlace p <;> rfl

end BlockScript.Command.Run
