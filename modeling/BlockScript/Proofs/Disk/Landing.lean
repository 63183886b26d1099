/-
  Where a path leads.

  On a disk without links the place that a path leads to can be read off its text: `landing` takes
  one piece after the other, whatever stands at the places it passes. A disk may refuse to follow a
  path, but where it follows it, it arrives at the landing (`resolve_eq_ok`). A joined path lands
  where its second part lands as seen from the landing of the first (`landing_join`).
-/
import BlockScript.Disk.Basic
import BlockScript.Proofs.Results
import Mathlib.Data.List.Infix

namespace BlockScript

open BlockScript.Results

theorem Text.pieces_append_mark (mark : Char) (a b : List Char) :
    pieces mark (a ++ mark :: b) = pieces mark a ++ pieces mark b := by
  induction a with
  | nil => simp [pieces]
  | cons c rest ih =>
    by_cases h : c = mark
    · rw [List.cons_append, pieces, if_pos h, ih, pieces, if_pos h, List.cons_append]
    · rw [List.cons_append, pieces, if_neg h, ih, pieces, if_neg h]
      cases hp : pieces mark rest with
      | nil => exact absurd hp (pieces_ne_nil mark rest)
      | cons piece more => rfl

namespace Disk

/-! ## Landings -/

/-- Where a piece of a path leads from a place, whatever stands there. -/
def onward (place : Place) (piece : String) : Place :=
  if piece = "" ∨ piece = "." then place
  else if piece = ".." then place.dropLast
  else place ++ [piece]

/-- Where the text of a path leads if it is read from a place. -/
def walk (start : Place) (text : List Char) : Place :=
  ((Text.pieces '/' text).map String.ofList).foldl onward start

/-- Where a path leads as seen from a place, whatever the disk holds. -/
def Path.landing (start : Place) (p : Path) : Place :=
  walk (if p.isAbsolute then [] else start) p.text.toList

theorem walk_nil (start : Place) : walk start [] = start := rfl

theorem walk_append_slash (start : Place) (a b : List Char) :
    walk start (a ++ '/' :: b) = walk (walk start a) b := by
  unfold walk
  rw [Text.pieces_append_mark, List.map_append, List.foldl_append]

theorem Path.landing_of_isAbsolute {p : Path} (h : p.isAbsolute = true) (start other : Place) :
    p.landing start = p.landing other := by
  unfold landing
  rw [if_pos h, if_pos h]

theorem Path.isAbsolute_append {p : Path} (h : p.text ≠ "") (more : String) :
    (⟨p.text ++ more⟩ : Path).isAbsolute = p.isAbsolute := by
  have hne : p.text.toList ≠ [] := by
    rw [Ne, String.toList_eq_nil_iff]
    exact h
  unfold isAbsolute
  rw [String.toList_append, List.head?_append_of_ne_nil _ hne]

theorem Path.landing_of_empty {p : Path} (h : p.text = "") (start : Place) :
    p.landing start = start := by
  unfold landing isAbsolute
  rw [h]
  rfl

/-- A joined path lands where its second part lands as seen from the landing of the first. -/
theorem Path.landing_join (start : Place) (p : Path) (name : String) :
    (p.join name).landing start = (⟨name⟩ : Path).landing (p.landing start) := by
  unfold join
  by_cases habs : (⟨name⟩ : Path).isAbsolute = true
  · rw [if_pos habs]
    exact landing_of_isAbsolute habs _ _
  · rw [if_neg habs]
    have hname : ∀ place, (⟨name⟩ : Path).landing place = walk place name.toList := by
      intro place
      unfold landing
      rw [if_neg habs]
    rw [hname]
    by_cases hp : p.text = ""
    · rw [landing_of_empty hp, hp, if_pos (by rfl), String.empty_append, hname]
    · split
      · -- what stands before the slash at the end of the first part leads to the same place
        rename_i hlast
        obtain ⟨a, c, hac⟩ := List.eq_nil_or_concat p.text.toList |>.resolve_left
          (by rw [String.toList_eq_nil_iff]; exact hp)
        have hc : c = '/' := by simpa [hac] using hlast
        unfold landing
        rw [isAbsolute_append hp, String.toList_append, hac, hc, List.concat_eq_append,
          List.append_assoc, List.singleton_append, walk_append_slash, walk_append_slash, walk_nil]
      · unfold landing
        have hwalk : (p.text ++ "/" ++ name).toList = p.text.toList ++ '/' :: name.toList := by
          simp
        rw [String.append_assoc, isAbsolute_append hp, ← String.append_assoc, hwalk,
          walk_append_slash]

/-! ## Following a path on a disk -/

theorem follow_eq_ok {d : Disk} {place next : Place} {piece : String}
    (h : d.follow place piece = .ok next) :
    d.get? place = some .directory ∧ next = onward place piece := by
  unfold follow at h
  unfold onward
  split at h
  · cases h
  · cases h
  · split_ifs at h ⊢ <;> cases h <;> exact ⟨‹_›, rfl⟩

theorem foldlM_follow {d : Disk} {pieces : List String} {place next : Place}
    (h : pieces.foldlM d.follow place = .ok next) : next = pieces.foldl onward place := by
  induction pieces generalizing place with
  | nil => cases h; rfl
  | cons piece rest ih =>
    rw [List.foldlM_cons] at h
    obtain ⟨between, hfirst, hrest⟩ := bind_eq_ok.mp h
    rw [List.foldl_cons, ← (follow_eq_ok hfirst).2]
    exact ih hrest

theorem foldl_onward_filter (pieces : List String) (place : Place) :
    (pieces.filter (· != "")).foldl onward place = pieces.foldl onward place := by
  induction pieces generalizing place with
  | nil => rfl
  | cons piece rest ih =>
    by_cases h : piece = ""
    · subst h
      exact ih place
    · rw [List.filter_cons_of_pos (by simpa using h), List.foldl_cons, List.foldl_cons, ih]

/-- Where a disk follows a path it arrives at the landing. -/
theorem resolve_eq_ok {d : Disk} {p : Path} {place : Place} (h : d.resolve p = .ok place) :
    place = p.landing d.here := by
  unfold resolve at h
  split_ifs at h
  all_goals
    rw [foldlM_follow h, foldl_onward_filter]
    unfold Path.landing
    simp [*, walk, Path.pieces]

/-! ## Places below a place -/

/-- The place is properly below another. -/
def Below (home place : Place) : Prop := home <+: place ∧ place ≠ home

instance (home place : Place) : Decidable (Below home place) :=
  inferInstanceAs (Decidable (_ ∧ _))

theorem isAbsolute_of_not_mem {name : String} (h : '/' ∉ name.toList) :
    (⟨name⟩ : Path).isAbsolute = false := by
  unfold Path.isAbsolute
  rw [beq_eq_false_iff_ne]
  intro hhead
  exact h (List.mem_of_mem_head? (by rw [hhead]; rfl))

/-- A name without slashes that is neither idle nor climbs leads to a place below. -/
theorem below_landing_of_plain {name : String} (hslash : '/' ∉ name.toList) (hempty : name ≠ "")
    (hdot : name ≠ ".") (hclimb : name ≠ "..") (home : Place) :
    Below home ((⟨name⟩ : Path).landing home) := by
  have habs := isAbsolute_of_not_mem hslash
  have hlanding : (⟨name⟩ : Path).landing home = home ++ [name] := by
    unfold Path.landing walk
    rw [habs, Text.pieces_of_not_mem hslash]
    simp [onward, hempty, hdot, hclimb]
  rw [hlanding]
  exact ⟨List.prefix_append _ _, by simp⟩

end Disk

end BlockScript
