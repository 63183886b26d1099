/-
  The places that a path comes by.

  A path comes by the place it starts from and by those that its pieces lead to one after the other
  (`Path.Passes`). The paths above it lead to such places (`passes_of_mem_ancestors`), and a joined
  path comes by those of its first part and then by those of its second (`passes_join`). On a disk
  that follows a path all of them but the last are directories (`directory_of_passes`). Making
  directories adds directories where the path or one above it leads, and changes nothing else
  (`makeDirectories_adds`).
-/
import BlockScript.Proofs.Disk.Changes

namespace BlockScript

open BlockScript.Results

/-- Parts without the mark are the pieces of the text that has the mark between them. -/
theorem Text.pieces_intercalate {mark : Char} {parts : List (List Char)} (hne : parts ≠ [])
    (h : ∀ part ∈ parts, mark ∉ part) : pieces mark (List.intercalate [mark] parts) = parts := by
  induction parts with
  | nil => exact absurd rfl hne
  | cons part rest ih =>
    obtain ⟨hpart, hrest⟩ := List.forall_mem_cons.mp h
    cases rest with
    | nil => simpa [List.intercalate] using pieces_of_not_mem hpart
    | cons next more =>
      rw [List.intercalate_cons_cons, List.append_assoc, List.singleton_append,
        pieces_append_mark, pieces_of_not_mem hpart, ih (List.cons_ne_nil next more) hrest]
      rfl

namespace Disk

/-! ## Places on the way -/

/-- One comes by a place if some of the first pieces lead there. -/
def Met (start : Place) (pieces : List String) (place : Place) : Prop :=
  ∃ front, front <+: pieces ∧ front.foldl onward start = place

theorem met_start (start : Place) (pieces : List String) : Met start pieces start :=
  ⟨[], List.nil_prefix, rfl⟩

theorem met_cons {start place : Place} {piece : String} {pieces : List String} :
    Met start (piece :: pieces) place ↔ place = start ∨ Met (onward start piece) pieces place := by
  constructor
  · rintro ⟨front, hfront, rfl⟩
    cases front with
    | nil => exact .inl rfl
    | cons first front =>
      obtain ⟨rfl, hrest⟩ := List.cons_prefix_cons.mp hfront
      exact .inr ⟨front, hrest, rfl⟩
  · rintro (rfl | ⟨front, hfront, rfl⟩)
    · exact met_start _ _
    · exact ⟨piece :: front, List.cons_prefix_cons.mpr ⟨rfl, hfront⟩, rfl⟩

theorem met_append {start place : Place} {a b : List String} :
    Met start (a ++ b) place ↔ Met start a place ∨ Met (a.foldl onward start) b place := by
  induction a generalizing start with
  | nil =>
    constructor
    · exact .inr
    · rintro (⟨front, hfront, rfl⟩ | h)
      · rw [List.prefix_nil.mp hfront]
        exact met_start _ _
      · exact h
  | cons piece a ih => rw [List.cons_append, met_cons, met_cons, ih, or_assoc, List.foldl_cons]

theorem Met.mono {start place : Place} {a b : List String} (h : Met start a place)
    (hab : a <+: b) : Met start b place := by
  obtain ⟨front, hfront, hplace⟩ := h
  exact ⟨front, hfront.trans hab, hplace⟩

namespace Path

/-- The place that the pieces of a path are followed from. -/
def origin (start : Place) (p : Path) : Place := if p.isAbsolute then [] else start

/-- A path comes by a place. -/
def Passes (start : Place) (p : Path) (place : Place) : Prop := Met (p.origin start) p.pieces place

theorem passes_landing (start : Place) (p : Path) : p.Passes start (p.landing start) :=
  ⟨p.pieces, List.prefix_rfl, rfl⟩

/-! ## The pieces of a path -/

theorem slash_not_mem_of_mem_pieces {p : Path} {piece : String} (h : piece ∈ p.pieces) :
    '/' ∉ piece.toList := by
  obtain ⟨part, hpart, rfl⟩ := List.mem_map.mp h
  rw [String.toList_ofList]
  exact Text.not_mem_of_mem_pieces hpart

/-- A path is absolute if an empty piece and a slash stand first. -/
theorem isAbsolute_iff {p : Path} :
    p.isAbsolute = true ↔ ∃ second more, p.pieces = "" :: second :: more := by
  unfold isAbsolute pieces
  cases htext : p.text.toList with
  | nil => simp [Text.pieces]
  | cons c rest =>
    cases hrest : Text.pieces '/' rest with
    | nil => exact absurd hrest (Text.pieces_ne_nil '/' rest)
    | cons first more =>
      by_cases hc : c = '/'
      · simp [Text.pieces, hc, hrest]
      · simp [Text.pieces, hc, hrest, Text.onFirst]

theorem isAbsolute_congr {p q : Path} {first : String} {a b : List String}
    (hp : p.pieces = first :: a) (hq : q.pieces = first :: b) (ha : a ≠ [])
    (hb : first = "" → b ≠ []) : q.isAbsolute = p.isAbsolute := by
  rw [Bool.eq_iff_iff, isAbsolute_iff, isAbsolute_iff, hp, hq]
  constructor
  · rintro ⟨second, more, h⟩
    obtain ⟨rfl, -⟩ := List.cons.inj h
    obtain ⟨next, others, rfl⟩ := List.exists_cons_of_ne_nil ha
    exact ⟨next, others, rfl⟩
  · rintro ⟨second, more, h⟩
    obtain ⟨rfl, -⟩ := List.cons.inj h
    obtain ⟨next, others, rfl⟩ := List.exists_cons_of_ne_nil (hb rfl)
    exact ⟨next, others, rfl⟩

theorem pieces_ofPieces {first : String} {rest : List String}
    (h : ∀ piece ∈ first :: rest, '/' ∉ piece.toList) (hroot : ¬ (first = "" ∧ rest = [])) :
    (ofPieces first rest).pieces = first :: rest := by
  unfold ofPieces pieces
  rw [if_neg hroot, String.toList_intercalate]
  have hparts : ∀ part ∈ (first :: rest).map String.toList, '/' ∉ part := by
    intro part hpart
    obtain ⟨piece, hpiece, rfl⟩ := List.mem_map.mp hpart
    exact h piece hpiece
  have hpieces := Text.pieces_intercalate (by simp) hparts
  rw [show "/".toList = ['/'] from rfl, hpieces, List.map_map]
  simp [Function.comp_def]

/-! ## The paths above a path -/

theorem trim_prefix_self (pieces : List String) : trim pieces <+: pieces := by
  unfold trim
  rw [← List.reverse_suffix, List.reverse_reverse]
  exact List.dropWhile_suffix _

/-- The path above a path has the first of its pieces, unless it is the root or the empty path. -/
theorem parent?_cases {p above : Path} (h : p.parent? = some above) :
    (above.pieces <+: p.pieces ∧ above.isAbsolute = p.isAbsolute) ∨
      (above = ⟨"/"⟩ ∧ p.isAbsolute = true) ∨ (above = ⟨""⟩ ∧ p.isAbsolute = false) := by
  obtain ⟨⟨_, last⟩, hsplit, rfl⟩ := Option.map_eq_some_iff.mp h
  unfold split? at hsplit
  split at hsplit
  case h_1 => cases hsplit
  case h_2 first rest hpieces =>
    split at hsplit
    case h_1 last' hlast =>
      obtain ⟨rfl, -⟩ := Prod.mk.inj (Option.some.inj hsplit)
      have hrest : rest ≠ [] := by
        rintro rfl
        cases hlast
      have hfront : trim (trim rest).dropLast <+: rest :=
        (trim_prefix_self _).trans ((List.dropLast_prefix _).trans (trim_prefix_self _))
      by_cases hroot : first = "" ∧ trim (trim rest).dropLast = []
      · refine .inr (.inl ⟨if_pos hroot, isAbsolute_iff.mpr ?_⟩)
        obtain ⟨second, more, rfl⟩ := List.exists_cons_of_ne_nil hrest
        exact ⟨second, more, by rw [hpieces, hroot.1]⟩
      · have hslash : ∀ piece ∈ first :: trim (trim rest).dropLast, '/' ∉ piece.toList := by
          intro piece hpiece
          apply slash_not_mem_of_mem_pieces (p := p)
          rw [hpieces]
          exact (List.cons_prefix_cons.mpr ⟨rfl, hfront⟩).subset hpiece
        have habove := pieces_ofPieces hslash hroot
        refine .inl ⟨?_, isAbsolute_congr hpieces habove hrest fun hfirst hnil => ?_⟩
        · rw [habove, hpieces]
          exact List.cons_prefix_cons.mpr ⟨rfl, hfront⟩
        · exact hroot ⟨hfirst, hnil⟩
    case h_2 hidle =>
      split at hsplit
      case isTrue => cases hsplit
      case isFalse hfirst =>
        obtain ⟨rfl, -⟩ := Prod.mk.inj (Option.some.inj hsplit)
        refine .inr (.inr ⟨rfl, ?_⟩)
        rw [← Bool.not_eq_true, isAbsolute_iff, hpieces]
        rintro ⟨second, more, heq⟩
        exact hfirst (List.cons.inj heq).1

theorem eq_of_passes_root {start place : Place} (h : (⟨"/"⟩ : Path).Passes start place) :
    place = [] := by
  have hmet : Met [] ["", ""] place := h
  rw [met_cons, met_cons] at hmet
  rcases hmet with h | h | ⟨front, hfront, rfl⟩
  · exact h
  · exact h
  · rw [List.prefix_nil.mp hfront]
    rfl

theorem eq_of_passes_empty {start place : Place} (h : (⟨""⟩ : Path).Passes start place) :
    place = start := by
  have hmet : Met start [""] place := h
  rw [met_cons] at hmet
  rcases hmet with h | ⟨front, hfront, rfl⟩
  · exact h
  · rw [List.prefix_nil.mp hfront]
    rfl

/-- What the path above a path comes by the path itself comes by too. -/
theorem passes_of_parent {p above : Path} {start place : Place} (h : p.parent? = some above)
    (hplace : above.Passes start place) : p.Passes start place := by
  rcases parent?_cases h with ⟨hpieces, habsolute⟩ | ⟨rfl, habsolute⟩ | ⟨rfl, habsolute⟩
  · unfold Passes origin at hplace ⊢
    rw [habsolute] at hplace
    exact hplace.mono hpieces
  · rw [eq_of_passes_root hplace]
    unfold Passes origin
    rw [if_pos habsolute]
    exact met_start _ _
  · rw [eq_of_passes_empty hplace]
    unfold Passes origin
    rw [habsolute]
    exact met_start _ _

theorem passes_of_mem_ancestorsWithin {p q : Path} {count : Nat} {start place : Place}
    (h : q ∈ ancestorsWithin count p) (hplace : q.Passes start place) : p.Passes start place := by
  induction count generalizing p with
  | zero => cases h
  | succ count ih =>
    unfold ancestorsWithin at h
    split at h
    case h_1 =>
      rw [List.mem_singleton.mp h] at hplace
      exact hplace
    case h_2 above habove =>
      rcases List.mem_cons.mp h with rfl | h
      · exact hplace
      · exact passes_of_parent habove (ih h)

/-- The paths above a path lead to places that it comes by. -/
theorem passes_of_mem_ancestors {p q : Path} (h : q ∈ p.ancestors) (start : Place) :
    p.Passes start (q.landing start) :=
  passes_of_mem_ancestorsWithin h (q.passes_landing start)

/-! ## Joined paths -/

theorem join_empty {p : Path} (hp : p.text = "") (name : String) : p.join name = ⟨name⟩ := by
  unfold join
  by_cases habsolute : (⟨name⟩ : Path).isAbsolute = true
  · rw [if_pos habsolute]
  · rw [if_neg habsolute, hp, if_pos (by rfl), String.empty_append]

/-- The pieces of a joined path are those of both parts, but for an empty one between them. -/
theorem pieces_join {p : Path} {name : String} (hp : p.text ≠ "")
    (hname : (⟨name⟩ : Path).isAbsolute = false) :
    (p.join name).isAbsolute = p.isAbsolute ∧
      ∃ front, (p.join name).pieces = front ++ (⟨name⟩ : Path).pieces ∧
        (p.pieces = front ∨ p.pieces = front ++ [""]) := by
  unfold join
  rw [if_neg (by rw [hname]; decide)]
  split
  case isTrue hlast =>
    obtain ⟨a, c, hac⟩ := List.eq_nil_or_concat p.text.toList |>.resolve_left
      (by rw [String.toList_eq_nil_iff]; exact hp)
    have hc : c = '/' := by simpa [hac] using hlast
    rw [hc, List.concat_eq_append] at hac
    refine ⟨isAbsolute_append hp name, (Text.pieces '/' a).map String.ofList, ?_, .inr ?_⟩
    · unfold pieces
      rw [String.toList_append, hac, List.append_assoc, List.singleton_append,
        Text.pieces_append_mark, List.map_append]
    · unfold pieces
      rw [hac, Text.pieces_append_mark, List.map_append]
      rfl
  case isFalse =>
    refine ⟨?_, p.pieces, ?_, .inl rfl⟩
    · rw [String.append_assoc]
      exact isAbsolute_append hp _
    · unfold pieces
      rw [String.append_assoc, String.toList_append, String.toList_append,
        show "/".toList = ['/'] from rfl, List.singleton_append, Text.pieces_append_mark,
        List.map_append]

/-- A joined path comes by what its first part comes by, and from the landing of the first part on
    by what its second part comes by. -/
theorem passes_join {p : Path} {name : String} {start place : Place}
    (hname : (⟨name⟩ : Path).isAbsolute = false) (h : (p.join name).Passes start place) :
    p.Passes start place ∨ (⟨name⟩ : Path).Passes (p.landing start) place := by
  by_cases hp : p.text = ""
  · rw [join_empty hp] at h
    rw [landing_of_empty hp]
    exact .inr h
  · obtain ⟨habsolute, front, hpieces, hfront⟩ := pieces_join hp hname
    unfold Passes at h
    rw [hpieces, met_append] at h
    have horigin : (p.join name).origin start = p.origin start := by
      unfold origin
      rw [habsolute]
    have hlanding : front.foldl onward (p.origin start) = p.landing start := by
      change _ = p.pieces.foldl onward (p.origin start)
      rcases hfront with hfront | hfront
      · rw [hfront]
      · rw [hfront, List.foldl_append]
        rfl
    rw [horigin, hlanding] at h
    rcases h with h | h
    · refine .inl (h.mono ?_)
      rcases hfront with hfront | hfront
      · rw [hfront]
      · rw [hfront]
        exact List.prefix_append _ _
    · refine .inr ?_
      unfold Passes origin
      rw [hname]
      exact h

end Path

/-! ## On a disk -/

theorem directory_of_met {d : Disk} {pieces : List String} {start place stop : Place}
    (h : (pieces.filter (· != "")).foldlM d.follow start = .ok place)
    (hstop : Met start pieces stop) : stop = place ∨ d.get? stop = some .directory := by
  induction pieces generalizing start with
  | nil =>
    obtain ⟨front, hfront, rfl⟩ := hstop
    cases h
    rw [List.prefix_nil.mp hfront]
    exact .inl rfl
  | cons piece rest ih =>
    by_cases hpiece : piece = ""
    · subst hpiece
      rcases met_cons.mp hstop with rfl | hstop
      · exact ih h (met_start _ _)
      · exact ih h hstop
    · rw [List.filter_cons_of_pos (by simpa using hpiece), List.foldlM_cons] at h
      obtain ⟨between, hfirst, hrest⟩ := bind_eq_ok.mp h
      obtain ⟨hdirectory, rfl⟩ := follow_eq_ok hfirst
      rcases met_cons.mp hstop with rfl | hstop
      · exact .inr hdirectory
      · exact ih hrest hstop

/-- Where a disk follows a path, all that the path comes by before its end is a directory. -/
theorem directory_of_passes {d : Disk} {p : Path} {place stop : Place}
    (h : d.resolve p = .ok place) (hstop : p.Passes d.here stop) :
    stop = place ∨ d.get? stop = some .directory := by
  unfold resolve at h
  split_ifs at h with _ _ habsolute
  all_goals
    unfold Path.Passes Path.origin at hstop
    simp only [habsolute] at hstop
    exact directory_of_met h hstop

/-! ## New directories -/

/-- The disk has some more directories where some paths lead, and is otherwise the same. -/
def Adds (paths : List Path) (d later : Disk) : Prop :=
  ∀ place, later.get? place = d.get? place ∨
    d.get? place = none ∧ later.get? place = some .directory ∧
      ∃ p ∈ paths, p.landing d.here = place

theorem Adds.refl (paths : List Path) (d : Disk) : Adds paths d d := fun _ => .inl rfl

theorem Adds.trans {paths : List Path} {d later last : Disk} (h : Adds paths d later)
    (hhere : later.here = d.here) (h' : Adds paths later last) : Adds paths d last := by
  intro place
  rcases h' place with hlast | ⟨hnone, hlast, hpath⟩
  · rw [hlast]
    exact h place
  · rw [hhere] at hpath
    rcases h place with hlater | ⟨-, hlater, -⟩
    · exact .inr ⟨hlater ▸ hnone, hlast, hpath⟩
    · rw [hnone] at hlater
      cases hlater

theorem Adds.mono {paths more : List Path} {d later : Disk} (h : Adds paths d later)
    (hsub : paths ⊆ more) : Adds more d later := by
  intro place
  rcases h place with hsame | ⟨hnone, hnew, p, hp, hplace⟩
  · exact .inl hsame
  · exact .inr ⟨hnone, hnew, p, hsub hp, hplace⟩

theorem makeDirectory_adds {d made : Disk} {p : Path} (h : d.makeDirectory p = .ok made) :
    Adds [p] d made := by
  obtain ⟨place, hr, h⟩ := bind_eq_ok.mp h
  split at h
  case h_1 => cases h
  case h_2 hnone =>
    cases h
    intro other
    by_cases ho : other = place
    · subst ho
      have hne : other ≠ [] := by
        rintro rfl
        cases hnone
      exact .inr ⟨hnone, d.get?_set_self hne _, p, List.mem_singleton_self p,
        (resolve_eq_ok hr).symm⟩
    · exact .inl (d.get?_set_of_ne ho _)

theorem makeEach_adds (d : Disk) (paths : List Path) : Adds paths d (d.makeEach paths).1 := by
  induction paths generalizing d with
  | nil => exact .refl _ d
  | cons p above ih =>
    have hfirst : [p] ⊆ p :: above := List.cons_subset_cons p (List.nil_subset above)
    unfold makeEach
    split_ifs
    · exact .refl _ d
    · dsimp only
      split
      · exact (makeDirectory_adds ‹_›).mono hfirst
      · -- the path is tried once more below what was made above it
        have habove := (ih d).mono (List.subset_cons_self p above)
        have hhere := (makeEach_growsOver d above).extension.here
        split
        · rename_i hmade
          rw [hmade] at habove
          exact habove
        · rename_i hmade
          rw [hmade] at habove hhere
          split
          · exact habove.trans hhere ((makeDirectory_adds ‹_›).mono hfirst)
          · exact habove
      · exact .refl _ d

/-- Making directories adds directories where the path and the paths above it lead, whether it
    succeeds or not. -/
theorem makeDirectories_adds (d : Disk) (p : Path) : Adds p.ancestors d (d.makeDirectories p).1 :=
  makeEach_adds d p.ancestors

end Disk

end BlockScript
