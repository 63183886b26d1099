/-
  The search for the project file.

  A search goes through the directories below the one it starts from, the nearer ones first and
  those of one depth in the order of their names (`Nearer`). The directories it has seen and those
  in its queue are always in this order, and every project file is in or below a directory of the
  queue (`Frontier`). So the file it returns is the nearest, whatever the order in which directories
  are listed (`locate_nearest`). It finds no file whose path, as the search spells it, is too long
  (`not_located_of_long`).
-/
import BlockScript.Command.Source
import BlockScript.Proofs.Command.Runs
import BlockScript.Proofs.Disk.Tree
import BlockScript.Proofs.Text.ByteOrder
import Mathlib.Data.List.Perm.Subperm

namespace BlockScript.Command

open BlockScript.Command.Run BlockScript.Disk

/-! ## Nearness -/

/-- A sequence of names is nearer than another if it is shorter, or as long and before it in the
    order of the bytes of its names. -/
def Nearer (a b : List String) : Prop :=
  a.length < b.length ∨ a.length = b.length ∧ a.map Text.bytes < b.map Text.bytes

theorem nearer_iff {a b : List String} :
    Nearer a b ↔ a.length < b.length ∨ a.length = b.length ∧ a < b := by
  unfold Nearer
  rw [Text.map_bytes_lt_iff]

theorem nearer_irrefl (a : List String) : ¬ Nearer a a := by
  rw [nearer_iff]
  rintro (h | ⟨-, h⟩)
  · exact Nat.lt_irrefl _ h
  · exact List.lt_irrefl a h

theorem Nearer.trans {a b c : List String} (h : Nearer a b) (h' : Nearer b c) : Nearer a c := by
  rw [nearer_iff] at *
  rcases h with h | ⟨hlength, h⟩
  · rcases h' with h' | ⟨hlength', -⟩
    · exact .inl (Nat.lt_trans h h')
    · exact .inl (hlength' ▸ h)
  · rcases h' with h' | ⟨hlength', h'⟩
    · exact .inl (hlength ▸ h')
    · exact .inr ⟨hlength.trans hlength', List.lt_trans h h'⟩

/-- What leads to a directory is nearer than what leads below it. -/
theorem eq_or_nearer {a b : List String} (h : a <+: b) : a = b ∨ Nearer a b := by
  rcases Nat.lt_or_eq_of_le h.length_le with hlt | heq
  · exact .inr (.inl hlt)
  · exact .inl (h.eq_of_length heq)

theorem nearer_of_names {a : List String} {s t : String} (h : s < t) :
    Nearer (a ++ [s]) (a ++ [t]) := by
  rw [nearer_iff]
  refine .inr ⟨by simp, List.append_left_lt ?_⟩
  exact List.cons_lt_cons_iff.mpr (.inl h)

theorem append_lt_append {a b c d : List String} (hlength : a.length = b.length) (h : a < b) :
    a ++ c < b ++ d := by
  induction a generalizing b with
  | nil =>
    rw [List.length_nil, eq_comm, List.length_eq_zero_iff] at hlength
    rw [hlength] at h
    exact absurd h (List.lt_irrefl [])
  | cons s a ih =>
    cases b with
    | nil => cases hlength
    | cons t b =>
      rw [List.cons_append, List.cons_append, List.cons_lt_cons_iff]
      rcases List.cons_lt_cons_iff.mp h with hlt | ⟨rfl, hlt⟩
      · exact .inl hlt
      · exact .inr ⟨rfl, ih (Nat.succ.inj hlength) hlt⟩

/-- What stands in nearer directories is nearer. -/
theorem Nearer.concat {a b : List String} (h : Nearer a b) (s t : String) :
    Nearer (a ++ [s]) (b ++ [t]) := by
  rw [nearer_iff] at *
  rcases h with h | ⟨hlength, h⟩
  · refine .inl ?_
    rw [List.length_append, List.length_append]
    exact Nat.add_lt_add_right h 1
  · exact .inr ⟨by simp [hlength], append_lt_append hlength h⟩

/-! ## Project files and directories below a directory -/

/-- There is a project file below a directory under some names, and its path as the search spells it
    is not too long. -/
structure Holds (d : Disk) (dir : Disk.Path) (names : List String) : Prop where
  file : ∃ content, d.get? (dir.landing d.here ++ names ++ [projectFile]) = some (.file content)
  fits : ((dir.below names).join projectFile).text.utf8ByteSize ≤ longestPath

/-- The path below a directory under some names leads to a directory. -/
structure Reached (d : Disk) (dir : Disk.Path) (names : List String) : Prop where
  resolve : d.resolve (dir.below names) = .ok (dir.landing d.here ++ names)
  directory : d.get? (dir.landing d.here ++ names) = some .directory

section

variable {d : Disk} {dir : Disk.Path} {names : List String}

theorem reached_nil (h : d.isDirectory dir = true) : Reached d dir [] := by
  obtain ⟨place, hresolve, hdirectory⟩ := isDirectory_iff.mp h
  have hplace := resolve_eq_ok hresolve
  subst hplace
  refine ⟨?_, ?_⟩
  · rw [List.append_nil]
    exact hresolve
  · rw [List.append_nil]
    exact hdirectory

theorem isName_projectFile : IsName projectFile := by decide +kernel

theorem Reached.holds_iff (h : Reached d dir names) :
    d.isFile ((dir.below names).join projectFile) = true ↔ Holds d dir names := by
  rw [isFile_join_iff h.resolve h.directory isName_projectFile]
  exact ⟨fun hfile => ⟨hfile.2, hfile.1⟩, fun hholds => ⟨hholds.fits, hholds.file⟩⟩

theorem Reached.concat_iff (h : Reached d dir names) {name : String} (hname : IsName name) :
    d.isDirectory ((dir.below names).join name) = true ↔ Reached d dir (names ++ [name]) := by
  rw [isDirectory_join_iff h.resolve h.directory hname, List.append_assoc]
  constructor
  · rintro ⟨hfits, hdirectory⟩
    refine ⟨?_, hdirectory⟩
    rw [Path.below_concat, resolve_join_of_isName h.resolve h.directory hname, List.append_assoc]
    exact ⟨hfits, rfl⟩
  · rintro ⟨hresolve, hdirectory⟩
    rw [Path.below_concat, resolve_join_of_isName h.resolve h.directory hname] at hresolve
    exact ⟨hresolve.1, hdirectory⟩

/-! ## The directories in a directory -/

/-- The directories in a directory by name, each as the names that lead to it. -/
def subdirectories (d : Disk) (dir : Disk.Path) (names : List String) : List (List String) :=
  (((d.namesBelow (dir.landing d.here ++ names)).mergeSort fun a b => decide (a ≤ b)).filter
    fun name => d.isDirectory ((dir.below names).join name)).map fun name => names ++ [name]

theorem mem_subdirectories (htree : d.IsTree) (h : Reached d dir names) {child : List String} :
    child ∈ subdirectories d dir names ↔ ∃ name, child = names ++ [name] ∧ Reached d dir child := by
  have hnamed : ∀ {name : String} {node : Node},
      d.get? (dir.landing d.here ++ names ++ [name]) = some node → IsName name := by
    intro name node hnode
    exact htree.isName hnode (List.mem_append_right _ (List.mem_singleton_self name))
  unfold subdirectories
  simp only [List.mem_map, List.mem_filter, List.mem_mergeSort, htree.mem_namesBelow_iff]
  constructor
  · rintro ⟨name, ⟨⟨node, hnode⟩, hdirectory⟩, rfl⟩
    exact ⟨name, rfl, (h.concat_iff (hnamed hnode)).mp hdirectory⟩
  · rintro ⟨name, rfl, hchild⟩
    have hnode := hchild.directory
    rw [← List.append_assoc] at hnode
    exact ⟨name, ⟨⟨_, hnode⟩, (h.concat_iff (hnamed hnode)).mpr hchild⟩, rfl⟩

theorem pairwise_sorted (names : List String) :
    (names.mergeSort fun a b => decide (a ≤ b)).Pairwise (· ≤ ·) := by
  have htrans : ∀ a b c : String, decide (a ≤ b) = true → decide (b ≤ c) = true →
      decide (a ≤ c) = true := by
    intro a b c hab hbc
    exact decide_eq_true (String.le_trans (of_decide_eq_true hab) (of_decide_eq_true hbc))
  have htotal : ∀ a b : String, (decide (a ≤ b) || decide (b ≤ a)) = true := by
    intro a b
    rw [Bool.or_eq_true, decide_eq_true_iff, decide_eq_true_iff]
    exact String.le_total a b
  exact (List.pairwise_mergeSort htrans htotal names).imp of_decide_eq_true

theorem pairwise_subdirectories (htree : d.IsTree) (dir : Disk.Path) (names : List String) :
    (subdirectories d dir names).Pairwise Nearer := by
  unfold subdirectories
  rw [List.pairwise_map]
  apply List.Pairwise.filter
  have hsorted := pairwise_sorted (d.namesBelow (dir.landing d.here ++ names))
  have hnodup := (List.mergeSort_perm (d.namesBelow (dir.landing d.here ++ names))
    fun a b => decide (a ≤ b)).nodup_iff.mpr (htree.nodup_namesBelow _)
  exact (hsorted.and hnodup).imp fun h => nearer_of_names (lt_of_le_of_ne h.1 h.2)

theorem list_of_reached (h : Reached d dir names) :
    d.list (dir.below names) = .ok (d.namesBelow (dir.landing d.here ++ names)) := by
  have hfind : d.find (dir.below names) = .ok .directory := by
    unfold find
    rw [h.resolve]
    dsimp only [bind, Except.bind]
    rw [h.directory]
  unfold list
  rw [h.resolve, hfind]
  rfl

/-- One turn of the search: the directory holds the project file, or the directories in it wait
    behind the others. -/
theorem searchFrom_cons (h : Reached d dir names) (notFound : Failure) (turns : Nat)
    (queue : List (List String)) :
    searchFrom d notFound (turns + 1) ((names :: queue).map dir.below) =
      if d.isFile ((dir.below names).join projectFile) then
        .ok ((dir.below names).join projectFile)
      else searchFrom d notFound turns ((queue ++ subdirectories d dir names).map dir.below) := by
  have hchildren : directoriesIn d (dir.below names)
      (d.namesBelow (dir.landing d.here ++ names)) =
        (subdirectories d dir names).map dir.below := by
    unfold directoriesIn subdirectories
    rw [List.filter_map, List.map_map]
    apply List.map_congr_left
    intro name _
    exact (Path.below_concat dir names name).symm
  rw [List.map_cons, searchFrom, list_of_reached h]
  dsimp only
  rw [hchildren, List.map_append]

end

/-! ## The queue of a search -/

/-- The state of a search that has seen some directories and has others in its queue. They are in
    order and can be reached, what is in the queue was met in a directory that was seen, and every
    project file is in or below a directory of the queue. -/
structure Frontier (d : Disk) (dir : Disk.Path) (seen queue : List (List String)) : Prop where
  ordered : (seen ++ queue).Pairwise Nearer
  reached : ∀ names ∈ seen ++ queue, Reached d dir names
  met : ∀ names ∈ queue, names = [] ∨ ∃ above ∈ seen, ∃ name, names = above ++ [name]
  ahead : ∀ names, Holds d dir names → ∃ front ∈ queue, front <+: names

section

variable {d : Disk} {dir : Disk.Path} {seen queue : List (List String)} {names : List String}

theorem frontier_start (h : d.isDirectory dir = true) : Frontier d dir [] [[]] where
  ordered := List.pairwise_singleton _ []
  reached := by
    intro names hnames
    rw [List.mem_singleton.mp hnames]
    exact reached_nil h
  met := fun names hnames => .inl (List.mem_singleton.mp hnames)
  ahead := fun names _ => ⟨[], List.mem_singleton_self [], List.nil_prefix⟩

/-- A project file below a directory is below one of the directories in it. -/
theorem Reached.next_of_holds (htree : d.IsTree) (h : Reached d dir names) {name : String}
    {more : List String} (hholds : Holds d dir (names ++ name :: more)) :
    Reached d dir (names ++ [name]) := by
  obtain ⟨content, hfile⟩ := hholds.file
  have hnames : ∀ piece ∈ name :: more, IsName piece := by
    intro piece hpiece
    refine htree.isName hfile (List.mem_append_left _ (List.mem_append_right _ ?_))
    exact List.mem_append_right names hpiece
  obtain ⟨hname, hmore⟩ := List.forall_mem_cons.mp hnames
  refine (h.concat_iff hname).mp ?_
  refine (isDirectory_join_iff h.resolve h.directory hname).mpr ⟨?_, ?_⟩
  · have hsize := ((dir.below names).join name).size_below hmore
    have hjoin := (dir.below (names ++ name :: more)).size_join
      (isAbsolute_of_not_mem isName_projectFile.unslashed)
    rw [← Path.below_concat, ← Path.below_append, List.append_assoc, List.singleton_append]
      at hsize
    rw [← Path.below_concat]
    exact Nat.le_trans hsize (Nat.le_trans (Nat.le_of_add_right_le hjoin) hholds.fits)
  · have hbelow : d.get? (dir.landing d.here ++ names ++ [name] ++ (more ++ [projectFile])) =
        some (.file content) := by
      simpa using hfile
    exact htree.directory_above (by simp) hbelow

/-- The file of the first directory in the queue is the nearest. -/
theorem Frontier.nearest (h : Frontier d dir seen (names :: queue)) {others : List String}
    (hothers : Holds d dir others) : others = names ∨ Nearer names others := by
  obtain ⟨front, hfront, hprefix⟩ := h.ahead others hothers
  have hordered := (List.pairwise_append.mp h.ordered).2.1
  rcases List.mem_cons.mp hfront with rfl | hfront
  · exact (eq_or_nearer hprefix).imp_left Eq.symm
  · have hnearer := (List.pairwise_cons.mp hordered).1 front hfront
    rcases eq_or_nearer hprefix with rfl | hnearer'
    · exact .inr hnearer
    · exact .inr (hnearer.trans hnearer')

/-- What stands in the first directory of the queue comes behind all that was met before. -/
theorem Frontier.nearer_child (h : Frontier d dir seen (names :: queue)) {other : List String}
    (hother : other ∈ seen ++ names :: queue) (name : String) : Nearer other (names ++ [name]) := by
  obtain ⟨-, -, hseen⟩ := List.pairwise_append.mp h.ordered
  have hdeeper : Nearer names (names ++ [name]) := .inl (by simp)
  rcases List.mem_append.mp hother with hother | hother
  · exact (hseen other hother names (List.mem_cons_self ..)).trans hdeeper
  · rcases List.mem_cons.mp hother with rfl | hother
    · exact hdeeper
    · -- what waits was met in a directory that was seen before this one
      have hmet := h.met other (List.mem_cons_of_mem names hother)
      rcases hmet with rfl | ⟨above, habove, piece, rfl⟩
      · exact .inl (by simp)
      · exact (hseen above habove names (List.mem_cons_self ..)).concat piece name

/-- A project file that is not in the first directory of the queue stays ahead. -/
theorem Frontier.ahead_step (htree : d.IsTree) (h : Frontier d dir seen (names :: queue))
    (hnone : ¬ Holds d dir names) {other : List String} (hother : Holds d dir other) :
    ∃ front ∈ queue ++ subdirectories d dir names, front <+: other := by
  have hreached : Reached d dir names :=
    h.reached names (List.mem_append_right seen (List.mem_cons_self ..))
  obtain ⟨front, hfront, hprefix⟩ := h.ahead other hother
  rcases List.mem_cons.mp hfront with rfl | hfront
  · obtain ⟨rest, rfl⟩ := hprefix
    cases rest with
    | nil =>
      rw [List.append_nil] at hother
      exact absurd hother hnone
    | cons name more =>
      have hchild := hreached.next_of_holds htree hother
      refine ⟨front ++ [name], List.mem_append_right queue ?_, more, by simp⟩
      exact (mem_subdirectories htree hreached).mpr ⟨name, rfl, hchild⟩
  · exact ⟨front, List.mem_append_left _ hfront, hprefix⟩

/-- One turn of the search keeps the order. -/
theorem Frontier.step (htree : d.IsTree) (h : Frontier d dir seen (names :: queue))
    (hnone : ¬ Holds d dir names) :
    Frontier d dir (seen ++ [names]) (queue ++ subdirectories d dir names) := by
  have hreached : Reached d dir names :=
    h.reached names (List.mem_append_right seen (List.mem_cons_self ..))
  have hlists : (seen ++ [names]) ++ (queue ++ subdirectories d dir names) =
      (seen ++ names :: queue) ++ subdirectories d dir names := by simp
  refine ⟨?_, ?_, ?_, fun other => h.ahead_step htree hnone⟩
  · rw [hlists]
    refine List.pairwise_append.mpr ⟨h.ordered, pairwise_subdirectories htree dir names, ?_⟩
    intro other hother child hchild
    obtain ⟨name, rfl, -⟩ := (mem_subdirectories htree hreached).mp hchild
    exact h.nearer_child hother name
  · intro other hother
    rw [hlists] at hother
    rcases List.mem_append.mp hother with hother | hother
    · exact h.reached other hother
    · obtain ⟨name, -, hchild⟩ := (mem_subdirectories htree hreached).mp hother
      exact hchild
  · intro other hother
    rcases List.mem_append.mp hother with hother | hother
    · refine (h.met other (List.mem_cons_of_mem names hother)).imp_right ?_
      rintro ⟨above, habove, hname⟩
      exact ⟨above, List.mem_append_left _ habove, hname⟩
    · obtain ⟨name, rfl, -⟩ := (mem_subdirectories htree hreached).mp hother
      exact .inr ⟨names, List.mem_append_right _ (List.mem_singleton_self names), name, rfl⟩

/-- There are no more directories than nodes and the root. -/
theorem Frontier.length_le (h : Frontier d dir seen queue) :
    (seen ++ queue).length ≤ d.nodes.length + 1 := by
  have hdistinct : ((seen ++ queue).map (dir.landing d.here ++ ·)).Nodup := by
    rw [List.Nodup, List.pairwise_map]
    refine h.ordered.imp fun {a b} hnearer heq => ?_
    rw [List.append_cancel_left heq] at hnearer
    exact nearer_irrefl b hnearer
  have hplaces : (seen ++ queue).map (dir.landing d.here ++ ·) ⊆ [] :: d.nodes.map Prod.fst := by
    intro place hplace
    obtain ⟨names, hnames, rfl⟩ := List.mem_map.mp hplace
    by_cases hroot : dir.landing d.here ++ names = []
    · rw [hroot]
      exact List.mem_cons_self ..
    · have hnode := mem_nodes_of_get? (h.reached names hnames).directory hroot
      exact List.mem_cons_of_mem _ (List.mem_map_of_mem hnode)
  have hlength := (hdistinct.subperm hplaces).length_le
  rw [List.length_map, List.length_cons, List.length_map] at hlength
  exact hlength

end

/-! ## What a search returns -/

/-- Under some names below a directory stands the nearest of the project files. -/
def Nearest (d : Disk) (dir : Disk.Path) (names : List String) : Prop :=
  Holds d dir names ∧ ∀ others, Holds d dir others → others = names ∨ Nearer names others

theorem searchFrom_nearest {d : Disk} {dir : Disk.Path} (htree : d.IsTree) (notFound : Failure)
    {turns : Nat} {seen queue : List (List String)} (h : Frontier d dir seen queue)
    (hturns : turns + seen.length = d.nodes.length + 2) :
    (∃ names, Nearest d dir names ∧ searchFrom d notFound turns (queue.map dir.below) =
      .ok ((dir.below names).join projectFile)) ∨
    (∀ names, ¬ Holds d dir names) ∧
      searchFrom d notFound turns (queue.map dir.below) = .error notFound := by
  induction turns generalizing seen queue with
  | zero =>
    have hlength := h.length_le
    rw [List.length_append] at hlength
    omega
  | succ turns ih =>
    cases queue with
    | nil =>
      refine .inr ⟨fun names hholds => ?_, rfl⟩
      obtain ⟨front, hfront, -⟩ := h.ahead names hholds
      cases hfront
    | cons names queue =>
      have hreached : Reached d dir names :=
        h.reached names (List.mem_append_right seen (List.mem_cons_self ..))
      rw [searchFrom_cons hreached]
      by_cases hholds : Holds d dir names
      · rw [if_pos (hreached.holds_iff.mpr hholds)]
        exact .inl ⟨names, ⟨hholds, fun others => h.nearest⟩, rfl⟩
      · rw [if_neg (mt hreached.holds_iff.mp hholds)]
        refine ih (h.step htree hholds) ?_
        rw [List.length_append, List.length_singleton]
        omega

/-- The failure to find a project file below a directory. -/
def missing (dir : Disk.Path) : Failure :=
  .plain ("project.json not found under '" ++ dir.text ++ "'.")

theorem locate_run {w : World} {dir : Disk.Path} (htree : w.disk.IsTree)
    (hdir : w.disk.isDirectory dir = true) :
    (∃ names, Nearest w.disk dir names ∧
      (locate dir).run w = (.ok ((dir.below names).join projectFile), w)) ∨
    (∀ names, ¬ Holds w.disk dir names) ∧ (locate dir).run w = (.error (missing dir), w) := by
  have hrun : (locate dir).run w =
      (searchFrom w.disk (missing dir) (w.disk.nodes.length + 2) ([[]].map dir.below), w) := rfl
  rw [hrun]
  refine (searchFrom_nearest htree (missing dir) (frontier_start hdir) rfl).imp ?_ ?_
  · rintro ⟨names, hnearest, hresult⟩
    exact ⟨names, hnearest, by rw [hresult]⟩
  · rintro ⟨hnone, hresult⟩
    exact ⟨hnone, by rw [hresult]⟩

theorem Nearest.unique {d : Disk} {dir : Disk.Path} {names others : List String}
    (h : Nearest d dir names) (h' : Nearest d dir others) : others = names := by
  rcases h.2 others h'.1 with heq | hnearer
  · exact heq
  · rcases h'.2 names h.1 with heq | hnearer'
    · exact heq.symm
    · exact absurd (hnearer.trans hnearer') (nearer_irrefl names)

theorem isFile_of_searchFrom {d : Disk} {notFound : Failure} {turns : Nat}
    {queue : List Disk.Path} {p : Disk.Path} (h : searchFrom d notFound turns queue = .ok p) :
    d.isFile p = true := by
  induction turns generalizing queue with
  | zero => cases h
  | succ turns ih =>
    cases queue with
    | nil => cases h
    | cons directory queue =>
      unfold searchFrom at h
      dsimp only at h
      split_ifs at h with hfile
      · cases h
        exact hfile
      · split at h
        case h_1 => cases h
        case h_2 names hlist => exact ih h

/-- Searches on two trees with the same project files end with the same result. -/
theorem locate_congr {v w : World} {dir : Disk.Path} (hv : v.disk.IsTree) (hw : w.disk.IsTree)
    (hdirv : v.disk.isDirectory dir = true) (hdirw : w.disk.isDirectory dir = true)
    (h : ∀ names, Holds v.disk dir names ↔ Holds w.disk dir names) :
    ((locate dir).run v).1 = ((locate dir).run w).1 := by
  have hnearest : ∀ names, Nearest v.disk dir names ↔ Nearest w.disk dir names := by
    intro names
    unfold Nearest
    simp only [h]
  rcases locate_run hv hdirv with ⟨names, hnames, hrun⟩ | ⟨hnone, hrun⟩
  · rcases locate_run hw hdirw with ⟨others, hothers, hrun'⟩ | ⟨hnone', -⟩
    · rw [hrun, hrun', hothers.unique ((hnearest names).mp hnames)]
    · exact absurd ((h names).mp hnames.1) (hnone' names)
  · rcases locate_run hw hdirw with ⟨others, hothers, -⟩ | ⟨-, hrun'⟩
    · exact absurd ((h others).mpr hothers.1) (hnone others)
    · rw [hrun, hrun']

/-- The order of the nodes does not matter to a search. -/
theorem locate_of_perm {v w : World} {dir : Disk.Path} (htree : w.disk.IsTree)
    (hdir : w.disk.isDirectory dir = true) (hhere : v.disk.here = w.disk.here)
    (hperm : v.disk.nodes.Perm w.disk.nodes) :
    ((locate dir).run v).1 = ((locate dir).run w).1 := by
  have hget := get?_of_perm htree.distinct hperm
  have hextends : w.disk.Extends v.disk := by
    refine ⟨hhere, fun place hplace => ?_⟩
    rw [hget, hplace]
  refine locate_congr (htree.of_perm hperm) htree (hextends.isDirectory hdir) hdir fun names => ?_
  constructor
  · rintro ⟨hfile, hfits⟩
    rw [hget, hhere] at hfile
    exact ⟨hfile, hfits⟩
  · rintro ⟨hfile, hfits⟩
    rw [← hget, ← hhere] at hfile
    exact ⟨hfile, hfits⟩

/-- A search for the project file below a directory of a tree ends in one of two ways. It returns a
    path if and only if this is the path of the nearest project file, and then there is a file. It
    fails if and only if there is none. The order in which the disk lists its nodes does not
    matter. -/
theorem locate_nearest {w : World} {dir : Disk.Path} (htree : w.disk.IsTree)
    (hdir : w.disk.isDirectory dir = true) :
    ((∃ p, (locate dir).run w = (.ok p, w)) ∨ (locate dir).run w = (.error (missing dir), w)) ∧
    (∀ p, (locate dir).run w = (.ok p, w) ↔
      ∃ names, Nearest w.disk dir names ∧ p = (dir.below names).join projectFile) ∧
    (∀ p, (locate dir).run w = (.ok p, w) → w.disk.isFile p = true) ∧
    ((locate dir).run w = (.error (missing dir), w) ↔ ∀ names, ¬ Holds w.disk dir names) ∧
    ∀ v : World, v.disk.here = w.disk.here → v.disk.nodes.Perm w.disk.nodes →
      ((locate dir).run v).1 = ((locate dir).run w).1 := by
  have hfile : ∀ p, (locate dir).run w = (.ok p, w) → w.disk.isFile p = true := by
    intro p hrun
    exact isFile_of_searchFrom (Prod.mk.inj hrun).1
  have horder : ∀ v : World, v.disk.here = w.disk.here → v.disk.nodes.Perm w.disk.nodes →
      ((locate dir).run v).1 = ((locate dir).run w).1 := fun v => locate_of_perm htree hdir
  rcases locate_run htree hdir with ⟨names, hnames, hrun⟩ | ⟨hnone, hrun⟩
  · refine ⟨.inl ⟨_, hrun⟩, fun p => ⟨fun h => ?_, ?_⟩, hfile, ⟨fun h => ?_, fun h => ?_⟩, horder⟩
    · rw [hrun] at h
      cases h
      exact ⟨names, hnames, rfl⟩
    · rintro ⟨others, hothers, rfl⟩
      rw [hnames.unique hothers, hrun]
    · rw [hrun] at h
      cases h
    · exact absurd hnames.1 (h names)
  · refine ⟨.inr hrun, fun p => ⟨fun h => ?_, ?_⟩, hfile, ⟨fun _ => hnone, fun _ => hrun⟩, horder⟩
    · rw [hrun] at h
      cases h
    · rintro ⟨others, hothers, -⟩
      exact absurd hothers.1 (hnone others)

/-- A tree with a project file in `b`, and in `a` a directory of that name with a file in it. -/
def twoProjects : World where
  disk.nodes := [
    (["b", projectFile], .file ByteArray.empty),
    (["b"], .directory),
    (["a", projectFile, projectFile], .file ByteArray.empty),
    (["a", projectFile], .directory),
    (["a"], .directory)]
  disk.here := []

theorem isTree_twoProjects : twoProjects.disk.IsTree where
  distinct := by decide +kernel
  above := by
    intro entry hentry
    simp only [twoProjects, List.mem_cons, List.not_mem_nil, or_false] at hentry
    rcases hentry with rfl | rfl | rfl | rfl | rfl <;> exact ⟨List.cons_ne_nil _ _, rfl⟩
  named := by decide +kernel

theorem nearest_twoProjects : Nearest twoProjects.disk ⟨"."⟩ ["b"] := by
  refine ⟨⟨⟨_, rfl⟩, by decide +kernel⟩, fun others hothers => ?_⟩
  obtain ⟨content, hfile⟩ := hothers.file
  have hhome : Path.landing twoProjects.disk.here ⟨"."⟩ = [] := by decide +kernel
  have hnode := mem_nodes_of_get? hfile (by simp)
  rw [hhome, List.nil_append] at hnode
  have hfiles : others ++ [projectFile] = ["b"] ++ [projectFile] ∧ content = ByteArray.empty ∨
      others ++ [projectFile] = ["a", projectFile] ++ [projectFile] ∧
        content = ByteArray.empty := by
    simpa [twoProjects] using hnode
  rcases hfiles with ⟨heq, -⟩ | ⟨heq, -⟩
  · exact .inl (List.append_cancel_right heq)
  · rw [List.append_cancel_right heq]
    exact .inr (.inl (by decide))

theorem locate_nearest_twoProjects :
    (locate ⟨"."⟩).run twoProjects = (.ok ⟨"./b/project.json"⟩, twoProjects) := by
  have hdir : twoProjects.disk.isDirectory ⟨"."⟩ = true := by decide +kernel
  have hpath := (locate_nearest isTree_twoProjects hdir).2.1 ⟨"./b/project.json"⟩
  exact hpath.mpr ⟨["b"], nearest_twoProjects, by decide +kernel⟩

/-! ## Paths that are too long -/

/-- A tree with a project file in `x`. -/
def oneProject : World where
  disk.nodes := [(["x", projectFile], .file ByteArray.empty), (["x"], .directory)]
  disk.here := []

/-- The path of `x` with dots behind it. -/
def dotted (count : Nat) : Disk.Path := Path.below ⟨"x"⟩ (List.replicate count ".")

theorem isTree_oneProject : oneProject.disk.IsTree where
  distinct := by decide +kernel
  above := by
    intro entry hentry
    simp only [oneProject, List.mem_cons, List.not_mem_nil, or_false] at hentry
    rcases hentry with rfl | rfl <;> exact ⟨List.cons_ne_nil _ _, rfl⟩
  named := by decide +kernel

theorem dotted_succ (count : Nat) : dotted (count + 1) = (dotted count).join "." := by
  unfold dotted
  rw [List.replicate_succ', Path.below_concat]

theorem dotted_text (count : Nat) :
    (dotted count).text.utf8ByteSize = 2 * count + 1 ∧
      ∃ last, (dotted count).text.toList.getLast? = some last ∧ last ≠ '/' := by
  induction count with
  | zero => exact ⟨by decide +kernel, 'x', rfl, by decide⟩
  | succ count ih =>
    obtain ⟨hsize, last, hlast, hslash⟩ := ih
    have htext : (dotted (count + 1)).text = (dotted count).text ++ "/" ++ "." := by
      rw [dotted_succ]
      unfold Path.join
      rw [if_neg (by decide), hlast, if_neg (by simpa using hslash)]
    rw [htext]
    refine ⟨?_, '.', ?_, by decide⟩
    · rw [String.utf8ByteSize_append, String.utf8ByteSize_append, hsize]
      rfl
    · rw [String.toList_append]
      exact List.getLast?_concat

theorem resolve_dotted {count : Nat} (h : 2 * count + 1 ≤ longestPath) :
    oneProject.disk.resolve (dotted count) = .ok ["x"] := by
  induction count with
  | zero => decide +kernel
  | succ count ih =>
    rw [dotted_succ]
    refine (resolve_join_iff (ih (by omega)) (by decide) (by decide) (by decide)).mpr ⟨?_, rfl⟩
    rw [← dotted_succ, (dotted_text _).1]
    exact h

/-- The project file in a directory is not found if its path as the search spells it is too long. -/
theorem not_located_of_long :
    oneProject.disk.IsTree ∧ oneProject.disk.isDirectory (dotted 2042) = true ∧
      (∃ content, oneProject.disk.get?
        ((dotted 2042).landing oneProject.disk.here ++ [projectFile]) = some (.file content)) ∧
      (locate (dotted 2042)).run oneProject = (.error (missing (dotted 2042)), oneProject) := by
  have hresolve : oneProject.disk.resolve (dotted 2042) = .ok ["x"] :=
    resolve_dotted (by decide)
  have hdir : oneProject.disk.isDirectory (dotted 2042) = true :=
    isDirectory_iff.mpr ⟨["x"], hresolve, rfl⟩
  refine ⟨isTree_oneProject, hdir, ?_, ?_⟩
  · rw [← resolve_eq_ok hresolve]
    exact ⟨_, rfl⟩
  · rcases locate_run isTree_oneProject hdir with ⟨names, ⟨hholds, -⟩, -⟩ | ⟨-, hrun⟩
    · obtain ⟨content, hfile⟩ := hholds.file
      have hnames : ∀ name ∈ names, IsName name := by
        intro name hname
        refine isTree_oneProject.isName hfile (List.mem_append_left _ ?_)
        exact List.mem_append_right _ hname
      have hbelow := (dotted 2042).size_below hnames
      have hjoin := ((dotted 2042).below names).size_join
        (isAbsolute_of_not_mem isName_projectFile.unslashed)
      have hfits := hholds.fits
      rw [(dotted_text 2042).1] at hbelow
      have hproject : projectFile.utf8ByteSize = 12 := by decide +kernel
      have hlongest : longestPath = 4095 := rfl
      omega
    · exact hrun

end BlockScript.Command
