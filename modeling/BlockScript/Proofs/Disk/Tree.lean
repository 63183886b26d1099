/-
  Disks that are trees.

  The nodes of a real disk make up a tree: every place is there once, under names that a directory
  can hold, and in a directory (`IsTree`). Then what stands above a node is a directory
  (`directory_above`), and a directory lists the names of what stands in it
  (`mem_namesBelow_iff`), in any order. A path that leads to a directory leads to what stands in it
  if a name is joined to it, unless it becomes too long (`resolve_join_of_isName`). The path of a
  place leads to the place (`landing_pathOf`), so a canonical path leads to where the path leads and
  has its name (`landing_canonical`, `fileName?_canonical`).
-/
import BlockScript.Proofs.Disk.Passage

namespace BlockScript.Disk

open BlockScript.Results

/-- A name that a directory can hold. -/
structure IsName (name : String) : Prop where
  active : Path.isIdle name = false
  level : name ≠ ".."
  unslashed : '/' ∉ name.toList
  printable : '\x00' ∉ name.toList
  short : name.utf8ByteSize ≤ longestName

instance (name : String) : Decidable (IsName name) :=
  decidable_of_iff (_ ∧ _ ∧ _ ∧ _ ∧ _)
    ⟨fun h => ⟨h.1, h.2.1, h.2.2.1, h.2.2.2.1, h.2.2.2.2⟩,
      fun h => ⟨h.active, h.level, h.unslashed, h.printable, h.short⟩⟩

theorem IsName.ne_empty {name : String} (h : IsName name) : name ≠ "" := by
  rintro rfl
  exact absurd h.active (by decide)

theorem IsName.ne_dot {name : String} (h : IsName name) : name ≠ "." := by
  rintro rfl
  exact absurd h.active (by decide)

theorem onward_of_active {name : String} (hactive : Path.isIdle name = false)
    (hlevel : name ≠ "..") (place : Place) : onward place name = place ++ [name] := by
  unfold onward
  rw [if_neg (by simpa [Path.isIdle] using hactive), if_neg hlevel]

theorem pieces_of_not_mem {name : String} (h : '/' ∉ name.toList) :
    (⟨name⟩ : Path).pieces = [name] := by
  unfold Path.pieces
  rw [Text.pieces_of_not_mem h]
  simp

/-! ## Trees -/

/-- Each place is there once, in a directory and under good names. -/
structure IsTree (d : Disk) : Prop where
  distinct : (d.nodes.map Prod.fst).Nodup
  above : ∀ entry ∈ d.nodes, entry.1 ≠ [] ∧ d.get? entry.1.dropLast = some .directory
  named : ∀ entry ∈ d.nodes, ∀ name ∈ entry.1, IsName name

section

variable {d : Disk} {place : Place} {node : Node}

theorem mem_nodes_of_get? (h : d.get? place = some node) (hne : place ≠ []) :
    (place, node) ∈ d.nodes := by
  unfold get? at h
  rw [if_neg hne] at h
  obtain ⟨before, after, hnodes, -⟩ := List.lookup_eq_some_iff.mp h
  rw [hnodes]
  exact List.mem_append_right before (List.mem_cons_self ..)

theorem get?_of_mem (hdistinct : (d.nodes.map Prod.fst).Nodup) (hne : place ≠ [])
    (hmem : (place, node) ∈ d.nodes) : d.get? place = some node := by
  obtain ⟨before, after, hnodes⟩ := List.append_of_mem hmem
  rw [hnodes, List.map_append, List.nodup_append] at hdistinct
  unfold get?
  rw [if_neg hne]
  refine List.lookup_eq_some_iff.mpr ⟨before, after, hnodes, fun entry hentry => ?_⟩
  rw [bne_iff_ne]
  intro heq
  exact hdistinct.2.2 entry.1 (List.mem_map_of_mem hentry) place (List.mem_cons_self ..) heq.symm

/-- What stands at the places does not depend on the order of the nodes. -/
theorem get?_of_perm {later : Disk} (hdistinct : (d.nodes.map Prod.fst).Nodup)
    (hperm : later.nodes.Perm d.nodes) (place : Place) : later.get? place = d.get? place := by
  have hdistinct' : (later.nodes.map Prod.fst).Nodup := (hperm.map Prod.fst).nodup_iff.mpr hdistinct
  by_cases hne : place = []
  · subst hne
    rfl
  · apply Option.ext
    intro node
    constructor
    · intro hget
      exact get?_of_mem hdistinct hne (hperm.mem_iff.mp (mem_nodes_of_get? hget hne))
    · intro hget
      exact get?_of_mem hdistinct' hne (hperm.mem_iff.mpr (mem_nodes_of_get? hget hne))

theorem IsTree.of_perm {later : Disk} (h : d.IsTree) (hperm : later.nodes.Perm d.nodes) :
    later.IsTree where
  distinct := (hperm.map Prod.fst).nodup_iff.mpr h.distinct
  above := by
    intro entry hentry
    rw [get?_of_perm h.distinct hperm]
    exact h.above entry (hperm.mem_iff.mp hentry)
  named := fun entry hentry => h.named entry (hperm.mem_iff.mp hentry)

theorem IsTree.isName (h : d.IsTree) (hget : d.get? place = some node) {name : String}
    (hname : name ∈ place) : IsName name := by
  have hne : place ≠ [] := List.ne_nil_of_mem hname
  exact h.named _ (mem_nodes_of_get? hget hne) name hname

/-- What stands above a node is a directory. -/
theorem IsTree.directory_above (h : d.IsTree) {a b : Place} (hb : b ≠ [])
    (hget : d.get? (a ++ b) = some node) : d.get? a = some .directory := by
  induction b using List.reverseRecOn generalizing node with
  | nil => exact absurd rfl hb
  | append_singleton b name ih =>
    have hne : a ++ (b ++ [name]) ≠ [] := by simp
    have habove := (h.above _ (mem_nodes_of_get? hget hne)).2
    rw [← List.append_assoc, List.dropLast_concat] at habove
    by_cases hnil : b = []
    · rw [hnil, List.append_nil] at habove
      exact habove
    · exact ih hnil habove

/-! ## Listing a directory -/

theorem nameIn_eq_some {stop : Place} {name : String}
    (h : (if stop.dropLast = place then stop.getLast? else none) = some name) :
    stop = place ++ [name] := by
  split_ifs at h with hplace
  rw [← hplace]
  exact (List.dropLast_append_getLast? name h).symm

/-- A directory lists the names of what stands in it. -/
theorem IsTree.mem_namesBelow_iff (h : d.IsTree) {name : String} :
    name ∈ d.namesBelow place ↔ ∃ node, d.get? (place ++ [name]) = some node := by
  unfold namesBelow
  rw [List.mem_filterMap]
  constructor
  · rintro ⟨⟨stop, node⟩, hmem, hname⟩
    obtain rfl : stop = place ++ [name] := nameIn_eq_some hname
    exact ⟨node, get?_of_mem h.distinct (by simp) hmem⟩
  · rintro ⟨node, hget⟩
    refine ⟨(place ++ [name], node), mem_nodes_of_get? hget (by simp), ?_⟩
    simp

theorem IsTree.nodup_namesBelow (h : d.IsTree) (place : Place) : (d.namesBelow place).Nodup := by
  unfold namesBelow
  rw [List.Nodup, List.pairwise_filterMap]
  refine (List.pairwise_map.mp h.distinct).imp fun {entry other} hne name hname name' hname' => ?_
  rintro rfl
  rw [nameIn_eq_some hname, nameIn_eq_some hname'] at hne
  exact hne rfl

end

/-! ## Paths below a directory -/

theorem Path.text_join (p : Path) {name : String} (hname : (⟨name⟩ : Path).isAbsolute = false) :
    ∃ mark, (mark = "" ∨ mark = "/") ∧ (p.join name).text = p.text ++ mark ++ name := by
  unfold join
  rw [if_neg (by rw [hname]; decide)]
  split
  · exact ⟨"", .inl rfl, by rw [String.append_empty]⟩
  · exact ⟨"/", .inr rfl, rfl⟩

theorem Path.size_join (p : Path) {name : String} (hname : (⟨name⟩ : Path).isAbsolute = false) :
    p.text.utf8ByteSize + name.utf8ByteSize ≤ (p.join name).text.utf8ByteSize := by
  obtain ⟨mark, -, htext⟩ := p.text_join hname
  rw [htext, String.utf8ByteSize_append, String.utf8ByteSize_append]
  omega

/-- The path of what stands below a directory under some names, one below the other. -/
def Path.below (p : Path) (names : List String) : Path := names.foldl join p

theorem Path.below_append (p : Path) (a b : List String) :
    p.below (a ++ b) = (p.below a).below b := by
  unfold below
  rw [List.foldl_append]

theorem Path.below_concat (p : Path) (names : List String) (name : String) :
    p.below (names ++ [name]) = (p.below names).join name :=
  p.below_append names [name]

theorem Path.size_below (p : Path) {names : List String} (h : ∀ name ∈ names, IsName name) :
    p.text.utf8ByteSize ≤ (p.below names).text.utf8ByteSize := by
  induction names generalizing p with
  | nil => exact Nat.le_refl _
  | cons name rest ih =>
    obtain ⟨hname, hrest⟩ := List.forall_mem_cons.mp h
    have hjoin := p.size_join (isAbsolute_of_not_mem hname.unslashed)
    exact Nat.le_trans (Nat.le_of_add_right_le hjoin) (ih (p.join name) hrest)

theorem endsInSlash_join (p : Path) {name : String} (h : IsName name) :
    endsInSlash (p.join name) = false := by
  obtain ⟨mark, -, htext⟩ := p.text_join (isAbsolute_of_not_mem h.unslashed)
  unfold endsInSlash
  rw [beq_eq_false_iff_ne, htext, String.toList_append, List.getLast?_append_of_ne_nil]
  · intro hlast
    exact h.unslashed (List.mem_of_getLast? hlast)
  · rw [Ne, String.toList_eq_nil_iff]
    exact h.ne_empty

section

variable {d : Disk} {p : Path} {place next : Place} {name : String}

theorem resolve_eq_ok_iff :
    d.resolve p = .ok place ↔
      p.text ≠ "" ∧ '\x00' ∉ p.text.toList ∧ p.text.utf8ByteSize ≤ longestPath ∧
        (p.pieces.filter (· != "")).foldlM d.follow (p.origin d.here) = .ok place := by
  unfold resolve
  by_cases hempty : p.text = ""
  · simp [hempty]
  · by_cases hbad : '\x00' ∈ p.text.toList ∨ longestPath < p.text.utf8ByteSize
    · rcases hbad with hbad | hbad
      · simp [hempty, hbad]
      · simp [hempty, hbad, Nat.not_le_of_lt hbad]
    · obtain ⟨hprintable, hshort⟩ := not_or.mp hbad
      rw [if_neg hempty, if_neg (by simp [hprintable, hshort])]
      simp [hempty, hprintable, Nat.le_of_not_lt hshort, Path.origin]

/-- A path that leads to a place and that a name is joined to is followed from the place, unless it
    is too long. -/
theorem resolve_join_iff (h : d.resolve p = .ok place) (hslash : '/' ∉ name.toList)
    (hprintable : '\x00' ∉ name.toList) (hne : name ≠ "") :
    d.resolve (p.join name) = .ok next ↔
      (p.join name).text.utf8ByteSize ≤ longestPath ∧ d.follow place name = .ok next := by
  obtain ⟨hp, hprintable', -, hfollowed⟩ := resolve_eq_ok_iff.mp h
  have habsolute := isAbsolute_of_not_mem hslash
  obtain ⟨mark, hmark, htext⟩ := p.text_join habsolute
  have hjoined : (p.join name).text ≠ "" := by
    rw [htext, Ne, String.append_eq_empty_iff]
    exact fun hempty => hne hempty.2
  have hclean : '\x00' ∉ (p.join name).text.toList := by
    rw [htext, String.toList_append, String.toList_append]
    rcases hmark with rfl | rfl
    · simp [hprintable, hprintable']
    · simp [hprintable, hprintable']
  have hpieces : (p.join name).origin d.here = p.origin d.here ∧
      (p.join name).pieces.filter (· != "") = p.pieces.filter (· != "") ++ [name] := by
    obtain ⟨horigin, front, hpieces, hfront⟩ := Path.pieces_join hp habsolute
    unfold Path.origin
    rw [horigin, hpieces, pieces_of_not_mem hslash, List.filter_append,
      List.filter_cons_of_pos (by simpa using hne)]
    rcases hfront with hfront | hfront
    · rw [hfront]
      exact ⟨rfl, rfl⟩
    · rw [hfront, List.filter_append]
      simp
  have hlast : (p.pieces.filter (· != "") ++ [name]).foldlM d.follow (p.origin d.here) =
      d.follow place name := by
    rw [List.foldlM_append, hfollowed]
    exact bind_pure (d.follow place name)
  rw [resolve_eq_ok_iff, hpieces.1, hpieces.2, hlast]
  simp [hjoined, hclean]

variable (h : d.resolve p = .ok place) (hdirectory : d.get? place = some .directory)
  (hname : IsName name)

include h hdirectory hname

/-- In a directory a name leads to what stands there under this name. -/
theorem resolve_join_of_isName :
    d.resolve (p.join name) = .ok next ↔
      (p.join name).text.utf8ByteSize ≤ longestPath ∧ next = place ++ [name] := by
  have hfollow : d.follow place name = .ok (place ++ [name]) := by
    unfold follow
    rw [hdirectory]
    dsimp only
    rw [if_neg (not_or.mpr ⟨hname.ne_empty, hname.ne_dot⟩), if_neg hname.level,
      if_neg (Nat.not_lt_of_le hname.short)]
  rw [resolve_join_iff h hname.unslashed hname.printable hname.ne_empty, hfollow]
  simp [eq_comm]

theorem isDirectory_join_iff :
    d.isDirectory (p.join name) = true ↔
      (p.join name).text.utf8ByteSize ≤ longestPath ∧
        d.get? (place ++ [name]) = some .directory := by
  simp [isDirectory_iff, resolve_join_of_isName h hdirectory hname, and_assoc]

theorem isFile_join_iff :
    d.isFile (p.join name) = true ↔
      (p.join name).text.utf8ByteSize ≤ longestPath ∧
        ∃ content, d.get? (place ++ [name]) = some (.file content) := by
  unfold isFile
  have hslash : endsInSlash (p.join name) = false := endsInSlash_join p hname
  constructor
  · intro hfile
    split at hfile
    case h_1 content hfind =>
      obtain ⟨next, hresolve, -, hcontent⟩ := find_eq_file_iff.mp hfind
      obtain ⟨hshort, rfl⟩ := (resolve_join_of_isName h hdirectory hname).mp hresolve
      exact ⟨hshort, content, get?_of_fileAt hcontent⟩
    case h_2 => cases hfile
  · rintro ⟨hshort, content, hget⟩
    have hresolve := (resolve_join_of_isName h hdirectory hname).mpr ⟨hshort, rfl⟩
    have hfile : d.fileAt (place ++ [name]) = some content := by
      unfold fileAt
      rw [hget]
    rw [find_eq_file_iff.mpr ⟨_, hresolve, hslash, hfile⟩]

end

/-! ## Paths of places -/

theorem foldl_onward_names {names : List String} (h : ∀ name ∈ names, IsName name)
    (start : Place) : names.foldl onward start = start ++ names := by
  induction names generalizing start with
  | nil => rw [List.foldl_nil, List.append_nil]
  | cons name rest ih =>
    obtain ⟨hname, hrest⟩ := List.forall_mem_cons.mp h
    rw [List.foldl_cons, onward_of_active hname.active hname.level, ih hrest, List.append_assoc,
      List.singleton_append]

theorem pieces_pathOf {place : Place} (h : ∀ name ∈ place, IsName name) (hne : place ≠ []) :
    (pathOf place).pieces = "" :: place := by
  have hslash : ∀ piece ∈ "" :: place, '/' ∉ piece.toList := by
    intro piece hpiece
    rcases List.mem_cons.mp hpiece with rfl | hpiece
    · exact List.not_mem_nil
    · exact (h piece hpiece).unslashed
  have hpath : pathOf place = Path.ofPieces "" place := by
    unfold pathOf Path.ofPieces
    rw [if_neg (fun hroot => hne hroot.2)]
    obtain ⟨first, rest, rfl⟩ := List.exists_cons_of_ne_nil hne
    rw [String.intercalate_cons_cons, String.empty_append]
  rw [hpath]
  exact Path.pieces_ofPieces hslash (fun hroot => hne hroot.2)

/-- The path of a place leads to the place. -/
theorem landing_pathOf {place : Place} (h : ∀ name ∈ place, IsName name) (start : Place) :
    (pathOf place).landing start = place := by
  by_cases hne : place = []
  · subst hne
    rfl
  · have habsolute : (pathOf place).isAbsolute = true := by
      unfold Path.isAbsolute pathOf
      rw [String.toList_append]
      rfl
    change (pathOf place).pieces.foldl onward ((pathOf place).origin start) = place
    unfold Path.origin
    rw [if_pos habsolute, pieces_pathOf h hne, List.foldl_cons]
    exact foldl_onward_names h []

theorem trim_append_idle (pieces : List String) :
    ∃ idle, pieces = Path.trim pieces ++ idle ∧ ∀ piece ∈ idle, Path.isIdle piece = true := by
  refine ⟨(pieces.reverse.takeWhile Path.isIdle).reverse, ?_, fun piece hpiece => ?_⟩
  · unfold Path.trim
    rw [← List.reverse_append, List.takeWhile_append_dropWhile, List.reverse_reverse]
  · exact List.all_eq_true.mp List.all_takeWhile piece (List.mem_reverse.mp hpiece)

theorem isIdle_getLast?_trim {pieces : List String} {last : String}
    (h : (Path.trim pieces).getLast? = some last) : Path.isIdle last = false := by
  have hnot := List.head?_dropWhile_not Path.isIdle pieces.reverse
  unfold Path.trim at h
  rw [List.getLast?_reverse] at h
  rw [h] at hnot
  exact hnot

theorem foldl_onward_idle {idle : List String} (h : ∀ piece ∈ idle, Path.isIdle piece = true)
    (start : Place) : idle.foldl onward start = start := by
  induction idle with
  | nil => rfl
  | cons piece rest ih =>
    obtain ⟨hpiece, hrest⟩ := List.forall_mem_cons.mp h
    have hsame : onward start piece = start := by
      unfold onward
      rw [if_pos (by simpa [Path.isIdle] using hpiece)]
    rw [List.foldl_cons, hsame, ih hrest]

/-- The name of a path is its last piece that is not idle. -/
theorem fileName?_eq_some {p : Path} {name : String} (h : p.fileName? = some name) :
    (∃ front idle, p.pieces = front ++ name :: idle ∧ ∀ piece ∈ idle, Path.isIdle piece = true) ∧
      Path.isIdle name = false ∧ name ≠ ".." := by
  unfold Path.fileName? at h
  split at h
  case h_2 => cases h
  case h_1 above last hsplit =>
    split_ifs at h with hdots
    cases h
    obtain ⟨hdot, hlevel⟩ := not_or.mp hdots
    unfold Path.split? at hsplit
    split at hsplit
    case h_1 => cases hsplit
    case h_2 first rest hpieces =>
      obtain ⟨idle, hidle, hall⟩ := trim_append_idle rest
      split at hsplit
      case h_1 found hlast =>
        obtain ⟨-, rfl⟩ := Prod.mk.inj (Option.some.inj hsplit)
        obtain ⟨front, hfront⟩ := List.getLast?_eq_some_iff.mp hlast
        refine ⟨⟨first :: front, idle, ?_, hall⟩, isIdle_getLast?_trim hlast, hlevel⟩
        rw [hpieces, hidle, hfront]
        simp
      case h_2 hnone =>
        split_ifs at hsplit with hempty
        obtain ⟨-, rfl⟩ := Prod.mk.inj (Option.some.inj hsplit)
        rw [List.getLast?_eq_none_iff.mp hnone, List.nil_append] at hidle
        refine ⟨⟨[], idle, ?_, hall⟩, ?_, hlevel⟩
        · rw [hpieces, hidle, List.nil_append]
        · simp [Path.isIdle, hempty, hdot]

/-- A path with a name leads to a place of this name. -/
theorem landing_of_fileName {p : Path} {name : String} (h : p.fileName? = some name)
    (start : Place) : ∃ front, p.landing start = front ++ [name] := by
  obtain ⟨⟨front, idle, hpieces, hidle⟩, hactive, hlevel⟩ := fileName?_eq_some h
  refine ⟨front.foldl onward (p.origin start), ?_⟩
  change p.pieces.foldl onward (p.origin start) = _
  rw [hpieces, List.foldl_append, List.foldl_cons, onward_of_active hactive hlevel,
    foldl_onward_idle hidle]

theorem fileName?_pathOf {front : Place} {name : String}
    (h : ∀ piece ∈ front ++ [name], IsName piece) :
    (pathOf (front ++ [name])).fileName? = some name := by
  have hname : IsName name := h name (List.mem_append_right front (List.mem_singleton_self name))
  have htrim : Path.trim (front ++ [name]) = front ++ [name] := by
    unfold Path.trim
    rw [List.reverse_append, List.reverse_singleton, List.singleton_append,
      List.dropWhile_cons_of_neg (by rw [hname.active]; decide), List.reverse_cons,
      List.reverse_reverse]
  unfold Path.fileName? Path.split?
  rw [pieces_pathOf h (by simp)]
  dsimp only
  rw [htrim, List.getLast?_concat]
  dsimp only
  rw [if_neg (not_or.mpr ⟨hname.ne_dot, hname.level⟩)]

theorem get?_of_find {d : Disk} {p : Path} {node : Node} (h : d.find p = .ok node) :
    d.get? (p.landing d.here) = some node := by
  obtain ⟨place, hresolve, h⟩ := bind_eq_ok.mp h
  rw [← resolve_eq_ok hresolve]
  split at h
  case h_1 => cases h
  case h_2 hnode =>
    cases h
    exact hnode
  case h_3 content hnode =>
    split_ifs at h
    cases h
    exact hnode

theorem canonical_eq_ok {d : Disk} {p path : Path} (h : d.canonical p = .ok path) :
    ∃ node, d.find p = .ok node ∧ path = pathOf (p.landing d.here) := by
  obtain ⟨place, hresolve, h⟩ := bind_eq_ok.mp h
  obtain ⟨node, hnode, h⟩ := bind_eq_ok.mp h
  cases h
  exact ⟨node, hnode, by rw [resolve_eq_ok hresolve]⟩

/-- The canonical path leads to where the path leads. -/
theorem IsTree.landing_canonical {d : Disk} (h : d.IsTree) {p path : Path}
    (hpath : d.canonical p = .ok path) : path.landing d.here = p.landing d.here := by
  obtain ⟨node, hnode, rfl⟩ := canonical_eq_ok hpath
  exact landing_pathOf (fun name hname => h.isName (get?_of_find hnode) hname) _

/-- The canonical path of what a path with a name leads to has the same name. -/
theorem IsTree.fileName?_canonical {d : Disk} (h : d.IsTree) {p path : Path} {name : String}
    (hpath : d.canonical p = .ok path) (hname : p.fileName? = some name) :
    path.fileName? = some name := by
  obtain ⟨node, hfind, rfl⟩ := canonical_eq_ok hpath
  have hnode := get?_of_find hfind
  obtain ⟨front, hfront⟩ := landing_of_fileName hname d.here
  rw [hfront] at hnode ⊢
  exact fileName?_pathOf fun piece hpiece => h.isName hnode hpiece

end BlockScript.Disk
