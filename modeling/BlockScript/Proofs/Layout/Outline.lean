/-
  What users type does not change the layout.

  Two texts are spaced alike if, set at any depth and read in any line, they tell the same blanks
  and leave the same line (`Spaced`). Tokens of values and signatures start with a mark and never
  break a line, so any two of them are spaced alike, and so are the renderings of two projects of
  the same shape: corresponding targets have documents with the same number of lines and the same
  blanks in front of each, or the same fault (`targetText_sameOutline`).
-/
import BlockScript.Proofs.Graph.Shape
import BlockScript.Proofs.Layout.Printer
import BlockScript.Proofs.Text.Lines

namespace BlockScript.Script

open BlockScript.Results BlockScript.Text

/-- The same fault in a target of another name. -/
def Fault.within (f : Fault) (target : String) : Fault :=
  match f with
  | .missingBlock _ block opcode missing => .missingBlock target block opcode missing
  | .missingSignature _ block opcode gap => .missingSignature target block opcode gap

/-! ## Texts that are spaced alike -/

/-- Set at any depth and read in any line, the texts tell the same blanks. -/
def Spaced (a b : List Char) : Prop :=
  ∀ d l x, outlineFrom l (setAt d a ++ x) = outlineFrom l (setAt d b ++ x)

theorem congruence_spaced : Congruence Spaced := by
  constructor
  case refl => exact fun a d l x => rfl
  case append =>
    intro a b c e hab hce d l x
    rw [setAt_append, setAt_append, List.append_assoc, List.append_assoc, hab d l]
    exact outlineFrom_append_congr (fun l => hce d l x) _ l
  case setAt =>
    intro a b hab k d l x
    rw [setAt_setAt, setAt_setAt]
    exact hab (d + k) l x

theorem Spaced.outline_eq {a b : List Char} (h : Spaced a b) : outline a = outline b := by
  have hread := h 0 (.margin 0) []
  rw [setAt_zero, setAt_zero, List.append_nil, List.append_nil] at hread
  rw [Text.outline_eq, Text.outline_eq, hread]

/-- Text in one line that starts with a mark. -/
structure Marked (text : List Char) : Prop where
  head : ∃ c rest, text = c :: rest ∧ c ≠ ' '
  unbroken : '\n' ∉ text

/-- Any two such texts are spaced alike. -/
theorem Marked.spaced {a b : List Char} (ha : Marked a) (hb : Marked b) : Spaced a b := by
  intro d l x
  rw [setAt_of_not_mem ha.unbroken, setAt_of_not_mem hb.unbroken]
  obtain ⟨c, rest, rfl, hc⟩ := ha.head
  obtain ⟨c', rest', rfl, hc'⟩ := hb.head
  rw [outlineFrom_mark hc ha.unbroken, outlineFrom_mark hc' hb.unbroken]

theorem marked_of_printable {c : Char} {rest : List Char} (hc : c ≠ ' ')
    (h : Printable (c :: rest)) : Marked (c :: rest) :=
  ⟨⟨c, rest, rfl, hc⟩, h.newline_not_mem⟩

theorem marked_quoted (s : String) : Marked (quoted s) :=
  marked_of_printable (by decide) (printable_quoted s)

theorem marked_literalToken (v : Json.Document) : Marked (literalToken v) := by
  have hprintable := printable_literalToken v
  obtain ⟨c, rest, heq, hmem⟩ := literalToken_head v
  rw [heq] at hprintable ⊢
  refine marked_of_printable ?_ hprintable
  rintro rfl
  exact absurd hmem (by decide)

theorem printable_separator : Printable separator := by simp [separator]

theorem marked_placeLine (root : Block) : Marked (placeLine root) := by
  have hx := root.x.printable_text
  have hy := root.y.printable_text
  refine marked_of_printable (by decide) ?_
  show Printable (['@', '('] ++ root.x.text ++ separator ++ root.y.text ++ [')'])
  simp [hx, hy, printable_separator]

theorem marked_directive {name : String} {first second : List Char}
    (hn : Printable name.toList) (hfirst : Printable first) (hsecond : Printable second) :
    Marked (directive name first second) := by
  refine marked_of_printable (by decide) ?_
  show Printable ('#' :: name.toList ++ '(' :: (first ++ separator ++ second ++ [')', ';']))
  simp [hn, hfirst, hsecond, printable_separator]

theorem marked_declarationLine {name : String} (hn : Printable name.toList) (d : Declaration) :
    Marked (declarationLine name d) :=
  marked_directive hn (printable_quoted d.name) (Json.Value.printable_compact d.value)

/-! ## Documents of the same shape -/

section

variable {p q : Project} {t u : Target}

/-- Targets of the same shape have as many lines before their scripts, none of them broken. -/
theorem marked_preambleLines (h : t.SameShape u) :
    List.Forall₂ (fun a b => Marked a ∧ Marked b) (preambleLines t) (preambleLines u) := by
  have hdeclarations : ∀ name : String, Printable name.toList → ∀ ds es : List Declaration,
      ds.map Declaration.id = es.map Declaration.id →
        List.Forall₂ (fun a b => Marked a ∧ Marked b) (ds.map (declarationLine name))
          (es.map (declarationLine name)) := by
    intro name hn ds es hids
    rw [List.forall₂_map_left_iff, List.forall₂_map_right_iff]
    exact (forall₂_of_map_eq hids).imp fun d e _ =>
      ⟨marked_declarationLine hn d, marked_declarationLine hn e⟩
  have hcomment : Marked headComment := ⟨⟨'/', _, rfl, by decide⟩, by decide⟩
  have hmeta : ∀ t : Target,
      Marked (directive "meta" (Json.boolText t.isStage) (quoted t.name)) := fun t =>
    marked_directive (by simp) (Json.printable_boolText _) (printable_quoted _)
  refine .cons ⟨hcomment, hcomment⟩ (.cons ⟨hmeta t, hmeta u⟩ ?_)
  exact List.rel_append (hdeclarations "init_var" (by simp) _ _ h.variableIds)
    (hdeclarations "init_list" (by simp) _ _ h.listIds)

theorem spaced_preamble (h : t.SameShape u) :
    Spaced ((preambleLines t).flatMap (· ++ ['\n'])) ((preambleLines u).flatMap (· ++ ['\n'])) :=
  congruence_spaced.flatMap (marked_preambleLines h) fun _ _ hlines =>
    congruence_spaced.postpend (hlines.1.spaced hlines.2) _

theorem spaced_referenceToken (hp : p.SameShape q) (ht : t.SameShape u) (name id : String) :
    Spaced (referenceToken p t name id) (referenceToken q u name id) := by
  have hmonitor := Project.monitor?_rel hp.monitors id
  unfold referenceToken
  rw [ht.hasVariable id]
  generalize p.monitor? id = x at hmonitor ⊢
  generalize q.monitor? id = y at hmonitor ⊢
  cases hmonitor with
  | none => exact congruence_spaced.refl _
  | @some m n hmn =>
    have hparam := (marked_literalToken m.param).spaced (marked_literalToken n.param)
    dsimp only
    rw [hmn.opcode]
    exact congruence_spaced.prepend _
      (congruence_spaced.prepend ['('] (congruence_spaced.postpend hparam _))

theorem blocks_spaced (hp : p.SameShape q) (ht : t.SameShape u) {b c : Block}
    (h : b.SameShape c) : (Comparison.ofTexts Spaced).Blocks p q t u b c :=
  congruence_spaced.blocks (fun s s' => (marked_quoted s).spaced (marked_quoted s'))
    (spaced_referenceToken hp ht) h
    fun v _ w _ => (marked_literalToken v).spaced (marked_literalToken w)

theorem tables_spaced (hp : p.SameShape q) (ht : t.SameShape u) :
    (Comparison.ofTexts Spaced).Tables p q t u :=
  congruence_spaced.tables ht fun _ _ _ _ => blocks_spaced hp ht

/-- Documents of the same shape are spaced alike, or their first faults are the same. -/
theorem targetText_spaced (hp : p.SameShape q) (h : t.SameShape u) (ht : t.Acyclic)
    (hu : u.Acyclic) :
    (Comparison.ofTexts Spaced).Outcomes t u (fun a b => Spaced a.toList b.toList)
      (targetText p t) (targetText q u) := by
  have hscript : ∀ b c, b.SameShape c → (Comparison.ofTexts Spaced).Outcomes t u Spaced
      (scriptText p t b) (scriptText q u c) := by
    intro b c hbc
    have hparts := (tables_spaced hp h).scriptParts ht hu (blocks_spaced hp h hbc).roots
    exact hparts.map fun parts parts' hrel => congruence_spaced.scriptText
      ((marked_placeLine b).spaced (marked_placeLine c)) hbc.opcode hrel.header hrel.calls
  rw [targetText_eq, targetText_eq]
  refine (Comparison.Outcomes.mapM h.roots fun b _ c => hscript b c).map fun as bs hscripts => ?_
  rw [String.toList_ofList, String.toList_ofList, toList_preamble, toList_preamble,
    ← List.flatMap_id, ← List.flatMap_id]
  exact congruence_spaced.append (spaced_preamble h)
    (congruence_spaced.flatMap hscripts fun _ _ hscript => hscript)

/-- Two projects of the same shape lay their documents out alike: corresponding targets have the
    same lines up to what stands behind the margin, or the same fault. -/
theorem targetText_sameOutline (h : p.SameShape q) (htu : (t, u) ∈ p.targets.zip q.targets)
    (ht : t.Acyclic) (hu : u.Acyclic) :
    (∃ a b, targetText p t = .ok a ∧ targetText q u = .ok b ∧
        outline a.toList = outline b.toList) ∨
      ∃ f : Fault, targetText p t = .error (.fault f) ∧
        targetText q u = .error (.fault (f.within u.name)) := by
  have houtcomes := targetText_spaced h (List.forall₂_zip h.targets htu) ht hu
  generalize targetText p t = x at houtcomes ⊢
  generalize targetText q u = y at houtcomes ⊢
  cases houtcomes with
  | ok hspaced => exact .inl ⟨_, _, rfl, rfl, hspaced.outline_eq⟩
  | fault hfaults =>
    refine .inr ?_
    cases hfaults with
    | @missingBlock b c i j howners hids =>
      cases hids
      refine ⟨_, rfl, ?_⟩
      rw [Fault.within, show b.id = c.id from howners.id, howners.opcode]
    | @missingSignature b c howners gap =>
      refine ⟨_, rfl, ?_⟩
      rw [Fault.within, show b.id = c.id from howners.id, howners.opcode]

end

/-! ## One script with other texts -/

/-- A script that says a line in a loop and calls a procedure. What its user typed is left open. -/
def spoken (name line signature : String) (x : Json.Number) : Target where
  name := name
  isStage := false
  variableDecls := [⟨"v", name, .string line⟩]
  listDecls := []
  blocks := [
    { Block.bare "a" "when" (some "b") [] with topLevel := true, x := x },
    Block.bare "b" "loop" none [("BODY", .block "c")],
    { Block.bare "c" "say" (some "d") [("A", .literal (.string line)), ("B", .reference "n" "v")]
      with fields := [("F", .string line)] },
    { Block.bare "d" callOpcode none [] with mutation := some ⟨some signature⟩ }]

theorem sameShape_spoken (name line signature name' line' signature' : String)
    (x x' : Json.Number) :
    (spoken name line signature x).SameShape (spoken name' line' signature' x') where
  variableIds := rfl
  listIds := rfl
  blocks := by
    refine .cons ?_ (.cons ?_ (.cons ?_ (.cons ?_ .nil)))
    all_goals exact ⟨rfl, rfl, rfl, rfl, rfl, rfl, rfl⟩

theorem acyclic_spoken (name line signature : String) (x : Json.Number) :
    (spoken name line signature x).Acyclic := by
  refine Target.acyclic_of_measure
    (fun id => match id with | "a" => 3 | "b" => 2 | "c" => 1 | _ => 0) fun b hb => ?_
  simp only [spoken, List.mem_cons, List.not_mem_nil, or_false] at hb
  rcases hb with rfl | rfl | rfl | rfl <;> simp [Block.references, Block.slotBlocks, Input.block?,
    Block.bare]

def spokenPlainly : Target := spoken "S" "hello" "p" (.integer 7)

/-- Texts with line feeds, braces and quotes. -/
def spokenOddly : Target := spoken "\n\n" "\"\n    \x7d);\n" "\x7b\n" (.integer (-100))

theorem sameOutline_spoken :
    spokenPlainly.Acyclic ∧ spokenOddly.Acyclic ∧
      ∃ a b, targetText ⟨[spokenPlainly], []⟩ spokenPlainly = .ok a ∧
        targetText ⟨[spokenOddly], []⟩ spokenOddly = .ok b ∧
          outline a.toList = outline b.toList := by
  have hplain : spokenPlainly.Acyclic := acyclic_spoken _ _ _ _
  have hodd : spokenOddly.Acyclic := acyclic_spoken _ _ _ _
  have hshape : Project.SameShape ⟨[spokenPlainly], []⟩ ⟨[spokenOddly], []⟩ :=
    ⟨.cons (sameShape_spoken ..) .nil, .nil⟩
  refine ⟨hplain, hodd, (targetText_sameOutline hshape (List.mem_singleton_self _) hplain hodd)
    |>.resolve_right ?_⟩
  rintro ⟨f, hfault, -⟩
  have hok : (targetText ⟨[spokenPlainly], []⟩ spokenPlainly).isOk = true := by decide +kernel
  rw [hfault] at hok
  exact Bool.noConfusion hok

end BlockScript.Script
