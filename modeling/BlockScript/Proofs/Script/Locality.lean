/-
  What a document depends on.

  Of a block table only the roots, the blocks under followed ids and the prototypes of definitions
  are looked at, and of the variables and monitors only those that the slots of rendered blocks
  mention. Two targets that agree on these have the same result, a fault included
  (`AgreesOnRendered.targetText_eq`). So nothing comes from other targets, from the order of the
  table, from blocks that nothing reached names, or from monitors that are shadowed or mentioned
  nowhere (`targetText_local`).
-/
import BlockScript.Proofs.Graph.WellFormed
import BlockScript.Proofs.Script.Comparison

namespace BlockScript

open BlockScript.Results BlockScript.Script BlockScript.Text

namespace Target

/-! ## What is looked at -/

/-- The blocks whose slots are rendered: roots that are no definitions, and all that are followed. -/
inductive Rendered (t : Target) : Block → Prop
  | root {b : Block} (hr : b ∈ t.roots) (hop : b.opcode ≠ definitionOpcode) : Rendered t b
  | followed {id : String} {b : Block} (hid : t.Followed Block.references id)
    (hb : t.block? id = some b) : Rendered t b

/-- Whether a rendered slot holds the variable or the list of an id. -/
def Mentions (t : Target) (id : String) : Prop :=
  ∃ b, t.Rendered b ∧ ∃ slot ∈ b.inputs, ∃ name, slot.2 = .reference name id

/-- Whether the block of an id is looked up: it is followed, or the prototype of a definition. -/
def LooksUp (t : Target) (id : String) : Prop :=
  t.Followed Block.references id ∨
    ∃ root ∈ t.roots, root.opcode = definitionOpcode ∧ root.inputBlock? prototypeSlot = some id

theorem Rendered.followed_of_slot {t : Target} {b : Block} (h : t.Rendered b) {id : String}
    (hid : id ∈ b.slotBlocks) : t.Followed Block.references id := by
  cases h with
  | root hr hop =>
    refine .root hr (List.mem_append_right _ ?_)
    rw [if_neg hop]
    exact hid
  | followed hi hb => exact .nested hi hb (b.mem_references_of_slot hid)

/-- The blocks of a table that count for a target: those that start a script, and those under an id
    that is looked up. -/
noncomputable def essential (t : Target) (blocks : List Block) : List Block :=
  open Classical in blocks.filter fun b => b.topLevel = true ∨ t.LooksUp b.id

theorem filter_topLevel_essential (t : Target) (blocks : List Block) :
    (t.essential blocks).filter (·.topLevel) = blocks.filter (·.topLevel) := by
  classical
  unfold essential
  rw [List.filter_filter]
  refine List.filter_congr fun b _ => ?_
  cases b.topLevel <;> simp

theorem find?_essential {t : Target} {id : String} (h : t.LooksUp id) (blocks : List Block) :
    (t.essential blocks).find? (·.id == id) = blocks.find? (·.id == id) := by
  classical
  unfold essential
  rw [List.find?_filter]
  congr 1
  funext b
  by_cases hb : b.id = id
  · simp [hb, h]
  · simp [hb]

/-- Targets of two projects that agree on all that is rendered of the first. -/
structure AgreesOnRendered (p q : Project) (t u : Target) : Prop extends t.AgreesOnFollowed u where
  name : u.name = t.name
  isStage : u.isStage = t.isStage
  declaredVariables : (u.variableDecls.map fun d => (d.name, d.value)) =
    t.variableDecls.map fun d => (d.name, d.value)
  declaredLists : (u.listDecls.map fun d => (d.name, d.value)) =
    t.listDecls.map fun d => (d.name, d.value)
  monitors : ∀ id, t.Mentions id → q.monitor? id = p.monitor? id
  unmonitored : ∀ id, t.Mentions id → p.monitor? id = none → u.hasVariable id = t.hasVariable id

end Target

namespace Script

/-! ## The same result -/

/-- Followed ids stand for themselves, and so do texts and blamed blocks. -/
def Comparison.ofFollowed (t : Target) : Comparison where
  texts := Eq
  ids i j := i = j ∧ t.Followed Block.references i
  blames := Eq

theorem Comparison.Outcomes.eq_of_ofFollowed {t u : Target} (hname : u.name = t.name) {α : Type}
    {R : α → α → Prop} (hR : ∀ a b, R a b → a = b) {x y : Except Halt α}
    (h : (ofFollowed t).Outcomes t u R x y) : y = x := by
  cases h with
  | ok hab => rw [hR _ _ hab]
  | fault hfaults =>
    cases hfaults with
    | @missingBlock b c i j howners hids =>
      rw [hname, ← hids.1, ← howners.opcode, show c.id = b.id from howners.id.symm]
    | @missingSignature b c howners gap =>
      rw [hname, ← howners.opcode, show c.id = b.id from howners.id.symm]

theorem declarationLines_congr (name : String) {ds es : List Declaration}
    (h : (es.map fun d => (d.name, d.value)) = ds.map fun d => (d.name, d.value)) :
    es.map (declarationLine name) = ds.map (declarationLine name) := by
  have hline : declarationLine name =
      (fun part => directive name (quoted part.1) part.2.compact) ∘ fun d => (d.name, d.value) := rfl
  rw [hline, ← List.map_map, ← List.map_map, h]

end Script

namespace Target.AgreesOnRendered

open BlockScript.Script.Comparison

variable {p q : Project} {t u : Target} (h : t.AgreesOnRendered p q u)

include h

theorem referenceToken_eq {id : String} (hid : t.Mentions id) (name : String) :
    referenceToken q u name id = referenceToken p t name id := by
  unfold referenceToken
  rw [h.monitors id hid]
  cases hm : p.monitor? id with
  | some monitor => rfl
  | none => rw [h.unmonitored id hid hm]

/-- The slots of a rendered block stand for themselves. -/
theorem arguments {b : Block} (hb : t.Rendered b) : (ofFollowed t).Arguments p q t u b b := by
  refine ⟨List.forall₂_same.mpr fun _ _ => rfl, List.forall₂_same.mpr fun slot hs => ⟨rfl, ?_⟩⟩
  cases hi : slot.2 with
  | empty => exact .empty rfl
  | literal v => exact .literal rfl
  | reference name id => exact .reference (h.referenceToken_eq ⟨b, hb, slot, hs, name, hi⟩ name).symm
  | block id => exact .block ⟨rfl, hb.followed_of_slot (b.mem_slotBlocks hs hi)⟩

theorem tables : (ofFollowed t).Tables p q t u := by
  constructor
  · rintro i j ⟨rfl, hi⟩
    rw [h.followed i hi]
    cases hb : t.block? i with
    | none => exact .none
    | some b =>
      refine .some ⟨⟨rfl, rfl⟩, h.arguments (.followed hi hb), ?_, ?_, fun tokens tokens' hrel => ?_⟩
      · cases hn : b.next with
        | none => exact .none
        | some next => exact .some ⟨rfl, .nested hi hb (b.mem_references_of_next hn)⟩
      · cases b.proccode? with
        | none => exact .none
        | some signature => exact .some rfl
      · rw [eq_of_forall₂_eq tokens tokens' hrel]
        rfl
  · intro calls calls' hrel
    rw [eq_of_forall₂_eq calls calls' hrel]
    rfl

theorem definedSignature_eq {root : Block} (hr : root ∈ t.roots)
    (hop : root.opcode = definitionOpcode) :
    definedSignature u root = definedSignature t root := by
  unfold definedSignature
  rw [h.name]
  cases hi : root.inputBlock? prototypeSlot with
  | none => rfl
  | some id =>
    have hlookup : lookup u (some root) id = lookup t (some root) id := by
      unfold lookup
      rw [h.prototypes root hr hop id hi, h.name]
    dsimp only
    rw [hlookup]

theorem headerTokens_eq (ht : t.Acyclic) (hu : u.Acyclic) {root : Block} (hr : root ∈ t.roots) :
    headerTokens q u root = headerTokens p t root := by
  unfold headerTokens
  split
  case isTrue hop => rw [h.definedSignature_eq hr hop]
  case isFalse hop =>
    have houtcomes := h.tables.argumentTokens ⟨rfl, rfl⟩ (h.arguments (.root hr hop))
      fun i _ => h.tables.renders ht hu i
    exact houtcomes.eq_of_ofFollowed h.name eq_of_forall₂_eq

theorem bodyCalls_eq (ht : t.Acyclic) (hu : u.Acyclic) {root : Block} (hr : root ∈ t.roots) :
    bodyCalls q u root = bodyCalls p t root := by
  have hnext : Option.Rel (ofFollowed t).ids root.next root.next := by
    cases hn : root.next with
    | none => exact .none
    | some next =>
      refine .some ⟨rfl, .root hr (List.mem_append_left _ ?_)⟩
      rw [hn]
      exact List.mem_singleton_self next
  have houtcomes := bodyCalls_outcomes ⟨rfl, rfl⟩ hnext fun i _ => h.tables.renders ht hu i
  exact houtcomes.eq_of_ofFollowed h.name eq_of_forall₂_eq

theorem preamble_eq : preamble u = preamble t := by
  unfold preamble
  rw [h.name, h.isStage, declarationLines_congr _ h.declaredVariables,
    declarationLines_congr _ h.declaredLists]

/-- Agreeing targets without circles have the same document, or the same first fault. -/
theorem targetText_eq (ht : t.Acyclic) (hu : u.Acyclic) : targetText q u = targetText p t := by
  have hscript : ∀ root ∈ t.roots, scriptText q u root = scriptText p t root := by
    intro root hr
    unfold scriptText scriptParts
    rw [h.headerTokens_eq ht hu hr, h.bodyCalls_eq ht hu hr]
  rw [Script.targetText_eq, Script.targetText_eq, h.roots, mapM_congr hscript, h.preamble_eq]

end Target.AgreesOnRendered

/-! ## What has no say -/

namespace Target

/-- In a table without repeated ids every block is found under its own. -/
theorem block?_eq_some_iff {t : Target} (hn : (t.blocks.map Block.id).Nodup) {id : String}
    {b : Block} : t.block? id = some b ↔ b ∈ t.blocks ∧ b.id = id := by
  constructor
  · intro h
    exact ⟨mem_blocks_of_block? h, id_of_block? h⟩
  · rintro ⟨hb, rfl⟩
    obtain ⟨c, hc⟩ : ∃ c, t.block? b.id = some c := by
      apply Option.isSome_iff_exists.mp
      exact List.find?_isSome.mpr ⟨b, hb, beq_self_eq_true _⟩
    rw [hc, List.inj_on_of_nodup_map hn (mem_blocks_of_block? hc) hb (id_of_block? hc)]

theorem block?_of_perm {t : Target} {blocks : List Block} (hn : (t.blocks.map Block.id).Nodup)
    (hp : blocks.Perm t.blocks) (id : String) :
    { t with blocks }.block? id = t.block? id := by
  have hn' : (({ t with blocks } : Target).blocks.map Block.id).Nodup :=
    (hp.map Block.id).nodup_iff.mpr hn
  ext b
  rw [block?_eq_some_iff hn, block?_eq_some_iff hn', hp.mem_iff]

/-- Whether there is a circle is a matter of what is found under the ids. -/
theorem Acyclic.congr {t u : Target} (h : ∀ id, u.block? id = t.block? id) (ht : t.Acyclic) :
    u.Acyclic := by
  have hrefers : u.RefersTo = t.RefersTo := by
    funext i j
    unfold RefersTo
    rw [h i]
  unfold Acyclic
  rw [hrefers]
  exact ht

/-- With another block table a target agrees with itself if the roots are the same and so is what is
    found under the ids that are looked up. -/
theorem agrees_of_blocks {p : Project} {t : Target} {blocks : List Block}
    (hroots : blocks.filter (·.topLevel) = t.roots)
    (hblocks : ∀ id, t.LooksUp id → { t with blocks }.block? id = t.block? id) :
    t.AgreesOnRendered p p { t with blocks } where
  roots := hroots
  followed id hid := hblocks id (.inl hid)
  prototypes root hr hop id hi := hblocks id (.inr ⟨root, hr, hop, hi⟩)
  name := rfl
  isStage := rfl
  declaredVariables := rfl
  declaredLists := rfl
  monitors _ _ := rfl
  unmonitored _ _ _ := rfl

/-- A target agrees with itself in projects that have the same monitors of what it mentions. -/
theorem agrees_of_monitors {p q : Project} {t : Target}
    (h : ∀ id, t.Mentions id → q.monitor? id = p.monitor? id) : t.AgreesOnRendered p q t where
  roots := rfl
  followed _ _ := rfl
  prototypes _ _ _ _ _ := rfl
  name := rfl
  isStage := rfl
  declaredVariables := rfl
  declaredLists := rfl
  monitors := h
  unmonitored _ _ _ := rfl

end Target

/-- Monitors behind one of the same id are never found. -/
theorem monitor?_of_shadowed {p q : Project} {before extra after : List Monitor}
    (hp : p.monitors = before ++ after) (hq : q.monitors = before ++ extra ++ after) {id : String}
    (h : ∀ m ∈ extra, m.id = id → ∃ m' ∈ before, m'.id = id) : q.monitor? id = p.monitor? id := by
  unfold Project.monitor?
  rw [hp, hq, List.append_assoc, List.find?_append, List.find?_append, List.find?_append]
  cases hb : before.find? (·.id == id) with
  | some m => rfl
  | none =>
    have hextra : extra.find? (·.id == id) = none := by
      rw [List.find?_eq_none]
      intro m hm hid
      obtain ⟨m', hm', hid'⟩ := h m hm (eq_of_beq hid)
      exact List.find?_eq_none.mp hb m' hm' (beq_iff_eq.mpr hid')
    rw [hextra]
    rfl

namespace Script

/-- The result for a target without circles depends on what is rendered of it and on nothing else:
    not on the other targets, not on the order of the table, not on blocks that start no script and
    whose ids are not looked up, and not on monitors that are shadowed or mentioned nowhere. -/
theorem targetText_local (p : Project) (t : Target) (ht : t.Acyclic) :
    (∀ q u, u.Acyclic → t.AgreesOnRendered p q u → targetText q u = targetText p t) ∧
    (∀ (targets : List Target) (i : Nat), targets[i]? = some t →
      (outputs ⟨targets, p.monitors⟩)[i]? = some ⟨t.name, targetText p t⟩) ∧
    (∀ blocks, (t.blocks.map Block.id).Nodup → blocks.Perm t.blocks →
      blocks.filter (·.topLevel) = t.roots → targetText p { t with blocks } = targetText p t) ∧
    (∀ blocks, t.essential blocks = t.essential t.blocks → { t with blocks }.Acyclic →
      targetText p { t with blocks } = targetText p t) ∧
    (∀ before extra after, p.monitors = before ++ after →
      (∀ m ∈ extra, (∃ m' ∈ before, m'.id = m.id) ∨ ¬ t.Mentions m.id) →
        targetText { p with monitors := before ++ extra ++ after } t = targetText p t) := by
  refine ⟨fun q u hu hagree => hagree.targetText_eq ht hu, fun targets i hi => ?_,
    fun blocks hn hp hroots => ?_, fun blocks hsame hu => ?_, fun before extra after hp hextra => ?_⟩
  · have hagree : t.AgreesOnRendered p ⟨targets, p.monitors⟩ t :=
      Target.agrees_of_monitors fun _ _ => rfl
    unfold outputs
    rw [List.getElem?_map, hi, Option.map_some, hagree.targetText_eq ht ht]
  · have hblocks := Target.block?_of_perm hn hp
    exact (Target.agrees_of_blocks hroots fun id _ => hblocks id).targetText_eq ht
      (ht.congr hblocks)
  · refine (Target.agrees_of_blocks ?_ fun id hid => ?_).targetText_eq ht hu
    · rw [← t.filter_topLevel_essential, hsame, t.filter_topLevel_essential]
      rfl
    · unfold Target.block?
      rw [← Target.find?_essential hid blocks, hsame, Target.find?_essential hid]
  · refine (Target.agrees_of_monitors fun id hid => ?_).targetText_eq ht ht
    refine monitor?_of_shadowed hp rfl fun m hm hmid => ?_
    rw [← hmid] at hid ⊢
    exact (hextra m hm).resolve_right (absurd hid)

/-! ## Two crowded targets -/

/-- A monitor of a variable. -/
def watch (id opcode : String) : Monitor where
  id := id
  kind := none
  opcode := opcode
  params := [("VARIABLE", .string id)]

/-- A root that says a variable which is watched. -/
def sayingRoot : Block :=
  { Block.bare "a" "when" (some "b") [("A", .reference "n" "v")] with topLevel := true }

/-- What follows the root. -/
def saidLast : Block := Block.bare "b" "say" none [("B", .reference "m" "w")]

/-- Two blocks of a script and one that nothing leads to. -/
def crowded : Target where
  name := "S"
  isStage := false
  variableDecls := [⟨"v", "n", .null⟩, ⟨"w", "m", .null⟩]
  listDecls := []
  blocks := [sayingRoot, Block.bare "x" callOpcode (some "ghost") [], saidLast]

/-- The same script in another order, next to other blocks, the watched variable under another id. -/
def rearranged : Target where
  name := "S"
  isStage := false
  variableDecls := [⟨"u", "n", .null⟩, ⟨"w", "m", .null⟩]
  listDecls := []
  blocks := [saidLast, Block.bare "x" "stop" (some "y") [], sayingRoot, Block.bare "y" "z" none []]

theorem acyclic_crowded : crowded.Acyclic :=
  Target.acyclic_of_measure (fun id => match id with | "a" => 1 | "x" => 1 | _ => 0) (by decide)

theorem acyclic_rearranged : rearranged.Acyclic :=
  Target.acyclic_of_measure (fun id => match id with | "a" => 1 | "x" => 1 | _ => 0) (by decide)

theorem roots_crowded : crowded.roots = [sayingRoot] := rfl

theorem followed_crowded {id : String} (h : crowded.Followed Block.references id) : id = "b" := by
  induction h with
  | root hr hi =>
    rw [roots_crowded, List.mem_singleton] at hr
    subst hr
    exact List.mem_singleton.mp hi
  | nested _ hb hj ih =>
    subst ih
    cases hb
    exact absurd hj List.not_mem_nil

theorem mentions_crowded {id : String} (h : crowded.Mentions id) : id = "v" ∨ id = "w" := by
  obtain ⟨b, hb, slot, hs, name, hslot⟩ := h
  cases hb with
  | root hr hop =>
    rw [roots_crowded, List.mem_singleton] at hr
    subst hr
    cases List.mem_singleton.mp hs
    cases hslot
    exact .inl rfl
  | followed hid hb =>
    cases followed_crowded hid
    cases hb
    cases List.mem_singleton.mp hs
    cases hslot
    exact .inr rfl

theorem agrees_rearranged :
    crowded.AgreesOnRendered ⟨[crowded], [watch "v" "show"]⟩
      ⟨[rearranged, crowded], [watch "v" "show", watch "v" "hide", watch "z" "hide"]⟩
      rearranged where
  roots := rfl
  followed id hid := by
    rw [followed_crowded hid]
    rfl
  prototypes root hr hop id hi := by
    rw [roots_crowded, List.mem_singleton] at hr
    subst hr
    exact absurd hop (by decide)
  name := rfl
  isStage := rfl
  declaredVariables := rfl
  declaredLists := rfl
  monitors id hid := by
    rcases mentions_crowded hid with rfl | rfl <;> rfl
  unmonitored id hid hnone := by
    rcases mentions_crowded hid with rfl | rfl
    · exact absurd hnone (by simp [Project.monitor?, watch])
    · rfl

theorem targetText_rearranged :
    crowded.Acyclic ∧ rearranged.Acyclic ∧
      targetText ⟨[rearranged, crowded], [watch "v" "show", watch "v" "hide", watch "z" "hide"]⟩
          rearranged =
        targetText ⟨[crowded], [watch "v" "show"]⟩ crowded :=
  ⟨acyclic_crowded, acyclic_rearranged,
    (targetText_local _ crowded acyclic_crowded).1 _ _ acyclic_rearranged agrees_rearranged⟩

end Script

end BlockScript
