/-
  Ids are never shown.

  Blocks refer to one another by ids, and slots and monitors to variables and lists by ids of their
  own. Other ids give the same document as long as no two of those that occur become one: the text
  is the same to the letter, and a fault names the same blocks under their new ids
  (`targetText_rename`). Which ids occur is said by `blockIds` and `dataIds`; what a renaming does to
  ids that do not occur is open.
-/
import BlockScript.Proofs.Graph.Shape
import Mathlib.Data.Set.Function

namespace BlockScript

open BlockScript.Results BlockScript.Text

/-! ## Other ids -/

section

variable (r s : String → String)

def Input.rename : Input → Input
  | .block id => .block (r id)
  | .reference name id => .reference name (s id)
  | other => other

def Block.rename (b : Block) : Block :=
  { b with
    id := r b.id
    next := b.next.map r
    inputs := b.inputs.map fun slot => (slot.1, slot.2.rename r s) }

def Declaration.rename (d : Declaration) : Declaration := { d with id := s d.id }

def Monitor.rename (m : Monitor) : Monitor := { m with id := s m.id }

/-- The target with its blocks renamed by `r`, and its variables and lists by `s`. -/
def Target.rename (t : Target) : Target :=
  { t with
    variableDecls := t.variableDecls.map (Declaration.rename s)
    listDecls := t.listDecls.map (Declaration.rename s)
    blocks := t.blocks.map (Block.rename r s) }

def Project.rename (p : Project) : Project where
  targets := p.targets.map (Target.rename r s)
  monitors := p.monitors.map (Monitor.rename s)

/-- The fault in the renamed target. -/
def Script.Fault.rename : Script.Fault → Script.Fault
  | .missingBlock target block opcode missing => .missingBlock target (r block) opcode (r missing)
  | .missingSignature target block opcode gap => .missingSignature target (r block) opcode gap

def Script.Halt.rename : Script.Halt → Script.Halt
  | .fault f => .fault (f.rename r)
  | .exhausted => .exhausted

end

/-- The ids of blocks that occur in a target, whether there is a block under them or not. -/
def Target.blockIds (t : Target) : Set String :=
  { id | ∃ b ∈ t.blocks, id = b.id ∨ id ∈ b.references }

/-- The ids of variables and lists that occur in a target of a project: in its declarations, in its
    slots and in the monitors. -/
def Target.dataIds (p : Project) (t : Target) : Set String :=
  { id | (∃ d ∈ t.variableDecls ++ t.listDecls, id = d.id) ∨ (∃ m ∈ p.monitors, id = m.id) ∨
    ∃ b ∈ t.blocks, ∃ slot ∈ b.inputs, ∃ name, slot.2 = .reference name id }

/-! ## What is found under the new ids -/

theorem find?_map_of_key {α : Type} (key : α → String) {f : α → α} {r : String → String}
    {l : List α} {id : String} (hkey : ∀ a, key (f a) = r (key a))
    (hr : ∀ a ∈ l, r (key a) = r id → key a = id) :
    (l.map f).find? (fun a => key a == r id) = (l.find? fun a => key a == id).map f := by
  rw [List.find?_map]
  congr 1
  induction l with
  | nil => rfl
  | cons a l ih =>
    have hfirst : ((fun a => key a == r id) ∘ f) a = (key a == id) := by
      show (key (f a) == r id) = (key a == id)
      rw [hkey, Bool.eq_iff_iff, beq_iff_eq, beq_iff_eq]
      exact ⟨hr a (List.mem_cons_self ..), congrArg r⟩
    rw [List.find?_cons, List.find?_cons, hfirst, ih fun b hb => hr b (List.mem_cons_of_mem a hb)]

namespace Target

variable {r s : String → String} {t : Target}

theorem id_mem_blockIds {b : Block} (hb : b ∈ t.blocks) : b.id ∈ t.blockIds := ⟨b, hb, .inl rfl⟩

theorem mem_blockIds_of_reference {b : Block} (hb : b ∈ t.blocks) {id : String}
    (hid : id ∈ b.references) : id ∈ t.blockIds := ⟨b, hb, .inr hid⟩

theorem block?_rename (hr : Set.InjOn r t.blockIds) {id : String} (hid : id ∈ t.blockIds) :
    (t.rename r s).block? (r id) = (t.block? id).map (Block.rename r s) :=
  find?_map_of_key Block.id (fun _ => rfl) fun _ hb heq => hr (id_mem_blockIds hb) hid heq

theorem roots_rename : (t.rename r s).roots = t.roots.map (Block.rename r s) := by
  unfold roots rename
  rw [List.filter_map]
  rfl

theorem slotBlocks_rename (b : Block) : (b.rename r s).slotBlocks = b.slotBlocks.map r := by
  unfold Block.slotBlocks Block.rename
  rw [List.filterMap_map, List.map_filterMap]
  congr 1
  funext slot
  show (slot.2.rename r s).block? = slot.2.block?.map r
  cases slot.2 <;> rfl

theorem references_rename (b : Block) : (b.rename r s).references = b.references.map r := by
  unfold Block.references
  rw [slotBlocks_rename, List.map_append]
  cases h : b.next <;> simp [Block.rename, h]

/-- A reference in the renamed target comes from one between ids that occur. -/
theorem refersTo_of_rename (hr : Set.InjOn r t.blockIds) {i j : String}
    (h : (t.rename r s).RefersTo i j) :
    ∃ k ∈ t.blockIds, ∃ l ∈ t.blockIds, i = r k ∧ j = r l ∧ t.RefersTo k l := by
  obtain ⟨c, hc, hj⟩ := h
  obtain ⟨b, hb, hbc⟩ := List.mem_map.mp (mem_blocks_of_block? hc)
  have hi : i = r b.id := by
    rw [← id_of_block? hc, ← hbc]
    rfl
  rw [hi, block?_rename hr (id_mem_blockIds hb), Option.map_eq_some_iff] at hc
  obtain ⟨found, hfound, rfl⟩ := hc
  rw [references_rename] at hj
  obtain ⟨l, hl, rfl⟩ := List.mem_map.mp hj
  exact ⟨b.id, id_mem_blockIds hb, l,
    mem_blockIds_of_reference (mem_blocks_of_block? hfound) hl, hi, rfl, found, hfound, hl⟩

theorem transGen_of_rename (hr : Set.InjOn r t.blockIds) {i j : String}
    (h : Relation.TransGen (t.rename r s).RefersTo i j) :
    ∃ k ∈ t.blockIds, ∃ l ∈ t.blockIds, i = r k ∧ j = r l ∧ Relation.TransGen t.RefersTo k l := by
  induction h with
  | single hij =>
    obtain ⟨k, hk, l, hl, hi, hj, hkl⟩ := refersTo_of_rename hr hij
    exact ⟨k, hk, l, hl, hi, hj, .single hkl⟩
  | tail _ hjm ih =>
    obtain ⟨k, hk, l, hl, hi, hj, hkl⟩ := ih
    obtain ⟨l', hl', m, hm, hj', hm', hlm⟩ := refersTo_of_rename hr hjm
    have hsame : l = l' := hr hl hl' (hj.symm.trans hj')
    exact ⟨k, hk, m, hm, hi, hm', hkl.tail (hsame ▸ hlm)⟩

/-- Renaming makes no circles. -/
theorem Acyclic.rename (h : t.Acyclic) (hr : Set.InjOn r t.blockIds) : (t.rename r s).Acyclic := by
  intro i hi
  obtain ⟨k, hk, l, hl, hik, hil, hkl⟩ := transGen_of_rename hr hi
  have hsame : k = l := hr hk hl (hik.symm.trans hil)
  exact h k (hsame ▸ hkl)

/-! ## Variables and monitors -/

variable {p : Project}

theorem hasVariable_rename (hs : Set.InjOn s (t.dataIds p)) {id : String} (hid : id ∈ t.dataIds p) :
    (t.rename r s).hasVariable (s id) = t.hasVariable id := by
  unfold hasVariable
  rw [Bool.eq_iff_iff, List.any_eq_true, List.any_eq_true]
  constructor
  · rintro ⟨d', hd', heq⟩
    obtain ⟨d, hd, rfl⟩ := List.mem_map.mp hd'
    have hdid : d.id ∈ t.dataIds p := .inl ⟨d, List.mem_append_left _ hd, rfl⟩
    exact ⟨d, hd, beq_iff_eq.mpr (hs hdid hid (eq_of_beq heq))⟩
  · rintro ⟨d, hd, heq⟩
    refine ⟨d.rename s, List.mem_map_of_mem hd, ?_⟩
    rw [← eq_of_beq heq]
    exact beq_self_eq_true _

theorem monitor?_rename (hs : Set.InjOn s (t.dataIds p)) {id : String} (hid : id ∈ t.dataIds p) :
    (p.rename r s).monitor? (s id) = (p.monitor? id).map (Monitor.rename s) := by
  refine find?_map_of_key Monitor.id (fun _ => rfl) fun m hm heq => ?_
  exact hs (.inr (.inl ⟨m, hm, rfl⟩)) hid heq

end Target

namespace Script

open Comparison

variable {p : Project} {t : Target} {r s : String → String}

theorem referenceToken_rename (hs : Set.InjOn s (t.dataIds p)) {id : String}
    (hid : id ∈ t.dataIds p) (name : String) :
    referenceToken (p.rename r s) (t.rename r s) name (s id) = referenceToken p t name id := by
  unfold referenceToken
  rw [Target.monitor?_rename hs hid, Target.hasVariable_rename hs hid]
  cases p.monitor? id <;> rfl

/-! ## The renamed target next to the first -/

/-- Ids that occur stand for their new ids, and texts for themselves. -/
def Comparison.ofRenaming (t : Target) (r : String → String) : Comparison where
  texts := Eq
  ids i j := j = r i ∧ i ∈ t.blockIds
  blames i j := j = r i

theorem arguments_rename (hs : Set.InjOn s (t.dataIds p)) {b : Block} (hb : b ∈ t.blocks) :
    (ofRenaming t r).Arguments p (p.rename r s) t (t.rename r s) b (b.rename r s) := by
  refine ⟨List.forall₂_same.mpr fun _ _ => rfl, ?_⟩
  show List.Forall₂ _ b.inputs (b.inputs.map _)
  rw [List.forall₂_map_right_iff]
  refine List.forall₂_same.mpr fun slot hslot => ⟨rfl, ?_⟩
  show (ofRenaming t r).Slots _ _ _ _ slot.2 (slot.2.rename r s)
  cases hi : slot.2 with
  | empty => exact .empty rfl
  | literal v => exact .literal rfl
  | reference name id =>
    have hid : id ∈ t.dataIds p := .inr (.inr ⟨b, hb, slot, hslot, name, hi⟩)
    exact .reference (referenceToken_rename hs hid name).symm
  | block id =>
    have hid := b.mem_references_of_slot (b.mem_slotBlocks hslot hi)
    exact .block ⟨rfl, Target.mem_blockIds_of_reference hb hid⟩

theorem blocks_rename (hs : Set.InjOn s (t.dataIds p)) {b : Block} (hb : b ∈ t.blocks) :
    (ofRenaming t r).Blocks p (p.rename r s) t (t.rename r s) b (b.rename r s) := by
  refine ⟨⟨rfl, rfl⟩, arguments_rename hs hb, ?_, ?_, fun tokens tokens' hrel => ?_⟩
  · show Option.Rel _ b.next (b.next.map r)
    cases hn : b.next with
    | none => exact .none
    | some next =>
      exact .some ⟨rfl, Target.mem_blockIds_of_reference hb (b.mem_references_of_next hn)⟩
  · show Option.Rel _ b.proccode? b.proccode?
    cases b.proccode? with
    | none => exact .none
    | some signature => exact .some rfl
  · rw [eq_of_forall₂_eq tokens tokens' hrel]
    rfl

theorem tables_rename (hr : Set.InjOn r t.blockIds) (hs : Set.InjOn s (t.dataIds p)) :
    (ofRenaming t r).Tables p (p.rename r s) t (t.rename r s) := by
  constructor
  · rintro i j ⟨rfl, hi⟩
    rw [Target.block?_rename hr hi]
    cases hb : t.block? i with
    | none => exact .none
    | some b => exact .some (blocks_rename hs (Target.mem_blocks_of_block? hb))
  · intro calls calls' hrel
    rw [eq_of_forall₂_eq calls calls' hrel]
    rfl

theorem Comparison.Outcomes.eq_mapError {u : Target} (hname : u.name = t.name) {α : Type}
    {x y : Except Halt α} (h : (ofRenaming t r).Outcomes t u Eq x y) :
    y = x.mapError (Halt.rename r) := by
  cases h with
  | ok hab => rw [hab]; rfl
  | fault hfaults =>
    cases hfaults with
    | @missingBlock b c i j howners hids =>
      rw [hname, hids.1, ← howners.opcode, show c.id = r b.id from howners.id]
      rfl
    | @missingSignature b c howners gap =>
      rw [hname, ← howners.opcode, show c.id = r b.id from howners.id]
      rfl

theorem preamble_rename : preamble (t.rename r s) = preamble t := by
  unfold preamble Target.rename
  rw [List.map_map, List.map_map]
  rfl

theorem scriptText_rename (ht : t.Acyclic) (hr : Set.InjOn r t.blockIds)
    (hs : Set.InjOn s (t.dataIds p)) {root : Block} (hroot : root ∈ t.blocks) :
    (ofRenaming t r).Outcomes t (t.rename r s) Eq (scriptText p t root)
      (scriptText (p.rename r s) (t.rename r s) (root.rename r s)) := by
  have hparts := (tables_rename hr hs).scriptParts ht (ht.rename hr) (blocks_rename hs hroot).roots
  refine hparts.map fun parts parts' hrel => ?_
  unfold Parts.text
  rw [eq_of_forall₂_eq _ _ hrel.header, eq_of_forall₂_eq _ _ hrel.calls]
  rfl

/-- Other ids give the same document, or the same fault under the other ids. -/
theorem targetText_rename (p : Project) (t : Target) (ht : t.Acyclic) (r s : String → String)
    (hr : Set.InjOn r t.blockIds) (hs : Set.InjOn s (t.dataIds p)) :
    targetText (p.rename r s) (t.rename r s) = (targetText p t).mapError (Halt.rename r) := by
  have hroots : List.Forall₂ (fun b c => c = b.rename r s) t.roots (t.rename r s).roots := by
    rw [Target.roots_rename, List.forall₂_map_right_iff]
    exact List.forall₂_same.mpr fun _ _ => rfl
  have hscripts := Comparison.Outcomes.mapM hroots fun b hb c hc => by
    rw [hc]
    exact scriptText_rename ht hr hs (List.mem_of_mem_filter hb)
  refine Comparison.Outcomes.eq_mapError (t := t) (u := t.rename r s) rfl ?_
  rw [targetText_eq, targetText_eq, preamble_rename]
  exact hscripts.map fun as bs hrel => by rw [eq_of_forall₂_eq as bs hrel]

/-! ## Ids with something put in front -/

/-- A script that says a watched variable and one that is not. -/
def watchedAndBare : Target where
  name := "S"
  isStage := false
  variableDecls := [⟨"v", "n", .null⟩, ⟨"w", "m", .null⟩]
  listDecls := []
  blocks := [
    { Block.bare "a" "when" (some "b") [] with topLevel := true },
    Block.bare "b" "say" none [("A", .reference "n" "v"), ("B", .reference "m" "w")]]

/-- A script that goes on in a block which is not there. -/
def endsNowhere : Target where
  name := "T"
  isStage := false
  variableDecls := []
  listDecls := []
  blocks := [{ Block.bare "a" "when" (some "ghost") [] with topLevel := true }]

/-- A project with both scripts and a monitor. -/
def twoScripts : Project :=
  ⟨[watchedAndBare, endsNowhere], [⟨"v", none, "show", [("VARIABLE", .string "n")]⟩]⟩

theorem acyclic_watchedAndBare : watchedAndBare.Acyclic :=
  Target.acyclic_of_measure (fun id => match id with | "a" => 1 | _ => 0) (by decide)

theorem acyclic_endsNowhere : endsNowhere.Acyclic :=
  Target.acyclic_of_measure (fun id => match id with | "a" => 1 | _ => 0) (by decide)

theorem injective_append (front : String) : Function.Injective (front ++ ·) := by
  intro a b hab
  exact String.append_right_inj front |>.mp hab

theorem targetText_twoScripts_renamed :
    watchedAndBare.Acyclic ∧ endsNowhere.Acyclic ∧
    Function.Injective ("block " ++ ·) ∧ Function.Injective ("data " ++ ·) ∧
    targetText (twoScripts.rename ("block " ++ ·) ("data " ++ ·))
        (watchedAndBare.rename ("block " ++ ·) ("data " ++ ·)) =
      .ok ("\n".intercalate ["// Generate by scratch-script", "#meta(false, \"S\");",
        "#init_var(\"n\", null);", "#init_var(\"m\", null);", "@(0, 0)", "when(\x7b",
        "    say(show(\"n\"), data_variablem);", "\x7d);", ""]) ∧
    targetText (twoScripts.rename ("block " ++ ·) ("data " ++ ·))
        (endsNowhere.rename ("block " ++ ·) ("data " ++ ·)) =
      .error (.fault (.missingBlock "T" "block a" "when" "block ghost")) := by
  refine ⟨acyclic_watchedAndBare, acyclic_endsNowhere, injective_append _, injective_append _, ?_,
    ?_⟩
  · rw [targetText_rename twoScripts watchedAndBare acyclic_watchedAndBare _ _
      (injective_append _).injOn (injective_append _).injOn]
    decide +kernel
  · rw [targetText_rename twoScripts endsNowhere acyclic_endsNowhere _ _
      (injective_append _).injOn (injective_append _).injOn]
    decide +kernel

end Script

end BlockScript
