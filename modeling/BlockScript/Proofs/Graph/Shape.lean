/-
  Projects of the same shape.

  Two projects have the same shape if they differ only in what their users typed and placed: names
  of targets, names and values of declarations, values of fields and literals, signatures,
  coordinates, and what monitors watch. Ids, opcodes, links, slots and bare references are the same,
  and a signature is there in both or in neither.

  A relation of texts that goes through concatenation and setting at a depth (`Congruence`) compares
  two targets of the same shape as soon as it holds between the tokens of values, signatures and
  references (`Congruence.tables`).
-/
import BlockScript.Proofs.Script.Comparison

namespace BlockScript

/-- An input without the value of a literal. -/
def Input.shape : Input → Input
  | .literal _ => .literal .null
  | other => other

structure Block.SameShape (b c : Block) : Prop where
  id : b.id = c.id
  opcode : b.opcode = c.opcode
  next : b.next = c.next
  topLevel : b.topLevel = c.topLevel
  fields : b.fields.map Prod.fst = c.fields.map Prod.fst
  inputs : (b.inputs.map fun slot => (slot.1, slot.2.shape)) =
    c.inputs.map fun slot => (slot.1, slot.2.shape)
  proccode : b.proccode?.isSome = c.proccode?.isSome

structure Target.SameShape (t u : Target) : Prop where
  variableIds : t.variableDecls.map Declaration.id = u.variableDecls.map Declaration.id
  listIds : t.listDecls.map Declaration.id = u.listDecls.map Declaration.id
  blocks : List.Forall₂ Block.SameShape t.blocks u.blocks

structure Monitor.SameShape (m n : Monitor) : Prop where
  id : m.id = n.id
  kind : m.kind = n.kind
  opcode : m.opcode = n.opcode

structure Project.SameShape (p q : Project) : Prop where
  targets : List.Forall₂ Target.SameShape p.targets q.targets
  monitors : List.Forall₂ Monitor.SameShape p.monitors q.monitors

/-- The values that a block carries: those of its fields and of its literals. -/
def Block.values (b : Block) : List Json.Document :=
  b.fields.map Prod.snd ++ b.inputs.filterMap fun slot =>
    match slot.2 with
    | .literal v => some v
    | _ => none

theorem Block.mem_values_of_field {b : Block} {field : String × Json.Document}
    (h : field ∈ b.fields) : field.2 ∈ b.values :=
  List.mem_append_left _ (List.mem_map_of_mem h)

theorem Block.mem_values_of_slot {b : Block} {slot : String × Input} {v : Json.Document}
    (h : slot ∈ b.inputs) (hv : slot.2 = .literal v) : v ∈ b.values :=
  List.mem_append_right _ (List.mem_filterMap.mpr ⟨slot, h, by rw [hv]⟩)

/-! ## What the shape decides -/

section

variable {α β : Type} {R : α → β → Prop} {as : List α} {bs : List β}

theorem forall₂_of_map_eq {γ : Type} {f : α → γ} {g : β → γ} (h : as.map f = bs.map g) :
    List.Forall₂ (fun a b => f a = g b) as bs := by
  rw [← List.forall₂_eq_eq_eq, List.forall₂_map_left_iff, List.forall₂_map_right_iff] at h
  exact h

theorem forall₂_mem (h : List.Forall₂ R as bs) :
    List.Forall₂ (fun a b => R a b ∧ a ∈ as ∧ b ∈ bs) as bs := by
  induction h with
  | nil => exact .nil
  | cons hab _ ih =>
    refine .cons ⟨hab, List.mem_cons_self .., List.mem_cons_self ..⟩ (ih.imp fun a b hmem => ?_)
    exact ⟨hmem.1, List.mem_cons_of_mem _ hmem.2.1, List.mem_cons_of_mem _ hmem.2.2⟩

theorem exists_of_forall₂ (h : List.Forall₂ R as bs) {a : α} (ha : a ∈ as) : ∃ b ∈ bs, R a b := by
  induction h with
  | nil => cases ha
  | @cons c d _ _ hcd _ ih =>
    rcases List.mem_cons.mp ha with rfl | ha
    · exact ⟨d, List.mem_cons_self .., hcd⟩
    · obtain ⟨b, hb, hab⟩ := ih ha
      exact ⟨b, List.mem_cons_of_mem d hb, hab⟩

theorem rel_of_isSome_eq {a : Option α} {b : Option β} (h : a.isSome = b.isSome)
    (hR : ∀ x y, R x y) : Option.Rel R a b := by
  cases a with
  | none => cases b with
    | none => exact .none
    | some y => cases h
  | some x => cases b with
    | none => cases h
    | some y => exact .some (hR x y)

theorem find?_rel {f : α → Bool} {g : β → Bool} (h : List.Forall₂ R as bs)
    (hfg : ∀ a b, R a b → f a = g b) : Option.Rel R (as.find? f) (bs.find? g) := by
  induction h with
  | nil => exact .none
  | @cons a b as bs hab _ ih =>
    rw [List.find?_cons, List.find?_cons, ← hfg a b hab]
    cases f a with
    | true => exact .some hab
    | false => exact ih

end

theorem Input.block?_shape (s : Input) : s.shape.block? = s.block? := by
  cases s <;> rfl

namespace Block.SameShape

variable {b c : Block}

theorem symm (h : b.SameShape c) : c.SameShape b where
  id := h.id.symm
  opcode := h.opcode.symm
  next := h.next.symm
  topLevel := h.topLevel.symm
  fields := h.fields.symm
  inputs := h.inputs.symm
  proccode := h.proccode.symm

theorem slotBlocks (h : b.SameShape c) : b.slotBlocks = c.slotBlocks := by
  have hshape : ∀ b : Block, b.slotBlocks =
      (b.inputs.map fun slot => (slot.1, slot.2.shape)).filterMap fun slot => slot.2.block? := by
    intro b
    rw [List.filterMap_map]
    unfold Block.slotBlocks
    congr 1
    funext slot
    exact (Input.block?_shape slot.2).symm
  rw [hshape b, hshape c, h.inputs]

theorem references (h : b.SameShape c) : b.references = c.references := by
  rw [Block.references, Block.references, h.next, h.slotBlocks]

theorem reference (h : b.SameShape c) {slot : String × Input} (hs : slot ∈ b.inputs)
    {name id : String} (hi : slot.2 = .reference name id) :
    ∃ slot' ∈ c.inputs, slot'.2 = .reference name id := by
  obtain ⟨slot', hs', heq⟩ := exists_of_forall₂ (forall₂_of_map_eq h.inputs) hs
  obtain ⟨-, hshape⟩ := Prod.mk.inj heq
  refine ⟨slot', hs', ?_⟩
  rw [hi] at hshape
  cases hslot : slot'.2 <;> rw [hslot] at hshape <;> cases hshape
  rfl

end Block.SameShape

theorem Monitor.SameShape.symm {m n : Monitor} (h : m.SameShape n) : n.SameShape m :=
  ⟨h.id.symm, h.kind.symm, h.opcode.symm⟩

namespace Target.SameShape

variable {t u : Target}

theorem symm (h : t.SameShape u) : u.SameShape t :=
  ⟨h.variableIds.symm, h.listIds.symm, (h.blocks.imp fun _ _ hbc => hbc.symm).flip⟩

theorem block? (h : t.SameShape u) (id : String) :
    Option.Rel Block.SameShape (t.block? id) (u.block? id) :=
  find?_rel h.blocks fun b c hbc => by rw [hbc.id]

theorem of_block? (h : t.SameShape u) {id : String} {b c : Block} (hb : t.block? id = some b)
    (hc : u.block? id = some c) : b.SameShape c := by
  have hblocks := h.block? id
  rw [hb, hc] at hblocks
  cases hblocks with
  | some hbc => exact hbc

theorem exists_block? (h : t.SameShape u) {id : String} {b : Block}
    (hb : t.block? id = some b) : ∃ c, u.block? id = some c ∧ b.SameShape c := by
  have hblocks := h.block? id
  rw [hb] at hblocks
  generalize u.block? id = y at hblocks ⊢
  cases hblocks with
  | some hbc => exact ⟨_, rfl, hbc⟩

theorem acyclic (h : t.SameShape u) (ht : t.Acyclic) : u.Acyclic := by
  intro i hi
  refine ht i (Relation.TransGen.mono (fun j k hjk => ?_) i i hi)
  obtain ⟨c, hc, hk⟩ := hjk
  obtain ⟨b, hb, hcb⟩ := h.symm.exists_block? hc
  exact ⟨b, hb, hcb.references ▸ hk⟩

theorem roots (h : t.SameShape u) : List.Forall₂ Block.SameShape t.roots u.roots :=
  List.rel_filter (fun b c hbc => show b.topLevel = true ↔ c.topLevel = true by rw [hbc.topLevel])
    h.blocks

theorem hasVariable (h : t.SameShape u) (id : String) : t.hasVariable id = u.hasVariable id := by
  have hany : ∀ decls : List Declaration,
      (decls.any fun d => d.id == id) = (decls.map Declaration.id).any (· == id) := by
    intro decls
    rw [List.any_map]
    rfl
  unfold Target.hasVariable
  rw [hany, hany, h.variableIds]

end Target.SameShape

theorem Project.monitor?_rel {p q : Project}
    (h : List.Forall₂ Monitor.SameShape p.monitors q.monitors) (id : String) :
    Option.Rel Monitor.SameShape (p.monitor? id) (q.monitor? id) :=
  find?_rel h fun m n hmn => by rw [hmn.id]

namespace Script

open BlockScript.Text

/-! ## Relations that go through texts -/

/-- A relation that goes through concatenation and setting at a depth. -/
structure Congruence (R : List Char → List Char → Prop) : Prop where
  refl : ∀ a, R a a
  append : ∀ {a b c d}, R a b → R c d → R (a ++ c) (b ++ d)
  setAt : ∀ {a b}, R a b → ∀ k, R (setAt k a) (setAt k b)

namespace Congruence

variable {R : List Char → List Char → Prop} (hR : Congruence R)

include hR

theorem prepend (a : List Char) {c d : List Char} (h : R c d) : R (a ++ c) (a ++ d) :=
  hR.append (hR.refl a) h

theorem postpend {a b : List Char} (h : R a b) (c : List Char) : R (a ++ c) (b ++ c) :=
  hR.append h (hR.refl c)

theorem flatMap {α β : Type} {S : α → β → Prop} {f : α → List Char} {g : β → List Char}
    {as : List α} {bs : List β} (h : List.Forall₂ S as bs) (hfg : ∀ a b, S a b → R (f a) (g b)) :
    R (as.flatMap f) (bs.flatMap g) := by
  induction h with
  | nil => exact hR.refl []
  | cons hab _ ih =>
    rw [List.flatMap_cons, List.flatMap_cons]
    exact hR.append (hfg _ _ hab) ih

theorem intercalate {tokens tokens' : List (List Char)} (h : List.Forall₂ R tokens tokens') :
    R (List.intercalate separator tokens) (List.intercalate separator tokens') := by
  induction h with
  | nil => exact hR.refl []
  | cons hab hrest ih =>
    cases hrest with
    | nil =>
      rw [List.intercalate_singleton, List.intercalate_singleton]
      exact hab
    | cons hcd hrest =>
      rw [List.intercalate_cons_cons, List.intercalate_cons_cons]
      exact hR.append (hR.postpend hab separator) ih

theorem form (opcode : String) {tokens tokens' : List (List Char)}
    (h : List.Forall₂ R tokens tokens') : R (form opcode tokens) (form opcode tokens') :=
  hR.prepend _ (hR.prepend ['('] (hR.postpend (hR.intercalate h) _))

theorem statementAt {call call' : List Char} (h : R call call') (d : Nat) :
    R (statementAt d call) (statementAt d call') :=
  hR.postpend (hR.prepend _ (hR.setAt h d)) _

theorem braced {calls calls' : List (List Char)} (h : List.Forall₂ R calls calls') :
    R (braced calls) (braced calls') :=
  hR.prepend ['\x7b', '\n']
    (hR.postpend (hR.flatMap h fun _ _ hcall => hR.statementAt hcall 1) _)

theorem headerText (opcode : String) {tokens tokens' : List (List Char)}
    (h : List.Forall₂ R tokens tokens') :
    R (headerText opcode tokens) (headerText opcode tokens') := by
  have hempty : tokens.isEmpty = tokens'.isEmpty := by cases h <;> rfl
  unfold Script.headerText
  rw [hempty]
  refine hR.prepend _ (hR.prepend ['('] (hR.postpend ?_ _))
  split
  · exact hR.refl []
  · exact hR.postpend (hR.intercalate h) _

theorem scriptText {root root' : Block} (hplace : R (placeLine root) (placeLine root'))
    (hopcode : root.opcode = root'.opcode) {parts parts' : Parts}
    (hheader : List.Forall₂ R parts.header parts'.header)
    (hcalls : List.Forall₂ R parts.calls parts'.calls) :
    R (parts.text root) (parts'.text root') := by
  unfold Parts.text
  rw [← hopcode]
  have hbody := hR.flatMap hcalls fun _ _ hcall => hR.statementAt hcall 1
  refine hR.postpend (hR.append (hR.postpend ?_ _) hbody) _
  exact hR.append (hR.postpend hplace _) (hR.headerText root.opcode hheader)

end Congruence

/-! ## Targets of the same shape -/

/-- With the same monitors, targets of the same shape show a reference alike. -/
theorem referenceToken_sameShape {p q : Project} {t u : Target} (hm : p.monitors = q.monitors)
    (h : t.SameShape u) (name id : String) :
    referenceToken p t name id = referenceToken q u name id := by
  unfold referenceToken Project.monitor?
  rw [hm, h.hasVariable]

/-- The texts are related as given, and ids and blamed blocks are the same. -/
def Comparison.ofTexts (R : List Char → List Char → Prop) : Comparison := ⟨R, Eq, Eq⟩

namespace Congruence

variable {R : List Char → List Char → Prop} {p q : Project} {t u : Target}

theorem slots (hR : Congruence R)
    (hreferences : ∀ name id, R (referenceToken p t name id) (referenceToken q u name id))
    {s s' : Input} (h : s.shape = s'.shape)
    (hvalues : ∀ v w, s = .literal v → s' = .literal w → R (literalToken v) (literalToken w)) :
    (Comparison.ofTexts R).Slots p q t u s s' := by
  cases s with
  | empty => cases s' <;> cases h; exact .empty (hR.refl _)
  | literal v => cases s' <;> cases h; exact .literal (hvalues v _ rfl rfl)
  | reference name id => cases s' <;> cases h; exact .reference (hreferences name id)
  | block id => cases s' <;> cases h; exact .block rfl

theorem blocks (hR : Congruence R) (hquoted : ∀ s s', R (quoted s) (quoted s'))
    (hreferences : ∀ name id, R (referenceToken p t name id) (referenceToken q u name id))
    {b c : Block} (h : b.SameShape c)
    (hvalues : ∀ v ∈ b.values, ∀ w ∈ c.values, R (literalToken v) (literalToken w)) :
    (Comparison.ofTexts R).Blocks p q t u b c := by
  refine ⟨⟨h.id, h.opcode⟩, ⟨?_, ?_⟩, ?_, ?_, fun tokens tokens' htokens => ?_⟩
  · refine (forall₂_mem (forall₂_of_map_eq h.fields)).imp fun f g hfg => ?_
    exact hvalues _ (b.mem_values_of_field hfg.2.1) _ (c.mem_values_of_field hfg.2.2)
  · refine (forall₂_mem (forall₂_of_map_eq h.inputs)).imp fun s s' hs => ?_
    obtain ⟨heq, hmem, hmem'⟩ := hs
    obtain ⟨hname, hshape⟩ := Prod.mk.inj heq
    refine ⟨hname, hR.slots hreferences hshape fun v w hv hw => ?_⟩
    exact hvalues v (b.mem_values_of_slot hmem hv) w (c.mem_values_of_slot hmem' hw)
  · rw [← h.next]
    cases b.next with
    | none => exact .none
    | some i => exact .some rfl
  · exact rel_of_isSome_eq h.proccode hquoted
  · rw [← h.opcode]
    exact hR.form b.opcode htokens

/-- Targets of the same shape are compared by a relation that compares their blocks. -/
theorem tables (hR : Congruence R) (h : t.SameShape u)
    (hblocks : ∀ b ∈ t.blocks, ∀ c ∈ u.blocks, b.SameShape c →
      (Comparison.ofTexts R).Blocks p q t u b c) :
    (Comparison.ofTexts R).Tables p q t u := by
  constructor
  · rintro i j rfl
    have hsame := h.block? i
    cases hb : t.block? i with
    | none =>
      rw [hb] at hsame
      generalize u.block? i = y at hsame ⊢
      cases hsame
      exact .none
    | some b =>
      cases hc : u.block? i with
      | none => rw [hb, hc] at hsame; cases hsame
      | some c =>
        rw [hb, hc] at hsame
        cases hsame with
        | some hbc =>
          exact .some (hblocks b (Target.mem_blocks_of_block? hb) c
            (Target.mem_blocks_of_block? hc) hbc)
  · exact fun calls calls' => hR.braced

end Congruence

end Script

end BlockScript
