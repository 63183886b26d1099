/-
  Two renderings side by side.

  A comparison says which texts, which followed ids and which blamed blocks of two targets stand for
  each other. If blocks under ids that stand for each other are made of parts that do, and call
  forms and bodies over such parts do too (`Tables`), then everything that is rendered from such ids
  does: both renderings succeed with texts that stand for each other, or both stop at the same kind
  of fault (`renders`). That the two graphs have no circles is used here once, and not again in what
  is derived from it.

  A property of texts is the comparison of a target with itself in which a text stands for itself if
  it has the property (`Inherited`).
-/
import BlockScript.Proofs.Graph.Acyclic
import BlockScript.Proofs.Script.Documents
import Mathlib.Data.List.Forall2

namespace BlockScript.Script

open BlockScript.Results BlockScript.Text

/-- A call form over its tokens. -/
def form (opcode : String) (tokens : List (List Char)) : List Char :=
  opcode.toList ++ '(' :: (List.intercalate separator tokens ++ [')'])

/-- A chain is its first call form and then those that follow. -/
theorem result_statements (project : Project) (target : Target) (h : target.Acyclic)
    (referrer : Option Block) (id : String) :
    (statements project target referrer id).result =
      (do
        let b ← lookup target referrer id
        let call ← callForm project target b
        (bodyCalls project target b).map (call :: ·)) := by
  rw [statements_eq project target h]
  cases lookup target referrer id with
  | error halt => rfl
  | ok b =>
    unfold bodyCalls
    cases hc : callForm project target b with
    | error halt => simp [hc, bind, Except.bind, Statements.result]
    | ok call =>
      cases hn : b.next with
      | none => simp [hc, hn, bind, Except.bind, Except.map, Statements.result]
      | some next => simp [hc, hn, bind, Except.bind, Statements.result_cons]

/-- What of two renderings stands for each other. -/
structure Comparison where
  /-- The texts of tokens and call forms. -/
  texts : List Char → List Char → Prop
  /-- The ids that are looked up. -/
  ids : String → String → Prop
  /-- The ids of the blocks that faults are blamed on. -/
  blames : String → String → Prop

namespace Comparison

variable (κ : Comparison)

/-! ## Outcomes -/

/-- Blocks that are blamed alike. -/
structure Owners (b c : Block) : Prop where
  id : κ.blames b.id c.id
  opcode : b.opcode = c.opcode

/-- Faults of the same kind, each in its own target. -/
inductive Faults (t u : Target) : Fault → Fault → Prop
  | missingBlock {b c : Block} {i j : String} (ho : κ.Owners b c) (hi : κ.ids i j) :
    Faults t u (.missingBlock t.name b.id b.opcode i) (.missingBlock u.name c.id c.opcode j)
  | missingSignature {b c : Block} (ho : κ.Owners b c) (gap : SignatureGap) :
    Faults t u (.missingSignature t.name b.id b.opcode gap)
      (.missingSignature u.name c.id c.opcode gap)

/-- Both succeed with related results, or both stop at faults of the same kind. -/
inductive Outcomes (t u : Target) {α β : Type} (R : α → β → Prop) :
    Except Halt α → Except Halt β → Prop
  | ok {a : α} {b : β} (h : R a b) : Outcomes t u R (.ok a) (.ok b)
  | fault {f g : Fault} (h : κ.Faults t u f g) :
    Outcomes t u R (.error (.fault f)) (.error (.fault g))

namespace Outcomes

variable {κ} {t u : Target} {α β γ δ : Type} {R : α → β → Prop} {S : γ → δ → Prop}

theorem bind {x : Except Halt α} {y : Except Halt β} {f : α → Except Halt γ}
    {g : β → Except Halt δ} (h : κ.Outcomes t u R x y)
    (hfg : ∀ a b, R a b → κ.Outcomes t u S (f a) (g b)) :
    κ.Outcomes t u S (x >>= f) (y >>= g) := by
  cases h with
  | ok h => exact hfg _ _ h
  | fault h => exact .fault h

theorem map {x : Except Halt α} {y : Except Halt β} {f : α → γ} {g : β → δ}
    (h : κ.Outcomes t u R x y) (hfg : ∀ a b, R a b → S (f a) (g b)) :
    κ.Outcomes t u S (x.map f) (y.map g) := by
  cases h with
  | ok h => exact .ok (hfg _ _ h)
  | fault h => exact .fault h

theorem mapM {as : List α} {bs : List β} {f : α → Except Halt γ} {g : β → Except Halt δ}
    (h : List.Forall₂ R as bs) (hfg : ∀ a ∈ as, ∀ b, R a b → κ.Outcomes t u S (f a) (g b)) :
    κ.Outcomes t u (List.Forall₂ S) (as.mapM f) (bs.mapM g) := by
  induction h with
  | nil => exact .ok .nil
  | cons hab _ ih =>
    rw [List.mapM_cons, List.mapM_cons]
    refine (hfg _ (List.mem_cons_self ..) _ hab).bind fun c d hcd => ?_
    have hrest := ih fun a ha => hfg a (List.mem_cons_of_mem _ ha)
    exact hrest.bind fun cs ds hcds => .ok (.cons hcd hcds)

theorem rel_of_ok {a : α} {b : β} (h : κ.Outcomes t u R (.ok a) (.ok b)) : R a b := by
  cases h with
  | ok h => exact h

end Outcomes

/-! ## Blocks that stand for each other -/

section

variable (p q : Project) (t u : Target)

/-- Slots that stand for each other. -/
inductive Slots : Input → Input → Prop
  | empty (h : κ.texts emptyToken emptyToken) : Slots .empty .empty
  | literal {v w : Json.Document} (h : κ.texts (literalToken v) (literalToken w)) :
    Slots (.literal v) (.literal w)
  | reference {m n i j : String}
    (h : κ.texts (referenceToken p t m i) (referenceToken q u n j)) :
    Slots (.reference m i) (.reference n j)
  | block {i j : String} (h : κ.ids i j) : Slots (.block i) (.block j)

/-- Blocks whose arguments stand for each other. -/
structure Arguments (b c : Block) : Prop where
  fields : List.Forall₂ (fun f g => κ.texts (literalToken f.2) (literalToken g.2)) b.fields c.fields
  inputs : List.Forall₂ (fun s s' => s.1 = s'.1 ∧ κ.Slots p q t u s.2 s'.2) b.inputs c.inputs

/-- Blocks that stand for each other. -/
structure Blocks (b c : Block) : Prop extends κ.Owners b c, κ.Arguments p q t u b c where
  next : Option.Rel κ.ids b.next c.next
  proccode : Option.Rel (fun s s' => κ.texts (quoted s) (quoted s')) b.proccode? c.proccode?
  form : ∀ tokens tokens', List.Forall₂ κ.texts tokens tokens' →
    κ.texts (form b.opcode tokens) (form c.opcode tokens')

/-- Roots that stand for each other. Of a definition only the prototype is looked at. -/
structure Roots (b c : Block) : Prop extends κ.Owners b c where
  next : Option.Rel κ.ids b.next c.next
  arguments : b.opcode ≠ definitionOpcode → κ.Arguments p q t u b c
  prototype : b.opcode = definitionOpcode →
    Option.Rel κ.ids (b.inputBlock? prototypeSlot) (c.inputBlock? prototypeSlot)

/-- Block tables that stand for each other. -/
structure Tables : Prop where
  blocks : ∀ i j, κ.ids i j → Option.Rel (κ.Blocks p q t u) (t.block? i) (u.block? j)
  body : ∀ calls calls', List.Forall₂ κ.texts calls calls' →
    κ.texts (braced calls) (braced calls')

/-- What is rendered from two ids stands for each other. -/
structure Renders (i j : String) : Prop where
  call : ∀ b c, t.block? i = some b → u.block? j = some c →
    κ.Outcomes t u κ.texts (callForm p t b) (callForm q u c)
  chain : ∀ b c, κ.Owners b c →
    κ.Outcomes t u (List.Forall₂ κ.texts) (statements p t (some b) i).result
      (statements q u (some c) j).result

end

/-! ## One block -/

section

variable {κ} {p q : Project} {t u : Target}

theorem Tables.lookup (h : κ.Tables p q t u) {b c : Block} (ho : κ.Owners b c) {i j : String}
    (hij : κ.ids i j) :
    κ.Outcomes t u (fun b' c' => κ.Blocks p q t u b' c' ∧ t.block? i = some b' ∧
        u.block? j = some c') (lookup t (some b) i) (lookup u (some c) j) := by
  have hblocks := h.blocks i j hij
  unfold Script.lookup
  cases hb : t.block? i with
  | none =>
    rw [hb] at hblocks
    cases hc : u.block? j with
    | none => exact .fault (.missingBlock ho hij)
    | some c' => rw [hc] at hblocks; cases hblocks
  | some b' =>
    rw [hb] at hblocks
    cases hc : u.block? j with
    | none => rw [hc] at hblocks; cases hblocks
    | some c' =>
      rw [hc] at hblocks
      cases hblocks with
      | some hblock => exact .ok ⟨hblock, rfl, rfl⟩

theorem Tables.input (h : κ.Tables p q t u) {b c : Block} (ho : κ.Owners b c) {s s' : Input}
    (hs : κ.Slots p q t u s s')
    (hrenders : ∀ i j, s = .block i → s' = .block j → κ.Renders p q t u i j) :
    κ.Outcomes t u κ.texts (inputText p t (callForm p t) (chain p t) b s)
      (inputText q u (callForm q u) (chain q u) c s') := by
  cases hs with
  | empty htext => exact .ok htext
  | literal htext => exact .ok htext
  | reference htext => exact .ok htext
  | @block i j hij =>
    have hnested := hrenders i j rfl rfl
    rw [inputText_block_eq, inputText_block_eq]
    refine (h.lookup ho hij).bind fun b' c' hfound => ?_
    obtain ⟨hblock, hb', hc'⟩ := hfound
    have hnext : b'.next.isNone = c'.next.isNone := by
      have hids := hblock.next
      generalize b'.next = x at hids ⊢
      generalize c'.next = y at hids ⊢
      cases hids <;> rfl
    rw [hnext]
    split
    · exact hnested.call b' c' hb' hc'
    · exact (hnested.chain b c ho).map h.body

theorem Tables.argumentTokens (h : κ.Tables p q t u) {b c : Block} (ho : κ.Owners b c)
    (ha : κ.Arguments p q t u b c)
    (hrenders : ∀ i ∈ b.slotBlocks, ∀ j, κ.ids i j → κ.Renders p q t u i j) :
    κ.Outcomes t u (List.Forall₂ κ.texts)
      (argumentTokens p t (callForm p t) (chain p t) b)
      (argumentTokens q u (callForm q u) (chain q u) c) := by
  have hslots := Outcomes.mapM ha.inputs fun s hmem s' hs => by
    refine h.input ho hs.2 fun i j hi hj => ?_
    have hslot := hs.2
    rw [hi, hj] at hslot
    cases hslot with
    | block hij => exact hrenders i (b.mem_slotBlocks hmem hi) j hij
  refine hslots.bind fun slots slots' hrel => .ok ?_
  refine List.rel_append ?_ hrel
  rw [List.forall₂_map_left_iff, List.forall₂_map_right_iff]
  exact ha.fields

theorem Tables.callTokens (h : κ.Tables p q t u) {b c : Block} (hbc : κ.Blocks p q t u b c)
    (hrenders : ∀ i ∈ b.slotBlocks, ∀ j, κ.ids i j → κ.Renders p q t u i j) :
    κ.Outcomes t u (List.Forall₂ κ.texts) (callTokens p t (callForm p t) (chain p t) b)
      (callTokens q u (callForm q u) (chain q u) c) := by
  unfold Script.callTokens
  refine (h.argumentTokens hbc.toOwners hbc.toArguments hrenders).bind fun tokens tokens' hrel => ?_
  rw [← hbc.opcode]
  split
  · have hsignature := hbc.proccode
    have hfault : κ.Faults t u _ _ := .missingSignature hbc.toOwners .call
    rw [← hbc.opcode] at hfault
    generalize b.proccode? = x at hsignature ⊢
    generalize c.proccode? = y at hsignature ⊢
    cases hsignature with
    | none => exact .fault hfault
    | some hquoted => exact .ok (.cons hquoted hrel)
  · exact .ok hrel

theorem Tables.callForm (h : κ.Tables p q t u) (ht : t.Acyclic) (hu : u.Acyclic) {i j : String}
    {b c : Block} (hb : t.block? i = some b) (hc : u.block? j = some c)
    (hbc : κ.Blocks p q t u b c)
    (hrenders : ∀ i ∈ b.slotBlocks, ∀ j, κ.ids i j → κ.Renders p q t u i j) :
    κ.Outcomes t u κ.texts (callForm p t b) (callForm q u c) := by
  rw [callForm_eq p t ht hb, callForm_eq q u hu hc,
    callText_eq p t _ _ (callForm_ne_nil p t), callText_eq q u _ _ (callForm_ne_nil q u)]
  exact (h.callTokens hbc hrenders).map hbc.form

/-! ## The whole graph -/

theorem bodyCalls_outcomes {b c : Block} (ho : κ.Owners b c)
    (hnext : Option.Rel κ.ids b.next c.next)
    (hrenders : ∀ i, b.next = some i → ∀ j, κ.ids i j → κ.Renders p q t u i j) :
    κ.Outcomes t u (List.Forall₂ κ.texts) (bodyCalls p t b) (bodyCalls q u c) := by
  unfold bodyCalls
  generalize b.next = x at hnext hrenders ⊢
  generalize c.next = y at hnext ⊢
  cases hnext with
  | none => exact .ok .nil
  | some hij => exact (hrenders _ rfl _ hij).chain b c ho

/-- From ids that stand for each other the renderings stand for each other. -/
theorem Tables.renders (h : κ.Tables p q t u) (ht : t.Acyclic) (hu : u.Acyclic) (i : String) :
    ∀ j, κ.ids i j → κ.Renders p q t u i j := by
  refine Target.Acyclic.induction (motive := fun i => ∀ j, κ.ids i j → κ.Renders p q t u i j) ht
    (fun i ih j hij => ?_) i
  have hcall : ∀ b c, t.block? i = some b → u.block? j = some c → κ.Blocks p q t u b c →
      κ.Outcomes t u κ.texts (Script.callForm p t b) (Script.callForm q u c) := by
    intro b c hb hc hbc
    exact h.callForm ht hu hb hc hbc fun k hk => ih k ⟨b, hb, b.mem_references_of_slot hk⟩
  constructor
  case call =>
    intro b c hb hc
    have hblocks := h.blocks i j hij
    rw [hb, hc] at hblocks
    cases hblocks with
    | some hbc => exact hcall b c hb hc hbc
  case chain =>
    intro b c ho
    rw [result_statements p t ht, result_statements q u hu]
    refine (h.lookup ho hij).bind fun b' c' hfound => ?_
    obtain ⟨hblock, hb', hc'⟩ := hfound
    refine (hcall b' c' hb' hc' hblock).bind fun call call' htext => ?_
    have hrest := bodyCalls_outcomes hblock.toOwners hblock.next fun k hk l hkl =>
      ih k ⟨b', hb', b'.mem_references_of_next hk⟩ l hkl
    exact hrest.map fun _ _ hcalls => .cons htext hcalls

/-! ## Scripts -/

theorem Blocks.roots {b c : Block} (h : κ.Blocks p q t u b c) : κ.Roots p q t u b c := by
  refine ⟨h.toOwners, h.next, fun _ => h.toArguments, fun _ => ?_⟩
  have hlookup : Option.Rel (κ.Slots p q t u) (b.inputs.lookup prototypeSlot)
      (c.inputs.lookup prototypeSlot) := by
    have hinputs := h.inputs
    generalize b.inputs = xs at hinputs ⊢
    generalize c.inputs = ys at hinputs ⊢
    induction hinputs with
    | nil => exact .none
    | @cons s s' xs ys hs _ ih =>
      obtain ⟨name, input⟩ := s
      obtain ⟨name', input'⟩ := s'
      obtain ⟨rfl, hslot⟩ := hs
      rw [List.lookup_cons, List.lookup_cons]
      cases prototypeSlot == name with
      | true => exact .some hslot
      | false => exact ih
  unfold Block.inputBlock?
  generalize b.inputs.lookup prototypeSlot = x at hlookup ⊢
  generalize c.inputs.lookup prototypeSlot = y at hlookup ⊢
  cases hlookup with
  | none => exact .none
  | some hslot =>
    cases hslot with
    | block hij => exact .some hij
    | empty _ => exact .none
    | literal _ => exact .none
    | reference _ => exact .none

theorem Tables.headerTokens (h : κ.Tables p q t u) (ht : t.Acyclic) (hu : u.Acyclic) {b c : Block}
    (hbc : κ.Roots p q t u b c) :
    κ.Outcomes t u (List.Forall₂ κ.texts) (headerTokens p t b) (headerTokens q u c) := by
  unfold Script.headerTokens
  rw [← hbc.opcode]
  split
  case isTrue hop =>
    refine Outcomes.map (R := fun s s' => κ.texts (quoted s) (quoted s')) ?_
      fun s s' hs => .cons hs .nil
    have hprototype := hbc.prototype hop
    unfold definedSignature
    generalize b.inputBlock? prototypeSlot = x at hprototype ⊢
    generalize c.inputBlock? prototypeSlot = y at hprototype ⊢
    cases hprototype with
    | none => exact .fault (.missingSignature hbc.toOwners .definition)
    | some hij =>
      refine (h.lookup hbc.toOwners hij).bind fun b' c' hfound => ?_
      have hsignature := hfound.1.proccode
      generalize b'.proccode? = x at hsignature ⊢
      generalize c'.proccode? = y at hsignature ⊢
      cases hsignature with
      | none => exact .fault (.missingSignature hbc.toOwners .prototype)
      | some hs => exact .ok hs
  case isFalse hop =>
    exact h.argumentTokens hbc.toOwners (hbc.arguments hop) fun i _ => h.renders ht hu i

/-- Parts of scripts that stand for each other. -/
structure Scripts (parts parts' : Parts) : Prop where
  header : List.Forall₂ κ.texts parts.header parts'.header
  calls : List.Forall₂ κ.texts parts.calls parts'.calls

theorem Tables.scriptParts (h : κ.Tables p q t u) (ht : t.Acyclic) (hu : u.Acyclic) {b c : Block}
    (hbc : κ.Roots p q t u b c) :
    κ.Outcomes t u κ.Scripts (scriptParts p t b) (scriptParts q u c) := by
  have hcalls := bodyCalls_outcomes hbc.toOwners hbc.next fun i _ => h.renders ht hu i
  unfold Script.scriptParts
  refine (h.headerTokens ht hu hbc).bind fun header header' hheader => ?_
  exact hcalls.bind fun calls calls' hrel => .ok ⟨hheader, hrel⟩

end

/-! ## A target next to itself -/

theorem eq_of_forall₂_eq {α : Type} (as bs : List α) (h : List.Forall₂ Eq as bs) : as = bs := by
  rwa [List.forall₂_eq_eq_eq] at h

/-- Texts with a property stand for themselves. -/
def ofProperty (P : List Char → Prop) : Comparison where
  texts a b := P a ∧ a = b
  ids := Eq
  blames := Eq

theorem forall₂_ofProperty {P : List Char → Prop} {as bs : List (List Char)}
    (h : List.Forall₂ (ofProperty P).texts as bs) : (∀ a ∈ as, P a) ∧ as = bs := by
  obtain ⟨hall, heq⟩ := (List.forall₂_and_left as bs).mp h
  rw [List.forall₂_eq_eq_eq] at heq
  exact ⟨hall, heq⟩

end Comparison

/-- A property of texts that goes over from the parts of what is rendered to the whole. -/
structure Inherited (P : List Char → Prop) (p : Project) (t : Target) : Prop where
  literal : ∀ v, P (literalToken v)
  empty : P emptyToken
  reference : ∀ b ∈ t.blocks, ∀ slot ∈ b.inputs, ∀ name id, slot.2 = .reference name id →
    P (referenceToken p t name id)
  form : ∀ b ∈ t.blocks, ∀ tokens, (∀ a ∈ tokens, P a) → P (form b.opcode tokens)
  body : ∀ calls, (∀ a ∈ calls, P a) → P (braced calls)

namespace Inherited

open Comparison

variable {P : List Char → Prop} {p : Project} {t : Target}

theorem blocks (h : Inherited P p t) {b : Block} (hb : b ∈ t.blocks) :
    (ofProperty P).Blocks p p t t b b := by
  have hids : ∀ x : Option String, Option.Rel Eq x x := by
    intro x
    cases x with
    | none => exact .none
    | some i => exact .some rfl
  have hslot : ∀ slot ∈ b.inputs, (ofProperty P).Slots p p t t slot.2 slot.2 := by
    intro slot hs
    cases hi : slot.2 with
    | empty => exact .empty ⟨h.empty, rfl⟩
    | literal v => exact .literal ⟨h.literal v, rfl⟩
    | reference name id => exact .reference ⟨h.reference b hb slot hs name id hi, rfl⟩
    | block id => exact .block rfl
  refine ⟨⟨rfl, rfl⟩, ⟨?_, ?_⟩, hids b.next, ?_, fun tokens tokens' htokens => ?_⟩
  · exact List.forall₂_same.mpr fun field _ => ⟨h.literal field.2, rfl⟩
  · exact List.forall₂_same.mpr fun slot hs => ⟨rfl, hslot slot hs⟩
  · cases b.proccode? with
    | none => exact .none
    | some signature => exact .some ⟨h.literal (.string signature), rfl⟩
  · obtain ⟨hall, rfl⟩ := forall₂_ofProperty htokens
    exact ⟨h.form b hb tokens hall, rfl⟩

theorem tables (h : Inherited P p t) : (ofProperty P).Tables p p t t := by
  constructor
  · rintro i j rfl
    cases hb : t.block? i with
    | none => exact .none
    | some b => exact .some (h.blocks (Target.mem_blocks_of_block? hb))
  · intro calls calls' hcalls
    obtain ⟨hall, rfl⟩ := forall₂_ofProperty hcalls
    exact ⟨h.body calls hall, rfl⟩

/-- Every argument of a block has the property. -/
theorem argumentTokens (h : Inherited P p t) (ht : t.Acyclic) {b : Block} (hb : b ∈ t.blocks)
    {tokens : List (List Char)}
    (htokens : argumentTokens p t (callForm p t) (chain p t) b = .ok tokens) :
    ∀ a ∈ tokens, P a := by
  have hself := h.tables.argumentTokens (h.blocks hb).toOwners (h.blocks hb).toArguments
    fun i _ => h.tables.renders ht ht i
  rw [htokens] at hself
  exact (forall₂_ofProperty hself.rel_of_ok).1

/-- Every part of a script has the property. -/
theorem scriptParts (h : Inherited P p t) (ht : t.Acyclic) {root : Block} (hr : root ∈ t.roots)
    {parts : Parts} (hparts : scriptParts p t root = .ok parts) :
    (∀ a ∈ parts.header, P a) ∧ ∀ a ∈ parts.calls, P a := by
  have hroot := (h.blocks (List.mem_of_mem_filter hr)).roots
  have hself := h.tables.scriptParts ht ht hroot
  rw [hparts] at hself
  have hrel := hself.rel_of_ok
  exact ⟨(forall₂_ofProperty hrel.header).1, (forall₂_ofProperty hrel.calls).1⟩

end Inherited

end BlockScript.Script
