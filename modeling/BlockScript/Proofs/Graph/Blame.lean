/-
  Which fault is told.

  A target without circles is gone through in one order: its roots as they stand in the table, the
  header of a root before its body, the slots of a block before the signature it may lack, and its
  successor last; a slot is gone through to its end before the next. `Target.faults` lists all faults
  in that order, with no regard to where rendering stops. Rendering halts with the first of them, and
  is complete if there is none. Each fault names a block that the roots lead to and something which
  that block itself lacks (`Blames`). The statement is `targetText_eq_error_iff_head_faults`.
-/
import BlockScript.Proofs.Graph.WellFormed
import BlockScript.Proofs.Script.Comparison

namespace BlockScript

open BlockScript.Results BlockScript.Script

/-- What a named slot holds is among the ids in the slots. -/
theorem Block.mem_slotBlocks_of_inputBlock? (b : Block) {slot id : String}
    (h : b.inputBlock? slot = some id) : id ∈ b.slotBlocks := by
  unfold inputBlock? at h
  split at h
  case h_1 found hfound =>
    cases h
    obtain ⟨before, after, hinputs, -⟩ := List.lookup_eq_some_iff.mp hfound
    have hslot : (slot, Input.block id) ∈ b.inputs := by
      rw [hinputs]
      exact List.mem_append_right _ (List.mem_cons_self ..)
    exact b.mem_slotBlocks hslot rfl
  case h_2 => cases h

namespace Target

/-! ## All faults in order -/

/-- The fault of a procedure call without a signature. -/
def signatureFaults (t : Target) (b : Block) : List Fault :=
  if b.opcode = callOpcode ∧ b.proccode? = none then
    [.missingSignature t.name b.id b.opcode .call]
  else []

/-- The faults from an id on that `owner` refers to. -/
def faultsFrom (t : Target) (h : t.Acyclic) (owner : Block) (id : String) : List Fault :=
  match _ : t.block? id with
  | none => [.missingBlock t.name owner.id owner.opcode id]
  | some b =>
    (b.slotBlocks.attach.flatMap fun slot => faultsFrom t h b slot.1) ++ t.signatureFaults b ++
      b.next.toList.attach.flatMap fun next => faultsFrom t h b next.1
termination_by t.rank id
decreasing_by
  · exact rank_lt h ⟨b, ‹_›, b.mem_references_of_slot slot.2⟩
  · exact rank_lt h ⟨b, ‹_›, b.mem_references_of_next (Option.mem_toList.mp next.2)⟩

/-- The faults in a definition as a root. Of its slots only that of the prototype counts. -/
def definitionFaults (t : Target) (root : Block) : List Fault :=
  match root.inputBlock? prototypeSlot with
  | none => [.missingSignature t.name root.id root.opcode .definition]
  | some id =>
    match t.block? id with
    | none => [.missingBlock t.name root.id root.opcode id]
    | some prototype =>
      if prototype.proccode? = none then [.missingSignature t.name root.id root.opcode .prototype]
      else []

section

variable (t : Target) (h : t.Acyclic)

/-- The faults in the slots of a block. -/
def slotFaults (b : Block) : List Fault := b.slotBlocks.flatMap (t.faultsFrom h b)

/-- The faults from the successor of a block on. -/
def nextFaults (b : Block) : List Fault := b.next.toList.flatMap (t.faultsFrom h b)

/-- The faults in the header of a script. -/
def headerFaults (root : Block) : List Fault :=
  if root.opcode = definitionOpcode then t.definitionFaults root else t.slotFaults h root

/-- All faults of a target in the order in which they are met. -/
def faults : List Fault := t.roots.flatMap fun root => t.headerFaults h root ++ t.nextFaults h root

theorem faultsFrom_eq (owner : Block) (id : String) :
    t.faultsFrom h owner id =
      match t.block? id with
      | none => [.missingBlock t.name owner.id owner.opcode id]
      | some b => t.slotFaults h b ++ t.signatureFaults b ++ t.nextFaults h b := by
  have hattach : ∀ (b : Block) (l : List String),
      (l.attach.flatMap fun j => t.faultsFrom h b j.1) = l.flatMap (t.faultsFrom h b) := by
    intro b l
    rw [List.flatMap_def, List.flatMap_def, List.attach_map_val (f := t.faultsFrom h b)]
  rw [faultsFrom]
  split
  case h_1 hb => rw [hb]
  case h_2 b hb =>
    rw [hb, hattach, hattach]
    rfl

end

/-! ## What a fault says -/

/-- The blocks that the roots lead to, the roots included. -/
inductive Reached (t : Target) : Block → Prop
  | root {b : Block} (hr : b ∈ t.roots) : Reached t b
  | followed {id : String} {b : Block} (hid : t.Followed Block.references id)
    (hb : t.block? id = some b) : Reached t b

/-- The fault is one of the target, and the block it names is reached and lacks what it says. -/
inductive Blames (t : Target) : Fault → Prop
  | missingBlock {b : Block} {id : String} (hb : t.Reached b) (hid : id ∈ b.references)
    (hmissing : ∀ c ∈ t.blocks, c.id ≠ id) : Blames t (.missingBlock t.name b.id b.opcode id)
  | unsignedCall {b : Block} (hb : t.Reached b) (hop : b.opcode = callOpcode)
    (hp : b.proccode? = none) : Blames t (.missingSignature t.name b.id b.opcode .call)
  | noPrototype {root : Block} (hr : root ∈ t.roots) (hop : root.opcode = definitionOpcode)
    (hi : root.inputBlock? prototypeSlot = none) :
    Blames t (.missingSignature t.name root.id root.opcode .definition)
  | unsignedPrototype {root prototype : Block} {id : String} (hr : root ∈ t.roots)
    (hop : root.opcode = definitionOpcode) (hi : root.inputBlock? prototypeSlot = some id)
    (hb : t.block? id = some prototype) (hp : prototype.proccode? = none) :
    Blames t (.missingSignature t.name root.id root.opcode .prototype)

theorem id_ne_of_block?_eq_none {t : Target} {id : String} (h : t.block? id = none) :
    ∀ c ∈ t.blocks, c.id ≠ id := by
  intro c hc heq
  exact List.find?_eq_none.mp h c hc (beq_iff_eq.mpr heq)

theorem blames_signatureFaults {t : Target} {b : Block} (hb : t.Reached b) :
    ∀ f ∈ t.signatureFaults b, t.Blames f := by
  intro f hf
  unfold signatureFaults at hf
  split at hf
  case isTrue hboth =>
    rw [List.mem_singleton.mp hf]
    exact .unsignedCall hb hboth.1 hboth.2
  case isFalse => cases hf

/-- The faults from an id on, if a block that is reached refers to it and it is followed. -/
theorem blames_faultsFrom {t : Target} (h : t.Acyclic) (id : String) :
    ∀ owner, t.Reached owner → id ∈ owner.references → t.Followed Block.references id →
      ∀ f ∈ t.faultsFrom h owner id, t.Blames f := by
  refine h.induction (motive := fun i => ∀ owner, t.Reached owner → i ∈ owner.references →
    t.Followed Block.references i → ∀ f ∈ t.faultsFrom h owner i, t.Blames f) (fun i ih => ?_) id
  intro owner howner hi hfollowed f hf
  rw [t.faultsFrom_eq] at hf
  cases hb : t.block? i with
  | none =>
    rw [hb] at hf
    rw [List.mem_singleton.mp hf]
    exact .missingBlock howner hi (id_ne_of_block?_eq_none hb)
  | some b =>
    rw [hb] at hf
    have hreached : t.Reached b := .followed hfollowed hb
    have hbelow : ∀ j ∈ b.references, ∀ g ∈ t.faultsFrom h b j, t.Blames g := fun j hj =>
      ih j ⟨b, hb, hj⟩ b hreached hj (.nested hfollowed hb hj)
    rcases List.mem_append.mp hf with hf | hf
    · rcases List.mem_append.mp hf with hf | hf
      · obtain ⟨j, hj, hf⟩ := List.mem_flatMap.mp hf
        exact hbelow j (b.mem_references_of_slot hj) f hf
      · exact blames_signatureFaults hreached f hf
    · obtain ⟨j, hj, hf⟩ := List.mem_flatMap.mp hf
      exact hbelow j (b.mem_references_of_next (Option.mem_toList.mp hj)) f hf

theorem blames_definitionFaults {t : Target} {root : Block} (hr : root ∈ t.roots)
    (hop : root.opcode = definitionOpcode) : ∀ f ∈ t.definitionFaults root, t.Blames f := by
  intro f hf
  unfold definitionFaults at hf
  cases hi : root.inputBlock? prototypeSlot with
  | none =>
    rw [hi] at hf
    rw [List.mem_singleton.mp hf]
    exact .noPrototype hr hop hi
  | some id =>
    rw [hi] at hf
    dsimp only at hf
    cases hb : t.block? id with
    | none =>
      rw [hb] at hf
      rw [List.mem_singleton.mp hf]
      have hid := root.mem_references_of_slot (root.mem_slotBlocks_of_inputBlock? hi)
      exact .missingBlock (.root hr) hid (id_ne_of_block?_eq_none hb)
    | some prototype =>
      rw [hb] at hf
      dsimp only at hf
      split at hf
      case isTrue hp =>
        rw [List.mem_singleton.mp hf]
        exact .unsignedPrototype hr hop hi hb hp
      case isFalse => cases hf

theorem blames_faults {t : Target} (h : t.Acyclic) : ∀ f ∈ t.faults h, t.Blames f := by
  intro f hf
  obtain ⟨root, hr, hf⟩ := List.mem_flatMap.mp hf
  have hbelow : ∀ id ∈ root.references, id ∈ root.headReferences →
      ∀ g ∈ t.faultsFrom h root id, t.Blames g := fun id hid hhead =>
    blames_faultsFrom h id root (.root hr) hid (.root hr hhead)
  rcases List.mem_append.mp hf with hf | hf
  · unfold headerFaults at hf
    split at hf
    case isTrue hop => exact blames_definitionFaults hr hop f hf
    case isFalse hop =>
      obtain ⟨id, hid, hf⟩ := List.mem_flatMap.mp hf
      refine hbelow id (root.mem_references_of_slot hid) (List.mem_append_right _ ?_) f hf
      rw [if_neg hop]
      exact hid
  · obtain ⟨id, hid, hf⟩ := List.mem_flatMap.mp hf
    exact hbelow id (List.mem_append_left _ hid) (List.mem_append_left _ hid) f hf

end Target

/-! ## Where rendering halts -/

namespace Script

/-- A result as the faults in its way decide it: without any it is there, and otherwise the first of
    them is told. -/
inductive Meets {α : Type} : Except Halt α → List Fault → Prop
  | ok (a : α) : Meets (.ok a) []
  | fault (f : Fault) (rest : List Fault) : Meets (.error (.fault f)) (f :: rest)

namespace Meets

variable {α β γ : Type} {fs gs : List Fault}

theorem bind {x : Except Halt α} {k : α → Except Halt β} (h : Meets x fs)
    (hk : ∀ a, x = .ok a → Meets (k a) gs) : Meets (x >>= k) (fs ++ gs) := by
  cases h with
  | ok a => exact hk a rfl
  | fault f rest => exact .fault f _

theorem map {x : Except Halt α} (h : Meets x fs) (k : α → β) : Meets (x.map k) fs := by
  cases h with
  | ok a => exact .ok (k a)
  | fault f rest => exact .fault f rest

theorem mapM {l : List γ} {k : γ → Except Halt α} {g : γ → List Fault}
    (h : ∀ c ∈ l, Meets (k c) (g c)) : Meets (l.mapM k) (l.flatMap g) := by
  induction l with
  | nil => exact .ok []
  | cons c l ih =>
    rw [List.mapM_cons, List.flatMap_cons]
    refine (h c (List.mem_cons_self ..)).bind fun a _ => ?_
    rw [← List.append_nil (l.flatMap g)]
    exact (ih fun b hb => h b (List.mem_cons_of_mem c hb)).bind fun as _ => .ok (a :: as)

theorem error_iff {x : Except Halt α} (h : Meets x fs) (halt : Halt) :
    x = .error halt ↔ ∃ f, halt = .fault f ∧ fs.head? = some f := by
  cases h with
  | ok a =>
    constructor
    · intro hx; cases hx
    · rintro ⟨f, -, hf⟩; cases hf
  | fault f rest =>
    constructor
    · intro hx
      cases hx
      exact ⟨f, rfl, rfl⟩
    · rintro ⟨g, rfl, hg⟩
      cases hg
      rfl

end Meets

section

variable (p : Project) (t : Target) (h : t.Acyclic)

/-- From an id on rendering halts at the first of the faults listed there. -/
structure MeetsFrom (id : String) : Prop where
  call : ∀ b, t.block? id = some b →
    Meets (callForm p t b) (t.slotFaults h b ++ t.signatureFaults b)
  chain : ∀ owner, Meets (statements p t (some owner) id).result (t.faultsFrom h owner id)

/-! ## One block -/

theorem meets_input {b : Block} {slot : String × Input}
    (hslot : ∀ id, slot.2 = .block id → MeetsFrom p t h id) :
    Meets (inputText p t (callForm p t) (chain p t) b slot.2)
      (slot.2.block?.toList.flatMap (t.faultsFrom h b)) := by
  cases hi : slot.2 with
  | empty => exact .ok _
  | literal v => exact .ok _
  | reference name id => exact .ok _
  | block id =>
    have hid := hslot id hi
    have hfaults : (Input.block id).block?.toList.flatMap (t.faultsFrom h b) =
        t.faultsFrom h b id := List.flatMap_singleton _ _
    rw [hfaults, inputText_block_eq]
    cases hc : t.block? id with
    | none =>
      rw [t.faultsFrom_eq, hc]
      unfold lookup
      rw [hc]
      exact .fault _ []
    | some c =>
      rw [lookup_eq_ok.mpr hc]
      dsimp only [Except.bind]
      split
      case isTrue hn =>
        have hnext : t.nextFaults h c = [] := by
          unfold Target.nextFaults
          rw [Option.isNone_iff_eq_none.mp hn]
          rfl
        rw [t.faultsFrom_eq, hc]
        dsimp only
        rw [hnext, List.append_nil]
        exact hid.call c hc
      case isFalse => exact (hid.chain b).map braced

theorem meets_arguments {b : Block} (hslots : ∀ id ∈ b.slotBlocks, MeetsFrom p t h id) :
    Meets (argumentTokens p t (callForm p t) (chain p t) b) (t.slotFaults h b) := by
  have hinputs : t.slotFaults h b =
      b.inputs.flatMap fun slot => slot.2.block?.toList.flatMap (t.faultsFrom h b) := by
    unfold Target.slotFaults Block.slotBlocks
    rw [List.filterMap_eq_flatMap_toList, List.flatMap_assoc]
  rw [hinputs, ← List.append_nil (List.flatMap _ _)]
  refine (Meets.mapM fun slot hs => ?_).bind fun slots _ => .ok _
  exact meets_input p t h fun id hi => hslots id (b.mem_slotBlocks hs hi)

theorem meets_callTokens {b : Block} (hslots : ∀ id ∈ b.slotBlocks, MeetsFrom p t h id) :
    Meets (callTokens p t (callForm p t) (chain p t) b)
      (t.slotFaults h b ++ t.signatureFaults b) := by
  refine (meets_arguments p t h hslots).bind fun tokens _ => ?_
  unfold Target.signatureFaults
  by_cases hop : b.opcode = callOpcode
  · rw [if_pos hop]
    cases hp : b.proccode? with
    | none =>
      rw [if_pos ⟨hop, rfl⟩]
      exact .fault _ []
    | some signature =>
      rw [if_neg (by simp)]
      exact .ok _
  · rw [if_neg hop, if_neg fun hboth => hop hboth.1]
    exact .ok _

/-! ## The whole graph -/

theorem meets_bodyCalls {b : Block} (hnext : ∀ id, b.next = some id → MeetsFrom p t h id) :
    Meets (bodyCalls p t b) (t.nextFaults h b) := by
  unfold bodyCalls Target.nextFaults
  cases hn : b.next with
  | none => exact .ok _
  | some next =>
    rw [Option.toList_some, List.flatMap_singleton]
    exact (hnext next hn).chain b

theorem meetsFrom (id : String) : MeetsFrom p t h id := by
  refine h.induction (fun i ih => ?_) id
  have hcall : ∀ b, t.block? i = some b →
      Meets (callForm p t b) (t.slotFaults h b ++ t.signatureFaults b) := by
    intro b hb
    rw [callForm_eq p t h hb, callText_eq p t _ _ (callForm_ne_nil p t)]
    exact (meets_callTokens p t h fun j hj => ih j ⟨b, hb, b.mem_references_of_slot hj⟩).map _
  refine ⟨hcall, fun owner => ?_⟩
  rw [result_statements p t h, t.faultsFrom_eq]
  cases hb : t.block? i with
  | none =>
    unfold lookup
    rw [hb]
    exact .fault _ []
  | some b =>
    rw [lookup_eq_ok.mpr hb]
    have hrest := meets_bodyCalls p t h fun j hj => ih j ⟨b, hb, b.mem_references_of_next hj⟩
    exact (hcall b hb).bind fun call _ => hrest.map _

theorem meets_definedSignature (root : Block) :
    Meets (definedSignature t root) (t.definitionFaults root) := by
  unfold definedSignature Target.definitionFaults
  cases root.inputBlock? prototypeSlot with
  | none => exact .fault _ []
  | some id =>
    dsimp only
    cases hb : t.block? id with
    | none =>
      unfold lookup
      rw [hb]
      exact .fault _ []
    | some prototype =>
      rw [lookup_eq_ok.mpr hb]
      dsimp only [bind, Except.bind]
      cases prototype.proccode? with
      | none => exact .fault _ []
      | some signature => exact .ok _

theorem meets_headerTokens (root : Block) :
    Meets (headerTokens p t root) (t.headerFaults h root) := by
  unfold headerTokens Target.headerFaults
  split
  · exact (meets_definedSignature t root).map _
  · exact meets_arguments p t h fun id _ => meetsFrom p t h id

theorem meets_targetText : Meets (targetText p t) (t.faults h) := by
  rw [targetText_eq]
  refine (Meets.mapM fun root _ => ?_).map _
  refine Meets.map (Meets.bind (meets_headerTokens p t h root) fun header _ => ?_) _
  rw [← List.append_nil (t.nextFaults h root)]
  exact (meets_bodyCalls p t h fun id _ => meetsFrom p t h id).bind fun calls _ => .ok _

/-- A target without circles halts at the first of its faults and at nothing else, and each of its
    faults names a block that is reached and what this block lacks. -/
theorem targetText_eq_error_iff_head_faults :
    (∀ halt, targetText p t = .error halt ↔
      ∃ f, halt = .fault f ∧ (t.faults h).head? = some f) ∧
    ∀ f ∈ t.faults h, t.Blames f :=
  ⟨(meets_targetText p t h).error_iff, Target.blames_faults h⟩

end

/-! ## Several faults at once -/

/-- A call without a signature, whose slot starts a chain that lacks its end and a block in the slot
    of its head. A definition that nothing leads to stands before them and one that is a root behind
    them, both without a prototype. -/
def manyFaults : Target where
  name := "S"
  isStage := false
  variableDecls := []
  listDecls := []
  blocks := [
    Block.bare "d" definitionOpcode none [],
    { Block.bare "r" "when" (some "a") [] with topLevel := true },
    Block.bare "a" callOpcode none [("X", .block "b")],
    Block.bare "b" "say" (some "lost") [("Y", .empty), ("Z", .block "ghost")],
    { Block.bare "e" definitionOpcode none [] with topLevel := true }]

theorem acyclic_manyFaults : manyFaults.Acyclic :=
  Target.acyclic_of_measure
    (fun id => match id with | "r" => 3 | "a" => 2 | "b" => 1 | _ => 0) (by decide)

theorem head_faults_manyFaults :
    manyFaults.Acyclic ∧
      targetText ⟨[manyFaults], []⟩ manyFaults =
        .error (.fault (.missingBlock "S" "b" "say" "ghost")) ∧
      (manyFaults.faults acyclic_manyFaults).head? = some (.missingBlock "S" "b" "say" "ghost") ∧
      manyFaults.Blames (.missingBlock "S" "b" "say" "ghost") := by
  have hhalts : targetText ⟨[manyFaults], []⟩ manyFaults =
      .error (.fault (.missingBlock "S" "b" "say" "ghost")) := by decide +kernel
  obtain ⟨hfirst, hblames⟩ :=
    targetText_eq_error_iff_head_faults ⟨[manyFaults], []⟩ manyFaults acyclic_manyFaults
  obtain ⟨f, hf, hhead⟩ := (hfirst _).mp hhalts
  cases hf
  exact ⟨acyclic_manyFaults, hhalts, hhead, hblames _ (List.mem_of_mem_head? hhead)⟩

end Script

end BlockScript
