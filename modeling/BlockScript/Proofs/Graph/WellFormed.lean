/-
  When a target can be rendered.

  Rendering follows ids: from a root its successor and, unless the root is a definition, the ids in
  its slots; from every block reached that way its successor and the ids in all its slots. A target
  is well formed if every definition that is a root has a prototype with a signature, every followed
  id has a block, and every procedure call under a followed id has a signature. A target without
  circles is rendered if and only if it is well formed (`targetText_isOk_iff_wellFormed`); blocks
  that are not followed have no say in it.

  A root is exempt from having its slots followed only in its own header: a definition that some
  other block names is rendered there like any block (`not_isOk_iff_wellFormed_spared`).
-/
import BlockScript.Proofs.Graph.Acyclic
import BlockScript.Proofs.Script.Arguments

namespace BlockScript

open BlockScript.Results BlockScript.Script BlockScript.Text

/-! ## What is followed -/

/-- The ids that rendering follows from a root. -/
def Block.headReferences (b : Block) : List String :=
  b.next.toList ++ if b.opcode = definitionOpcode then [] else b.slotBlocks

/-- Whether the block has a signature if it is a procedure call. -/
def Block.Signed (b : Block) : Prop :=
  b.opcode = callOpcode → ∃ signature, b.proccode? = some signature

namespace Target

/-- The ids that are followed from the roots, where `references` says what a block that was reached
    leads to. -/
inductive Followed (t : Target) (references : Block → List String) : String → Prop
  | root {root : Block} {id : String} (hr : root ∈ t.roots) (hi : id ∈ root.headReferences) :
    Followed t references id
  | nested {i j : String} {b : Block} (hi : Followed t references i) (hb : t.block? i = some b)
    (hj : j ∈ references b) : Followed t references j

/-- Whether a definition has a prototype with a signature. -/
def HasPrototype (t : Target) (root : Block) : Prop :=
  ∃ id prototype signature, root.inputBlock? prototypeSlot = some id ∧
    t.block? id = some prototype ∧ prototype.proccode? = some signature

/-- Whether nothing that rendering needs is missing. -/
structure WellFormed (t : Target) (references : Block → List String) : Prop where
  definitions : ∀ root ∈ t.roots, root.opcode = definitionOpcode → t.HasPrototype root
  present : ∀ id, t.Followed references id → ∃ b, t.block? id = some b
  signed : ∀ id b, t.Followed references id → t.block? id = some b → b.Signed

/-- Whether every id that an id leads to, itself included, has a block with what it needs. -/
def Sound (t : Target) (id : String) : Prop :=
  ∀ j, Relation.ReflTransGen t.RefersTo id j → ∃ b, t.block? j = some b ∧ b.Signed

theorem sound_iff {t : Target} {id : String} :
    t.Sound id ↔ ∃ b, t.block? id = some b ∧ b.Signed ∧ ∀ j ∈ b.references, t.Sound j := by
  constructor
  · intro h
    obtain ⟨b, hb, hs⟩ := h id .refl
    exact ⟨b, hb, hs, fun j hj k hk => h k (.head ⟨b, hb, hj⟩ hk)⟩
  · rintro ⟨b, hb, hs, hrest⟩ k hk
    rcases Relation.ReflTransGen.cases_head hk with rfl | ⟨j, ⟨c, hc, hj⟩, hjk⟩
    · exact ⟨b, hb, hs⟩
    · have hbc : b = c := Option.some.inj (hb.symm.trans hc)
      exact hrest j (hbc ▸ hj) k hjk

/-- Whether a root has what its script needs. -/
def RootSound (t : Target) (root : Block) : Prop :=
  (root.opcode = definitionOpcode → t.HasPrototype root) ∧
    ∀ id ∈ root.headReferences, t.Sound id

theorem followed_of_reflTransGen {t : Target} {i j : String} (hi : t.Followed Block.references i)
    (hij : Relation.ReflTransGen t.RefersTo i j) : t.Followed Block.references j := by
  induction hij with
  | refl => exact hi
  | tail _ hjk ih =>
    obtain ⟨b, hb, hk⟩ := hjk
    exact .nested ih hb hk

theorem Followed.sound {t : Target} (hroots : ∀ root ∈ t.roots, t.RootSound root) {id : String}
    (hid : t.Followed Block.references id) : t.Sound id := by
  induction hid with
  | root hr hi => exact (hroots _ hr).2 _ hi
  | nested _ hb hj ih =>
    obtain ⟨c, hc, -, hrest⟩ := sound_iff.mp ih
    have hcb := Option.some.inj (hc.symm.trans hb)
    exact hrest _ (hcb ▸ hj)

/-- A target is well formed if each of its roots has what its script needs. -/
theorem wellFormed_iff {t : Target} :
    t.WellFormed Block.references ↔ ∀ root ∈ t.roots, t.RootSound root := by
  constructor
  · intro h root hr
    refine ⟨h.definitions root hr, fun id hi j hij => ?_⟩
    have hj := followed_of_reflTransGen (.root hr hi) hij
    obtain ⟨b, hb⟩ := h.present j hj
    exact ⟨b, hb, h.signed j b hj hb⟩
  · intro h
    refine ⟨fun root hr => (h root hr).1, fun id hid => ?_, fun id b hid hb => ?_⟩
    · obtain ⟨b, hb, -⟩ := hid.sound h id .refl
      exact ⟨b, hb⟩
    · obtain ⟨c, hc, hs⟩ := hid.sound h id .refl
      have hcb := Option.some.inj (hc.symm.trans hb)
      exact hcb ▸ hs

/-- The two targets have the same roots, and the same blocks under the ids that are followed and
    under those of the prototypes of definitions. They may differ in all other blocks. -/
structure AgreesOnFollowed (t other : Target) : Prop where
  roots : other.roots = t.roots
  followed : ∀ id, t.Followed Block.references id → other.block? id = t.block? id
  prototypes : ∀ root ∈ t.roots, root.opcode = definitionOpcode → ∀ id,
    root.inputBlock? prototypeSlot = some id → other.block? id = t.block? id

theorem AgreesOnFollowed.followed_iff {t other : Target} (h : t.AgreesOnFollowed other)
    {id : String} :
    other.Followed Block.references id ↔ t.Followed Block.references id := by
  constructor
  · intro hid
    induction hid with
    | root hr hi => exact .root (h.roots ▸ hr) hi
    | nested _ hb hj ih =>
      rw [h.followed _ ih] at hb
      exact .nested ih hb hj
  · intro hid
    induction hid with
    | root hr hi => exact .root (h.roots.symm ▸ hr) hi
    | nested hi hb hj ih =>
      rw [← h.followed _ hi] at hb
      exact .nested ih hb hj

theorem AgreesOnFollowed.symm {t other : Target} (h : t.AgreesOnFollowed other) :
    other.AgreesOnFollowed t := by
  refine ⟨h.roots.symm, fun id hid => ?_, fun root hr hop id hi => ?_⟩
  · exact (h.followed id (h.followed_iff.mp hid)).symm
  · rw [h.roots] at hr
    exact (h.prototypes root hr hop id hi).symm

theorem AgreesOnFollowed.wellFormed {t other : Target} (h : t.AgreesOnFollowed other)
    (hw : t.WellFormed Block.references) : other.WellFormed Block.references := by
  refine ⟨fun root hr hop => ?_, fun id hid => ?_, fun id b hid hb => ?_⟩
  · rw [h.roots] at hr
    obtain ⟨id, prototype, signature, hi, hb, hp⟩ := hw.definitions root hr hop
    rw [← h.prototypes root hr hop id hi] at hb
    exact ⟨id, prototype, signature, hi, hb, hp⟩
  · have hid := h.followed_iff.mp hid
    rw [h.followed id hid]
    exact hw.present id hid
  · have hid := h.followed_iff.mp hid
    rw [h.followed id hid] at hb
    exact hw.signed id b hid hb

/-- Blocks that are not followed have no say in whether a target is well formed. -/
theorem AgreesOnFollowed.wellFormed_iff {t other : Target} (h : t.AgreesOnFollowed other) :
    other.WellFormed Block.references ↔ t.WellFormed Block.references :=
  ⟨h.symm.wellFormed, h.wellFormed⟩

end Target

namespace Script

section

variable (project : Project) (target : Target)

/-! ## One block -/

/-- From an id on everything is rendered exactly if it is sound. -/
structure Decided (id : String) : Prop where
  call : ∀ b, target.block? id = some b →
    ((∃ text, callForm project target b = .ok text) ↔
      b.Signed ∧ ∀ j ∈ b.slotBlocks, target.Sound j)
  chain : ∀ referrer, (∃ calls, (statements project target referrer id).result = .ok calls) ↔
    target.Sound id

theorem inputText_isOk_iff (owner : Block) (input : Input)
    (h : ∀ id, input = .block id → Decided project target id) :
    (∃ text, inputText project target (callForm project target) (chain project target) owner input =
      .ok text) ↔ ∀ id, input = .block id → target.Sound id := by
  cases input with
  | empty => exact ⟨fun _ _ hi => (nomatch hi), fun _ => ⟨_, rfl⟩⟩
  | literal value => exact ⟨fun _ _ hi => (nomatch hi), fun _ => ⟨_, rfl⟩⟩
  | reference name id => exact ⟨fun _ _ hi => (nomatch hi), fun _ => ⟨_, rfl⟩⟩
  | block id =>
    have hid := h id rfl
    have hgoal : (∀ i, Input.block id = .block i → target.Sound i) ↔ target.Sound id :=
      ⟨fun hs => hs id rfl, fun hs i hi => by cases hi; exact hs⟩
    rw [hgoal, inputText_block_eq]
    cases hb : target.block? id with
    | none =>
      obtain ⟨halt, hl⟩ := lookup_eq_error hb (some owner)
      rw [hl, Target.sound_iff, hb]
      constructor
      · rintro ⟨text, ht⟩; cases ht
      · rintro ⟨b, hb, -⟩; cases hb
    | some b =>
      rw [lookup_eq_ok.mpr hb]
      dsimp only [Except.bind]
      split
      case isTrue hn =>
        have hrefs : b.references = b.slotBlocks := by
          unfold Block.references
          rw [Option.isNone_iff_eq_none.mp hn]
          rfl
        rw [hid.call b hb, Target.sound_iff, hb]
        simp [hrefs]
      case isFalse hn => rw [map_isOk_iff, hid.chain]

theorem argumentTokens_isOk_iff {b : Block} (h : ∀ id ∈ b.slotBlocks, Decided project target id) :
    (∃ tokens, argumentTokens project target (callForm project target) (chain project target) b =
      .ok tokens) ↔ ∀ id ∈ b.slotBlocks, target.Sound id := by
  have hslots : (∃ tokens, argumentTokens project target (callForm project target)
      (chain project target) b = .ok tokens) ↔ ∃ slots, (b.inputs.mapM fun slot =>
        inputText project target (callForm project target) (chain project target) b slot.2) =
          .ok slots := by
    constructor
    · rintro ⟨tokens, ht⟩
      obtain ⟨slots, hs, -⟩ := bind_eq_ok.mp ht
      exact ⟨slots, hs⟩
    · rintro ⟨slots, hs⟩
      exact ⟨_, bind_eq_ok.mpr ⟨slots, hs, rfl⟩⟩
  rw [hslots, mapM_isOk_iff]
  constructor
  · intro hall id hid
    obtain ⟨slot, hs, hslot⟩ := b.exists_slot_of_mem hid
    exact (inputText_isOk_iff project target b slot.2
      (fun j hj => h j (b.mem_slotBlocks hs hj))).mp (hall slot hs) id hslot
  · intro hall slot hs
    exact (inputText_isOk_iff project target b slot.2
      (fun j hj => h j (b.mem_slotBlocks hs hj))).mpr fun j hj => hall j (b.mem_slotBlocks hs hj)

theorem callTokens_isOk_iff (call : CallText) (chain : ChainWriter) (b : Block) :
    (∃ tokens, callTokens project target call chain b = .ok tokens) ↔
      b.Signed ∧ ∃ tokens, argumentTokens project target call chain b = .ok tokens := by
  unfold callTokens Block.Signed
  constructor
  · rintro ⟨tokens, ht⟩
    obtain ⟨arguments, harguments, ht⟩ := bind_eq_ok.mp ht
    refine ⟨fun hop => ?_, arguments, harguments⟩
    rw [if_pos hop] at ht
    cases hp : b.proccode? with
    | none => rw [hp] at ht; cases ht
    | some signature => exact ⟨signature, rfl⟩
  · rintro ⟨hsigned, arguments, harguments⟩
    by_cases hop : b.opcode = callOpcode
    · obtain ⟨signature, hp⟩ := hsigned hop
      refine ⟨quoted signature :: arguments, bind_eq_ok.mpr ⟨arguments, harguments, ?_⟩⟩
      rw [if_pos hop, hp]
      rfl
    · refine ⟨arguments, bind_eq_ok.mpr ⟨arguments, harguments, ?_⟩⟩
      rw [if_neg hop]
      rfl

theorem decided (h : target.Acyclic) (id : String) : Decided project target id := by
  refine h.induction (fun i ih => ?_) id
  have hcall : ∀ b, target.block? i = some b → ((∃ text, callForm project target b = .ok text) ↔
      b.Signed ∧ ∀ j ∈ b.slotBlocks, target.Sound j) := by
    intro b hb
    rw [callForm_eq project target h hb,
      callText_eq project target _ _ (callForm_ne_nil project target), map_isOk_iff,
      callTokens_isOk_iff, argumentTokens_isOk_iff project target
        fun j hj => ih j ⟨b, hb, b.mem_references_of_slot hj⟩]
  refine ⟨hcall, fun referrer => ?_⟩
  rw [statements_eq project target h, Target.sound_iff]
  cases hb : target.block? i with
  | none =>
    obtain ⟨halt, hl⟩ := lookup_eq_error hb referrer
    rw [hl]
    constructor
    · rintro ⟨calls, hc⟩; cases hc
    · rintro ⟨b, hb, -⟩; cases hb
  | some b =>
    rw [lookup_eq_ok.mpr hb]
    have hthis := hcall b hb
    dsimp only
    cases hc : callForm project target b with
    | error halt =>
      constructor
      · rintro ⟨calls, hcalls⟩; cases hcalls
      · rintro ⟨c, hc', hsigned, hrest⟩
        cases hc'
        obtain ⟨text, ht⟩ := hthis.mpr ⟨hsigned, fun j hj => hrest j (b.mem_references_of_slot hj)⟩
        rw [hc] at ht
        cases ht
    | ok call =>
      obtain ⟨hsigned, hslots⟩ := hthis.mp ⟨call, hc⟩
      cases hn : b.next with
      | none =>
        refine ⟨fun _ => ⟨b, rfl, hsigned, fun j hj => ?_⟩, fun _ => ⟨[call], rfl⟩⟩
        unfold Block.references at hj
        rw [hn] at hj
        exact hslots j hj
      | some next =>
        have hnext := (ih next ⟨b, hb, b.mem_references_of_next hn⟩).chain (some b)
        dsimp only
        rw [Statements.result_cons, map_isOk_iff, hnext]
        constructor
        · refine fun hs => ⟨b, rfl, hsigned, fun j hj => ?_⟩
          unfold Block.references at hj
          rw [hn] at hj
          rcases List.mem_append.mp hj with hj | hj
          · rw [List.mem_singleton.mp hj]
            exact hs
          · exact hslots j hj
        · rintro ⟨c, hc', -, hrest⟩
          cases hc'
          exact hrest next (b.mem_references_of_next hn)

/-! ## Scripts -/

theorem definedSignature_isOk_iff (root : Block) :
    (∃ signature, definedSignature target root = .ok signature) ↔ target.HasPrototype root := by
  unfold definedSignature Target.HasPrototype
  cases root.inputBlock? prototypeSlot with
  | none =>
    constructor
    · rintro ⟨signature, h⟩; cases h
    · rintro ⟨id, prototype, signature, h, -⟩; cases h
  | some id =>
    constructor
    · rintro ⟨signature, h⟩
      obtain ⟨prototype, hl, h⟩ := bind_eq_ok.mp h
      cases hp : prototype.proccode? with
      | none => rw [hp] at h; cases h
      | some signature => exact ⟨id, prototype, signature, rfl, lookup_eq_ok.mp hl, hp⟩
    · rintro ⟨id', prototype, signature, hi, hb, hp⟩
      cases hi
      refine ⟨signature, bind_eq_ok.mpr ⟨prototype, lookup_eq_ok.mpr hb, ?_⟩⟩
      rw [hp]
      rfl

theorem headerLine_isOk_iff (h : target.Acyclic) (root : Block) :
    (∃ header, headerLine project target root = .ok header) ↔
      (root.opcode = definitionOpcode → target.HasPrototype root) ∧
        (root.opcode ≠ definitionOpcode → ∀ id ∈ root.slotBlocks, target.Sound id) := by
  rw [headerLine_eq, map_isOk_iff]
  unfold headerTokens
  by_cases hop : root.opcode = definitionOpcode
  · rw [if_pos hop, map_isOk_iff, definedSignature_isOk_iff]
    simp [hop]
  · rw [if_neg hop, argumentTokens_isOk_iff project target fun id _ => decided project target h id]
    simp [hop]

theorem writeBody_isOk_iff (h : target.Acyclic) (root : Block) (out : Emitter) :
    (∃ written, writeBody project target root out = .ok written) ↔
      ∀ next, root.next = some next → target.Sound next := by
  unfold writeBody
  cases root.next with
  | none => exact ⟨fun _ _ hn => (nomatch hn), fun _ => ⟨out, rfl⟩⟩
  | some next =>
    have hnext : (∀ n, some next = some n → target.Sound n) ↔ target.Sound next :=
      ⟨fun hs => hs next rfl, fun hs n hn => by cases hn; exact hs⟩
    rw [hnext, ← (decided project target h next).chain (some root)]
    dsimp only
    rw [chain_eq_write]
    unfold Statements.write Statements.result
    cases (statements project target (some root) next).halt with
    | none => exact ⟨fun _ => ⟨_, rfl⟩, fun _ => ⟨_, rfl⟩⟩
    | some halt =>
      constructor
      · rintro ⟨written, hw⟩; cases hw
      · rintro ⟨calls, hc⟩; cases hc

theorem writeScript_isOk_iff (h : target.Acyclic) (root : Block) (out : Emitter) :
    (∃ written, writeScript project target out root = .ok written) ↔ target.RootSound root := by
  have hheader := headerLine_isOk_iff project target h root
  constructor
  · rintro ⟨written, hw⟩
    obtain ⟨header, hh, hw⟩ := bind_eq_ok.mp hw
    obtain ⟨body, hb, -⟩ := bind_eq_ok.mp hw
    obtain ⟨hdefinition, hslots⟩ := hheader.mp ⟨header, hh⟩
    have hnext := (writeBody_isOk_iff project target h root _).mp ⟨body, hb⟩
    refine ⟨hdefinition, fun id hi => ?_⟩
    rcases List.mem_append.mp hi with hi | hi
    · exact hnext id (Option.mem_toList.mp hi)
    · split at hi
      · cases hi
      · exact hslots ‹_› id hi
  · rintro ⟨hdefinition, hrest⟩
    have hslots : root.opcode ≠ definitionOpcode → ∀ id ∈ root.slotBlocks, target.Sound id := by
      intro hop id hi
      refine hrest id (List.mem_append_right _ ?_)
      rw [if_neg hop]
      exact hi
    have hnext : ∀ next, root.next = some next → target.Sound next := fun next hn =>
      hrest next (List.mem_append_left _ (Option.mem_toList.mpr hn))
    obtain ⟨header, hh⟩ := hheader.mpr ⟨hdefinition, hslots⟩
    obtain ⟨body, hb⟩ := (writeBody_isOk_iff project target h root
      (((out.writeLine (placeLine root) true).writeLine header true).addIndent 1)).mpr hnext
    exact ⟨_, bind_eq_ok.mpr ⟨header, hh, bind_eq_ok.mpr ⟨body, hb, rfl⟩⟩⟩

theorem writeScripts_isOk_iff (h : target.Acyclic) (roots : List Block) (out : Emitter) :
    (∃ written, roots.foldlM (writeScript project target) out = .ok written) ↔
      ∀ root ∈ roots, target.RootSound root := by
  induction roots generalizing out with
  | nil => exact ⟨fun _ root hr => (nomatch hr), fun _ => ⟨out, rfl⟩⟩
  | cons root rest ih =>
    rw [List.foldlM_cons, List.forall_mem_cons]
    constructor
    · rintro ⟨written, hw⟩
      obtain ⟨first, hfirst, hw⟩ := bind_eq_ok.mp hw
      exact ⟨(writeScript_isOk_iff project target h root out).mp ⟨first, hfirst⟩,
        (ih first).mp ⟨written, hw⟩⟩
    · rintro ⟨hroot, hrest⟩
      obtain ⟨first, hfirst⟩ := (writeScript_isOk_iff project target h root out).mpr hroot
      obtain ⟨written, hw⟩ := (ih first).mpr hrest
      exact ⟨written, bind_eq_ok.mpr ⟨first, hfirst, hw⟩⟩

theorem targetText_isOk_iff (h : target.Acyclic) :
    (∃ text, targetText project target = .ok text) ↔ target.WellFormed Block.references := by
  rw [Target.wellFormed_iff, ← writeScripts_isOk_iff project target h target.roots (preamble target)]
  constructor
  · rintro ⟨text, ht⟩
    obtain ⟨out, ho, -⟩ := bind_eq_ok.mp ht
    exact ⟨out, ho⟩
  · rintro ⟨out, ho⟩
    exact ⟨out.text, bind_eq_ok.mpr ⟨out, ho, rfl⟩⟩

/-- A target without circles is rendered exactly if it is well formed, whatever the blocks hold that
    no root leads to. -/
theorem targetText_isOk_iff_wellFormed (h : target.Acyclic) :
    ((∃ text, targetText project target = .ok text) ↔ target.WellFormed Block.references) ∧
      ∀ other : Target, other.Acyclic → target.AgreesOnFollowed other →
        ((∃ text, targetText project other = .ok text) ↔
          ∃ text, targetText project target = .ok text) := by
  refine ⟨targetText_isOk_iff project target h, fun other ho hagree => ?_⟩
  rw [targetText_isOk_iff project other ho, targetText_isOk_iff project target h,
    hagree.wellFormed_iff]

end

/-! ## Definitions as roots and elsewhere -/

/-- A definition whose prototype names a block that is not there, its body a signed call, and a call
    without a signature that nothing leads to. -/
def sparedPrototype : Target where
  name := "S"
  isStage := false
  variableDecls := []
  listDecls := []
  blocks := [
    { Block.bare "d" definitionOpcode (some "c") [(prototypeSlot, .block "p")] with
      topLevel := true },
    { Block.bare "p" "procedures_prototype" none [("x", .block "ghost")] with
      mutation := some ⟨some "jump"⟩ },
    { Block.bare "c" callOpcode none [] with mutation := some ⟨some "jump"⟩ },
    Block.bare "u" callOpcode (some "ghost") []]

theorem acyclic_sparedPrototype : sparedPrototype.Acyclic :=
  Target.acyclic_of_measure
    (fun id => match id with | "d" => 2 | "p" => 1 | "u" => 1 | _ => 0) (by decide)

theorem wellFormed_sparedPrototype :
    sparedPrototype.Acyclic ∧ sparedPrototype.WellFormed Block.references := by
  have hrendered : ∃ text, targetText ⟨[], []⟩ sparedPrototype = .ok text :=
    ⟨"\n".intercalate ["// Generate by scratch-script", "#meta(false, \"S\");", "@(0, 0)",
      "procedures_definition(\"jump\", \x7b", "    procedures_call(\"jump\");", "\x7d);", ""],
      by decide +kernel⟩
  exact ⟨acyclic_sparedPrototype,
    (targetText_isOk_iff_wellFormed ⟨[], []⟩ sparedPrototype
      acyclic_sparedPrototype).1.mp hrendered⟩

/-- What a block leads to if the slots of definitions that are roots were never followed. -/
def sparedReferences (b : Block) : List String :=
  if b.topLevel then b.headReferences else b.references

/-- A root whose successor is `d`. -/
def chainHead : Block := { Block.bare "r" "start" (some "d") [] with topLevel := true }

/-- A definition that names a block which is not there besides its prototype. -/
def chainedDefinition : Block :=
  { Block.bare "d" definitionOpcode none [(prototypeSlot, .block "p"), ("extra", .block "ghost")]
    with topLevel := true }

/-- A script that goes on in a definition which is a root itself. -/
def definitionInChain : Target where
  name := "S"
  isStage := false
  variableDecls := []
  listDecls := []
  blocks := [chainHead, chainedDefinition,
    { Block.bare "p" "procedures_prototype" none [] with mutation := some ⟨some "jump"⟩ }]

theorem acyclic_definitionInChain : definitionInChain.Acyclic :=
  Target.acyclic_of_measure (fun id => match id with | "r" => 2 | "d" => 1 | _ => 0) (by decide)

theorem roots_definitionInChain : definitionInChain.roots = [chainHead, chainedDefinition] := rfl

theorem followed_definitionInChain {id : String}
    (h : definitionInChain.Followed sparedReferences id) : id = "d" := by
  induction h with
  | root hr hi =>
    rw [roots_definitionInChain, List.mem_pair] at hr
    rcases hr with rfl | rfl
    · exact List.mem_singleton.mp hi
    · exact absurd hi List.not_mem_nil
  | nested _ hb hj ih =>
    subst ih
    cases hb
    exact absurd hj List.not_mem_nil

/-- Well-formedness that spares the definition in the chain holds there, and still there is no
    text: in a chain a definition is rendered like any block. -/
theorem not_isOk_iff_wellFormed_spared :
    definitionInChain.Acyclic ∧
      ¬ ((∃ text, targetText ⟨[definitionInChain], []⟩ definitionInChain = .ok text) ↔
        definitionInChain.WellFormed sparedReferences) := by
  refine ⟨acyclic_definitionInChain, fun hiff => ?_⟩
  have hw : definitionInChain.WellFormed sparedReferences := by
    refine ⟨fun root hr hop => ?_, fun id hid => ?_, fun id b hid hb hop => ?_⟩
    · rw [roots_definitionInChain, List.mem_pair] at hr
      rcases hr with rfl | rfl
      · exact absurd hop (by decide)
      · exact ⟨"p", _, "jump", rfl, rfl, rfl⟩
    · rw [followed_definitionInChain hid]
      exact ⟨_, rfl⟩
    · rw [followed_definitionInChain hid] at hb
      cases hb
      exact absurd hop (by decide)
  obtain ⟨text, ht⟩ := hiff.mpr hw
  have hfails : (targetText ⟨[definitionInChain], []⟩ definitionInChain).toOption = none := by
    decide +kernel
  rw [ht] at hfails
  cases hfails

end Script

end BlockScript
