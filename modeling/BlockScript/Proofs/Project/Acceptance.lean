/-
  Which documents are projects.

  A document is a project if its `targets` are an array and each of them has a name, a stage flag
  and, in the objects of its block table, opcodes and inputs that are arrays (`IsProject`). Of
  anything else, be it missing or of another shape, reading takes no notice. A document that is no
  project is refused for its first defect: the targets come in array order, in a target its name
  comes before its stage flag and that before its blocks in document order, and in a block the
  opcode comes before the inputs (`FirstDefect`). The statement is `ofDocument_decides`.
-/
import BlockScript.Project.Decode
import BlockScript.Proofs.Results

namespace BlockScript

open BlockScript.Json BlockScript.Results

/-! ## What a document has to have -/

/-- The value of a block has an opcode and, in an object of inputs, only arrays. -/
structure IsBlock (v : Document) : Prop where
  opcode : ∃ opcode, v.get? "opcode" = some (.string opcode)
  inputs : ∀ inputs, v.get? "inputs" = some (.object inputs) →
    ∀ slot ∈ inputs, ∃ items, slot.2 = .array items

/-- The value of a target has a name, a stage flag and, in an object of blocks, only values of
    blocks and values that are no objects. -/
structure IsTarget (v : Document) : Prop where
  name : ∃ name, v.get? "name" = some (.string name)
  isStage : ∃ flag, v.get? "isStage" = some (.bool flag)
  blocks : ∀ entries, v.get? "blocks" = some (.object entries) →
    ∀ entry ∈ entries, (∃ members, entry.2 = .object members) → IsBlock entry.2

/-- The document of a project has an array of targets. -/
def IsProject (v : Document) : Prop :=
  ∃ targets, v.get? "targets" = some (.array targets) ∧ ∀ target ∈ targets, IsTarget target

/-! ## What is told of a document that has not -/

/-- The first defect of a block of the named target. -/
inductive Block.FirstDefect (target : String) : String × Document → Defect → Prop
  | opcode {id : String} {v : Document}
    (hopcode : ¬ ∃ opcode, v.get? "opcode" = some (.string opcode)) :
    FirstDefect target (id, v) (.noOpcode target id)
  | input {id opcode : String} {v : Document} {before after : List (String × Document)}
    {slot : String × Document} (hopcode : v.get? "opcode" = some (.string opcode))
    (hinputs : v.get? "inputs" = some (.object (before ++ slot :: after)))
    (hbefore : ∀ other ∈ before, ∃ items, other.2 = .array items)
    (hslot : ¬ ∃ items, slot.2 = .array items) :
    FirstDefect target (id, v) (.inputNotArray target id opcode slot.1)

/-- The first defect of a target. -/
inductive Target.FirstDefect : Document → Defect → Prop
  | name {v : Document} (hname : ¬ ∃ name, v.get? "name" = some (.string name)) :
    FirstDefect v .noName
  | isStage {v : Document} {name : String} (hname : v.get? "name" = some (.string name))
    (hstage : ¬ ∃ flag, v.get? "isStage" = some (.bool flag)) : FirstDefect v (.noStageFlag name)
  | block {v : Document} {name : String} {flag : Bool} {before after : List (String × Document)}
    {entry : String × Document} {members : List (String × Document)} {d : Defect}
    (hname : v.get? "name" = some (.string name)) (hstage : v.get? "isStage" = some (.bool flag))
    (hblocks : v.get? "blocks" = some (.object (before ++ entry :: after)))
    (hbefore : ∀ other ∈ before, (∃ members, other.2 = .object members) → IsBlock other.2)
    (hentry : entry.2 = .object members) (hdefect : Block.FirstDefect name entry d) :
    FirstDefect v d

/-- The first defect of a document. -/
inductive FirstDefect : Document → Defect → Prop
  | targets {v : Document} (htargets : ¬ ∃ targets, v.get? "targets" = some (.array targets)) :
    FirstDefect v .noTargets
  | target {v : Document} {before after : List Document} {target : Document} {d : Defect}
    (htargets : v.get? "targets" = some (.array (before ++ target :: after)))
    (hbefore : ∀ other ∈ before, IsTarget other) (hdefect : Target.FirstDefect target d) :
    FirstDefect v d

/-- The names by which a defect can be found: those of the target, the block, the opcode and the
    input it lies in. -/
def Defect.concerned : Defect → List String
  | .noTargets => []
  | .noName => []
  | .noStageFlag target => [target]
  | .noOpcode target block => [target, block]
  | .inputNotArray target block opcode input => [target, block, opcode, input]

/-- Whether a string stands in a message. -/
def Names (message s : String) : Prop := s.toList <:+: message.toList

theorem Names.self (s : String) : Names s s := List.infix_rfl

theorem Names.left {a s : String} (h : Names a s) (b : String) : Names (a ++ b) s := by
  unfold Names
  rw [String.toList_append]
  exact List.infix_append_of_infix_left h

theorem Names.right {b s : String} (a : String) (h : Names b s) : Names (a ++ b) s := by
  unfold Names
  rw [String.toList_append]
  exact List.infix_append_of_infix_right h

/-- A message names what its defect concerns. -/
theorem Defect.message_names {d : Defect} {s : String} (h : s ∈ d.concerned) :
    Names d.message s := by
  apply Names.right
  cases d with
  | noTargets => cases h
  | noName => cases h
  | noStageFlag target =>
    rw [List.mem_singleton.mp h]
    exact .left (.right _ (.self target)) _
  | noOpcode target block =>
    simp only [concerned, List.mem_cons, List.not_mem_nil, or_false] at h
    rcases h with rfl | rfl
    · exact .left (.left (.left (.right _ (.self s)) _) _) _
    · exact .left (.right _ (.self s)) _
  | inputNotArray target block opcode input =>
    simp only [concerned, List.mem_cons, List.not_mem_nil, or_false] at h
    rcases h with rfl | rfl | rfl | rfl
    · exact .left (.left (.left (.left (.left (.left (.left (.right _ (.self s)) _) _) _) _) _) _) _
    · exact .left (.left (.left (.left (.left (.right _ (.self s)) _) _) _) _) _
    · exact .left (.left (.left (.right _ (.self s)) _) _) _
    · exact .left (.right _ (.self s)) _

/-! ## Members -/

theorem stringAt?_eq_some {v : Document} {key s : String} :
    stringAt? v key = some s ↔ v.get? key = some (.string s) := by
  unfold stringAt?
  cases v.get? key with
  | none => simp
  | some x => cases x <;> simp [Value.string?]

theorem boolAt?_eq_some {v : Document} {key : String} {flag : Bool} :
    boolAt? v key = some flag ↔ v.get? key = some (.bool flag) := by
  unfold boolAt?
  cases v.get? key with
  | none => simp
  | some x => cases x <;> simp [Value.bool?]

theorem membersAt_of_object {v : Document} {key : String} {members : List (String × Document)}
    (h : v.get? key = some (.object members)) : membersAt v key = members := by
  simp [membersAt, h, Value.object?]

theorem get?_of_membersAt {v : Document} {key : String} {members : List (String × Document)}
    (h : membersAt v key = members) (hne : members ≠ []) :
    v.get? key = some (.object members) := by
  subst h
  unfold membersAt at hne ⊢
  cases hget : v.get? key with
  | none => rw [hget] at hne; exact absurd rfl hne
  | some x =>
    cases x with
    | object members => rfl
    | _ => rw [hget] at hne; exact absurd rfl hne

theorem forall_mem_membersAt {v : Document} {key : String} {P : String × Document → Prop} :
    (∀ entry ∈ membersAt v key, P entry) ↔
      ∀ members, v.get? key = some (.object members) → ∀ entry ∈ members, P entry := by
  constructor
  · intro h members hget
    rw [membersAt_of_object hget] at h
    exact h
  · intro h entry hentry
    exact h _ (get?_of_membersAt rfl (List.ne_nil_of_mem hentry)) entry hentry

theorem membersAt_eq_split {v : Document} {key : String} {before after : List (String × Document)}
    {entry : String × Document} :
    membersAt v key = before ++ entry :: after ↔
      v.get? key = some (.object (before ++ entry :: after)) :=
  ⟨fun h => get?_of_membersAt h (by simp), membersAt_of_object⟩

theorem isBlockEntry_iff {entry : String × Document} :
    isBlockEntry entry = true ↔ ∃ members, entry.2 = .object members := by
  unfold isBlockEntry
  cases entry.2 <;> simp [Value.object?]

/-! ## Blocks -/

namespace Block

variable {target id opcode : String}

theorem decodeInput_isOk_iff {slot : String × Document} :
    (∃ input, decodeInput target id opcode slot = .ok input) ↔ ∃ items, slot.2 = .array items := by
  unfold decodeInput Input.ofDocument?
  cases slot.2 <;> simp [Value.array?]

theorem decodeInput_eq_error_iff {slot : String × Document} {d : Defect} :
    decodeInput target id opcode slot = .error d ↔
      (¬ ∃ items, slot.2 = .array items) ∧ d = .inputNotArray target id opcode slot.1 := by
  unfold decodeInput Input.ofDocument?
  cases slot.2 <;> simp [Value.array?, eq_comm]

variable {v : Document}

theorem decode_of_noOpcode (h : ¬ ∃ opcode, v.get? "opcode" = some (.string opcode)) :
    decode target (id, v) = .error (.noOpcode target id) := by
  have hnone : stringAt? v "opcode" = none := by
    rw [Option.eq_none_iff_forall_ne_some]
    intro opcode hopcode
    exact h ⟨opcode, stringAt?_eq_some.mp hopcode⟩
  unfold decode
  simp [hnone]

theorem decode_of_badInputs {d : Defect} (h : v.get? "opcode" = some (.string opcode))
    (hinputs : (membersAt v "inputs").mapM (decodeInput target id opcode) = .error d) :
    decode target (id, v) = .error d := by
  unfold decode
  simp [stringAt?_eq_some.mpr h, hinputs, bind, Except.bind]

theorem decode_of_inputs {inputs : List (String × Input)}
    (h : v.get? "opcode" = some (.string opcode))
    (hinputs : (membersAt v "inputs").mapM (decodeInput target id opcode) = .ok inputs) :
    ∃ b, decode target (id, v) = .ok b ∧ b.id = id ∧ b.opcode = opcode := by
  unfold decode
  simp [stringAt?_eq_some.mpr h, hinputs, bind, Except.bind, pure, Except.pure]

theorem inputs_isOk_iff :
    (∃ inputs, (membersAt v "inputs").mapM (decodeInput target id opcode) = .ok inputs) ↔
      ∀ inputs, v.get? "inputs" = some (.object inputs) →
        ∀ slot ∈ inputs, ∃ items, slot.2 = .array items := by
  rw [mapM_isOk_iff, ← forall_mem_membersAt]
  exact forall₂_congr fun slot _ => decodeInput_isOk_iff

/-- An entry is read as a block if and only if it has what a block has to have. -/
theorem decode_isOk_iff : (∃ b, decode target (id, v) = .ok b) ↔ IsBlock v := by
  by_cases hopcode : ∃ opcode, v.get? "opcode" = some (.string opcode)
  · obtain ⟨opcode, hop⟩ := hopcode
    have hblock : IsBlock v ↔
        ∃ inputs, (membersAt v "inputs").mapM (decodeInput target id opcode) = .ok inputs :=
      ⟨fun h => inputs_isOk_iff.mpr h.inputs, fun h => ⟨⟨opcode, hop⟩, inputs_isOk_iff.mp h⟩⟩
    rw [hblock]
    cases hin : (membersAt v "inputs").mapM (decodeInput target id opcode) with
    | error d => simp [decode_of_badInputs hop hin]
    | ok inputs =>
      obtain ⟨b, hb, -⟩ := decode_of_inputs hop hin
      exact ⟨fun _ => ⟨inputs, rfl⟩, fun _ => ⟨b, hb⟩⟩
  · rw [decode_of_noOpcode hopcode]
    constructor
    · rintro ⟨b, hb⟩; cases hb
    · intro h; exact absurd h.opcode hopcode

/-- An entry that is no block is refused for its first defect. -/
theorem decode_eq_error_iff {d : Defect} :
    decode target (id, v) = .error d ↔ FirstDefect target (id, v) d := by
  constructor
  · intro h
    by_cases hopcode : ∃ opcode, v.get? "opcode" = some (.string opcode)
    · obtain ⟨opcode, hop⟩ := hopcode
      cases hin : (membersAt v "inputs").mapM (decodeInput target id opcode) with
      | ok inputs =>
        obtain ⟨b, hb, -⟩ := decode_of_inputs hop hin
        rw [hb] at h
        cases h
      | error d' =>
        rw [decode_of_badInputs hop hin] at h
        cases h
        obtain ⟨before, slot, after, hsplit, hbefore, hslot⟩ := mapM_eq_error_iff.mp hin
        obtain ⟨harray, rfl⟩ := decodeInput_eq_error_iff.mp hslot
        refine .input hop (membersAt_eq_split.mp hsplit) (fun other hother => ?_) harray
        exact decodeInput_isOk_iff.mp (hbefore other hother)
    · rw [decode_of_noOpcode hopcode] at h
      cases h
      exact .opcode hopcode
  · intro h
    cases h with
    | opcode hopcode => exact decode_of_noOpcode hopcode
    | input hop hinputs hbefore hslot =>
      refine decode_of_badInputs hop (mapM_eq_error_iff.mpr ?_)
      refine ⟨_, _, _, membersAt_eq_split.mpr hinputs, fun other hother => ?_,
        decodeInput_eq_error_iff.mpr ⟨hslot, rfl⟩⟩
      exact decodeInput_isOk_iff.mpr (hbefore other hother)

/-- A block has its key as its id, and its opcode. -/
theorem id_of_decode {entry : String × Document} {b : Block} (h : decode target entry = .ok b) :
    b.id = entry.1 ∧ entry.2.get? "opcode" = some (.string b.opcode) := by
  obtain ⟨opcode, hop⟩ := (decode_isOk_iff.mp ⟨b, h⟩).opcode
  obtain ⟨inputs, hin⟩ := inputs_isOk_iff.mpr (decode_isOk_iff.mp ⟨b, h⟩).inputs
  obtain ⟨c, hc, hid, hopcode⟩ := decode_of_inputs hop hin
  rw [h] at hc
  cases hc
  exact ⟨hid, hopcode ▸ hop⟩

end Block

/-! ## Targets -/

namespace Target

/-- The entries of a target's block table that are objects, in document order. -/
def blockEntries (v : Document) : List (String × Document) :=
  match v.get? "blocks" with
  | some (.object entries) => entries.filter fun entry => entry.2.object?.isSome
  | _ => []

theorem filter_membersAt (v : Document) :
    (membersAt v "blocks").filter isBlockEntry = blockEntries v := by
  unfold blockEntries membersAt
  split
  case h_1 entries h => rw [h]; rfl
  case h_2 h =>
    cases hget : v.get? "blocks" with
    | none => rfl
    | some x =>
      cases x with
      | object entries => exact absurd hget (h entries)
      | _ => rfl

variable {v : Document} {name : String}

theorem decode_of_noName (h : ¬ ∃ name, v.get? "name" = some (.string name)) :
    decode v = .error .noName := by
  have hnone : stringAt? v "name" = none := by
    rw [Option.eq_none_iff_forall_ne_some]
    intro name hname
    exact h ⟨name, stringAt?_eq_some.mp hname⟩
  unfold decode
  simp [hnone]

theorem decode_of_noStageFlag (hname : v.get? "name" = some (.string name))
    (h : ¬ ∃ flag, v.get? "isStage" = some (.bool flag)) :
    decode v = .error (.noStageFlag name) := by
  have hnone : boolAt? v "isStage" = none := by
    rw [Option.eq_none_iff_forall_ne_some]
    intro flag hflag
    exact h ⟨flag, boolAt?_eq_some.mp hflag⟩
  unfold decode
  simp [stringAt?_eq_some.mpr hname, hnone]

section

variable {flag : Bool} (hname : v.get? "name" = some (.string name))
  (hstage : v.get? "isStage" = some (.bool flag))

include hname hstage

theorem decode_of_badBlocks {d : Defect}
    (hblocks : (blockEntries v).mapM (Block.decode name) = .error d) : decode v = .error d := by
  rw [← filter_membersAt] at hblocks
  unfold decode
  simp [stringAt?_eq_some.mpr hname, boolAt?_eq_some.mpr hstage, hblocks, bind, Except.bind]

theorem decode_of_blocks {blocks : List Block}
    (hblocks : (blockEntries v).mapM (Block.decode name) = .ok blocks) :
    ∃ t, decode v = .ok t ∧ t.name = name ∧ t.isStage = flag ∧ t.blocks = blocks := by
  rw [← filter_membersAt] at hblocks
  unfold decode
  simp [stringAt?_eq_some.mpr hname, boolAt?_eq_some.mpr hstage, hblocks, bind, Except.bind, pure,
    Except.pure]

end

theorem mem_blockEntries {entry : String × Document} :
    entry ∈ blockEntries v ↔
      entry ∈ membersAt v "blocks" ∧ ∃ members, entry.2 = .object members := by
  rw [← filter_membersAt, List.mem_filter, isBlockEntry_iff]

theorem blocks_isOk_iff :
    (∃ blocks, (blockEntries v).mapM (Block.decode name) = .ok blocks) ↔
      ∀ entries, v.get? "blocks" = some (.object entries) →
        ∀ entry ∈ entries, (∃ members, entry.2 = .object members) → IsBlock entry.2 := by
  rw [mapM_isOk_iff, ← forall_mem_membersAt]
  constructor
  · intro h entry hentry hobject
    exact Block.decode_isOk_iff.mp (h entry (mem_blockEntries.mpr ⟨hentry, hobject⟩))
  · intro h entry hentry
    obtain ⟨hentry, hobject⟩ := mem_blockEntries.mp hentry
    exact Block.decode_isOk_iff.mpr (h entry hentry hobject)

/-- The blocks of a target are refused for the first defect of the first entry that has one. Entries
    that are no objects are passed over on the way there. -/
theorem blocks_eq_error_iff {d : Defect} :
    (blockEntries v).mapM (Block.decode name) = .error d ↔
      ∃ before entry after, v.get? "blocks" = some (.object (before ++ entry :: after)) ∧
        (∀ other ∈ before, (∃ members, other.2 = .object members) → IsBlock other.2) ∧
        (∃ members, entry.2 = .object members) ∧ Block.FirstDefect name entry d := by
  rw [mapM_eq_error_iff, ← filter_membersAt]
  constructor
  · rintro ⟨before, entry, after, hsplit, hbefore, hentry⟩
    obtain ⟨front, back, hmembers, rfl, hback⟩ := List.filter_eq_append_iff.mp hsplit
    obtain ⟨passed, behind, rfl, hpassed, hobject, -⟩ := List.filter_eq_cons_iff.mp hback
    refine ⟨front ++ passed, entry, behind, ?_, fun other hother hmembers => ?_,
      isBlockEntry_iff.mp hobject, Block.decode_eq_error_iff.mp hentry⟩
    · rw [List.append_assoc]
      exact get?_of_membersAt hmembers (by simp)
    · rcases List.mem_append.mp hother with hfront | hother
      · have hkept := List.mem_filter.mpr ⟨hfront, isBlockEntry_iff.mpr hmembers⟩
        exact Block.decode_isOk_iff.mp (hbefore other hkept)
      · exact absurd (isBlockEntry_iff.mpr hmembers) (hpassed other hother)
  · rintro ⟨before, entry, after, hblocks, hbefore, hobject, hdefect⟩
    refine ⟨before.filter isBlockEntry, entry, after.filter isBlockEntry, ?_, ?_,
      Block.decode_eq_error_iff.mpr hdefect⟩
    · rw [membersAt_of_object hblocks, List.filter_append,
        List.filter_cons_of_pos (isBlockEntry_iff.mpr hobject)]
    · intro other hother
      obtain ⟨hmem, hmembers⟩ := List.mem_filter.mp hother
      exact Block.decode_isOk_iff.mpr (hbefore other hmem (isBlockEntry_iff.mp hmembers))

/-- A value is read as a target if and only if it has what a target has to have. -/
theorem decode_isOk_iff : (∃ t, decode v = .ok t) ↔ IsTarget v := by
  by_cases hname : ∃ name, v.get? "name" = some (.string name)
  · by_cases hstage : ∃ flag, v.get? "isStage" = some (.bool flag)
    · obtain ⟨name, hn⟩ := hname
      obtain ⟨flag, hs⟩ := hstage
      have htarget : IsTarget v ↔
          ∃ blocks, (blockEntries v).mapM (Block.decode name) = .ok blocks :=
        ⟨fun h => blocks_isOk_iff.mpr h.blocks,
          fun h => ⟨⟨name, hn⟩, ⟨flag, hs⟩, blocks_isOk_iff.mp h⟩⟩
      rw [htarget]
      cases hb : (blockEntries v).mapM (Block.decode name) with
      | error d => simp [decode_of_badBlocks hn hs hb]
      | ok blocks =>
        obtain ⟨t, ht, -⟩ := decode_of_blocks hn hs hb
        exact ⟨fun _ => ⟨blocks, rfl⟩, fun _ => ⟨t, ht⟩⟩
    · obtain ⟨name, hn⟩ := hname
      rw [decode_of_noStageFlag hn hstage]
      constructor
      · rintro ⟨t, ht⟩; cases ht
      · intro h; exact absurd h.isStage hstage
  · rw [decode_of_noName hname]
    constructor
    · rintro ⟨t, ht⟩; cases ht
    · intro h; exact absurd h.name hname

/-- A value that is no target is refused for its first defect. -/
theorem decode_eq_error_iff {d : Defect} : decode v = .error d ↔ FirstDefect v d := by
  constructor
  · intro h
    by_cases hname : ∃ name, v.get? "name" = some (.string name)
    · obtain ⟨name, hn⟩ := hname
      by_cases hstage : ∃ flag, v.get? "isStage" = some (.bool flag)
      · obtain ⟨flag, hs⟩ := hstage
        cases hb : (blockEntries v).mapM (Block.decode name) with
        | ok blocks =>
          obtain ⟨t, ht, -⟩ := decode_of_blocks hn hs hb
          rw [ht] at h
          cases h
        | error d' =>
          rw [decode_of_badBlocks hn hs hb] at h
          cases h
          obtain ⟨before, entry, after, hblocks, hbefore, ⟨members, hentry⟩, hdefect⟩ :=
            blocks_eq_error_iff.mp hb
          exact .block hn hs hblocks hbefore hentry hdefect
      · rw [decode_of_noStageFlag hn hstage] at h
        cases h
        exact .isStage hn hstage
    · rw [decode_of_noName hname] at h
      cases h
      exact .name hname
  · intro h
    cases h with
    | name hname => exact decode_of_noName hname
    | isStage hname hstage => exact decode_of_noStageFlag hname hstage
    | block hname hstage hblocks hbefore hentry hdefect =>
      refine decode_of_badBlocks hname hstage (blocks_eq_error_iff.mpr ?_)
      exact ⟨_, _, _, hblocks, hbefore, ⟨_, hentry⟩, hdefect⟩

/-- What a target keeps of the value it is read from. -/
structure ReadFrom (v : Document) (t : Target) : Prop where
  name : v.get? "name" = some (.string t.name)
  isStage : v.get? "isStage" = some (.bool t.isStage)
  /-- The block table holds the objects of the table in the document, in its order, each under its
      key. -/
  blocks : List.Forall₂ (fun entry b => b.id = entry.1 ∧
    entry.2.get? "opcode" = some (.string b.opcode)) (blockEntries v) t.blocks

theorem readFrom_of_decode {t : Target} (h : decode v = .ok t) : ReadFrom v t := by
  have htarget := decode_isOk_iff.mp ⟨t, h⟩
  obtain ⟨name, hn⟩ := htarget.name
  obtain ⟨flag, hs⟩ := htarget.isStage
  obtain ⟨blocks, hb⟩ := blocks_isOk_iff.mpr htarget.blocks
  obtain ⟨u, hu, rfl, rfl, rfl⟩ := decode_of_blocks hn hs hb
  rw [h] at hu
  cases hu
  exact ⟨hn, hs, (forall₂_of_mapM hb).imp fun entry b => Block.id_of_decode⟩

end Target

/-! ## Projects -/

theorem Project.ofDocument_of_noTargets {v : Document}
    (h : ¬ ∃ targets, v.get? "targets" = some (.array targets)) :
    Project.ofDocument v = .error .noTargets := by
  have hnone : (v.get? "targets").bind Value.array? = none := by
    cases hget : v.get? "targets" with
    | none => rfl
    | some x =>
      cases x with
      | array targets => exact absurd ⟨targets, hget⟩ h
      | _ => rfl
  unfold Project.ofDocument
  simp [hnone]

theorem Project.ofDocument_of_targets {v : Document} {items : List Document}
    (h : v.get? "targets" = some (.array items)) :
    Project.ofDocument v = (items.mapM Target.decode).map fun targets =>
      ⟨targets, (((v.get? "monitors").bind Value.array?).getD []).filterMap Monitor.decode?⟩ := by
  unfold Project.ofDocument
  simp only [h, Option.bind_some, Value.array?]
  cases items.mapM Target.decode <;> rfl

theorem Project.ofDocument_isOk_iff {v : Document} :
    (∃ p, Project.ofDocument v = .ok p) ↔ IsProject v := by
  by_cases htargets : ∃ targets, v.get? "targets" = some (.array targets)
  · obtain ⟨items, hitems⟩ := htargets
    rw [Project.ofDocument_of_targets hitems, map_isOk_iff, mapM_isOk_iff]
    constructor
    · intro h
      exact ⟨items, hitems, fun item hitem => Target.decode_isOk_iff.mp (h item hitem)⟩
    · rintro ⟨items', hitems', h⟩ item hitem
      rw [hitems] at hitems'
      cases hitems'
      exact Target.decode_isOk_iff.mpr (h item hitem)
  · rw [Project.ofDocument_of_noTargets htargets]
    constructor
    · rintro ⟨p, hp⟩; cases hp
    · rintro ⟨targets, h, -⟩; exact absurd ⟨targets, h⟩ htargets

theorem Project.ofDocument_eq_error_iff {v : Document} {d : Defect} :
    Project.ofDocument v = .error d ↔ FirstDefect v d := by
  constructor
  · intro h
    by_cases htargets : ∃ targets, v.get? "targets" = some (.array targets)
    · obtain ⟨items, hitems⟩ := htargets
      rw [Project.ofDocument_of_targets hitems] at h
      cases hdecoded : items.mapM Target.decode with
      | ok targets => rw [hdecoded] at h; cases h
      | error d' =>
        rw [hdecoded] at h
        cases h
        obtain ⟨before, item, after, rfl, hbefore, hitem⟩ := mapM_eq_error_iff.mp hdecoded
        refine .target hitems (fun other hother => ?_) (Target.decode_eq_error_iff.mp hitem)
        exact Target.decode_isOk_iff.mp (hbefore other hother)
    · rw [Project.ofDocument_of_noTargets htargets] at h
      cases h
      exact .targets htargets
  · intro h
    cases h with
    | targets htargets => exact Project.ofDocument_of_noTargets htargets
    | @target before after item _ hitems hbefore hdefect =>
      have hfails : (before ++ item :: after).mapM Target.decode = .error d :=
        mapM_eq_error_iff.mpr ⟨before, item, after, rfl,
          fun other hother => Target.decode_isOk_iff.mpr (hbefore other hother),
          Target.decode_eq_error_iff.mpr hdefect⟩
      rw [Project.ofDocument_of_targets hitems, hfails]
      rfl

/-- A document is read as a project if and only if it has what a project has to have, and is
    otherwise refused for its first defect, in a message that names what the defect concerns. The
    targets of a project hold what the document says, with the objects of the block tables as their
    blocks. -/
theorem ofDocument_decides (v : Document) :
    ((∃ p, Project.ofDocument v = .ok p) ↔ IsProject v) ∧
    (∀ d, Project.ofDocument v = .error d ↔ FirstDefect v d) ∧
    (∀ d, FirstDefect v d → ∀ s ∈ d.concerned, Names d.message s) ∧
    ∀ p, Project.ofDocument v = .ok p → ∃ targets, v.get? "targets" = some (.array targets) ∧
      List.Forall₂ Target.ReadFrom targets p.targets := by
  refine ⟨Project.ofDocument_isOk_iff, fun d => Project.ofDocument_eq_error_iff,
    fun d _ s => Defect.message_names, fun p hp => ?_⟩
  obtain ⟨items, hitems, -⟩ := Project.ofDocument_isOk_iff.mp ⟨p, hp⟩
  rw [Project.ofDocument_of_targets hitems] at hp
  obtain ⟨targets, htargets, rfl⟩ := map_eq_ok.mp hp
  exact ⟨items, hitems, (forall₂_of_mapM htargets).imp fun item t => Target.readFrom_of_decode⟩

/-! ## A document of odd shapes -/

/-- A document with values of odd shapes where these do no harm. An input of its first block and the
    opcode of its second are given. -/
def oddDocument (input opcode : Document) : Document :=
  .object [
    ("monitors", .string "none"),
    ("targets", .array [
      .object [("name", .string "Stage"), ("isStage", .bool true), ("variables", .array [])],
      .object [
        ("name", .string "S"),
        ("isStage", .bool false),
        ("blocks", .object [
          ("loose", .array [.number (.integer 12)]),
          ("b", .object [
            ("opcode", .string "say"), ("next", .bool false), ("mutation", .null),
            ("inputs", .object [("A", .array []), ("B", input)])]),
          ("c", .object [("opcode", opcode), ("inputs", .null), ("x", .string "left")])])]])]

theorem ofDocument_decides_oddDocument :
    FirstDefect (oddDocument (.string "text") .null) (.inputNotArray "S" "b" "say" "B") ∧
      Names (Defect.inputNotArray "S" "b" "say" "B").message "say" ∧
      FirstDefect (oddDocument (.array []) .null) (.noOpcode "S" "c") ∧
      ∃ p targets, Project.ofDocument (oddDocument (.array []) (.string "stop")) = .ok p ∧
        (p.targets.map fun t => t.blocks.map (·.id)) = [[], ["b", "c"]] ∧
        List.Forall₂ Target.ReadFrom targets p.targets := by
  obtain ⟨-, hinput, hnames, -⟩ := ofDocument_decides (oddDocument (.string "text") .null)
  obtain ⟨-, hopcode, -, -⟩ := ofDocument_decides (oddDocument (.array []) .null)
  obtain ⟨-, -, -, hread⟩ := ofDocument_decides (oddDocument (.array []) (.string "stop"))
  have hfirst := (hinput (.inputNotArray "S" "b" "say" "B")).mp rfl
  obtain ⟨targets, -, htargets⟩ := hread _ rfl
  exact ⟨hfirst, hnames _ hfirst "say" (by decide), (hopcode (.noOpcode "S" "c")).mp rfl,
    _, targets, rfl, rfl, htargets⟩

end BlockScript
