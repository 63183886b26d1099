/-
  Targets whose blocks do not refer to one another in a circle.

  An id refers to the ids in the slots and the successor of the block under it. Without a circle
  every id has a rank, the number of blocks it leads to: the rank falls along every reference
  (`rank_lt`) and never exceeds the size of the table (`rank_le`). So the fuel of the renderings is
  never used up, and more of it changes nothing (`fuel_succ`).

  What the rest of the theory uses is that on such a target the renderings satisfy the equations of
  a recursion without fuel (`callForm_eq`, `statements_eq`), together with the induction along
  references (`Acyclic.induction`).
-/
import BlockScript.Proofs.Results
import BlockScript.Proofs.Script.Statements
import Mathlib.Data.Finset.Card
import Mathlib.Logic.Relation

namespace BlockScript

/-! ## References -/

/-- The block that an input names. -/
def Input.block? : Input → Option String
  | .block id => some id
  | _ => none

/-- The ids in the slots of a block, in slot order. -/
def Block.slotBlocks (b : Block) : List String := b.inputs.filterMap fun slot => slot.2.block?

/-- The ids that a block refers to: its successor, and those in its slots. -/
def Block.references (b : Block) : List String := b.next.toList ++ b.slotBlocks

theorem Block.mem_slotBlocks {b : Block} {slot : String × Input} {id : String}
    (hs : slot ∈ b.inputs) (hi : slot.2 = .block id) : id ∈ b.slotBlocks := by
  unfold slotBlocks
  rw [List.mem_filterMap]
  exact ⟨slot, hs, by rw [hi]; rfl⟩

theorem Block.exists_slot_of_mem {b : Block} {id : String} (h : id ∈ b.slotBlocks) :
    ∃ slot ∈ b.inputs, slot.2 = .block id := by
  obtain ⟨slot, hs, hid⟩ := List.mem_filterMap.mp h
  refine ⟨slot, hs, ?_⟩
  cases hi : slot.2 with
  | block i => rw [hi] at hid; cases hid; rfl
  | _ => rw [hi] at hid; cases hid

theorem Block.mem_references_of_slot {b : Block} {id : String} (h : id ∈ b.slotBlocks) :
    id ∈ b.references :=
  List.mem_append_right _ h

theorem Block.mem_references_of_next {b : Block} {id : String} (h : b.next = some id) :
    id ∈ b.references := by
  unfold references
  rw [h]
  exact List.mem_append_left _ (List.mem_singleton_self id)

/-- A block that starts no script and has slots only. -/
def Block.bare (id opcode : String) (next : Option String) (inputs : List (String × Input)) :
    Block where
  id := id
  opcode := opcode
  next := next
  topLevel := false
  x := .integer 0
  y := .integer 0
  fields := []
  inputs := inputs
  mutation := none

namespace Target

/-- The block under the first id has the second among its references. -/
def RefersTo (t : Target) (i j : String) : Prop := ∃ b, t.block? i = some b ∧ j ∈ b.references

/-- No id leads back to itself. -/
def Acyclic (t : Target) : Prop := ∀ i, ¬ Relation.TransGen t.RefersTo i i

theorem id_of_block? {t : Target} {id : String} {b : Block} (h : t.block? id = some b) :
    b.id = id := by
  have := List.find?_some h
  exact eq_of_beq this

theorem mem_blocks_of_block? {t : Target} {id : String} {b : Block}
    (h : t.block? id = some b) : b ∈ t.blocks :=
  List.mem_of_find?_eq_some h

/-- A target is free of circles if some measure of ids falls along the references of its blocks. -/
theorem acyclic_of_measure {t : Target} (m : String → Nat)
    (h : ∀ b ∈ t.blocks, ∀ j ∈ b.references, m j < m b.id) : t.Acyclic := by
  have step : ∀ i j, t.RefersTo i j → m j < m i := by
    rintro i j ⟨b, hb, hj⟩
    rw [← id_of_block? hb]
    exact h b (mem_blocks_of_block? hb) j hj
  have run : ∀ i j, Relation.TransGen t.RefersTo i j → m j < m i := by
    intro i j hij
    induction hij with
    | single hij => exact step _ _ hij
    | tail _ hjk ih => exact (step _ _ hjk).trans ih
  intro i hi
  exact Nat.lt_irrefl _ (run i i hi)

/-! ## Ranks -/

open Classical in
/-- The ids of the table that an id leads to, itself included. -/
noncomputable def below (t : Target) (i : String) : Finset String :=
  (t.blocks.map (·.id)).toFinset.filter (Relation.ReflTransGen t.RefersTo i)

/-- How many blocks an id leads to. -/
noncomputable def rank (t : Target) (i : String) : Nat := (t.below i).card

theorem mem_below {t : Target} {i j : String} :
    j ∈ t.below i ↔ j ∈ t.blocks.map (·.id) ∧ Relation.ReflTransGen t.RefersTo i j := by
  simp [below]

theorem rank_le (t : Target) (i : String) : t.rank i ≤ t.blocks.length := by
  classical
  calc t.rank i ≤ (t.blocks.map (·.id)).toFinset.card := Finset.card_filter_le _ _
    _ ≤ (t.blocks.map (·.id)).length := List.toFinset_card_le _
    _ = t.blocks.length := List.length_map _

/-- Ranks fall along references: the referring id is the one that is lost. -/
theorem rank_lt {t : Target} (h : t.Acyclic) {i j : String} (hij : t.RefersTo i j) :
    t.rank j < t.rank i := by
  apply Finset.card_lt_card
  rw [Finset.ssubset_iff_of_subset]
  · obtain ⟨b, hb, hj⟩ := hij
    refine ⟨i, mem_below.mpr ⟨?_, .refl⟩, ?_⟩
    · exact List.mem_map.mpr ⟨b, mem_blocks_of_block? hb, id_of_block? hb⟩
    · intro hi
      exact h i (.head' ⟨b, hb, hj⟩ (mem_below.mp hi).2)
  · intro k hk
    obtain ⟨hk, hjk⟩ := mem_below.mp hk
    exact mem_below.mpr ⟨hk, .head hij hjk⟩

/-- What holds of an id as soon as it holds of all it refers to holds of every id. -/
theorem Acyclic.induction {t : Target} (h : t.Acyclic) {motive : String → Prop}
    (step : ∀ i, (∀ j, t.RefersTo i j → motive j) → motive i) (i : String) : motive i := by
  induction hr : t.rank i using Nat.strong_induction_on generalizing i with
  | _ r ih =>
    apply step
    intro j hij
    have := rank_lt h hij
    exact ih (t.rank j) (by omega) j rfl

end Target

/-! ## One block, with other renderings of those it refers to -/

namespace Script

open BlockScript.Text

theorem lookup_eq_ok {target : Target} {referrer : Option Block} {id : String} {b : Block} :
    lookup target referrer id = .ok b ↔ target.block? id = some b := by
  unfold lookup
  cases target.block? id with
  | none => cases referrer <;> simp
  | some c => simp

theorem lookup_eq_error {target : Target} {id : String} (h : target.block? id = none)
    (referrer : Option Block) : ∃ halt, lookup target referrer id = .error halt := by
  unfold lookup
  rw [h]
  cases referrer <;> exact ⟨_, rfl⟩

section

variable (project : Project) (target : Target)

theorem inputText_block (call : CallText) (chain : ChainWriter) (owner : Block) (id : String) :
    inputText project target call chain owner (.block id) =
      (lookup target (some owner) id).bind fun b =>
        if b.next.isNone then call b else bodyText chain owner id := rfl

theorem inputText_congr {call call' : CallText} {chain chain' : ChainWriter} {owner : Block}
    {input : Input}
    (hcall : ∀ id c, input = .block id → target.block? id = some c → call c = call' c)
    (hchain : ∀ id, input = .block id → chain (some owner) id = chain' (some owner) id) :
    inputText project target call chain owner input =
      inputText project target call' chain' owner input := by
  cases input with
  | empty => rfl
  | literal value => rfl
  | reference name id => rfl
  | block id =>
    have hbody : bodyText chain owner id = bodyText chain' owner id := by
      unfold bodyText
      rw [hchain id rfl]
    rw [inputText_block, inputText_block, hbody]
    cases hl : lookup target (some owner) id with
    | error halt => rfl
    | ok c =>
      show (if _ then call c else _) = (if _ then call' c else _)
      rw [hcall id c rfl (lookup_eq_ok.mp hl)]

/-- The arguments of a block depend on the renderings of the blocks in its slots only. -/
theorem argumentsText_congr {call call' : CallText} {chain chain' : ChainWriter} {b : Block}
    (hcall : ∀ id ∈ b.slotBlocks, ∀ c, target.block? id = some c → call c = call' c)
    (hchain : ∀ id ∈ b.slotBlocks, chain (some b) id = chain' (some b) id) :
    argumentsText project target call chain b = argumentsText project target call' chain' b := by
  unfold argumentsText
  rw [Results.mapM_congr fun slot hs => inputText_congr project target
    (fun id c hi => hcall id (b.mem_slotBlocks hs hi) c)
    (fun id hi => hchain id (b.mem_slotBlocks hs hi))]

theorem callText_congr {call call' : CallText} {chain chain' : ChainWriter} {b : Block}
    (hcall : ∀ id ∈ b.slotBlocks, ∀ c, target.block? id = some c → call c = call' c)
    (hchain : ∀ id ∈ b.slotBlocks, chain (some b) id = chain' (some b) id) :
    callText project target call chain b = callText project target call' chain' b := by
  unfold callText
  rw [argumentsText_congr project target hcall hchain]

/-! ## Enough fuel -/

/-- Whether the ids that a block refers to are of smaller rank than `n`. -/
def FitsBelow (b : Block) (n : Nat) : Prop := ∀ id ∈ b.references, target.rank id < n

theorem fitsBelow_rank (h : target.Acyclic) {id : String} {b : Block}
    (hb : target.block? id = some b) : FitsBelow target b (target.rank id) :=
  fun _ hj => Target.rank_lt h ⟨b, hb, hj⟩

theorem FitsBelow.mono {b : Block} {m n : Nat} (hb : FitsBelow target b m) (hmn : m ≤ n) :
    FitsBelow target b n :=
  fun j hj => Nat.lt_of_lt_of_le (hb j hj) hmn

/-- One more unit of fuel changes nothing. The two parts need each other: a call form enters chains
    with one unit less, and a chain enters call forms with the same. -/
theorem fuel_succ (h : target.Acyclic) (fuel : Nat) :
    (∀ id referrer, target.rank id < fuel →
      statementsWith project target fuel referrer id =
        statementsWith project target (fuel + 1) referrer id) ∧
    (∀ b, FitsBelow target b fuel →
      callWith project target (fuel + 1) b = callWith project target (fuel + 2) b) := by
  induction fuel with
  | zero =>
    refine ⟨fun id _ hi => absurd hi (Nat.not_lt_zero _), fun b hb => ?_⟩
    have hnone : ∀ id, id ∉ b.slotBlocks := fun id hi =>
      absurd (hb id (b.mem_references_of_slot hi)) (Nat.not_lt_zero _)
    exact callText_congr project target (fun id hi => absurd hi (hnone id))
      (fun id hi => absurd hi (hnone id))
  | succ fuel ih =>
    obtain ⟨ihChain, ihCall⟩ := ih
    have hchain : ∀ id referrer, target.rank id < fuel + 1 →
        statementsWith project target (fuel + 1) referrer id =
          statementsWith project target (fuel + 2) referrer id := by
      intro id referrer hi
      rw [statementsWith, statementsWith]
      cases hl : lookup target referrer id with
      | error halt => rfl
      | ok b =>
        have hb := fitsBelow_rank target h (lookup_eq_ok.mp hl)
        dsimp only
        rw [ihCall b (hb.mono target (by omega))]
        cases callWith project target (fuel + 2) b with
        | error halt => rfl
        | ok call =>
          cases hn : b.next with
          | none => rfl
          | some next =>
            have hr := hb next (b.mem_references_of_next hn)
            dsimp only
            rw [ihChain next (some b) (by omega)]
    refine ⟨hchain, fun b hb => ?_⟩
    rw [callWith, callWith]
    refine callText_congr project target (fun id hi c hc => ?_) (fun id hi => ?_)
    · have hr := hb id (b.mem_references_of_slot hi)
      exact ihCall c ((fitsBelow_rank target h hc).mono target (by omega))
    · funext out
      rw [chainWith_eq, chainWith_eq, hchain id (some b) (hb id (b.mem_references_of_slot hi))]

/-! ## The renderings as a recursion without fuel -/

/-- The call form of a block is made of the call forms and the chains it refers to. -/
theorem callForm_eq (h : target.Acyclic) {id : String} {b : Block}
    (hb : target.block? id = some b) :
    callForm project target b =
      callText project target (callForm project target) (chain project target) b := by
  have hfit := (fitsBelow_rank target h hb).mono target (target.rank_le id)
  exact (fuel_succ project target h target.blocks.length).2 b hfit

/-- A chain is its first statement and then the chain of the successor. -/
theorem statements_eq (h : target.Acyclic) (referrer : Option Block) (id : String) :
    statements project target referrer id =
      match lookup target referrer id with
      | .error halt => ⟨[], some halt⟩
      | .ok b =>
        match callForm project target b with
        | .error halt => ⟨[], some halt⟩
        | .ok call =>
          match b.next with
          | none => ⟨[call], none⟩
          | some next => (statements project target (some b) next).cons call := by
  have hrank : target.rank id < fuelFor target := Nat.lt_succ_of_le (target.rank_le id)
  unfold statements
  rw [(fuel_succ project target h (fuelFor target)).1 id referrer hrank, statementsWith]
  cases hl : lookup target referrer id with
  | error halt => rfl
  | ok b =>
    have hcall := callForm_eq project target h (lookup_eq_ok.mp hl)
    dsimp only
    rw [hcall]
    rfl

/-- The argument in a slot that names a block: its call form, or the statements from it on. -/
theorem inputText_block_eq (owner : Block) (id : String) :
    inputText project target (callForm project target) (chain project target) owner (.block id) =
      (lookup target (some owner) id).bind fun b =>
        if b.next.isNone then callForm project target b
        else (statements project target (some owner) id).result.map braced := by
  rw [inputText_block, bodyText_eq (chain_eq_write project target (some owner) id opened)]

end

end Script

end BlockScript
