/-
  Renderings come to an end.

  Rendering goes from block to block along slots and successors. It may enter one block any number
  of times, so nothing but the depth of its recursion bounds it: the blocks entered one inside or
  behind another (`Target.Trail`). If no circle lies below the start, a trail meets no block twice
  and is at most as long as the table (`Target.length_le_of_trail`). Circles elsewhere in the table,
  ids without a block and blocks with many referrers do no harm.

  Fuel is spent along trails. A rendering gives the same with more fuel, unless it ran out, and then
  it went a trail of as many blocks as it had fuel (`settles`). So one unit more than the table has
  blocks is enough for every answer, and all fuel beyond that is idle (`renderings_answer`).
-/
import BlockScript.Proofs.Graph.Acyclic

namespace BlockScript

namespace Target

/-! ## Trails -/

/-- Blocks entered one after the other: the first under one of the given ids, and each other under
    an id that the block before it refers to. -/
inductive Trail (t : Target) : List String → List Block → Prop
  | nil {ids : List String} : Trail t ids []
  | cons {ids : List String} {id : String} {b : Block} {path : List Block} (hid : id ∈ ids)
    (hb : t.block? id = some b) (hpath : Trail t b.references path) : Trail t ids (b :: path)

/-- No id that the given ids lead to, themselves included, leads back to itself. -/
def AcyclicFrom (t : Target) (ids : List String) : Prop :=
  ∀ i ∈ ids, ∀ j, Relation.ReflTransGen t.RefersTo i j → ¬ Relation.TransGen t.RefersTo j j

variable {t : Target}

theorem AcyclicFrom.references {ids : List String} (h : t.AcyclicFrom ids) {i : String} {b : Block}
    (hi : i ∈ ids) (hb : t.block? i = some b) : t.AcyclicFrom b.references :=
  fun _ hj k hjk => h i hi k (.head ⟨b, hb, hj⟩ hjk)

/-- An id is not on a circle if some measure falls along all references below it. -/
theorem acyclicFrom_of_measure {ids : List String} (below : List String)
    (m : String → Nat) (hids : ids ⊆ below)
    (h : ∀ b ∈ t.blocks, b.id ∈ below → ∀ j ∈ b.references, j ∈ below ∧ m j < m b.id) :
    t.AcyclicFrom ids := by
  have step : ∀ i j, i ∈ below → t.RefersTo i j → j ∈ below ∧ m j < m i := by
    rintro i j hi ⟨b, hb, hj⟩
    rw [← id_of_block? hb] at hi ⊢
    exact h b (mem_blocks_of_block? hb) hi j hj
  have stays : ∀ i j, i ∈ below → Relation.ReflTransGen t.RefersTo i j → j ∈ below := by
    intro i j hi hij
    induction hij with
    | refl => exact hi
    | tail _ hjk ih => exact (step _ _ ih hjk).1
  have falls : ∀ i j, i ∈ below → Relation.TransGen t.RefersTo i j → m j < m i := by
    intro i j hi hij
    induction hij with
    | single hij => exact (step _ _ hi hij).2
    | tail hij hjk ih => exact (step _ _ (stays _ _ hi hij.to_reflTransGen) hjk).2.trans ih
  intro i hi j hij hjj
  exact Nat.lt_irrefl _ (falls j j (stays i j (hids hi) hij) hjj)

/-- The blocks of a trail stand under ids that its start leads to. -/
theorem Trail.reachable {ids : List String} {path : List Block} (hp : t.Trail ids path) :
    ∀ c ∈ path, c ∈ t.blocks ∧ ∃ i ∈ ids, Relation.ReflTransGen t.RefersTo i c.id := by
  induction hp with
  | nil => intro c hc; cases hc
  | @cons ids id b path hid hb _ ih =>
    intro c hc
    rcases List.mem_cons.mp hc with rfl | hc
    · exact ⟨mem_blocks_of_block? hb, id, hid, id_of_block? hb ▸ .refl⟩
    · obtain ⟨hmem, j, hj, hjc⟩ := ih c hc
      exact ⟨hmem, id, hid, .head ⟨b, hb, hj⟩ hjc⟩

/-- Without circles a trail meets no id twice. -/
theorem Trail.nodup {ids : List String} {path : List Block} (hp : t.Trail ids path)
    (h : t.AcyclicFrom ids) : (path.map (·.id)).Nodup := by
  induction hp with
  | nil => exact List.nodup_nil
  | @cons ids id b path hid hb hpath ih =>
    rw [List.map_cons, List.nodup_cons, id_of_block? hb]
    refine ⟨fun hmem => ?_, ih (h.references hid hb)⟩
    obtain ⟨c, hc, hcid⟩ := List.mem_map.mp hmem
    obtain ⟨-, j, hj, hjc⟩ := hpath.reachable c hc
    rw [hcid] at hjc
    exact h id hid id .refl (.head' ⟨b, hb, hj⟩ hjc)

/-- Without circles a trail is at most as long as the table. -/
theorem length_le_of_trail {ids : List String} {path : List Block} (hp : t.Trail ids path)
    (h : t.AcyclicFrom ids) : path.length ≤ t.blocks.length := by
  have hsub : path.map (·.id) ⊆ t.blocks.map (·.id) := by
    intro i hi
    obtain ⟨c, hc, rfl⟩ := List.mem_map.mp hi
    exact List.mem_map_of_mem (hp.reachable c hc).1
  have hle := ((hp.nodup h).subperm hsub).length_le
  rw [List.length_map, List.length_map] at hle
  exact hle

/-- Whether a trail of so many blocks starts from the ids. -/
def HasTrail (t : Target) (ids : List String) (n : Nat) : Prop :=
  ∃ path, t.Trail ids path ∧ path.length = n

theorem hasTrail_zero (ids : List String) : t.HasTrail ids 0 := ⟨[], .nil, rfl⟩

theorem HasTrail.mono {ids ids' : List String} {n : Nat} (h : t.HasTrail ids n)
    (hsub : ids ⊆ ids') : t.HasTrail ids' n := by
  obtain ⟨path, hp, hn⟩ := h
  refine ⟨path, ?_, hn⟩
  cases hp with
  | nil => exact .nil
  | cons hid hb hpath => exact .cons (hsub hid) hb hpath

theorem HasTrail.of_mem {ids : List String} {id : String} {n : Nat} (h : t.HasTrail [id] n)
    (hid : id ∈ ids) : t.HasTrail ids n :=
  h.mono fun _ hj => List.mem_singleton.mp hj ▸ hid

/-- Entering a block makes a trail one block longer. -/
theorem HasTrail.enter {id : String} {b : Block} {n : Nat} (hb : t.block? id = some b)
    (h : t.HasTrail b.references n) : t.HasTrail [id] (n + 1) := by
  obtain ⟨path, hp, hn⟩ := h
  exact ⟨b :: path, .cons (List.mem_singleton_self id) hb hp, by rw [List.length_cons, hn]⟩

theorem not_hasTrail_fuelFor {ids : List String} (h : t.AcyclicFrom ids) :
    ¬ t.HasTrail ids (Script.fuelFor t) := by
  rintro ⟨path, hp, hn⟩
  have := length_le_of_trail hp h
  unfold Script.fuelFor at hn
  omega

end Target

namespace Script

open BlockScript.Text

/-! ## Results with more fuel -/

/-- How a result halted. -/
def halting {α : Type} : Except Halt α → Option Halt
  | .ok _ => none
  | .error halt => some halt

/-- The second result, with more fuel, is the same as the first, unless the first ran out of fuel,
    and then `P` holds. -/
inductive Settles {α : Type} (halt : α → Option Halt) (P : Prop) (x y : α) : Prop
  | same (heq : x = y) (h : halt x ≠ some .exhausted) : Settles halt P x y
  | exhausted (h : halt x = some .exhausted) (hp : P) : Settles halt P x y

namespace Settles

variable {α β : Type} {P Q : Prop} {halt : α → Option Halt}

theorem imp {x y : α} (h : Settles halt P x y) (hPQ : P → Q) : Settles halt Q x y := by
  cases h with
  | same heq h => exact .same heq h
  | exhausted h hp => exact .exhausted h (hPQ hp)

theorem of_exhausted {x y : α} (h : Settles halt P x y) (hx : halt x = some .exhausted) : P := by
  cases h with
  | same _ h => exact absurd hx h
  | exhausted _ hp => exact hp

theorem eq_of_not {x y : α} (h : Settles halt P x y) (hP : ¬ P) :
    x = y ∧ halt x ≠ some .exhausted := by
  cases h with
  | same heq h => exact ⟨heq, h⟩
  | exhausted _ hp => exact absurd hp hP

theorem ok (a : α) : Settles halting P (.ok a) (.ok a) := .same rfl (by simp [halting])

theorem fault (f : Fault) :
    Settles halting P (.error (.fault f) : Except Halt α) (.error (.fault f)) :=
  .same rfl (by simp [halting])

theorem bind {x y : Except Halt α} {f g : α → Except Halt β} (h : Settles halting P x y)
    (hfg : ∀ a, x = .ok a → Settles halting P (f a) (g a)) :
    Settles halting P (x >>= f) (y >>= g) := by
  cases h with
  | same heq hx =>
    subst heq
    cases x with
    | ok a => exact hfg a rfl
    | error halt => exact .same rfl hx
  | exhausted hx hp =>
    cases x with
    | ok a => cases hx
    | error halt => exact .exhausted hx hp

theorem map {x y : Except Halt α} (h : Settles halting P x y) (f : α → β) :
    Settles halting P (x.map f) (y.map f) := by
  cases h with
  | same heq hx =>
    subst heq
    refine .same rfl ?_
    cases x with
    | ok a => exact hx
    | error halt => exact hx
  | exhausted hx hp =>
    cases x with
    | ok a => cases hx
    | error halt => exact .exhausted hx hp

theorem mapM {l : List β} {f g : β → Except Halt α}
    (h : ∀ b ∈ l, Settles halting P (f b) (g b)) :
    Settles halting P (l.mapM f) (l.mapM g) := by
  induction l with
  | nil => exact .ok []
  | cons b l ih =>
    rw [List.mapM_cons, List.mapM_cons]
    refine (h b (List.mem_cons_self ..)).bind fun a _ => ?_
    exact (ih fun c hc => h c (List.mem_cons_of_mem b hc)).bind fun as _ => .ok (a :: as)

theorem foldlM {l : List β} {f g : α → β → Except Halt α}
    (h : ∀ b ∈ l, ∀ a, Settles halting P (f a b) (g a b)) (init : α) :
    Settles halting P (l.foldlM f init) (l.foldlM g init) := by
  induction l generalizing init with
  | nil => exact .ok init
  | cons b l ih =>
    rw [List.foldlM_cons, List.foldlM_cons]
    refine (h b (List.mem_cons_self ..) init).bind fun a _ => ?_
    exact ih (fun c hc => h c (List.mem_cons_of_mem b hc)) a

end Settles

section

variable (p : Project) (t : Target)

theorem lookup_settles {P : Prop} (referrer : Option Block) (id : String) :
    Settles halting P (lookup t referrer id) (lookup t referrer id) := by
  unfold lookup
  cases t.block? id with
  | some b => exact .ok b
  | none => cases referrer <;> exact .fault _

/-! ## One block -/

section

variable {P : Prop} {call call' : CallText} {chain chain' : ChainWriter} {b : Block}

theorem inputText_settles {owner : Block} {input : Input}
    (hcall : ∀ id c, input = .block id → t.block? id = some c →
      Settles halting P (call c) (call' c))
    (hbody : ∀ id, input = .block id →
      Settles halting P (bodyText chain owner id) (bodyText chain' owner id)) :
    Settles halting P (inputText p t call chain owner input)
      (inputText p t call' chain' owner input) := by
  cases input with
  | empty => exact .ok _
  | literal value => exact .ok _
  | reference name id => exact .ok _
  | block id =>
    refine (lookup_settles t (some owner) id).bind fun c hc => ?_
    split
    · exact hcall id c rfl (lookup_eq_ok.mp hc)
    · exact hbody id rfl

theorem argumentsText_settles
    (hcall : ∀ id ∈ b.slotBlocks, ∀ c, t.block? id = some c →
      Settles halting P (call c) (call' c))
    (hbody : ∀ id ∈ b.slotBlocks,
      Settles halting P (bodyText chain b id) (bodyText chain' b id)) :
    Settles halting P (argumentsText p t call chain b) (argumentsText p t call' chain' b) := by
  refine (Settles.mapM fun slot hs => ?_).bind fun slots _ => .ok _
  exact inputText_settles p t (fun id c hi => hcall id (b.mem_slotBlocks hs hi) c)
    (fun id hi => hbody id (b.mem_slotBlocks hs hi))

theorem callText_settles
    (harguments : Settles halting P (argumentsText p t call chain b)
      (argumentsText p t call' chain' b)) :
    Settles halting P (callText p t call chain b) (callText p t call' chain' b) := by
  refine harguments.bind fun arguments _ => ?_
  split
  · split
    · exact .fault _
    · exact .ok _
  · exact .ok _

end

/-! ## The whole graph -/

theorem bodyText_settles {P : Prop} {fuel fuel' : Nat} {owner : Block} {id : String}
    (h : Settles Statements.halt P (statementsWith p t fuel (some owner) id)
      (statementsWith p t fuel' (some owner) id)) :
    Settles halting P (bodyText (chainWith p t fuel) owner id)
      (bodyText (chainWith p t fuel') owner id) := by
  rw [bodyText_eq (chainWith_eq p t fuel (some owner) id opened),
    bodyText_eq (chainWith_eq p t fuel' (some owner) id opened)]
  apply Settles.map
  have hresult : ∀ s : Statements, halting s.result = s.halt := by
    intro s
    unfold Statements.result
    cases s.halt <;> rfl
  cases h with
  | same heq h => exact .same (by rw [heq]) (by rw [hresult]; exact h)
  | exhausted h hp => exact .exhausted (by rw [hresult]; exact h) hp

/-- What a rendering gives with more fuel, from an id on. -/
structure SettlesFrom (fuel fuel' : Nat) (id : String) : Prop where
  call : ∀ b, t.block? id = some b →
    Settles halting (t.HasTrail [id] fuel) (callWith p t fuel b) (callWith p t fuel' b)
  chain : ∀ referrer, Settles Statements.halt (t.HasTrail [id] fuel)
    (statementsWith p t fuel referrer id) (statementsWith p t fuel' referrer id)

/-- The arguments of a block use up their fuel on a trail that starts in its slots. -/
theorem arguments_settle {fuel fuel' : Nat} (h : ∀ id, SettlesFrom p t fuel fuel' id) (b : Block) :
    Settles halting (t.HasTrail b.slotBlocks fuel)
      (argumentsText p t (callWith p t fuel) (chainWith p t fuel) b)
      (argumentsText p t (callWith p t fuel') (chainWith p t fuel') b) := by
  refine argumentsText_settles p t (fun id hid c hc => ?_) fun id hid => ?_
  · exact ((h id).call c hc).imp fun ht => ht.of_mem hid
  · exact (bodyText_settles p t ((h id).chain (some b))).imp fun ht => ht.of_mem hid

/-- More fuel changes nothing, unless the fuel was used up on a trail. -/
theorem settles (fuel k : Nat) (id : String) : SettlesFrom p t fuel (fuel + k) id := by
  induction fuel generalizing id with
  | zero =>
    refine ⟨fun b _ => .exhausted ?_ (Target.hasTrail_zero _), fun referrer =>
      .exhausted ?_ (Target.hasTrail_zero _)⟩
    · rw [callWith]
      rfl
    · rw [statementsWith]
  | succ fuel ih =>
    have hmore : fuel + 1 + k = fuel + k + 1 := by omega
    rw [hmore]
    have hcall : ∀ i b, t.block? i = some b → Settles halting (t.HasTrail [i] (fuel + 1))
        (callWith p t (fuel + 1) b) (callWith p t (fuel + k + 1) b) := by
      intro i b hb
      rw [callWith, callWith]
      refine (callText_settles p t (arguments_settle p t ih b)).imp fun ht => ?_
      exact .enter hb (ht.mono fun j => b.mem_references_of_slot)
    refine ⟨hcall id, fun referrer => ?_⟩
    -- A chain enters its first block, and its successor with one unit less.
    rw [statementsWith, statementsWith]
    cases hl : lookup t referrer id with
    | error halt =>
      refine .same rfl fun hex => ?_
      exact (lookup_settles (P := False) t referrer id).of_exhausted (by rw [hl]; exact hex)
    | ok b =>
      have hb := lookup_eq_ok.mp hl
      dsimp only
      cases hcall id b hb with
      | exhausted hx hp =>
        cases hc : callWith p t (fuel + 1) b with
        | ok call => rw [hc] at hx; cases hx
        | error halt => rw [hc] at hx; exact .exhausted hx hp
      | same heq hx =>
        rw [← heq]
        cases hc : callWith p t (fuel + 1) b with
        | error halt => rw [hc] at hx; exact .same rfl hx
        | ok call =>
          cases hn : b.next with
          | none => exact .same rfl (by simp)
          | some next =>
            cases (ih next).chain (some b) with
            | same heq h => exact .same (congrArg (Statements.cons call) heq) h
            | exhausted h hp =>
              exact .exhausted h (.enter hb (hp.of_mem (b.mem_references_of_next hn)))

/-! ## Documents with fuel of one's own -/

section

variable (fuel : Nat)

/-- The arguments in a script's opening line. -/
def headerArgumentsWith (root : Block) : Except Halt (List Char) :=
  if root.opcode = definitionOpcode then quoted <$> definedSignature t root
  else argumentsText p t (callWith p t fuel) (chainWith p t fuel) root

/-- The opening line of a script, up to the brace of its body. -/
def headerLineWith (root : Block) : Except Halt (List Char) := do
  let given ← headerArgumentsWith p t fuel root
  let given := if given.isEmpty then [] else given ++ separator
  return root.opcode.toList ++ '(' :: (given ++ ['\x7b'])

/-- Writes the chain below a root. -/
def writeBodyWith (root : Block) (out : Emitter) : Except Halt Emitter :=
  match root.next with
  | none => .ok out
  | some next =>
    match chainWith p t fuel (some root) next out with
    | (_, some halt) => .error halt
    | (out, none) => .ok out

/-- Writes the script that starts at a root. -/
def writeScriptWith (out : Emitter) (root : Block) : Except Halt Emitter := do
  let out := out.writeLine (placeLine root) true
  let header ← headerLineWith p t fuel root
  let out := (out.writeLine header true).addIndent 1
  let out ← writeBodyWith p t fuel root out
  return (out.addIndent (-1)).writeLine ['\x7d', ')', ';'] true

/-- The document of a target, entering at most `fuel` blocks along a path. -/
def targetTextWith : Except Halt String := do
  let out ← t.roots.foldlM (writeScriptWith p t fuel) (preamble t)
  return out.text

end

theorem targetTextWith_fuelFor : targetTextWith p t (fuelFor t) = targetText p t := rfl

section

variable {fuel fuel' : Nat} (h : ∀ id, SettlesFrom p t fuel fuel' id) {root : Block}

include h

theorem headerLine_settles :
    Settles halting (t.HasTrail root.references fuel) (headerLineWith p t fuel root)
      (headerLineWith p t fuel' root) := by
  refine Settles.bind ?_ fun given _ => .ok _
  unfold headerArgumentsWith
  split
  · -- The signature of a definition takes no fuel: only its prototype is looked up.
    have hsignature : ∀ f : String → List Char, Settles halting (t.HasTrail root.references fuel)
        ((definedSignature t root).map f) ((definedSignature t root).map f) := by
      intro f
      apply Settles.map
      unfold definedSignature
      split
      · refine (lookup_settles t (some root) _).bind fun prototype _ => ?_
        split
        · exact .ok _
        · exact .fault _
      · exact .fault _
    exact hsignature quoted
  · exact (arguments_settle p t h root).imp fun ht => ht.mono fun j => root.mem_references_of_slot

theorem writeBody_settles (out : Emitter) :
    Settles halting (t.HasTrail root.references fuel) (writeBodyWith p t fuel root out)
      (writeBodyWith p t fuel' root out) := by
  unfold writeBodyWith
  cases hn : root.next with
  | none => exact .ok out
  | some next =>
    dsimp only
    rw [chainWith_eq, chainWith_eq]
    have hnext : t.HasTrail [next] fuel → t.HasTrail root.references fuel := fun ht =>
      ht.of_mem (root.mem_references_of_next hn)
    have hwritten : ∀ s : Statements, halting (match s.write out with
        | (_, some halt) => .error halt
        | (out, none) => .ok out) = s.halt := by
      intro s
      unfold Statements.write
      cases s.halt <;> rfl
    cases (h next).chain (some root) with
    | same heq hx => exact .same (by rw [heq]) (by rw [hwritten]; exact hx)
    | exhausted hx hp => exact .exhausted (by rw [hwritten]; exact hx) (hnext hp)

theorem targetText_settles :
    Settles halting (t.HasTrail (t.roots.flatMap Block.references) fuel) (targetTextWith p t fuel)
      (targetTextWith p t fuel') := by
  refine (Settles.foldlM (fun root hr out => ?_) (preamble t)).bind fun out _ => .ok _
  have hroot : t.HasTrail root.references fuel →
      t.HasTrail (t.roots.flatMap Block.references) fuel := fun ht =>
    ht.mono fun j hj => List.mem_flatMap.mpr ⟨root, hr, hj⟩
  refine ((headerLine_settles p t h).imp hroot).bind fun header _ => ?_
  exact ((writeBody_settles p t h _).imp hroot).bind fun out _ => .ok _

end

/-! ## Enough fuel -/

/-- A rendering that starts at the given ids, as a function of its fuel, comes to its answer. -/
structure Answers {α : Type} (halt : α → Option Halt) (ids : List String) (rendering : Nat → α)
    (answer : α) : Prop where
  /-- Fuel that runs out was spent on that many blocks, entered along one trail. -/
  entered : ∀ fuel, halt (rendering fuel) = some .exhausted →
    ∃ path, t.Trail ids path ∧ path.length = fuel
  /-- The answer is a value or a fault. -/
  answered : t.AcyclicFrom ids → halt answer ≠ some .exhausted
  /-- All fuel above the size of the table gives the answer. -/
  settled : t.AcyclicFrom ids → ∀ fuel, t.blocks.length + 1 ≤ fuel → rendering fuel = answer

theorem answers_of_settles {α : Type} {halt : α → Option Halt} {ids : List String}
    {rendering : Nat → α}
    (h : ∀ fuel k, Settles halt (t.HasTrail ids fuel) (rendering fuel) (rendering (fuel + k))) :
    Answers t halt ids rendering (rendering (fuelFor t)) where
  entered fuel hx := (h fuel 0).of_exhausted hx
  answered hids := ((h (fuelFor t) 0).eq_of_not (Target.not_hasTrail_fuelFor hids)).2
  settled hids fuel hf := by
    obtain ⟨k, rfl⟩ := Nat.exists_eq_add_of_le hf
    exact ((h (fuelFor t) k).eq_of_not (Target.not_hasTrail_fuelFor hids)).1.symm

/-- Without a circle below its start no trail enters more blocks than the table has, and so the
    document of a target, the call form of a block and the writing of a chain come to an answer. -/
theorem renderings_answer :
    (∀ ids path, t.AcyclicFrom ids → t.Trail ids path → path.length ≤ t.blocks.length) ∧
    Answers t halting (t.roots.flatMap Block.references) (targetTextWith p t) (targetText p t) ∧
    (∀ id b, t.block? id = some b →
      Answers t halting [id] (fun fuel => callWith p t fuel b) (callForm p t b)) ∧
    ∀ start out, Answers t Prod.snd [start] (fun fuel => chainWith p t fuel none start out)
      (writeChain p t start out) := by
  refine ⟨fun ids path hids hp => Target.length_le_of_trail hp hids, ?_, fun id b hb => ?_,
    fun start out => ?_⟩
  · rw [← targetTextWith_fuelFor]
    exact answers_of_settles t fun fuel k => targetText_settles p t (settles p t fuel k)
  · exact answers_of_settles t fun fuel k => (settles p t fuel k id).call b hb
  · refine answers_of_settles t fun fuel k => ?_
    rw [chainWith_eq, chainWith_eq]
    cases (settles p t fuel k start).chain none with
    | same heq hx => exact .same (by rw [heq]) hx
    | exhausted hx hp => exact .exhausted hx hp

end

/-! ## A circle aside -/

/-- A script with a block that three slots name and a chain that ends nowhere, beside two blocks
    that follow one another in a circle. -/
def circleAside : Target where
  name := "S"
  isStage := false
  variableDecls := []
  listDecls := []
  blocks := [
    { Block.bare "r" "when" (some "a") [("X", .block "s")] with topLevel := true },
    Block.bare "a" "if" none [("C", .block "s"), ("S", .block "b")],
    Block.bare "b" "say" (some "c") [("M", .block "s")],
    Block.bare "c" "wait" (some "ghost") [],
    Block.bare "s" "sum" none [],
    Block.bare "x" "spin" (some "y") [("N", .block "r")],
    Block.bare "y" "turn" (some "x") []]

theorem acyclicFrom_circleAside :
    circleAside.AcyclicFrom (circleAside.roots.flatMap Block.references) :=
  Target.acyclicFrom_of_measure ["r", "a", "b", "c", "s", "ghost"]
    (fun id => match id with | "r" => 4 | "a" => 3 | "b" => 2 | "c" => 1 | "s" => 1 | _ => 0)
    (by decide) (by decide)

theorem answer_circleAside :
    ¬ circleAside.Acyclic ∧
      circleAside.AcyclicFrom (circleAside.roots.flatMap Block.references) ∧
      ∀ fuel, 8 ≤ fuel → targetTextWith ⟨[circleAside], []⟩ circleAside fuel =
        .error (.fault (.missingBlock "S" "c" "wait" "ghost")) := by
  have hanswer : targetText ⟨[circleAside], []⟩ circleAside =
      .error (.fault (.missingBlock "S" "c" "wait" "ghost")) := by decide +kernel
  have hcircle : Relation.TransGen circleAside.RefersTo "x" "x" :=
    .tail (.single ⟨_, rfl, List.mem_cons_self ..⟩) ⟨_, rfl, List.mem_cons_self ..⟩
  refine ⟨fun h => h "x" hcircle, acyclicFrom_circleAside, fun fuel hf => ?_⟩
  rw [← hanswer]
  obtain ⟨-, hdocument, -⟩ := renderings_answer ⟨[circleAside], []⟩ circleAside
  exact hdocument.settled acyclicFrom_circleAside fuel hf

end Script

end BlockScript
