/-
  What writing a chain leaves behind.

  A chain is written along its successors. Each block on the way is looked up and rendered before
  anything of it is written, so a text grows by whole statements: those of the blocks up to the first
  that is not there or cannot be rendered, at the level of the writer. The rest of the text and the
  level stay as they were, and nothing of the block that stopped the chain is in the text
  (`writeChain_appends`).

  `Target.Walks` is the way along the successors without regard to rendering, `Target.Ends` says why
  it stopped. That the statements of a chain are such a way is `walks_statements`.
-/
import BlockScript.Proofs.Graph.Blame

namespace BlockScript

open BlockScript.Script BlockScript.Text

/-! ## The way along the successors -/

/-- Where a way along successors stops: behind a block without a successor, or before the block under
    an id, which `referrer` refers to. -/
inductive Stop where
  | behind
  | before (referrer : Option Block) (id : String)

namespace Target

/-- The blocks on the way from an id on, and where the way stops. -/
inductive Walks (t : Target) : Option Block → String → List Block → Stop → Prop
  | stop (referrer : Option Block) (id : String) : Walks t referrer id [] (.before referrer id)
  | last {referrer : Option Block} {id : String} {b : Block} (hb : t.block? id = some b)
    (hn : b.next = none) : Walks t referrer id [b] .behind
  | step {referrer : Option Block} {id next : String} {b : Block} {rest : List Block} {stop : Stop}
    (hb : t.block? id = some b) (hn : b.next = some next)
    (hrest : Walks t (some b) next rest stop) : Walks t referrer id (b :: rest) stop

/-- Why a chain ends where it stops: all of it is written, the next block is not there, or the next
    block cannot be rendered. -/
inductive Ends (p : Project) (t : Target) : Stop → Option Halt → Prop
  | complete : Ends p t .behind none
  | missing {referrer : Option Block} {id : String} {f : Fault} (hb : t.block? id = none)
    (hf : lookup t referrer id = .error (.fault f)) :
    Ends p t (.before referrer id) (some (.fault f))
  | failing {referrer : Option Block} {id : String} {b : Block} {f : Fault}
    (hb : t.block? id = some b) (hf : callForm p t b = .error (.fault f)) :
    Ends p t (.before referrer id) (some (.fault f))

end Target

namespace Script

/-! ## The statements of a chain -/

theorem fault_of_lookup {t : Target} {referrer : Option Block} {id : String} {halt : Halt}
    (h : lookup t referrer id = .error halt) :
    t.block? id = none ∧ ∃ f, halt = .fault f := by
  unfold lookup at h
  split at h
  · exact absurd h (by simp)
  · exact ⟨‹_›, _, (Except.error.inj h).symm⟩
  · exact ⟨‹_›, _, (Except.error.inj h).symm⟩

section

variable (p : Project) (t : Target)

theorem fault_of_callForm (h : t.Acyclic) {id : String} {b : Block} (hb : t.block? id = some b)
    {halt : Halt} (hc : callForm p t b = .error halt) : ∃ f, halt = .fault f := by
  obtain ⟨f, hf, -⟩ := (((meetsFrom p t h id).call b hb).error_iff halt).mp hc
  exact ⟨f, hf⟩

/-- The statements of a chain are those of the blocks on the way up to where it ends. -/
theorem walks_statements (h : t.Acyclic) (id : String) : ∀ referrer, ∃ blocks stop,
    t.Walks referrer id blocks stop ∧
      List.Forall₂ (fun b call => callForm p t b = .ok call) blocks
        (statements p t referrer id).calls ∧
      t.Ends p stop (statements p t referrer id).halt := by
  refine h.induction (motive := fun i => ∀ referrer, ∃ blocks stop,
    t.Walks referrer i blocks stop ∧
      List.Forall₂ (fun b call => callForm p t b = .ok call) blocks
        (statements p t referrer i).calls ∧
      t.Ends p stop (statements p t referrer i).halt) (fun i ih referrer => ?_) id
  rw [statements_eq p t h]
  cases hl : lookup t referrer i with
  | error halt =>
    obtain ⟨hb, f, rfl⟩ := fault_of_lookup hl
    exact ⟨[], .before referrer i, .stop referrer i, .nil, .missing hb hl⟩
  | ok b =>
    have hb := lookup_eq_ok.mp hl
    dsimp only
    cases hc : callForm p t b with
    | error halt =>
      obtain ⟨f, rfl⟩ := fault_of_callForm p t h hb hc
      exact ⟨[], .before referrer i, .stop referrer i, .nil, .failing hb hc⟩
    | ok call =>
      cases hn : b.next with
      | none => exact ⟨[b], .behind, .last hb hn, .cons hc .nil, .complete⟩
      | some next =>
        obtain ⟨rest, stop, hwalks, hcalls, hends⟩ :=
          ih next ⟨b, hb, b.mem_references_of_next hn⟩ (some b)
        exact ⟨b :: rest, stop, .step hb hn hwalks, .cons hc hcalls, hends⟩

/-- Writing a chain appends whole statements: the text is what stood there and then, line by line
    behind the spaces of the level, the statements of the blocks before the one at which the chain
    ends. The level is as it was. -/
theorem writeChain_appends (h : t.Acyclic) (start : String) (out : Emitter)
    (ho : out.indent.toNat < Nat.pow 2 62) : ∃ blocks calls stop,
    t.Walks none start blocks stop ∧
      List.Forall₂ (fun b call => callForm p t b = .ok call) blocks calls ∧
      (writeChain p t start out).1.indent = out.indent ∧
      (writeChain p t start out).1.text.toList =
        out.text.toList ++ calls.flatMap (fun call => (lines (call ++ [';'])).flatMap fun line =>
          List.replicate (4 * out.indent.toNat) ' ' ++ line ++ ['\n']) ∧
      t.Ends p stop (writeChain p t start out).2 := by
  obtain ⟨blocks, stop, hwalks, hcalls, hends⟩ := walks_statements p t h start none
  have hwrite : writeChain p t start out = (statements p t none start).write out :=
    chain_eq_write p t none start out
  have hmargin : out.margin = spaces out.indent.toNat := by
    apply Emitter.margin_eq rfl
    have hsize : UInt64.size = 4 * Nat.pow 2 62 := rfl
    omega
  refine ⟨blocks, _, stop, hwalks, hcalls, ?_, ?_, ?_⟩
  · rw [hwrite, Statements.indent_write]
  · rw [hwrite, Statements.toList_write _ hmargin]
    congr 2
    funext call
    exact (flatMap_statementLines out.indent.toNat call).symm
  · rw [hwrite]
    exact hends

end

/-! ## A chain that breaks in a body -/

/-- A chain of three blocks. The body in the second lacks a block in its own second statement. -/
def brokenBody : Target where
  name := "S"
  isStage := false
  variableDecls := []
  listDecls := []
  blocks := [
    Block.bare "a" "show\nit" (some "b") [],
    Block.bare "b" "loop" (some "c") [("BODY", .block "d")],
    Block.bare "c" "hide" none [],
    Block.bare "d" "say" (some "e") [],
    Block.bare "e" "stop" none [("X", .block "ghost")]]

theorem acyclic_brokenBody : brokenBody.Acyclic :=
  Target.acyclic_of_measure
    (fun id => match id with | "a" => 4 | "b" => 3 | "d" => 2 | "e" => 1 | _ => 0) (by decide)

theorem writeChain_brokenBody :
    let out : Emitter := ⟨"x", 2⟩
    let written : Emitter := ⟨"x        show\n        it();\n", 2⟩
    let halt : Halt := .fault (.missingBlock "S" "e" "stop" "ghost")
    brokenBody.Acyclic ∧ out.indent.toNat < Nat.pow 2 62 ∧
      writeChain ⟨[brokenBody], []⟩ brokenBody "a" out = (written, some halt) ∧
      ∃ blocks calls stop, brokenBody.Walks none "a" blocks stop ∧
        List.Forall₂ (fun b call => callForm ⟨[brokenBody], []⟩ brokenBody b = .ok call) blocks
          calls ∧
        written.indent = out.indent ∧
        written.text.toList =
          out.text.toList ++ calls.flatMap (fun call => (lines (call ++ [';'])).flatMap fun line =>
            List.replicate (4 * out.indent.toNat) ' ' ++ line ++ ['\n']) ∧
        brokenBody.Ends ⟨[brokenBody], []⟩ stop (some halt) := by
  intro out written halt
  have hwritten : writeChain ⟨[brokenBody], []⟩ brokenBody "a" out = (written, some halt) := by
    decide +kernel
  have happends := writeChain_appends ⟨[brokenBody], []⟩ brokenBody acyclic_brokenBody "a" out
    (by decide)
  rw [hwritten] at happends
  exact ⟨acyclic_brokenBody, by decide, hwritten, happends⟩

end Script

end BlockScript
