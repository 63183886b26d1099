/-
  Levels are counted exactly.

  A body is not written into the text around it but on a sheet of its own, from the ground, and put
  in as text; its lines are indented again by whoever writes the statement around it. So a document
  has no levels but the ground and the one above it, however deep its bodies are nested, and a chain
  has these two and the level of its writer. This holds on any regular scale, with the results of
  the renderings themselves (`rendersAlike`, by induction on the fuel, and `yields_targetText`).

  Words and integers are regular scales. So both give the same, no step on words meets an end of
  their range, and each move up is undone (`renderings_countExactly`). A chain has to start at a
  level whose spaces can be counted in a word.
-/
import BlockScript.Proofs.Levels.Steps
import BlockScript.Proofs.Script.Documents

namespace BlockScript.Script

open BlockScript.Text

variable {L : Type}

/-! ## One block -/

section

variable {s : Scale L} (hs : s.Regular) (p : Project) (t : Target)

/-- A chain that has come to its end has left the level as it was. -/
theorem indent_of_ended {fuel : Nat} {referrer : Option Block} {id : String} {e out : Emitter}
    (h : ended (chainWith p t fuel referrer id e) = .ok out) : out.indent = e.indent := by
  rw [← eq_of_ended h, chainWith_eq, Statements.indent_write]

theorem indent_of_writeBody {root : Block} {e out : Emitter} (h : writeBody p t root e = .ok out) :
    out.indent = e.indent := by
  unfold writeBody at h
  cases hn : root.next with
  | none =>
    rw [hn] at h
    cases h
    rfl
  | some next =>
    rw [hn] at h
    exact indent_of_ended p t h

theorem bodyText_eq_ended (chain : ChainWriter) (owner : Block) (start : String) :
    bodyText chain owner start = ended (chain (some owner) start opened) >>= fun out =>
      .ok ((out.addIndent (-1)).write ['\x7d'] true).text.toList := by
  unfold bodyText
  rw [← opened]
  dsimp only
  obtain ⟨out, halt⟩ := chain (some owner) start opened
  cases halt <;> rfl

/-- What the renderings of the whole graph do on a scale, with so much fuel. -/
structure RendersAlike (s : Scale L) (fuel : Nat) : Prop where
  call : ∀ level b, Yields s level (callOn s p t fuel b) (callWith p t fuel b)
  chain : ∀ {level l : L} {e : Emitter}, (Step.indent l).Within s level →
    s.width l = Scale.words.width e.indent → ∀ referrer id,
      Keeps s level Prod.snd (chainOn s p t fuel referrer id (e.on l))
        ((chainWith p t fuel referrer id e).1.on l, (chainWith p t fuel referrer id e).2)

section

variable {p t} {fuel : Nat} (h : RendersAlike p t s fuel) (level : L)

include hs h

/-- A body is written from the ground, whatever the level of the text around it. -/
theorem yields_bodyText (owner : Block) (start : String) :
    Yields s level (bodyTextOn s (chainOn s p t fuel) owner start)
      (bodyText (chainWith p t fuel) owner start) := by
  rw [bodyText_eq_ended]
  have hbrace := keeps_writeLine (e := {}) (.ground : Step.Within s level _) (hs.width_of_zero rfl)
    ['\x7b'] true
  have hfirst := hs.width_of_one indent_opened
  refine .after hbrace ?_ fun _ => rfl
  refine yields_raised hs (yields_filled (h.chain .first hfirst (some owner) start))
    fun out hout => ?_
  have hlevel : (out.addIndent (-1)).indent = 0 :=
    Emitter.indent_addIndent_back (by rw [indent_of_ended p t hout, indent_opened]) (by decide)
  exact .after (keeps_write .ground (hs.width_of_zero hlevel) ['\x7d'] true) (.ok _) fun _ => rfl

theorem yields_inputText (owner : Block) (input : Input) :
    Yields s level (inputTextOn s p t (callOn s p t fuel) (chainOn s p t fuel) owner input)
      (inputText p t (callWith p t fuel) (chainWith p t fuel) owner input) := by
  cases input with
  | empty => exact .ok _
  | literal value => exact .ok _
  | reference name id => exact .ok _
  | block id =>
    refine (Yields.except (lookup t (some owner) id)).bind fun nested _ => ?_
    split
    · exact h.call level nested
    · exact yields_bodyText hs h level owner id

theorem yields_argumentsText (b : Block) :
    Yields s level (argumentsTextOn s p t (callOn s p t fuel) (chainOn s p t fuel) b)
      (argumentsText p t (callWith p t fuel) (chainWith p t fuel) b) :=
  (Yields.mapM fun slot _ => yields_inputText hs h level b slot.2).bind fun _ _ => .ok _

theorem yields_callText (b : Block) :
    Yields s level (callTextOn s p t (callOn s p t fuel) (chainOn s p t fuel) b)
      (callText p t (callWith p t fuel) (chainWith p t fuel) b) := by
  refine (yields_argumentsText hs h level b).bind fun arguments _ => ?_
  split
  · cases b.proccode? with
    | none => exact .error _
    | some signature => exact .ok _
  · exact .ok _

end

/-! ## The whole graph -/

include hs

/-- On a regular scale call forms are what they are on words, and so are chains where the level that
    they are written at has the same spaces. The two need each other: a body in a call form is a
    chain on the ground, and a chain is made of call forms. -/
theorem rendersAlike (fuel : Nat) : RendersAlike p t s fuel := by
  induction fuel with
  | zero =>
    refine ⟨fun level b => ?_, fun hl hw referrer id => ?_⟩
    · rw [callOn, callWith]
      exact .error _
    · rw [chainOn, chainWith]
      exact .pure _
  | succ fuel ih =>
    refine ⟨fun level b => ?_, fun {level l e} hl hw referrer id => ?_⟩
    · rw [callOn, callWith]
      exact yields_callText hs ih level b
    · rw [chainOn, chainWith]
      cases lookup t referrer id with
      | error halt => exact .pure _
      | ok b =>
        have hcall := yields_callText hs ih level b
        dsimp only
        cases hc : callText p t (callWith p t fuel) (chainWith p t fuel) b with
        | error halt =>
          rw [hc] at hcall
          exact Keeps.bind hcall (.pure _) fun h => absurd h (Option.some_ne_none halt)
        | ok text =>
          rw [hc] at hcall
          refine Keeps.bind hcall ?_ fun _ => rfl
          refine (keeps_writeLines hl hw (lines (text ++ [';']))).bind ?_ fun _ => rfl
          cases b.next with
          | none => exact .pure _
          | some next =>
            -- Statements leave the level alone, so the rest has the margin of the first.
            refine ih.chain hl ?_ (some b) next
            rw [Emitter.indent_writeLines]
            exact hw

/-! ## Documents -/

variable (level : L)

theorem keeps_preamble :
    Keeps s level (fun _ => none) (preambleOn s t) ((preamble t).on s.ground) :=
  keeps_writeLines (e := {}) .ground (hs.width_of_zero rfl) _

theorem yields_headerLine (root : Block) :
    Yields s level (headerLineOn s p t root) (headerLine p t root) := by
  refine Yields.bind ?_ fun given _ => .ok _
  unfold headerArgumentsOn headerArguments
  split
  · rw [map_eq_pure_bind]
    exact (Yields.except (definedSignature t root)).bind fun _ _ => .ok _
  · exact yields_argumentsText hs (rendersAlike hs p t (fuelFor t)) level root

theorem yields_writeBody (root : Block) {e : Emitter} (he : e.indent = 0 + 1) :
    Yields s level (writeBodyOn s p t root (e.on s.first))
      ((writeBody p t root e).map (·.on s.first)) := by
  unfold writeBodyOn writeBody
  cases root.next with
  | none => exact .ok _
  | some next =>
    have hchain := (rendersAlike hs p t (fuelFor t)).chain (.first : Step.Within s level _)
      (hs.width_of_one he) (some root) next
    exact yields_filled hchain

theorem yields_writeScript (root : Block) {e : Emitter} (he : e.indent = 0) :
    Yields s level (writeScriptOn s p t (e.on s.ground) root)
      ((writeScript p t e root).map (·.on s.ground)) := by
  have hscript : (writeScript p t e root).map (·.on s.ground) =
      headerLine p t root >>= fun header =>
        writeBody p t root
            (((e.writeLine (placeLine root) true).writeLine header true).addIndent 1) >>= fun out =>
          .ok (((out.addIndent (-1)).writeLine ['\x7d', ')', ';'] true).on s.ground) := by
    unfold writeScript
    dsimp only
    rw [Results.map_bind_eq]
    congr 1
    funext header
    exact Results.map_bind_eq ..
  rw [hscript]
  -- The emitter is at zero before and behind the body, and at one while it is written.
  refine .after (keeps_writeLine .ground (hs.width_of_zero he) (placeLine root) true) ?_
    fun _ => rfl
  refine (yields_headerLine hs p t level root).bind fun header _ => ?_
  have hplaced : (e.writeLine (placeLine root) true).indent = 0 := he
  refine .after (keeps_writeLine .ground (hs.width_of_zero hplaced) header true) ?_ fun _ => rfl
  have hone := Emitter.indent_addIndent_one
    (e := (e.writeLine (placeLine root) true).writeLine header true) he (by decide)
  refine yields_raised hs (yields_writeBody hs p t level root hone) fun out hout => ?_
  have hback : (out.addIndent (-1)).indent = 0 :=
    Emitter.indent_addIndent_back (by rw [indent_of_writeBody p t hout, hone]) (by decide)
  exact .lift (keeps_writeLine .ground (hs.width_of_zero hback) ['\x7d', ')', ';'] true)

theorem yields_writeScripts (roots : List Block) {e : Emitter} (he : e.indent = 0) :
    Yields s level (roots.foldlM (writeScriptOn s p t) (e.on s.ground))
      ((roots.foldlM (writeScript p t) e).map (·.on s.ground)) := by
  induction roots generalizing e with
  | nil => exact .ok _
  | cons root rest ih =>
    rw [List.foldlM_cons, List.foldlM_cons, Results.map_bind_eq]
    refine (yields_writeScript hs p t level root he).bind_view fun out hout => ih ?_
    rw [writeScript_eq p t root he] at hout
    obtain ⟨text, -, rfl⟩ := Results.map_eq_ok.mp hout
    exact he

/-- The document of a target is what it is on words. -/
theorem yields_targetText : Yields s level (targetTextOn s p t) (targetText p t) := by
  refine .after (keeps_preamble hs t level) ?_ fun _ => rfl
  exact (yields_writeScripts hs p t level t.roots (indent_preamble t)).bind_view fun out _ => .ok _

end

/-! ## Words and integers -/

/-- A rendering on words and on integers gives the same, and each step on words is in range. If it
    does not halt, its steps are undone. -/
structure CountsExactly {α β : Type} (counted : Traced UInt64 α) (unbounded : Traced Int β)
    (onWords : α) (onIntegers : β) (halt : Option Halt) : Prop where
  words : counted.result = onWords
  integers : unbounded.result = onIntegers
  inRange : ∀ step ∈ counted.steps, step.InRange
  undone : halt = none → Undone Scale.words counted.steps

/-- The same of a rendering that gives a text, in which no level is left. -/
abbrev TextCountsExactly {α : Type} (counted : Tracing UInt64 α) (unbounded : Tracing Int α)
    (given : Except Halt α) : Prop :=
  CountsExactly counted.run unbounded.run given given (halting given)

theorem countsExactly_of_keeps {α β : Type} {level : UInt64} {level' : Int}
    {halt : α → Option Halt} {halt' : β → Option Halt} {counted : Traced UInt64 α}
    {unbounded : Traced Int β} {a : α} {b : β} (hl : (Step.indent level).InRange)
    (hc : Keeps Scale.words level halt counted a)
    (hu : Keeps Scale.integers level' halt' unbounded b) :
    CountsExactly counted unbounded a b (halt a) :=
  ⟨hc.result, hu.result, fun step hstep => (hc.within step hstep).inRange hl, hc.undone⟩

theorem textCountsExactly_of_yields {α : Type} {rendering : {L : Type} → Scale L → Tracing L α}
    {given : Except Halt α}
    (h : ∀ {L : Type} {s : Scale L}, s.Regular → Yields s s.ground (rendering s) given) :
    TextCountsExactly (rendering .words) (rendering .integers) given :=
  countsExactly_of_keeps (by decide) (h Scale.regular_words) (h Scale.regular_integers)

section

variable (p : Project) (t : Target)

/-- No rendering of the target ends for want of fuel. -/
structure Conclusive : Prop where
  document : targetText p t ≠ .error .exhausted
  arguments : ∀ b, arguments p t b ≠ .error .exhausted
  call : ∀ id b, t.block? id = some b → callForm p t b ≠ .error .exhausted
  chain : ∀ start out, (writeChain p t start out).2 ≠ some .exhausted

theorem conclusive_of_acyclic (h : t.Acyclic) : Conclusive p t := by
  have hfrom : ∀ ids, ¬ t.HasTrail ids (fuelFor t) := fun ids =>
    Target.not_hasTrail_fuelFor fun _ _ j _ => h j
  have hsettles := settles p t (fuelFor t) 0
  have hhalting : ∀ {α : Type} {x : Except Halt α}, halting x ≠ some .exhausted →
      x ≠ .error .exhausted := fun hx heq => hx (by rw [heq]; rfl)
  refine ⟨hhalting ?_, fun b => hhalting ?_, fun id b hb => hhalting ?_, fun start out => ?_⟩
  · exact ((targetText_settles p t hsettles).eq_of_not (hfrom _)).2
  · exact ((arguments_settle p t hsettles b).eq_of_not (hfrom _)).2
  · exact (((hsettles id).call b hb).eq_of_not (hfrom _)).2
  · rw [writeChain, chain, chainWith_eq]
    exact (((hsettles start).chain none).eq_of_not (hfrom _)).2

/-- On words and on integers a chain starts from and ends at the same level as it is written. -/
theorem chainCountsExactly (start : String) {out : Emitter}
    (ho : (Step.indent out.indent).InRange) :
    CountsExactly (writeChainOn .words p t start out.onWords)
      (writeChainOn .integers p t start out.onIntegers)
      ((writeChain p t start out).map Emitter.onWords id)
      ((writeChain p t start out).map Emitter.onIntegers id) (writeChain p t start out).2 := by
  have hindent : (writeChain p t start out).1.indent = out.indent := by
    rw [writeChain, chain, chainWith_eq, Statements.indent_write]
  have hwords := (rendersAlike Scale.regular_words p t (fuelFor t)).chain
    (.own : Step.Within Scale.words out.indent _) rfl none start
  have hintegers := (rendersAlike Scale.regular_integers p t (fuelFor t)).chain
    (.own : Step.Within Scale.integers out.indent.toNat _)
    ((Step.inRange_iff_exact _).mp ho).symm none start
  have hboth := countsExactly_of_keeps ho hwords hintegers
  unfold Emitter.onWords Emitter.onIntegers
  rw [Prod.map, Prod.map, hindent]
  exact hboth

/-- Documents, call forms, arguments and chains of a target without circles come to the results that
    they have on integers without bounds, texts and halts alike. No step on the way stops at an end
    of the words' range or wraps, and where nothing halts each move up is undone by a move back. -/
theorem renderings_countExactly (h : t.Acyclic) :
    Conclusive p t ∧
    TextCountsExactly (targetTextOn .words p t) (targetTextOn .integers p t) (targetText p t) ∧
    (∀ b, TextCountsExactly (callFormOn .words p t b) (callFormOn .integers p t b)
      (callForm p t b)) ∧
    (∀ b, TextCountsExactly (argumentsOn .words p t b) (argumentsOn .integers p t b)
      (arguments p t b)) ∧
    ∀ start (out : Emitter), out.indent.toNat < Nat.pow 2 62 →
      CountsExactly (writeChainOn .words p t start out.onWords)
        (writeChainOn .integers p t start out.onIntegers)
        ((writeChain p t start out).map Emitter.onWords id)
        ((writeChain p t start out).map Emitter.onIntegers id) (writeChain p t start out).2 := by
  refine ⟨conclusive_of_acyclic p t h, ?_, fun b => ?_, fun b => ?_, fun start out ho => ?_⟩
  · exact textCountsExactly_of_yields fun hs => yields_targetText hs p t _
  · exact textCountsExactly_of_yields fun hs => (rendersAlike hs p t (fuelFor t)).call _ b
  · exact textCountsExactly_of_yields fun hs =>
      yields_argumentsText hs (rendersAlike hs p t (fuelFor t)) _ b
  · refine chainCountsExactly p t start ?_
    have hsize : UInt64.size = 4 * Nat.pow 2 62 := rfl
    show out.indent.toNat * 4 < UInt64.size
    omega

end

/-! ## A body in a body -/

/-- A body in the first statement of another. Both end with the same block. -/
def bodyInBody : Target where
  name := "S"
  isStage := false
  variableDecls := []
  listDecls := []
  blocks := [
    Block.bare "a" "loop" none [("BODY", .block "b")],
    Block.bare "b" "loop" (some "d") [("BODY", .block "c")],
    Block.bare "c" "say" (some "d") [],
    Block.bare "d" "stop" none []]

theorem acyclic_bodyInBody : bodyInBody.Acyclic :=
  Target.acyclic_of_measure
    (fun id => match id with | "a" => 3 | "b" => 2 | "c" => 1 | _ => 0) (by decide)

theorem countsExactly_bodyInBody :
    let p : Project := ⟨[bodyInBody], []⟩
    let out : Emitter := ⟨"", 1⟩
    let text := "    loop(\x7b
        loop(\x7b
            say();
            stop();
        \x7d);
        stop();
    \x7d);
"
    bodyInBody.Acyclic ∧ out.indent.toNat < Nat.pow 2 62 ∧
      writeChain p bodyInBody "a" out = (⟨text, 1⟩, none) ∧
      (writeChainOn .integers p bodyInBody "a" ⟨"", 1⟩).result = (⟨text, 1⟩, none) ∧
      (writeChainOn .words p bodyInBody "a" ⟨"", 1⟩).steps.count (.move 0 1) = 2 ∧
      (∀ step ∈ (writeChainOn .words p bodyInBody "a" ⟨"", 1⟩).steps, step.InRange) ∧
      Undone .words (writeChainOn .words p bodyInBody "a" ⟨"", 1⟩).steps := by
  intro p out text
  have hwritten : writeChain p bodyInBody "a" out = (⟨text, 1⟩, none) := by decide +kernel
  obtain ⟨-, -, -, -, hchain⟩ := renderings_countExactly p bodyInBody acyclic_bodyInBody
  have hexact := hchain "a" out (by decide)
  rw [hwritten] at hexact
  exact ⟨acyclic_bodyInBody, by decide, hwritten, hexact.integers, by decide +kernel,
    hexact.inRange, hexact.undone rfl⟩

/-- At the first level above the bound a line has no margin on words. -/
example : Scale.words.width 4611686018427387904 = 0 := by decide

end BlockScript.Script
