/-
  What stands in a document.

  A rendering that is complete stays the same with more fuel (`fuel_mono`). So a complete rendering
  is made of complete renderings of the blocks it refers to (`callText_of_callForm`,
  `calls_of_statements`), and for that nothing has to be known of the blocks that it does not reach.

  With these equations a document is read from its roots down. What is rendered inside of something
  stands in its text, set at the depth of the lines around it (`StandsIn`). In a document there stand
  the call form of each block under a followed id (`shown_of_followed`) and the arguments of each
  rendered block (`arguments_of_rendered`).
-/
import BlockScript.Proofs.Script.Locality
import BlockScript.Proofs.Text.Lines

namespace BlockScript.Script

open BlockScript.Results BlockScript.Text

section

variable (p : Project) (t : Target)

/-! ## More fuel -/

section

variable {call call' : CallText} {chain chain' : ChainWriter}

/-- A slot stays the same under renderings that complete whatever the others do. -/
theorem inputText_mono (hcall : ∀ c text, call c = .ok text → call' c = .ok text)
    (hbody : ∀ owner id text, bodyText chain owner id = .ok text →
      bodyText chain' owner id = .ok text) {owner : Block} {input : Input} {text : List Char}
    (h : inputText p t call chain owner input = .ok text) :
    inputText p t call' chain' owner input = .ok text := by
  cases input with
  | empty => exact h
  | literal value => exact h
  | reference name id => exact h
  | block id =>
    obtain ⟨nested, hnested, h⟩ := bind_eq_ok.mp h
    refine bind_eq_ok.mpr ⟨nested, hnested, ?_⟩
    split at h
    · rw [if_pos ‹_›]
      exact hcall nested text h
    · rw [if_neg ‹_›]
      exact hbody owner id text h

theorem callText_mono (hcall : ∀ c text, call c = .ok text → call' c = .ok text)
    (hbody : ∀ owner id text, bodyText chain owner id = .ok text →
      bodyText chain' owner id = .ok text) {b : Block} {text : List Char}
    (h : callText p t call chain b = .ok text) : callText p t call' chain' b = .ok text := by
  obtain ⟨arguments, harguments, h⟩ := bind_eq_ok.mp h
  obtain ⟨slots, hslots, harguments⟩ := bind_eq_ok.mp harguments
  have hmono : (b.inputs.mapM fun slot => inputText p t call' chain' b slot.2) = .ok slots :=
    mapM_mono (fun slot _ token => inputText_mono p t hcall hbody) hslots
  exact bind_eq_ok.mpr ⟨arguments, bind_eq_ok.mpr ⟨slots, hmono, harguments⟩, h⟩

end

theorem bodyText_chainWith (fuel : Nat) (owner : Block) (id : String) :
    bodyText (chainWith p t fuel) owner id =
      (statementsWith p t fuel (some owner) id).result.map braced :=
  bodyText_eq (chainWith_eq p t fuel (some owner) id opened)

/-- A chain with fuel left is its first call form and then those from the successor on. -/
theorem result_statementsWith (fuel : Nat) (referrer : Option Block) (id : String) :
    (statementsWith p t (fuel + 1) referrer id).result =
      (do
        let b ← lookup t referrer id
        let call ← callWith p t (fuel + 1) b
        match b.next with
        | none => .ok [call]
        | some next => (statementsWith p t fuel (some b) next).result.map (call :: ·)) := by
  rw [statementsWith]
  cases lookup t referrer id with
  | error halt => rfl
  | ok b =>
    cases hc : callWith p t (fuel + 1) b with
    | error halt => simp [hc, bind, Except.bind, Statements.result]
    | ok call =>
      cases hn : b.next with
      | none => simp [hc, hn, bind, Except.bind, Statements.result]
      | some next => simp [hc, hn, bind, Except.bind, Statements.result_cons]

/-- A complete rendering stays the same with one more unit of fuel. -/
theorem fuel_mono (fuel : Nat) :
    (∀ b text, callWith p t fuel b = .ok text → callWith p t (fuel + 1) b = .ok text) ∧
      ∀ referrer id calls, (statementsWith p t fuel referrer id).result = .ok calls →
        (statementsWith p t (fuel + 1) referrer id).result = .ok calls := by
  induction fuel with
  | zero =>
    refine ⟨fun b text h => ?_, fun referrer id calls h => ?_⟩
    · rw [callWith] at h
      cases h
    · rw [statementsWith] at h
      cases h
  | succ fuel ih =>
    obtain ⟨ihCall, ihChain⟩ := ih
    -- Call forms first: a chain renders its blocks with the fuel it has itself.
    have hcall : ∀ b text, callWith p t (fuel + 1) b = .ok text →
        callWith p t (fuel + 2) b = .ok text := by
      intro b text h
      rw [callWith] at h ⊢
      refine callText_mono p t ihCall (fun owner id body hbody => ?_) h
      rw [bodyText_chainWith] at hbody ⊢
      obtain ⟨calls, hcalls, rfl⟩ := map_eq_ok.mp hbody
      exact map_eq_ok.mpr ⟨calls, ihChain (some owner) id calls hcalls, rfl⟩
    refine ⟨hcall, fun referrer id calls h => ?_⟩
    rw [result_statementsWith] at h ⊢
    obtain ⟨b, hb, h⟩ := bind_eq_ok.mp h
    obtain ⟨call, hc, h⟩ := bind_eq_ok.mp h
    refine bind_eq_ok.mpr ⟨b, hb, bind_eq_ok.mpr ⟨call, hcall b call hc, ?_⟩⟩
    cases hn : b.next with
    | none =>
      rw [hn] at h
      exact h
    | some next =>
      rw [hn] at h
      obtain ⟨rest, hrest, rfl⟩ := map_eq_ok.mp h
      exact map_eq_ok.mpr ⟨rest, ihChain (some b) next rest hrest, rfl⟩

/-! ## Complete renderings -/

/-- A complete call form is made of complete call forms and bodies. -/
theorem callText_of_callForm {b : Block} {text : List Char} (h : callForm p t b = .ok text) :
    callText p t (callForm p t) (chain p t) b = .ok text :=
  (fuel_mono p t (fuelFor t)).1 b text h

/-- A complete chain is its first call form and then those from the successor on. -/
theorem calls_of_statements {referrer : Option Block} {id : String} {calls : List (List Char)}
    (h : (statements p t referrer id).result = .ok calls) : ∃ b call rest,
    t.block? id = some b ∧ callForm p t b = .ok call ∧ bodyCalls p t b = .ok rest ∧
      calls = call :: rest := by
  unfold statements fuelFor at h
  rw [result_statementsWith] at h
  obtain ⟨b, hb, h⟩ := bind_eq_ok.mp h
  obtain ⟨call, hc, h⟩ := bind_eq_ok.mp h
  unfold bodyCalls
  cases hn : b.next with
  | none =>
    rw [hn] at h
    exact ⟨b, call, [], lookup_eq_ok.mp hb, hc, by rw [hn], (Except.ok.inj h).symm⟩
  | some next =>
    rw [hn] at h
    obtain ⟨rest, hrest, rfl⟩ := map_eq_ok.mp h
    refine ⟨b, call, rest, lookup_eq_ok.mp hb, hc, ?_, rfl⟩
    rw [hn]
    exact (fuel_mono p t t.blocks.length).2 (some b) next rest hrest

end

/-! ## Texts in texts -/

/-- The first text, set at some depth, is a part of the second. -/
def StandsIn (a b : List Char) : Prop := ∃ d before after, b = before ++ setAt d a ++ after

namespace StandsIn

variable {a b c : List Char}

theorem self (a : List Char) : StandsIn a a := ⟨0, [], [], by simp⟩

theorem trans (hab : StandsIn a b) (hbc : StandsIn b c) : StandsIn a c := by
  obtain ⟨d, before, after, rfl⟩ := hab
  obtain ⟨e, before', after', rfl⟩ := hbc
  refine ⟨e + d, before' ++ setAt e before, setAt e after ++ after', ?_⟩
  rw [setAt_append, setAt_append, setAt_setAt]
  simp

/-- What stands in a part stands in the whole. -/
theorem within (h : StandsIn a b) (before after : List Char) :
    StandsIn a (before ++ b ++ after) :=
  h.trans ⟨0, before, after, by simp⟩

theorem flatten {texts : List (List Char)} (h : StandsIn a b) (hb : b ∈ texts) :
    StandsIn a texts.flatten := by
  obtain ⟨before, after, rfl⟩ := List.append_of_mem hb
  rw [List.flatten_append, List.flatten_cons, ← List.append_assoc]
  exact h.within _ _

theorem intercalate {tokens : List (List Char)} (h : a ∈ tokens) (sep : List Char) :
    StandsIn a (List.intercalate sep tokens) := by
  obtain ⟨before, after, rfl⟩ := List.append_of_mem h
  rw [intercalate_append_cons]
  cases after with
  | nil =>
    rw [List.intercalate_singleton, ← List.append_nil (_ ++ a)]
    exact (self a).within _ _
  | cons next after =>
    rw [List.intercalate_cons_cons, List.append_assoc a, ← List.append_assoc]
    exact (self a).within _ _

theorem statements {calls : List (List Char)} (h : a ∈ calls) (d : Nat) :
    StandsIn a (calls.flatMap (statementAt d)) :=
  flatten ⟨d, spaces d, [';', '\n'], rfl⟩ (List.mem_map_of_mem h)

theorem braced {calls : List (List Char)} (h : a ∈ calls) : StandsIn a (braced calls) :=
  (statements h 1).within ['\x7b', '\n'] ['\x7d']

end StandsIn

/-! ## From the roots down -/

section

variable {p : Project} {t : Target}

/-- The call forms of the block under an id and of those that follow it stand in a text. -/
def ShownFrom (p : Project) (t : Target) (id : String) (text : List Char) : Prop :=
  ∃ b call rest, t.block? id = some b ∧ callForm p t b = .ok call ∧ bodyCalls p t b = .ok rest ∧
    ∀ c ∈ call :: rest, StandsIn c text

theorem shown_of_statements {referrer : Option Block} {id : String} {calls : List (List Char)}
    (h : (statements p t referrer id).result = .ok calls) {text : List Char}
    (hcalls : ∀ c ∈ calls, StandsIn c text) : ShownFrom p t id text := by
  obtain ⟨b, call, rest, hb, hc, hrest, rfl⟩ := calls_of_statements p t h
  exact ⟨b, call, rest, hb, hc, hrest, hcalls⟩

theorem shown_of_next {b : Block} {calls : List (List Char)} (h : bodyCalls p t b = .ok calls)
    {text : List Char} (hcalls : ∀ c ∈ calls, StandsIn c text) {id : String}
    (hid : b.next = some id) : ShownFrom p t id text := by
  unfold bodyCalls at h
  rw [hid] at h
  exact shown_of_statements h hcalls

theorem shown_of_slot {owner : Block} {id : String} {token : List Char}
    (h : inputText p t (callForm p t) (chain p t) owner (.block id) = .ok token)
    {text : List Char} (htoken : StandsIn token text) : ShownFrom p t id text := by
  rw [inputText_block_eq] at h
  obtain ⟨b, hb, h⟩ := bind_eq_ok.mp h
  split at h
  case isTrue hn =>
    refine ⟨b, token, [], lookup_eq_ok.mp hb, h, ?_, by simpa using htoken⟩
    rw [bodyCalls, Option.isNone_iff_eq_none.mp hn]
  case isFalse =>
    obtain ⟨calls, hcalls, rfl⟩ := map_eq_ok.mp h
    exact shown_of_statements hcalls fun c hc => (StandsIn.braced hc).trans htoken

/-- Where the arguments of a block stand, the blocks in its slots stand. -/
theorem shown_of_arguments {b : Block} {args text : List Char} (h : arguments p t b = .ok args)
    (hargs : StandsIn args text) : ∀ id ∈ b.slotBlocks, ShownFrom p t id text := by
  intro id hid
  obtain ⟨slots, hslots, h⟩ := bind_eq_ok.mp h
  obtain ⟨slot, hslot, hblock⟩ := b.exists_slot_of_mem hid
  obtain ⟨token, hmem, htoken⟩ := exists_mem_of_mapM hslots hslot
  rw [hblock] at htoken
  have hin : StandsIn token args := by
    rw [← Except.ok.inj h]
    exact StandsIn.intercalate (List.mem_append_right _ hmem) separator
  exact shown_of_slot htoken (hin.trans hargs)

/-- The arguments of a block stand in its call form. -/
theorem arguments_of_callForm {b : Block} {call : List Char} (h : callForm p t b = .ok call) :
    ∃ args, arguments p t b = .ok args ∧ StandsIn args call := by
  obtain ⟨args, hargs, h⟩ := bind_eq_ok.mp (callText_of_callForm p t h)
  refine ⟨args, hargs, ?_⟩
  split at h
  · split at h
    · cases h
    · rename_i signature _
      obtain rfl := Except.ok.inj h
      by_cases hempty : args.isEmpty
      · rw [List.isEmpty_iff.mp hempty]
        exact ⟨0, [], _, rfl⟩
      · rw [if_neg hempty]
        refine ⟨0, b.opcode.toList ++ '(' :: (quoted signature ++ separator), [')'], ?_⟩
        simp
  · obtain rfl := Except.ok.inj h
    exact ⟨0, b.opcode.toList ++ ['('], [')'], by simp⟩

/-- From a block that stands in a text on, all that it refers to stands there. -/
theorem ShownFrom.reference {i : String} {text : List Char} (h : ShownFrom p t i text) {b : Block}
    (hb : t.block? i = some b) {j : String} (hj : j ∈ b.references) : ShownFrom p t j text := by
  obtain ⟨c, call, rest, hc, hcall, hrest, hshown⟩ := h
  obtain rfl : b = c := Option.some.inj (hb.symm.trans hc)
  rcases List.mem_append.mp hj with hj | hj
  · exact shown_of_next hrest (fun c hc => hshown c (List.mem_cons_of_mem _ hc))
      (Option.mem_toList.mp hj)
  · obtain ⟨args, hargs, hin⟩ := arguments_of_callForm hcall
    exact shown_of_arguments hargs (hin.trans (hshown call (List.mem_cons_self ..))) j hj

/-- The parts of the script of a root stand in the document. -/
theorem parts_of_root {text : String} (h : targetText p t = .ok text) {root : Block}
    (hr : root ∈ t.roots) : ∃ header calls, headerLine p t root = .ok header ∧
      bodyCalls p t root = .ok calls ∧ ∀ c ∈ header :: calls, StandsIn c text.toList := by
  rw [targetText_eq] at h
  obtain ⟨scripts, hscripts, rfl⟩ := map_eq_ok.mp h
  obtain ⟨script, hmem, hscript⟩ := exists_mem_of_mapM hscripts hr
  obtain ⟨parts, hparts, rfl⟩ := map_eq_ok.mp hscript
  obtain ⟨tokens, htokens, hparts⟩ := bind_eq_ok.mp hparts
  obtain ⟨calls, hcalls, hparts⟩ := bind_eq_ok.mp hparts
  obtain rfl := Except.ok.inj hparts
  refine ⟨headerText root.opcode tokens, calls, ?_, hcalls, fun c hc => ?_⟩
  · rw [headerLine_eq, htokens]
    rfl
  · rw [String.toList_ofList, ← List.append_nil (_ ++ scripts.flatten)]
    apply StandsIn.within
    apply StandsIn.flatten _ hmem
    unfold Parts.text
    rcases List.mem_cons.mp hc with rfl | hc
    · refine ⟨0, placeLine root ++ ['\n'], ['\n'] ++ calls.flatMap (statementAt 1) ++
        ['\x7d', ')', ';', '\n'], ?_⟩
      simp
    · exact (StandsIn.statements hc 1).within _ _

/-- The arguments of a root that is no definition stand in its header. -/
theorem arguments_of_headerLine {root : Block} (hop : root.opcode ≠ definitionOpcode)
    {header : List Char} (h : headerLine p t root = .ok header) :
    ∃ args, arguments p t root = .ok args ∧ StandsIn args header := by
  obtain ⟨args, hargs, h⟩ := bind_eq_ok.mp h
  obtain rfl := Except.ok.inj h
  unfold headerArguments at hargs
  rw [if_neg hop] at hargs
  refine ⟨args, hargs, ?_⟩
  by_cases hempty : args.isEmpty
  · rw [List.isEmpty_iff.mp hempty]
    exact ⟨0, [], _, rfl⟩
  · rw [if_neg hempty]
    exact ⟨0, root.opcode.toList ++ ['('], separator ++ ['\x7b'], by simp⟩

/-- In a document there stands the call form of each block under a followed id. -/
theorem shown_of_followed {text : String} (h : targetText p t = .ok text) {id : String}
    (hid : t.Followed Block.references id) : ShownFrom p t id text.toList := by
  induction hid with
  | @root root id hr hi =>
    obtain ⟨header, calls, hheader, hcalls, hshown⟩ := parts_of_root h hr
    rcases List.mem_append.mp hi with hi | hi
    · exact shown_of_next hcalls (fun c hc => hshown c (List.mem_cons_of_mem _ hc))
        (Option.mem_toList.mp hi)
    · split at hi
      · cases hi
      · obtain ⟨args, hargs, hin⟩ := arguments_of_headerLine ‹_› hheader
        exact shown_of_arguments hargs (hin.trans (hshown header (List.mem_cons_self ..))) id hi
  | nested _ hb hj ih => exact ih.reference hb hj

/-- In a document there stand the arguments of each block that is rendered. -/
theorem arguments_of_rendered {text : String} (h : targetText p t = .ok text) {b : Block}
    (hb : t.Rendered b) : ∃ args, arguments p t b = .ok args ∧ StandsIn args text.toList := by
  cases hb with
  | root hr hop =>
    obtain ⟨header, calls, hheader, -, hshown⟩ := parts_of_root h hr
    obtain ⟨args, hargs, hin⟩ := arguments_of_headerLine hop hheader
    exact ⟨args, hargs, hin.trans (hshown header (List.mem_cons_self ..))⟩
  | @followed id _ hid hb =>
    obtain ⟨c, call, rest, hc, hcall, -, hshown⟩ := shown_of_followed h hid
    obtain rfl : b = c := Option.some.inj (hb.symm.trans hc)
    obtain ⟨args, hargs, hin⟩ := arguments_of_callForm hcall
    exact ⟨args, hargs, hin.trans (hshown call (List.mem_cons_self ..))⟩

end

end BlockScript.Script
