/-
  Documents hold what was typed.

  Two targets of the same shape whose values are texts have equal documents only if everything that
  a document shows is the same in both (`sameContent_of_targetText_eq`): names, declarations, places
  of scripts, signatures, and the fields and slots of every block that rendering reaches
  (`SameContent`). Nothing that was typed is lost in a document, and no two contents are merged.

  Tokens and call forms of such targets are aligned: set at any depth, they start the same text only
  if they are equal (`Aligned`). So equal documents have equal scripts, with equal parts. From there
  the proof goes down the graph: blocks with equal call forms have equal tokens, and from equal
  tokens the blocks in the slots have equal call forms (`SameRendering`). This holds whatever the
  values are, if only the blocks show aligned texts (`Matched`).
-/
import BlockScript.Proofs.Graph.WellFormed
import BlockScript.Proofs.Layout.Outline
import BlockScript.Proofs.Text.Delimited

namespace BlockScript

open BlockScript.Results BlockScript.Script BlockScript.Text

/-! ## Content -/

/-- What a document shows of a declaration: its name and the text of its value. -/
def Declaration.content (d : Declaration) : String × List Char := (d.name, d.value.compact)

/-- The coordinates of a script as texts. -/
def Block.place (b : Block) : List Char × List Char := (b.x.text, b.y.text)

/-- Every value in a field or a slot is a string. -/
def Target.Textual (t : Target) : Prop := ∀ b ∈ t.blocks, ∀ v ∈ b.values, ∃ s, v = .string s

structure Block.SameArguments (b c : Block) : Prop where
  fields : b.fields = c.fields
  inputs : b.inputs = c.inputs

/-- The header of a definition shows the signature it defines, every other header its arguments. -/
structure Target.SameHeader (t u : Target) (b c : Block) : Prop where
  arguments : b.opcode ≠ definitionOpcode → b.SameArguments c
  signature : b.opcode = definitionOpcode →
    ∃ signature, definedSignature t b = .ok signature ∧ definedSignature u c = .ok signature

/-- A statement or a nested call shows its arguments, and a procedure call its signature. -/
structure Block.SameCall (b c : Block) : Prop where
  arguments : b.SameArguments c
  signature : b.opcode = callOpcode → b.proccode? = c.proccode?

/-- All that documents show of the targets is the same. -/
structure Target.SameContent (t u : Target) : Prop where
  isStage : t.isStage = u.isStage
  name : t.name = u.name
  variableDecls : t.variableDecls.map Declaration.content = u.variableDecls.map Declaration.content
  listDecls : t.listDecls.map Declaration.content = u.listDecls.map Declaration.content
  places : t.roots.map Block.place = u.roots.map Block.place
  headers : List.Forall₂ (t.SameHeader u) t.roots u.roots
  calls : ∀ id, t.Followed Block.references id →
    ∃ b c, t.block? id = some b ∧ u.block? id = some c ∧ b.SameCall c

namespace Script

/-! ## Aligned texts -/

/-- Set at any depth, the texts start the same text only if they are equal. -/
def Aligned (a b : List Char) : Prop := ∀ d, Tells (a = b) (setAt d a) (setAt d b)

theorem congruence_aligned : Congruence Aligned := by
  constructor
  case refl => exact fun a d => (tells_same _).imp fun _ => rfl
  case append =>
    intro a b c e hab hce d
    rw [setAt_append, setAt_append]
    exact ((hab d).append (hce d)).imp fun hall => by rw [hall.1, hall.2]
  case setAt =>
    intro a b hab k d
    rw [setAt_setAt, setAt_setAt]
    exact (hab (d + k)).imp fun heq => by rw [heq]

theorem Aligned.tells {a b : List Char} (h : Aligned a b) : Tells (a = b) a b := by
  have hzero := h 0
  rwa [setAt_zero, setAt_zero] at hzero

theorem aligned_quoted (s s' : String) : Aligned (quoted s) (quoted s') := by
  intro d
  rw [(printable_quoted s).setAt_eq, (printable_quoted s').setAt_eq]
  exact (tells_quoted s s').imp fun heq => by rw [heq]

section

variable {tokens tokens' calls calls' : List (List Char)}

theorem tells_tokens (h : List.Forall₂ Aligned tokens tokens') :
    Tells (tokens = tokens') (List.intercalate separator tokens)
      (List.intercalate separator tokens') :=
  tells_intercalate separator (h.imp fun _ _ haligned => haligned.tells)

theorem tells_form (opcode : String) (h : List.Forall₂ Aligned tokens tokens') :
    Tells (tokens = tokens') (form opcode tokens) (form opcode tokens') :=
  (((tells_tokens h).postpend [')']).prepend ['(']).prepend opcode.toList

theorem tells_headerText (opcode : String) (h : List.Forall₂ Aligned tokens tokens') :
    Tells (tokens = tokens') (headerText opcode tokens) (headerText opcode tokens') := by
  refine Tells.prepend opcode.toList (Tells.prepend ['('] (Tells.postpend ?_ ['\x7b']))
  cases h with
  | nil => exact (tells_same []).imp fun _ => rfl
  | cons hfirst hrest => exact (tells_tokens (.cons hfirst hrest)).postpend separator

theorem tells_statements (h : List.Forall₂ Aligned calls calls') :
    Tells (calls = calls') (calls.flatMap (statementAt 1)) (calls'.flatMap (statementAt 1)) := by
  have hcalls := Tells.flatMap (h.imp fun call call' haligned =>
    show Tells (call = call') (statementAt 1 call) (statementAt 1 call') from
      ((haligned 1).prepend (spaces 1)).postpend [';', '\n'])
  rwa [List.forall₂_eq_eq_eq] at hcalls

theorem tells_braced (h : List.Forall₂ Aligned calls calls') :
    Tells (calls = calls') (braced calls) (braced calls') :=
  ((tells_statements h).postpend ['\x7d']).prepend ['\x7b', '\n']

end

theorem tells_placeLine (b c : Block) : Tells (b.place = c.place) (placeLine b) (placeLine c) := by
  have hmark : ∀ mark, isNumeral mark = false → ∀ n : Json.Number, mark ∉ n.text := by
    intro mark hmark n hmem
    have hnumeral := Json.Number.numeral_text hmem
    rw [hmark] at hnumeral
    exact Bool.noConfusion hnumeral
  have hcomma := hmark ',' (by decide)
  have hround := hmark ')' (by decide)
  have hx := (tells_upTo (hcomma b.x) (hcomma c.x)).prepend ['@', '(']
  have hy := (tells_upTo (hround b.y) (hround c.y)).prepend [' ']
  have hall := (hx.append hy).imp fun htold =>
    show b.place = c.place from Prod.ext htold.1 htold.2
  simpa [placeLine, separator] using hall

theorem tells_script {b c : Block} (hopcode : b.opcode = c.opcode) {parts parts' : Parts}
    (h : (Comparison.ofTexts Aligned).Scripts parts parts') :
    Tells (b.place = c.place ∧ parts = parts') (parts.text b) (parts'.text c) := by
  have hplace := (tells_placeLine b c).postpend ['\n']
  have hheader := (tells_headerText b.opcode h.header).postpend ['\n']
  have hcalls := (tells_statements h.calls).postpend ['\x7d', ')', ';', '\n']
  have hall := (hplace.append hheader).append hcalls
  unfold Parts.text
  rw [← hopcode]
  refine Tells.imp ?_ fun htold : (b.place = c.place ∧ parts.header = parts'.header) ∧
    parts.calls = parts'.calls => ?_
  · simpa using hall
  · obtain ⟨⟨hplaces, hheaders⟩, hbodies⟩ := htold
    refine ⟨hplaces, ?_⟩
    cases parts
    cases parts'
    rw [Parts.mk.injEq]
    exact ⟨hheaders, hbodies⟩

/-! ## The lines before the scripts -/

theorem parts_of_directive {S : Prop} (name : String) {first first' second second' : List Char}
    (h : Tells S first first') (heq : directive name first second = directive name first' second') :
    S ∧ second = second' := by
  have hopened := h.prepend ('#' :: name.toList ++ ['('])
  obtain ⟨hS, hrest⟩ := hopened (separator ++ second ++ [')', ';'])
    (separator ++ second' ++ [')', ';']) (by simpa [directive] using heq)
  exact ⟨hS, List.append_cancel_left (List.append_cancel_right hrest)⟩

theorem content_of_declarationLine {name : String} {d e : Declaration}
    (h : declarationLine name d = declarationLine name e) : d.content = e.content := by
  obtain ⟨hname, hvalue⟩ := parts_of_directive name (tells_quoted d.name e.name) h
  exact Prod.ext hname hvalue

theorem tells_boolText (a b : Bool) : Tells (a = b) (Json.boolText a) (Json.boolText b) := by
  cases a <;> cases b
  · exact (tells_same _).imp fun _ => rfl
  · exact fun r r' heq => absurd (List.cons.inj heq).1 (by decide)
  · exact fun r r' heq => absurd (List.cons.inj heq).1 (by decide)
  · exact (tells_same _).imp fun _ => rfl

theorem content_of_declarationLines {name : String} {ds es : List Declaration}
    (h : ds.map (declarationLine name) = es.map (declarationLine name)) :
    ds.map Declaration.content = es.map Declaration.content := by
  rw [← List.forall₂_eq_eq_eq, List.forall₂_map_left_iff, List.forall₂_map_right_iff]
  exact (forall₂_of_map_eq h).imp fun d e => content_of_declarationLine

theorem tells_preamble {t u : Target} (h : t.SameShape u) :
    Tells (preambleLines t = preambleLines u) ((preambleLines t).flatMap (· ++ ['\n']))
      ((preambleLines u).flatMap (· ++ ['\n'])) := by
  have hlines := Tells.flatMap ((marked_preambleLines h).imp fun a b hmarked =>
    show Tells (a = b) (a ++ ['\n']) (b ++ ['\n']) from
      tells_upTo hmarked.1.unbroken hmarked.2.unbroken)
  rwa [List.forall₂_eq_eq_eq] at hlines

/-! ## Equal renderings -/

/-- Targets of the same shape and without circles whose blocks show aligned texts. -/
structure Matched (p q : Project) (t u : Target) : Prop where
  shape : t.SameShape u
  acyclic : t.Acyclic ∧ u.Acyclic
  blocks : List.Forall₂ ((Comparison.ofTexts Aligned).Blocks p q t u) t.blocks u.blocks

/-- Targets of the same shape and without circles that hold only texts and show references alike. -/
structure Twins (p q : Project) (t u : Target) : Prop where
  shape : t.SameShape u
  acyclic : t.Acyclic ∧ u.Acyclic
  textual : t.Textual ∧ u.Textual
  references : ∀ name id, referenceToken p t name id = referenceToken q u name id

/-- Two blocks have the same call form, and so have the chains behind them. -/
structure SameRendering (p q : Project) (t u : Target) (b c : Block) : Prop where
  call : ∃ text, callForm p t b = .ok text ∧ callForm q u c = .ok text
  body : ∃ calls, bodyCalls p t b = .ok calls ∧ bodyCalls q u c = .ok calls

/-- Two scripts stand at the same place and have the same parts. -/
structure SameScript (p q : Project) (t u : Target) (b c : Block) : Prop where
  place : b.place = c.place
  parts : ∃ parts, scriptParts p t b = .ok parts ∧ scriptParts q u c = .ok parts

/-- The blocks under an id are rendered the same. -/
def SameUnder (p q : Project) (t u : Target) (id : String) : Prop :=
  ∃ b c, t.block? id = some b ∧ u.block? id = some c ∧ SameRendering p q t u b c

/-- Equal tokens of calls are equal signatures, if there are any, and equal arguments. -/
theorem signature_of_callTokens {p q : Project} {t u : Target} {b c : Block}
    (hopcode : b.opcode = c.opcode) {call call' : CallText} {chain chain' : ChainWriter}
    {tokens : List (List Char)} (ht : callTokens p t call chain b = .ok tokens)
    (hu : callTokens q u call' chain' c = .ok tokens) :
    (b.opcode = callOpcode → b.proccode? = c.proccode?) ∧
      ∃ rest, argumentTokens p t call chain b = .ok rest ∧
        argumentTokens q u call' chain' c = .ok rest := by
  obtain ⟨rest, hrest, ht⟩ := bind_eq_ok.mp ht
  obtain ⟨rest', hrest', hu⟩ := bind_eq_ok.mp hu
  rw [← hopcode] at hu
  by_cases hcall : b.opcode = callOpcode
  · rw [if_pos hcall] at ht hu
    cases hb : b.proccode? with
    | none => rw [hb] at ht; cases ht
    | some s =>
      cases hc : c.proccode? with
      | none => rw [hc] at hu; cases hu
      | some s' =>
        rw [hb] at ht
        rw [hc] at hu
        obtain ⟨hquoted, rfl⟩ := List.cons.inj (Except.ok.inj (ht.trans hu.symm))
        exact ⟨fun _ => by rw [(tells_quoted s s').of_eq hquoted], rest, hrest, hrest'⟩
  · rw [if_neg hcall] at ht hu
    obtain rfl : rest = rest' := Except.ok.inj (ht.trans hu.symm)
    exact ⟨fun hop => absurd hop hcall, rest, hrest, hrest'⟩

/-- Equal tokens of arguments are equal tokens of fields and equal texts in slots. -/
theorem sameTexts_of_argumentTokens {p q : Project} {t u : Target} {b c : Block}
    (hbc : b.SameShape c) {tokens : List (List Char)}
    (ht : argumentTokens p t (callForm p t) (chain p t) b = .ok tokens)
    (hu : argumentTokens q u (callForm q u) (chain q u) c = .ok tokens) :
    List.Forall₂ (fun f g => literalToken f.2 = literalToken g.2) b.fields c.fields ∧
      List.Forall₂ (fun s s' => ∃ text,
        inputText p t (callForm p t) (chain p t) b s.2 = .ok text ∧
          inputText q u (callForm q u) (chain q u) c s'.2 = .ok text) b.inputs c.inputs := by
  obtain ⟨slots, hslots, htokens⟩ := bind_eq_ok.mp ht
  obtain ⟨slots', hslots', htokens'⟩ := bind_eq_ok.mp hu
  have hlength := (forall₂_of_map_eq hbc.fields).length_eq
  obtain ⟨hfields, rfl⟩ := List.append_inj (Except.ok.inj (htokens.trans htokens'.symm))
    (by rw [List.length_map, List.length_map, hlength])
  exact ⟨forall₂_of_map_eq hfields, forall₂_of_mapM_eq hslots hslots'⟩

/-- Scripts that are the same have the same header and the same chain behind it. -/
theorem SameScript.tokens {p q : Project} {t u : Target} {b c : Block}
    (h : SameScript p q t u b c) :
    (∃ tokens, headerTokens p t b = .ok tokens ∧ headerTokens q u c = .ok tokens) ∧
      ∃ calls, bodyCalls p t b = .ok calls ∧ bodyCalls q u c = .ok calls := by
  obtain ⟨parts, ht, hu⟩ := h.parts
  obtain ⟨header, hheader, ht⟩ := bind_eq_ok.mp ht
  obtain ⟨calls, hcalls, heq⟩ := bind_eq_ok.mp ht
  obtain ⟨header', hheader', hu⟩ := bind_eq_ok.mp hu
  obtain ⟨calls', hcalls', heq'⟩ := bind_eq_ok.mp hu
  obtain ⟨rfl, rfl⟩ := Parts.mk.inj (Except.ok.inj (heq.trans heq'.symm))
  exact ⟨⟨header, hheader, hheader'⟩, calls, hcalls, hcalls'⟩

namespace Matched

variable {p q : Project} {t u : Target} (h : Matched p q t u)

include h

theorem roots : List.Forall₂ (fun b c => b.SameShape c ∧
    (Comparison.ofTexts Aligned).Blocks p q t u b c) t.roots u.roots :=
  List.rel_filter (fun b c hbc => show b.topLevel = true ↔ c.topLevel = true by
    rw [hbc.1.topLevel]) (List.Forall₂.mp (fun _ _ => And.intro) h.shape.blocks h.blocks)

theorem tables : (Comparison.ofTexts Aligned).Tables p q t u := by
  refine ⟨?_, fun calls calls' => congruence_aligned.braced⟩
  rintro i j rfl
  exact find?_rel h.blocks fun b c hbc => by rw [show b.id = c.id from hbc.id]

theorem of_block? {id : String} {b c : Block} (hb : t.block? id = some b)
    (hc : u.block? id = some c) : (Comparison.ofTexts Aligned).Blocks p q t u b c := by
  have hblocks := h.tables.blocks id id rfl
  rw [hb, hc] at hblocks
  cases hblocks with
  | some hbc => exact hbc

theorem renders (i j : String) (hij : i = j) :
    (Comparison.ofTexts Aligned).Renders p q t u i j :=
  h.tables.renders h.acyclic.1 h.acyclic.2 i j hij

/-! ### From a rendering to its parts -/

theorem sameUnder_of_chain {r s : Option Block} {id : String} {calls : List (List Char)}
    (ht : (statements p t r id).result = .ok calls)
    (hu : (statements q u s id).result = .ok calls) : SameUnder p q t u id := by
  rw [result_statements p t h.acyclic.1] at ht
  rw [result_statements q u h.acyclic.2] at hu
  obtain ⟨b, hb, ht⟩ := bind_eq_ok.mp ht
  obtain ⟨call, hcall, ht⟩ := bind_eq_ok.mp ht
  obtain ⟨rest, hrest, heq⟩ := map_eq_ok.mp ht
  obtain ⟨c, hc, hu⟩ := bind_eq_ok.mp hu
  obtain ⟨call', hcall', hu⟩ := bind_eq_ok.mp hu
  obtain ⟨rest', hrest', heq'⟩ := map_eq_ok.mp hu
  obtain ⟨rfl, rfl⟩ := List.cons.inj (heq.trans heq'.symm)
  exact ⟨b, c, lookup_eq_ok.mp hb, lookup_eq_ok.mp hc, ⟨call, hcall, hcall'⟩, ⟨rest, hrest, hrest'⟩⟩

theorem sameUnder_of_next {b c : Block} (hnext : b.next = c.next) {calls : List (List Char)}
    (ht : bodyCalls p t b = .ok calls) (hu : bodyCalls q u c = .ok calls) {id : String}
    (hid : b.next = some id) : SameUnder p q t u id := by
  unfold bodyCalls at ht hu
  rw [← hnext, hid] at hu
  rw [hid] at ht
  exact h.sameUnder_of_chain ht hu

theorem sameUnder_of_slot {b c : Block} (hbc : b.SameShape c) {id : String} {text : List Char}
    (ht : inputText p t (callForm p t) (chain p t) b (.block id) = .ok text)
    (hu : inputText q u (callForm q u) (chain q u) c (.block id) = .ok text) :
    SameUnder p q t u id := by
  rw [inputText_block_eq] at ht hu
  obtain ⟨b', hb, ht⟩ := bind_eq_ok.mp ht
  obtain ⟨c', hc, hu⟩ := bind_eq_ok.mp hu
  rw [lookup_eq_ok] at hb hc
  have hnext : b'.next = c'.next := (h.shape.of_block? hb hc).next
  rw [← hnext] at hu
  split at ht
  case isTrue hnone =>
    rw [if_pos hnone] at hu
    rw [Option.isNone_iff_eq_none] at hnone
    refine ⟨b', c', hb, hc, ⟨text, ht, hu⟩, [], ?_, ?_⟩
    · rw [bodyCalls, hnone]
    · rw [bodyCalls, ← hnext, hnone]
  case isFalse hsome =>
    rw [if_neg hsome] at hu
    obtain ⟨calls, hcalls, hbraced⟩ := map_eq_ok.mp ht
    obtain ⟨calls', hcalls', hbraced'⟩ := map_eq_ok.mp hu
    have haligned := (h.renders id id rfl).chain b c ⟨hbc.id, hbc.opcode⟩
    rw [hcalls, hcalls'] at haligned
    have heq : calls = calls' :=
      (tells_braced haligned.rel_of_ok).of_eq (hbraced.trans hbraced'.symm)
    rw [← heq] at hcalls'
    exact h.sameUnder_of_chain hcalls hcalls'

/-- Blocks with equal tokens have equal renderings in their slots. -/
theorem sameUnder_of_arguments {b c : Block} (hbc : b.SameShape c) {tokens : List (List Char)}
    (ht : argumentTokens p t (callForm p t) (chain p t) b = .ok tokens)
    (hu : argumentTokens q u (callForm q u) (chain q u) c = .ok tokens) :
    ∀ id ∈ b.slotBlocks, SameUnder p q t u id := by
  intro id hid
  obtain ⟨slot, hs, hi⟩ := b.exists_slot_of_mem hid
  have hslots := List.Forall₂.mp (fun _ _ => And.intro) (forall₂_of_map_eq hbc.inputs)
    (sameTexts_of_argumentTokens hbc ht hu).2
  obtain ⟨slot', -, heq, text, htext, htext'⟩ := exists_of_forall₂ hslots hs
  obtain ⟨-, hshape⟩ := Prod.mk.inj heq
  rw [hi] at htext hshape
  have hi' : slot'.2 = .block id := by
    cases hslot : slot'.2 <;> rw [hslot] at hshape <;> cases hshape
    rfl
  rw [hi'] at htext'
  exact h.sameUnder_of_slot hbc htext htext'

/-- Blocks with equal renderings have equal signatures, if they are calls, and equal arguments. -/
theorem sameTokens {id : String} {b c : Block} (hb : t.block? id = some b)
    (hc : u.block? id = some c) (hsame : SameRendering p q t u b c) :
    (b.opcode = callOpcode → b.proccode? = c.proccode?) ∧
      ∃ tokens, argumentTokens p t (callForm p t) (chain p t) b = .ok tokens ∧
        argumentTokens q u (callForm q u) (chain q u) c = .ok tokens := by
  have hbc := h.of_block? hb hc
  obtain ⟨text, ht, hu⟩ := hsame.call
  rw [callForm_eq p t h.acyclic.1 hb, callText_eq p t _ _ (callForm_ne_nil p t)] at ht
  rw [callForm_eq q u h.acyclic.2 hc, callText_eq q u _ _ (callForm_ne_nil q u)] at hu
  obtain ⟨tokens, ht, hform⟩ := map_eq_ok.mp ht
  obtain ⟨tokens', hu, hform'⟩ := map_eq_ok.mp hu
  have haligned := h.tables.callTokens hbc fun i _ => h.renders i
  rw [ht, hu] at haligned
  rw [← hbc.opcode] at hform'
  obtain rfl : tokens = tokens' :=
    (tells_form b.opcode haligned.rel_of_ok).of_eq (hform.trans hform'.symm)
  exact signature_of_callTokens hbc.opcode ht hu

/-- What blocks with equal renderings refer to has equal renderings. -/
theorem sameUnder_of_rendering {id : String} {b c : Block} (hb : t.block? id = some b)
    (hc : u.block? id = some c) (hsame : SameRendering p q t u b c) :
    ∀ j ∈ b.references, SameUnder p q t u j := by
  intro j hj
  have hbc := h.shape.of_block? hb hc
  rcases List.mem_append.mp hj with hj | hj
  · obtain ⟨calls, hcalls, hcalls'⟩ := hsame.body
    exact h.sameUnder_of_next hbc.next hcalls hcalls' (Option.mem_toList.mp hj)
  · obtain ⟨-, tokens, ht, hu⟩ := h.sameTokens hb hc hsame
    exact h.sameUnder_of_arguments hbc ht hu j hj

theorem sameUnder_of_script {b c : Block} (hbc : b.SameShape c)
    (hscript : SameScript p q t u b c) : ∀ id ∈ b.headReferences, SameUnder p q t u id := by
  obtain ⟨⟨tokens, ht, hu⟩, calls, hcalls, hcalls'⟩ := hscript.tokens
  intro id hid
  rcases List.mem_append.mp hid with hid | hid
  · exact h.sameUnder_of_next hbc.next hcalls hcalls' (Option.mem_toList.mp hid)
  · split at hid
    case isTrue => cases hid
    case isFalse hop =>
      unfold headerTokens at ht hu
      rw [if_neg hop] at ht
      rw [← hbc.opcode, if_neg hop] at hu
      exact h.sameUnder_of_arguments hbc ht hu id hid

/-! ### Documents -/

theorem tells_scriptText {b c : Block} (hopcode : b.opcode = c.opcode)
    (hbc : (Comparison.ofTexts Aligned).Blocks p q t u b c) {x y : List Char}
    (hx : scriptText p t b = .ok x) (hy : scriptText q u c = .ok y) :
    Tells (SameScript p q t u b c) x y := by
  obtain ⟨parts, hparts, rfl⟩ := map_eq_ok.mp hx
  obtain ⟨parts', hparts', rfl⟩ := map_eq_ok.mp hy
  have haligned := h.tables.scriptParts h.acyclic.1 h.acyclic.2 hbc.roots
  rw [hparts, hparts'] at haligned
  refine (tells_script hopcode haligned.rel_of_ok).imp fun htold => ?_
  obtain ⟨hplace, heq⟩ := htold
  exact ⟨hplace, parts, hparts, heq ▸ hparts'⟩

/-- Equal documents start with equal lines and go on with equal scripts. -/
theorem sameScripts {text : String} (ht : targetText p t = .ok text)
    (hu : targetText q u = .ok text) :
    preambleLines t = preambleLines u ∧
      List.Forall₂ (SameScript p q t u) t.roots u.roots := by
  rw [targetText_eq] at ht hu
  obtain ⟨scripts, hscripts, htext⟩ := map_eq_ok.mp ht
  obtain ⟨scripts', hscripts', htext'⟩ := map_eq_ok.mp hu
  rw [toList_preamble] at htext htext'
  have hroots : List.Forall₂ (fun b c => ∀ x y, scriptText p t b = .ok x →
      scriptText q u c = .ok y → Tells (SameScript p q t u b c) x y) t.roots u.roots :=
    h.roots.imp fun b c hbc x y => h.tells_scriptText hbc.1.opcode hbc.2
  have hall := (tells_preamble h.shape).append (Tells.mapM hroots hscripts hscripts')
  exact hall.of_eq (String.ofList_injective (htext.trans htext'.symm))

/-- From equal scripts on, every id that rendering follows has equal renderings. -/
theorem sameUnder_of_followed (hscripts : List.Forall₂ (SameScript p q t u) t.roots u.roots)
    {id : String} (hid : t.Followed Block.references id) : SameUnder p q t u id := by
  induction hid with
  | root hr hi =>
    have hroots := List.Forall₂.mp (fun _ _ => And.intro) h.shape.roots hscripts
    obtain ⟨c, -, hbc, hscript⟩ := exists_of_forall₂ hroots hr
    exact h.sameUnder_of_script hbc hscript _ hi
  | nested _ hb hj ih =>
    obtain ⟨b, c, hb', hc, hsame⟩ := ih
    obtain rfl := Option.some.inj (hb.symm.trans hb')
    exact h.sameUnder_of_rendering hb hc hsame _ hj

end Matched

/-! ### Texts only -/

namespace Twins

variable {p q : Project} {t u : Target} (h : Twins p q t u)

include h

theorem matched : Matched p q t u := by
  refine ⟨h.shape, h.acyclic, (forall₂_mem h.shape.blocks).imp fun b c hmem => ?_⟩
  obtain ⟨hbc, hb, hc⟩ := hmem
  refine congruence_aligned.blocks aligned_quoted (fun name id => ?_) hbc fun v hv w hw => ?_
  · rw [h.references]
    exact congruence_aligned.refl _
  · obtain ⟨s, rfl⟩ := h.textual.1 b hb v hv
    obtain ⟨s', rfl⟩ := h.textual.2 c hc w hw
    exact aligned_quoted s s'

theorem slot_eq {b c : Block} (hb : b ∈ t.blocks) (hc : c ∈ u.blocks) {s s' : String × Input}
    (hs : s ∈ b.inputs) (hs' : s' ∈ c.inputs) (hshape : (s.1, s.2.shape) = (s'.1, s'.2.shape))
    {text : List Char} (ht : inputText p t (callForm p t) (chain p t) b s.2 = .ok text)
    (hu : inputText q u (callForm q u) (chain q u) c s'.2 = .ok text) : s = s' := by
  obtain ⟨name, input⟩ := s
  obtain ⟨name', input'⟩ := s'
  obtain ⟨rfl, hinput⟩ := Prod.mk.inj hshape
  refine Prod.ext rfl ?_
  cases input with
  | literal v =>
    cases input' with
    | literal w =>
      obtain ⟨a, rfl⟩ := h.textual.1 b hb v (b.mem_values_of_slot hs rfl)
      obtain ⟨a', rfl⟩ := h.textual.2 c hc w (c.mem_values_of_slot hs' rfl)
      have heq : quoted a = quoted a' := Except.ok.inj (ht.trans hu.symm)
      rw [(tells_quoted a a').of_eq heq]
    | _ => cases hinput
  | empty => cases input' <;> cases hinput; rfl
  | block id => cases input' <;> cases hinput; rfl
  | reference n id => cases input' <;> cases hinput; rfl

/-- Blocks with equal tokens have equal arguments. -/
theorem sameArguments {b c : Block} (hb : b ∈ t.blocks) (hc : c ∈ u.blocks) (hbc : b.SameShape c)
    {tokens : List (List Char)}
    (ht : argumentTokens p t (callForm p t) (chain p t) b = .ok tokens)
    (hu : argumentTokens q u (callForm q u) (chain q u) c = .ok tokens) : b.SameArguments c := by
  obtain ⟨hfields, hslots⟩ := sameTexts_of_argumentTokens hbc ht hu
  constructor
  case fields =>
    rw [← List.forall₂_eq_eq_eq]
    refine List.Forall₂.mp (fun f g hmem htoken => ?_) (forall₂_mem (forall₂_of_map_eq hbc.fields))
      hfields
    obtain ⟨hname, hf, hg⟩ := hmem
    obtain ⟨a, ha⟩ := h.textual.1 b hb f.2 (b.mem_values_of_field hf)
    obtain ⟨a', ha'⟩ := h.textual.2 c hc g.2 (c.mem_values_of_field hg)
    rw [ha, ha'] at htoken
    refine Prod.ext hname ?_
    rw [ha, ha', (tells_quoted a a').of_eq htoken]
  case inputs =>
    rw [← List.forall₂_eq_eq_eq]
    refine List.Forall₂.mp (fun s s' hmem htext => ?_) (forall₂_mem (forall₂_of_map_eq hbc.inputs))
      hslots
    obtain ⟨hshape, hs, hs'⟩ := hmem
    obtain ⟨text, htext, htext'⟩ := htext
    exact h.slot_eq hb hc hs hs' hshape htext htext'

/-- Blocks with equal renderings show the same. -/
theorem sameCall {id : String} {b c : Block} (hb : t.block? id = some b) (hc : u.block? id = some c)
    (hsame : SameRendering p q t u b c) : b.SameCall c := by
  obtain ⟨hsignature, tokens, ht, hu⟩ := h.matched.sameTokens hb hc hsame
  exact ⟨h.sameArguments (Target.mem_blocks_of_block? hb) (Target.mem_blocks_of_block? hc)
    (h.shape.of_block? hb hc) ht hu, hsignature⟩

/-- Scripts that are the same show the same in their headers. -/
theorem sameHeader {b c : Block} (hb : b ∈ t.roots) (hc : c ∈ u.roots) (hbc : b.SameShape c)
    (hscript : SameScript p q t u b c) : t.SameHeader u b c := by
  obtain ⟨⟨tokens, ht, hu⟩, -⟩ := hscript.tokens
  unfold headerTokens at ht hu
  rw [← hbc.opcode] at hu
  by_cases hop : b.opcode = definitionOpcode
  · rw [if_pos hop] at ht hu
    obtain ⟨s, hs, htoken⟩ := map_eq_ok.mp ht
    obtain ⟨s', hs', htoken'⟩ := map_eq_ok.mp hu
    have hsignature : s = s' :=
      (tells_quoted s s').of_eq (List.cons.inj (htoken.trans htoken'.symm)).1
    rw [← hsignature] at hs'
    exact ⟨fun hne => absurd hop hne, fun _ => ⟨s, hs, hs'⟩⟩
  · rw [if_neg hop] at ht hu
    have harguments := h.sameArguments (List.mem_of_mem_filter hb) (List.mem_of_mem_filter hc) hbc
      ht hu
    exact ⟨fun _ => harguments, fun heq => absurd heq hop⟩

theorem sameHeaders (hscripts : List.Forall₂ (SameScript p q t u) t.roots u.roots) :
    List.Forall₂ (t.SameHeader u) t.roots u.roots :=
  List.Forall₂.mp (fun _ _ hmem => h.sameHeader hmem.2.1 hmem.2.2 hmem.1)
    (forall₂_mem h.shape.roots) hscripts

end Twins

/-- Equal lines before the scripts show the same targets and declarations. -/
theorem content_of_preambleLines {t u : Target} (h : t.SameShape u)
    (heq : preambleLines t = preambleLines u) :
    (t.isStage = u.isStage ∧ t.name = u.name) ∧
      t.variableDecls.map Declaration.content = u.variableDecls.map Declaration.content ∧
      t.listDecls.map Declaration.content = u.listDecls.map Declaration.content := by
  obtain ⟨-, hrest⟩ := List.cons.inj heq
  obtain ⟨hmeta, hdecls⟩ := List.cons.inj hrest
  have hlength := (forall₂_of_map_eq h.variableIds).length_eq
  obtain ⟨hvariables, hlists⟩ := List.append_inj hdecls
    (by rw [List.length_map, List.length_map, hlength])
  obtain ⟨hstage, hname⟩ := parts_of_directive "meta" (tells_boolText t.isStage u.isStage) hmeta
  exact ⟨⟨hstage, (tells_quoted t.name u.name).of_eq hname⟩,
    content_of_declarationLines hvariables, content_of_declarationLines hlists⟩

/-- Corresponding targets of projects of the same shape, with the same monitors and only texts in
    fields and slots, have equal documents only if they show the same. -/
theorem sameContent_of_targetText_eq {p q : Project} {t u : Target} (h : p.SameShape q)
    (hmonitors : p.monitors = q.monitors) (htu : (t, u) ∈ p.targets.zip q.targets)
    (ht : t.Acyclic) (hu : u.Acyclic) (htt : t.Textual) (hut : u.Textual) {text : String}
    (htext : targetText p t = .ok text) (hutext : targetText q u = .ok text) :
    t.SameContent u := by
  have hshape : t.SameShape u := List.forall₂_zip h.targets htu
  have htwins : Twins p q t u :=
    ⟨hshape, ⟨ht, hu⟩, ⟨htt, hut⟩, referenceToken_sameShape hmonitors hshape⟩
  obtain ⟨hlines, hscripts⟩ := htwins.matched.sameScripts htext hutext
  have hheaders := htwins.sameHeaders hscripts
  obtain ⟨⟨hstage, hname⟩, hvariables, hlists⟩ := content_of_preambleLines hshape hlines
  refine ⟨hstage, hname, hvariables, hlists, ?_, hheaders, fun id hid => ?_⟩
  · rw [← List.forall₂_eq_eq_eq, List.forall₂_map_left_iff, List.forall₂_map_right_iff]
    exact hscripts.imp fun b c hscript => hscript.place
  · obtain ⟨b, c, hb, hc, hsame⟩ := htwins.matched.sameUnder_of_followed hscripts hid
    exact ⟨b, c, hb, hc, htwins.sameCall hb hc hsame⟩

/-! ## What a document does not show -/

/-- A definition with a body, texts with quotes and separators, and a block that nothing leads to.
    Neither that block nor the field of the definition is shown, and of the coordinate its text. -/
def partlyShown (unseen : String) (x : Json.Number) : Target where
  name := "\", \""
  isStage := true
  variableDecls := [⟨"v", "\\", .array [.null]⟩]
  listDecls := []
  blocks := [
    { Block.bare "d" definitionOpcode (some "c") [(prototypeSlot, .block "p")] with
      topLevel := true, x := x, fields := [("F", .string unseen)] },
    { Block.bare "p" "prototype" none [] with mutation := some ⟨some "say \"%s\""⟩ },
    { Block.bare "c" callOpcode none [("A", .literal (.string "\"\n")), ("B", .block "e")] with
      mutation := some ⟨some "run"⟩, fields := [("F", .string "\", \"")] },
    Block.bare "e" "wait" none [],
    Block.bare "z" "stop" none [("A", .literal (.string unseen))]]

def partlyShownText : String :=
  "\n".intercalate ["// Generate by scratch-script", "#meta(true, \"\\\", \\\"\");",
    "#init_var(\"\\\\\", [null]);", "@(0, 0)", "procedures_definition(\"say \\\"%s\\\"\", \x7b",
    "    procedures_call(\"run\", \"\\\", \\\"\", \"\\\"\\n\", wait());", "\x7d);", ""]

theorem sameShape_partlyShown (unseen unseen' : String) (x x' : Json.Number) :
    (partlyShown unseen x).SameShape (partlyShown unseen' x') where
  variableIds := rfl
  listIds := rfl
  blocks := by
    refine .cons ?_ (.cons ?_ (.cons ?_ (.cons ?_ (.cons ?_ .nil))))
    all_goals exact ⟨rfl, rfl, rfl, rfl, rfl, rfl, rfl⟩

theorem acyclic_partlyShown (unseen : String) (x : Json.Number) :
    (partlyShown unseen x).Acyclic := by
  refine Target.acyclic_of_measure
    (fun id => match id with | "d" => 2 | "c" => 1 | _ => 0) fun b hb => ?_
  simp only [partlyShown, List.mem_cons, List.not_mem_nil, or_false] at hb
  rcases hb with rfl | rfl | rfl | rfl | rfl <;> simp [Block.references, Block.slotBlocks,
    Input.block?, Block.bare]

theorem textual_partlyShown (unseen : String) (x : Json.Number) :
    (partlyShown unseen x).Textual := by
  intro b hb
  simp only [partlyShown, List.mem_cons, List.not_mem_nil, or_false] at hb
  rcases hb with rfl | rfl | rfl | rfl | rfl <;> simp [Block.values, Block.bare]

/-- One document of two targets. -/
theorem sameContent_partlyShown :
    let t := partlyShown "a" (.integer 0)
    let u := partlyShown "b" (.double ⟨0x8000000000000000⟩)
    t.Acyclic ∧ u.Acyclic ∧ t.Textual ∧ u.Textual ∧
      targetText ⟨[t], []⟩ t = .ok partlyShownText ∧ targetText ⟨[u], []⟩ u = .ok partlyShownText ∧
      t.SameContent u := by
  intro t u
  have ht : targetText ⟨[t], []⟩ t = .ok partlyShownText := by decide +kernel
  have hu : targetText ⟨[u], []⟩ u = .ok partlyShownText := by decide +kernel
  have hshape : Project.SameShape ⟨[t], []⟩ ⟨[u], []⟩ :=
    ⟨.cons (sameShape_partlyShown _ _ _ _) .nil, .nil⟩
  exact ⟨acyclic_partlyShown _ _, acyclic_partlyShown _ _, textual_partlyShown _ _,
    textual_partlyShown _ _, ht, hu,
    sameContent_of_targetText_eq hshape rfl (List.mem_singleton_self _) (acyclic_partlyShown _ _)
      (acyclic_partlyShown _ _) (textual_partlyShown _ _) (textual_partlyShown _ _) ht hu⟩

end Script

end BlockScript
