/-
  Which call forms take several lines.

  Inside of the call form of a block stand the call forms of the blocks in its slots that have no
  successor, and inside of those again (`Target.Inlines`). The line is broken for four reasons only
  (`Target.Breaks`): a slot of one of these blocks holds a body, or a line feed stands in its opcode,
  in the opcode of the monitor of a reference, or in the name of a reference that has none. A call
  form takes several lines if and only if one of these blocks gives a reason
  (`newline_mem_callForm_iff`). What is typed into fields, literals, signatures and the parameters of
  monitors never counts: with any other texts in their places the answer is the same.

  The proof is by induction on the fuel of the rendering; that the target has no circles is not used.
-/
import BlockScript.Proofs.Graph.Shape
import BlockScript.Proofs.Layout.Printer
import BlockScript.Proofs.Script.Occurrences

namespace BlockScript

open BlockScript.Results BlockScript.Script BlockScript.Text

/-! ## Reasons -/

namespace Target

/-- The call form of the second block stands in a slot of the first. -/
def Inlines (t : Target) (b c : Block) : Prop :=
  ∃ id ∈ b.slotBlocks, t.block? id = some c ∧ c.next = none

/-- Why a block breaks the line, the blocks inside of it not counted. -/
inductive Breaks (p : Project) (t : Target) (b : Block) : Prop
  | body {id : String} {c : Block} (hid : id ∈ b.slotBlocks) (hc : t.block? id = some c)
    (hn : c.next ≠ none) : Breaks p t b
  | opcode (h : '\n' ∈ b.opcode.toList) : Breaks p t b
  | watched {slot : String × Input} {name id : String} {m : Monitor} (hs : slot ∈ b.inputs)
    (hi : slot.2 = .reference name id) (hm : p.monitor? id = some m)
    (h : '\n' ∈ m.opcode.toList) : Breaks p t b
  | bare {slot : String × Input} {name id : String} (hs : slot ∈ b.inputs)
    (hi : slot.2 = .reference name id) (hm : p.monitor? id = none) (h : '\n' ∈ name.toList) :
    Breaks p t b

/-- Whether a block, or one inside of it at any depth, breaks the line. -/
def SpansLines (p : Project) (t : Target) (b : Block) : Prop :=
  ∃ c, Relation.ReflTransGen t.Inlines b c ∧ t.Breaks p c

/-- Whether the line is broken in a slot. -/
def SlotBreaks (p : Project) (t : Target) : Input → Prop
  | .empty => False
  | .literal _ => False
  | .reference name id =>
    match p.monitor? id with
    | some m => '\n' ∈ m.opcode.toList
    | none => '\n' ∈ name.toList
  | .block id => ∃ c, t.block? id = some c ∧ (c.next ≠ none ∨ t.SpansLines p c)

theorem Breaks.opcode_or_slot {p : Project} {t : Target} {b : Block} (h : t.Breaks p b) :
    '\n' ∈ b.opcode.toList ∨ ∃ slot ∈ b.inputs, t.SlotBreaks p slot.2 := by
  cases h with
  | body hid hc hn =>
    obtain ⟨slot, hs, hi⟩ := b.exists_slot_of_mem hid
    refine .inr ⟨slot, hs, ?_⟩
    rw [hi]
    exact ⟨_, hc, .inl hn⟩
  | opcode h => exact .inl h
  | watched hs hi hm h =>
    refine .inr ⟨_, hs, ?_⟩
    rw [hi, SlotBreaks, hm]
    exact h
  | bare hs hi hm h =>
    refine .inr ⟨_, hs, ?_⟩
    rw [hi, SlotBreaks, hm]
    exact h

theorem spansLines_of_slot {p : Project} {t : Target} {b : Block} {slot : String × Input}
    (hs : slot ∈ b.inputs) (h : t.SlotBreaks p slot.2) : t.SpansLines p b := by
  cases hi : slot.2 with
  | empty => rw [hi] at h; exact h.elim
  | literal v => rw [hi] at h; exact h.elim
  | reference name id =>
    rw [hi, SlotBreaks] at h
    cases hm : p.monitor? id with
    | none =>
      rw [hm] at h
      exact ⟨b, .refl, .bare hs hi hm h⟩
    | some m =>
      rw [hm] at h
      exact ⟨b, .refl, .watched hs hi hm h⟩
  | block id =>
    rw [hi] at h
    obtain ⟨c, hc, hbreaks⟩ := h
    have hid := b.mem_slotBlocks hs hi
    by_cases hn : c.next = none
    · obtain ⟨d, hcd, hd⟩ := hbreaks.resolve_left (not_not_intro hn)
      exact ⟨d, .head ⟨id, hid, hc, hn⟩ hcd, hd⟩
    · exact ⟨b, .refl, .body hid hc hn⟩

/-- A block takes several lines because of its opcode or because of one of its slots. -/
theorem spansLines_iff {p : Project} {t : Target} {b : Block} :
    t.SpansLines p b ↔
      '\n' ∈ b.opcode.toList ∨ ∃ slot ∈ b.inputs, t.SlotBreaks p slot.2 := by
  constructor
  · rintro ⟨c, hbc, hc⟩
    rcases Relation.ReflTransGen.cases_head hbc with rfl | ⟨d, ⟨id, hid, hd, -⟩, hdc⟩
    · exact hc.opcode_or_slot
    · obtain ⟨slot, hs, hi⟩ := b.exists_slot_of_mem hid
      refine .inr ⟨slot, hs, ?_⟩
      rw [hi]
      exact ⟨d, hd, .inr ⟨c, hdc, hc⟩⟩
  · rintro (h | ⟨slot, hs, h⟩)
    · exact ⟨b, .refl, .opcode h⟩
    · exact spansLines_of_slot hs h

end Target

/-! ## Line feeds in call forms -/

namespace Script

theorem newline_mem_intercalate {tokens : List (List Char)} :
    '\n' ∈ List.intercalate separator tokens ↔ ∃ a ∈ tokens, '\n' ∈ a := by
  induction tokens with
  | nil => simp
  | cons first rest ih =>
    cases rest with
    | nil => simp
    | cons next rest =>
      rw [List.intercalate_cons_cons, List.mem_append, List.mem_append, ih]
      simp [newline_not_mem_separator]

theorem newline_mem_form {opcode : String} {tokens : List (List Char)} :
    '\n' ∈ form opcode tokens ↔ '\n' ∈ opcode.toList ∨ ∃ a ∈ tokens, '\n' ∈ a := by
  unfold form
  rw [List.mem_append, List.mem_cons, List.mem_append, newline_mem_intercalate]
  simp

theorem newline_mem_braced (calls : List (List Char)) : '\n' ∈ braced calls :=
  List.mem_cons_of_mem _ (List.mem_cons_self ..)

section

variable (p : Project) (t : Target)

theorem newline_mem_referenceToken (name id : String) :
    '\n' ∈ referenceToken p t name id ↔ t.SlotBreaks p (.reference name id) := by
  unfold referenceToken
  rw [Target.SlotBreaks]
  cases p.monitor? id with
  | some m =>
    have hparam := (printable_literalToken m.param).newline_not_mem
    simp [hparam]
  | none =>
    dsimp only
    split <;> simp

theorem newline_mem_inputText {call : CallText} {chain : ChainWriter}
    (hcall : ∀ c text, call c = .ok text → ('\n' ∈ text ↔ t.SpansLines p c))
    (hbody : ∀ owner id text, bodyText chain owner id = .ok text → '\n' ∈ text) {owner : Block}
    {input : Input} {text : List Char} (h : inputText p t call chain owner input = .ok text) :
    '\n' ∈ text ↔ t.SlotBreaks p input := by
  cases input with
  | empty =>
    rw [← Except.ok.inj h]
    exact iff_of_false (by decide) id
  | literal v =>
    rw [← Except.ok.inj h]
    exact iff_of_false (printable_literalToken v).newline_not_mem id
  | reference name id =>
    rw [← Except.ok.inj h]
    exact newline_mem_referenceToken p t name id
  | block id =>
    obtain ⟨c, hc, h⟩ := bind_eq_ok.mp h
    have hfound := lookup_eq_ok.mp hc
    have hslot : t.SlotBreaks p (.block id) ↔ c.next ≠ none ∨ t.SpansLines p c := by
      constructor
      · rintro ⟨d, hd, hbreaks⟩
        rwa [Option.some.inj (hfound.symm.trans hd)]
      · exact fun hbreaks => ⟨c, hfound, hbreaks⟩
    rw [hslot]
    split at h
    case isTrue hn =>
      rw [hcall c text h]
      simp [Option.isNone_iff_eq_none.mp hn]
    case isFalse hn =>
      refine iff_of_true (hbody owner id text h) (.inl fun hnone => hn ?_)
      rw [hnone]
      rfl

/-- Of the arguments of a call form only those for the slots can break the line. -/
theorem newline_mem_callTokens {call : CallText} {chain : ChainWriter}
    (hcall : ∀ c text, call c = .ok text → ('\n' ∈ text ↔ t.SpansLines p c))
    (hbody : ∀ owner id text, bodyText chain owner id = .ok text → '\n' ∈ text) {b : Block}
    {tokens : List (List Char)} (h : callTokens p t call chain b = .ok tokens) :
    (∃ a ∈ tokens, '\n' ∈ a) ↔ ∃ slot ∈ b.inputs, t.SlotBreaks p slot.2 := by
  obtain ⟨arguments, harguments, h⟩ := bind_eq_ok.mp h
  have hsigned : (∃ a ∈ tokens, '\n' ∈ a) ↔ ∃ a ∈ arguments, '\n' ∈ a := by
    split at h
    · split at h
      · cases h
      · rename_i signature _
        rw [← Except.ok.inj h, List.exists_mem_cons_iff]
        simp [(printable_quoted signature).newline_not_mem]
    · rw [← Except.ok.inj h]
  obtain ⟨slots, hslots, harguments⟩ := bind_eq_ok.mp harguments
  rw [hsigned, ← Except.ok.inj harguments]
  constructor
  · rintro ⟨a, ha, hnewline⟩
    rcases List.mem_append.mp ha with ha | ha
    · obtain ⟨field, -, rfl⟩ := List.mem_map.mp ha
      exact absurd hnewline (printable_literalToken field.2).newline_not_mem
    · obtain ⟨slot, hs, hslot⟩ := exists_of_mem_mapM hslots ha
      exact ⟨slot, hs, (newline_mem_inputText p t hcall hbody hslot).mp hnewline⟩
  · rintro ⟨slot, hs, hbreaks⟩
    obtain ⟨a, ha, hslot⟩ := exists_mem_of_mapM hslots hs
    exact ⟨a, List.mem_append_right _ ha, (newline_mem_inputText p t hcall hbody hslot).mpr hbreaks⟩

theorem callWith_ne_nil (fuel : Nat) (b : Block) (text : List Char)
    (h : callWith p t fuel b = .ok text) : text ≠ [] := by
  cases fuel with
  | zero => rw [callWith] at h; cases h
  | succ fuel => rw [callWith] at h; exact callText_ne_nil p t _ _ h

theorem newline_mem_callWith (fuel : Nat) : ∀ b text, callWith p t fuel b = .ok text →
    ('\n' ∈ text ↔ t.SpansLines p b) := by
  induction fuel with
  | zero =>
    intro b text h
    rw [callWith] at h
    cases h
  | succ fuel ih =>
    intro b text h
    have hbody : ∀ owner id text, bodyText (chainWith p t fuel) owner id = .ok text →
        '\n' ∈ text := by
      intro owner id text h
      rw [bodyText_chainWith] at h
      obtain ⟨calls, -, rfl⟩ := map_eq_ok.mp h
      exact newline_mem_braced calls
    rw [callWith, callText_eq p t _ _ (callWith_ne_nil p t fuel)] at h
    obtain ⟨tokens, htokens, rfl⟩ := map_eq_ok.mp h
    rw [Target.spansLines_iff, ← newline_mem_callTokens p t ih hbody htokens]
    exact newline_mem_form

end

end Script

/-! ## Other texts -/

namespace Target

variable {p q : Project} {t u : Target}

theorem SameShape.inlines (h : t.SameShape u) {b c d : Block} (hbc : b.SameShape c)
    (hd : t.Inlines b d) : ∃ e, u.Inlines c e ∧ d.SameShape e := by
  obtain ⟨id, hid, hfound, hn⟩ := hd
  obtain ⟨e, he, hde⟩ := h.exists_block? hfound
  exact ⟨e, ⟨id, hbc.slotBlocks ▸ hid, he, hde.next ▸ hn⟩, hde⟩

theorem SameShape.breaks (hm : List.Forall₂ Monitor.SameShape p.monitors q.monitors)
    (h : t.SameShape u) {b c : Block} (hbc : b.SameShape c) (hb : t.Breaks p b) :
    u.Breaks q c := by
  cases hb with
  | body hid hc hn =>
    obtain ⟨e, he, hce⟩ := h.exists_block? hc
    exact .body (hbc.slotBlocks ▸ hid) he (hce.next ▸ hn)
  | opcode hn => exact .opcode (hbc.opcode ▸ hn)
  | @watched slot name id m hs hi hfound hn =>
    obtain ⟨slot', hs', hi'⟩ := hbc.reference hs hi
    have hsame := Project.monitor?_rel hm id
    rw [hfound] at hsame
    cases hq : q.monitor? id with
    | none => rw [hq] at hsame; cases hsame
    | some n =>
      rw [hq] at hsame
      cases hsame with
      | some hmn => exact .watched hs' hi' hq (hmn.opcode ▸ hn)
  | @bare slot name id hs hi hfound hn =>
    obtain ⟨slot', hs', hi'⟩ := hbc.reference hs hi
    have hsame := Project.monitor?_rel hm id
    rw [hfound] at hsame
    cases hq : q.monitor? id with
    | none => exact .bare hs' hi' hq hn
    | some n => rw [hq] at hsame; cases hsame

/-- A block of the same shape takes several lines where the first does. -/
theorem SameShape.spansLines (hm : List.Forall₂ Monitor.SameShape p.monitors q.monitors)
    (h : t.SameShape u) {b c : Block} (hbc : b.SameShape c) (hb : t.SpansLines p b) :
    u.SpansLines q c := by
  obtain ⟨d, hbd, hd⟩ := hb
  -- Down the inlined blocks, with a block of the same shape on the other side at each step.
  induction hbd using Relation.ReflTransGen.head_induction_on generalizing c with
  | refl => exact ⟨c, .refl, SameShape.breaks hm h hbc hd⟩
  | head hfirst _ ih =>
    obtain ⟨e, hce, hsame⟩ := h.inlines hbc hfirst
    obtain ⟨f, hef, hf⟩ := ih hsame
    exact ⟨f, .head hce hef, hf⟩

end Target

namespace Script

/-- A call form takes several lines exactly if the block, or one inside of it, gives a reason; and
    with other values, signatures and parameters of monitors it does so too or does neither. -/
theorem newline_mem_callForm_iff {p : Project} {t : Target} {b : Block} {text : List Char}
    (h : callForm p t b = .ok text) :
    ('\n' ∈ text ↔ t.SpansLines p b) ∧
      ∀ (q : Project) (u : Target) (c : Block) (text' : List Char),
        List.Forall₂ Monitor.SameShape p.monitors q.monitors → t.SameShape u → b.SameShape c →
          callForm q u c = .ok text' → ('\n' ∈ text' ↔ '\n' ∈ text) := by
  have hspans := newline_mem_callWith p t (fuelFor t) b text h
  refine ⟨hspans, fun q u c text' hm htu hbc h' => ?_⟩
  have hmback : List.Forall₂ Monitor.SameShape q.monitors p.monitors :=
    (hm.imp fun _ _ hmn => hmn.symm).flip
  rw [hspans, newline_mem_callWith q u (fuelFor u) c text' h']
  exact ⟨htu.symm.spansLines hmback hbc.symm, htu.spansLines hm hbc⟩

/-! ## Line feeds that count and line feeds that do not -/

/-- A wait with a call inside of it. -/
def waiting : Block := Block.bare "w" "wait" none [("A", .block "q"), ("B", .empty)]

/-- A loop whose body says something and waits. -/
def looping : Block := Block.bare "l" "loop" none [("BODY", .block "s")]

/-- The wait and the loop, with a text typed into every place of the call. -/
def typedTarget (text : String) : Target where
  name := "S"
  isStage := false
  variableDecls := []
  listDecls := []
  blocks := [
    waiting,
    { Block.bare "q" callOpcode none [("A", .literal (.array [.string text])),
        ("B", .reference "n" "v")] with
      fields := [("F", .string text)], mutation := some ⟨some text⟩ },
    looping,
    Block.bare "s" "say" (some "w") []]

def typedProject (text : String) : Project where
  targets := [typedTarget text]
  monitors := [⟨"v", none, "show", [("VARIABLE", .string text)]⟩]

/-- Line feeds typed into fields, literals, signatures and parameters leave the call form on one
    line, as any other text does; a body takes several lines. -/
theorem newline_mem_callForm_typed :
    callForm (typedProject "\n") (typedTarget "\n") waiting =
        .ok "wait(procedures_call(\"\\n\", \"\\n\", [\"\\n\"], show(\"\\n\")), \x7b\x7d)".toList ∧
      ¬ (typedTarget "\n").SpansLines (typedProject "\n") waiting ∧
      (∀ typed text, callForm (typedProject typed) (typedTarget typed) waiting = .ok text →
        '\n' ∉ text) ∧
      '\n' ∈ (callForm (typedProject "\n") (typedTarget "\n") looping).toOption.getD [] ∧
      (typedTarget "\n").SpansLines (typedProject "\n") looping := by
  have hwaiting : callForm (typedProject "\n") (typedTarget "\n") waiting =
      .ok "wait(procedures_call(\"\\n\", \"\\n\", [\"\\n\"], show(\"\\n\")), \x7b\x7d)".toList := by
    decide +kernel
  have hlooping : '\n' ∈
      (callForm (typedProject "\n") (typedTarget "\n") looping).toOption.getD [] := by
    decide +kernel
  obtain ⟨hspans, hother⟩ := newline_mem_callForm_iff hwaiting
  refine ⟨hwaiting, fun h => absurd (hspans.mpr h) (by decide), fun typed text h hnewline => ?_,
    hlooping, ?_⟩
  · have hmonitors : List.Forall₂ Monitor.SameShape (typedProject "\n").monitors
        (typedProject typed).monitors := .cons ⟨rfl, rfl, rfl⟩ .nil
    have hself : ∀ b : Block, b.SameShape b := fun b => ⟨rfl, rfl, rfl, rfl, rfl, rfl, rfl⟩
    have hshape : (typedTarget "\n").SameShape (typedTarget typed) :=
      ⟨rfl, rfl, .cons (hself _) (.cons ⟨rfl, rfl, rfl, rfl, rfl, rfl, rfl⟩
        (.cons (hself _) (.cons (hself _) .nil)))⟩
    exact absurd ((hother _ _ _ text hmonitors hshape (hself _) h).mp hnewline) (by decide)
  · cases htext : callForm (typedProject "\n") (typedTarget "\n") looping with
    | error e => rw [htext] at hlooping; cases hlooping
    | ok text =>
      rw [htext] at hlooping
      exact (newline_mem_callForm_iff htext).1.mp hlooping

end Script

end BlockScript
