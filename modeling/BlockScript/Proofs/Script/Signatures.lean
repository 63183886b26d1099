/-
  Procedure calls keep their signatures.

  A procedure call that rendering follows, as a statement or in a slot (`Target.Calls`), is shown
  with its signature before its fields and slots. If it has none that is a fault of the target, and
  rendering halts with it or with one that is met earlier. Two targets that differ in nothing but
  signatures (`Target.SameButSignatures`) have different documents as soon as they differ in the
  signature of a followed call (`signature_of_call`).

  The head of a script is not a call form: its header shows fields and slots only, and what
  signature a call has there is not seen in the document (`unsigned_headers`).
-/
import BlockScript.Proofs.Graph.Blame
import BlockScript.Proofs.Script.Content
import BlockScript.Proofs.Script.Occurrences

namespace BlockScript

open BlockScript.Results BlockScript.Script BlockScript.Text

/-! ## Calls and signatures -/

/-- The block under a followed id is a procedure call. -/
structure Target.Calls (t : Target) (id : String) (b : Block) : Prop where
  followed : t.Followed Block.references id
  found : t.block? id = some b
  opcode : b.opcode = callOpcode

/-- The blocks are the same but for the text of their signatures. -/
structure Block.SameButSignature (b c : Block) : Prop where
  rest : c = { b with mutation := c.mutation }
  signed : b.proccode?.isSome = c.proccode?.isSome

/-- The targets are the same but for the texts of signatures. -/
structure Target.SameButSignatures (t u : Target) : Prop where
  rest : u = { t with blocks := u.blocks }
  blocks : List.Forall₂ Block.SameButSignature t.blocks u.blocks

theorem Block.SameButSignature.sameShape {b c : Block} (h : b.SameButSignature c) :
    b.SameShape c := by
  have hsigned := h.signed
  rw [h.rest] at hsigned ⊢
  exact ⟨rfl, rfl, rfl, rfl, rfl, rfl, hsigned⟩

theorem Target.SameButSignatures.sameShape {t u : Target} (h : t.SameButSignatures u) :
    t.SameShape u := by
  refine ⟨?_, ?_, h.blocks.imp fun b c hbc => hbc.sameShape⟩
  · rw [h.rest]
  · rw [h.rest]

/-! ## Faults of calls -/

namespace Target

variable {t : Target} (h : t.Acyclic)

/-- The faults from a followed id on are faults of the target. -/
theorem faults_of_followed {id : String} (hid : t.Followed Block.references id) :
    ∃ owner, ∀ f ∈ t.faultsFrom h owner id, f ∈ t.faults h := by
  induction hid with
  | @root root id hr hi =>
    refine ⟨root, fun f hf => List.mem_flatMap.mpr ⟨root, hr, ?_⟩⟩
    rcases List.mem_append.mp hi with hi | hi
    · exact List.mem_append_right _ (List.mem_flatMap.mpr ⟨id, hi, hf⟩)
    · split at hi
      case isTrue => cases hi
      case isFalse hop =>
        refine List.mem_append_left _ ?_
        rw [headerFaults, if_neg hop]
        exact List.mem_flatMap.mpr ⟨id, hi, hf⟩
  | @nested i j b _ hb hj ih =>
    -- The faults from `j` on, with `b` as their owner, are a part of those from `i` on.
    obtain ⟨owner, howner⟩ := ih
    refine ⟨b, fun f hf => howner f ?_⟩
    rw [t.faultsFrom_eq, hb]
    rcases List.mem_append.mp hj with hj | hj
    · exact List.mem_append_right _ (List.mem_flatMap.mpr ⟨j, hj, hf⟩)
    · exact List.mem_append_left _ (List.mem_append_left _ (List.mem_flatMap.mpr ⟨j, hj, hf⟩))

theorem Calls.unsigned_mem_faults {id : String} {b : Block} (hb : t.Calls id b)
    (hp : b.proccode? = none) : .missingSignature t.name b.id b.opcode .call ∈ t.faults h := by
  obtain ⟨owner, howner⟩ := faults_of_followed h hb.followed
  refine howner _ ?_
  rw [t.faultsFrom_eq, hb.found]
  refine List.mem_append_left _ (List.mem_append_right _ ?_)
  rw [signatureFaults, if_pos ⟨hb.opcode, hp⟩]
  exact List.mem_singleton_self _

end Target

namespace Script

/-! ## Call forms of calls -/

/-- The complete call form of a procedure call starts with its signature. -/
theorem form_of_call {p : Project} {t : Target} {b : Block} (hop : b.opcode = callOpcode)
    {call : List Char} (h : callForm p t b = .ok call) :
    ∃ signature tokens, b.proccode? = some signature ∧
      argumentTokens p t (callForm p t) (chain p t) b = .ok tokens ∧
      call = form callOpcode (quoted signature :: tokens) := by
  have htext := callText_of_callForm p t h
  rw [callText_eq p t _ _ (callForm_ne_nil p t)] at htext
  obtain ⟨all, hall, rfl⟩ := map_eq_ok.mp htext
  obtain ⟨tokens, htokens, hall⟩ := bind_eq_ok.mp hall
  rw [if_pos hop] at hall
  cases hp : b.proccode? with
  | none => rw [hp] at hall; cases hall
  | some signature =>
    rw [hp] at hall
    obtain rfl := Except.ok.inj hall
    exact ⟨signature, tokens, rfl, htokens, by rw [hop]; rfl⟩

/-! ## Targets that differ in signatures -/

section

variable {p q : Project} {t u : Target}

theorem blocks_sameButSignature (hm : p.monitors = q.monitors) (h : t.SameButSignatures u)
    {b c : Block} (hbc : b.SameButSignature c) :
    (Comparison.ofTexts Aligned).Blocks p q t u b c := by
  -- A value may be any document, so it is aligned only with itself and the shape is not enough.
  have hslot : ∀ s : Input, (Comparison.ofTexts Aligned).Slots p q t u s s := by
    intro s
    refine congruence_aligned.slots (fun name id => ?_) rfl fun v w hv hw => ?_
    · rw [referenceToken_sameShape hm h.sameShape]
      exact congruence_aligned.refl _
    · cases hv.symm.trans hw
      exact congruence_aligned.refl _
  have hsigned := hbc.signed
  rw [hbc.rest] at hsigned ⊢
  refine ⟨⟨rfl, rfl⟩, ⟨?_, ?_⟩, ?_, rel_of_isSome_eq hsigned aligned_quoted, ?_⟩
  · exact List.forall₂_same.mpr fun field _ => congruence_aligned.refl _
  · exact List.forall₂_same.mpr fun slot _ => ⟨rfl, hslot slot.2⟩
  · cases b.next with
    | none => exact .none
    | some id => exact .some rfl
  · exact fun tokens tokens' => congruence_aligned.form b.opcode

theorem matched_sameButSignatures (hm : p.monitors = q.monitors) (h : t.SameButSignatures u)
    (ht : t.Acyclic) : Matched p q t u :=
  ⟨h.sameShape, ⟨ht, h.sameShape.acyclic ht⟩,
    h.blocks.imp fun _ _ hbc => blocks_sameButSignature hm h hbc⟩

/-- Equal documents show the same signature in each call. -/
theorem signature_of_targetText_eq (hm : p.monitors = q.monitors) (h : t.SameButSignatures u)
    (ht : t.Acyclic) {text : String} (htext : targetText p t = .ok text)
    (hutext : targetText q u = .ok text) {id : String} {b c : Block} (hb : t.Calls id b)
    (hc : u.block? id = some c) : c.proccode? = b.proccode? := by
  have hmatched := matched_sameButSignatures hm h ht
  obtain ⟨-, hscripts⟩ := hmatched.sameScripts htext hutext
  obtain ⟨b', c', hb', hc', hsame⟩ := hmatched.sameUnder_of_followed hscripts hb.followed
  obtain rfl : b = b' := Option.some.inj (hb.found.symm.trans hb')
  obtain rfl : c = c' := Option.some.inj (hc.symm.trans hc')
  exact ((hmatched.sameTokens hb' hc' hsame).1 hb.opcode).symm

end

/-- A call that is followed stands in the document with its signature in front of its arguments;
    without one it is a fault of the target; and no document is that of another signature. -/
theorem signature_of_call (p : Project) {t : Target} (h : t.Acyclic) {id : String} {b : Block}
    (hb : t.Calls id b) :
    (∀ text, targetText p t = .ok text → ∃ signature slots, b.proccode? = some signature ∧
      (b.inputs.mapM fun slot => inputText p t (callForm p t) (chain p t) b slot.2) = .ok slots ∧
      callForm p t b = .ok (form callOpcode
        (quoted signature :: ((b.fields.map fun field => literalToken field.2) ++ slots))) ∧
      StandsIn (form callOpcode
        (quoted signature :: ((b.fields.map fun field => literalToken field.2) ++ slots)))
          text.toList) ∧
    (b.proccode? = none → ∃ earlier later,
      t.faults h = earlier ++ .missingSignature t.name b.id b.opcode .call :: later ∧
      targetText p t =
        .error (.fault (earlier.headD (.missingSignature t.name b.id b.opcode .call)))) ∧
    ∀ (q : Project) (u : Target) (c : Block), p.monitors = q.monitors → t.SameButSignatures u →
      u.block? id = some c → c.proccode? ≠ b.proccode? →
        ∀ text, targetText p t = .ok text → targetText q u ≠ .ok text := by
  refine ⟨fun text htext => ?_, fun hp => ?_, fun q u c hm hu hc hne text htext hutext => ?_⟩
  · obtain ⟨b', call, rest, hb', hcall, -, hstands⟩ := shown_of_followed htext hb.followed
    obtain rfl : b = b' := Option.some.inj (hb.found.symm.trans hb')
    obtain ⟨signature, tokens, hp, htokens, rfl⟩ := form_of_call hb.opcode hcall
    obtain ⟨slots, hslots, htokens⟩ := bind_eq_ok.mp htokens
    obtain rfl := Except.ok.inj htokens
    exact ⟨signature, slots, hp, hslots, hcall, hstands _ (List.mem_cons_self ..)⟩
  · obtain ⟨earlier, later, hfaults⟩ := List.append_of_mem (hb.unsigned_mem_faults h hp)
    refine ⟨earlier, later, hfaults, ((meets_targetText p t h).error_iff _).mpr ⟨_, rfl, ?_⟩⟩
    rw [hfaults]
    cases earlier <;> rfl
  · exact hne (signature_of_targetText_eq hm hu h htext hutext hb hc)

/-! ## A call in a slot -/

def jumpCall (signature : Option String) : Block :=
  { Block.bare "b" callOpcode none [("X", .literal (.string "high"))] with
    fields := [("F", .string "now")], mutation := some ⟨signature⟩ }

/-- A statement with a procedure call in its slot. -/
def jumping (signature : Option String) : Target where
  name := "S"
  isStage := false
  variableDecls := []
  listDecls := []
  blocks := [
    { Block.bare "r" "when" (some "a") [] with topLevel := true },
    Block.bare "a" "repeat" none [("A", .block "b")],
    jumpCall signature]

def jumpingText : String :=
  "\n".intercalate ["// Generate by scratch-script", "#meta(false, \"S\");", "@(0, 0)", "when(\x7b",
    "    repeat(procedures_call(\"hop\", \"now\", \"high\"));", "\x7d);", ""]

theorem acyclic_jumping (signature : Option String) : (jumping signature).Acyclic := by
  refine Target.acyclic_of_measure
    (fun id => match id with | "r" => 2 | "a" => 1 | _ => 0) fun b hb => ?_
  simp only [jumping, List.mem_cons, List.not_mem_nil, or_false] at hb
  rcases hb with rfl | rfl | rfl <;> simp [Block.references, Block.slotBlocks, Input.block?,
    Block.bare, jumpCall]

theorem calls_jumping (signature : Option String) :
    (jumping signature).Calls "b" (jumpCall signature) := by
  refine ⟨.nested (b := Block.bare "a" "repeat" none [("A", .block "b")]) (i := "a") ?_ rfl ?_,
    rfl, rfl⟩
  · exact .root (List.mem_singleton_self _) (List.mem_singleton_self _)
  · exact List.mem_singleton_self _

theorem sameButSignatures_jumping (s s' : String) :
    (jumping (some s)).SameButSignatures (jumping (some s')) :=
  ⟨rfl, .cons ⟨rfl, rfl⟩ (.cons ⟨rfl, rfl⟩ (.cons ⟨rfl, rfl⟩ .nil))⟩

theorem signature_of_jumpCall :
    (jumping (some "hop")).Acyclic ∧ (jumping (some "hop")).Calls "b" (jumpCall (some "hop")) ∧
      targetText ⟨[jumping (some "hop")], []⟩ (jumping (some "hop")) = .ok jumpingText ∧
      (∃ signature slots, (jumpCall (some "hop")).proccode? = some signature ∧
        StandsIn (form callOpcode (quoted signature :: (["\"now\"".toList] ++ slots)))
          jumpingText.toList) ∧
      targetText ⟨[jumping (some "leap")], []⟩ (jumping (some "leap")) ≠ .ok jumpingText ∧
      (jumping none).Acyclic ∧ (jumping none).Calls "b" (jumpCall none) ∧
      ∃ earlier later, (jumping none).faults (acyclic_jumping none) =
          earlier ++ .missingSignature "S" "b" callOpcode .call :: later ∧
        targetText ⟨[jumping none], []⟩ (jumping none) =
          .error (.fault (earlier.headD (.missingSignature "S" "b" callOpcode .call))) := by
  have htext : targetText ⟨[jumping (some "hop")], []⟩ (jumping (some "hop")) =
      .ok jumpingText := by decide +kernel
  obtain ⟨hshown, -, hother⟩ := signature_of_call ⟨[jumping (some "hop")], []⟩
    (acyclic_jumping (some "hop")) (calls_jumping (some "hop"))
  obtain ⟨-, hunsigned, -⟩ := signature_of_call ⟨[jumping none], []⟩ (acyclic_jumping none)
    (calls_jumping none)
  obtain ⟨signature, slots, hsignature, -, -, hstands⟩ := hshown jumpingText htext
  refine ⟨acyclic_jumping _, calls_jumping _, htext, ⟨signature, slots, hsignature, hstands⟩, ?_,
    acyclic_jumping _, calls_jumping _, hunsigned rfl⟩
  exact hother ⟨[jumping (some "leap")], []⟩ (jumping (some "leap")) (jumpCall (some "leap")) rfl
    (sameButSignatures_jumping "hop" "leap") rfl (by decide) jumpingText htext

/-! ## A call at the head of a script -/

/-- A script that starts with a procedure call. -/
def headedByCall (signature : Option String) : Target where
  name := "S"
  isStage := false
  variableDecls := []
  listDecls := []
  blocks := [{ jumpCall signature with topLevel := true }]

def headedByCallText : String :=
  "\n".intercalate ["// Generate by scratch-script", "#meta(false, \"S\");", "@(0, 0)",
    "procedures_call(\"now\", \"high\", \x7b", "\x7d);", ""]

theorem acyclic_headedByCall (signature : Option String) : (headedByCall signature).Acyclic := by
  refine Target.acyclic_of_measure (fun _ => 0) fun b hb => ?_
  rw [List.mem_singleton.mp hb]
  simp [Block.references, Block.slotBlocks, Input.block?, Block.bare, jumpCall]

/-- The header of a call shows no signature and needs none. And a call without a signature is not
    what rendering halts at if it finds a block missing before. -/
theorem unsigned_headers :
    ((headedByCall (some "hop")).Acyclic ∧ (headedByCall (some "leap")).Acyclic ∧
      (headedByCall none).Acyclic) ∧
    (headedByCall (some "hop")).SameButSignatures (headedByCall (some "leap")) ∧
    targetText ⟨[headedByCall (some "hop")], []⟩ (headedByCall (some "hop")) =
      .ok headedByCallText ∧
    targetText ⟨[headedByCall (some "leap")], []⟩ (headedByCall (some "leap")) =
      .ok headedByCallText ∧
    targetText ⟨[headedByCall none], []⟩ (headedByCall none) = .ok headedByCallText ∧
    manyFaults.Acyclic ∧
    manyFaults.Calls "a" (Block.bare "a" callOpcode none [("X", .block "b")]) ∧
    targetText ⟨[manyFaults], []⟩ manyFaults =
      .error (.fault (.missingBlock "S" "b" "say" "ghost")) := by
  refine ⟨⟨acyclic_headedByCall _, acyclic_headedByCall _, acyclic_headedByCall _⟩,
    ⟨rfl, .cons ⟨rfl, rfl⟩ .nil⟩, by decide +kernel, by decide +kernel, by decide +kernel,
    acyclic_manyFaults, ⟨?_, rfl, rfl⟩, by decide +kernel⟩
  exact .root (List.mem_cons_self ..) (List.mem_singleton_self _)

end Script

end BlockScript
