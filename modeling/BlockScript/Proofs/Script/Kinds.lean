/-
  Variables and lists as arguments.

  The slot of a block says which id it refers to and under which name, but not whether the id is that
  of a variable or of a list. If no monitor watches the id, the table of variables of the target
  itself decides: an id in it is shown as a variable, every other id as a list
  (`kind_of_reference`). The tables of other targets have no say, not even that of the stage: what a
  sprite shares with the stage is shown in the sprite as a list (`stageVariable_shown_as_list`).
-/
import BlockScript.Proofs.Script.Occurrences

namespace BlockScript

open BlockScript.Results BlockScript.Text

theorem Target.hasVariable_iff {t : Target} {id : String} :
    t.hasVariable id = true ↔ id ∈ t.variableDecls.map Declaration.id := by
  unfold hasVariable
  rw [List.any_eq_true, List.mem_map]
  simp only [beq_iff_eq]

namespace Script

/-- A variable that no monitor watches. -/
def variableToken (name : String) : List Char := "data_variable".toList ++ name.toList

/-- A list that no monitor watches. -/
def listToken (name : String) : List Char := "data_listcontents".toList ++ name.toList

theorem listToken_ne_variableToken (name name' : String) :
    listToken name ≠ variableToken name' := by
  intro h
  -- the texts differ in their sixth character
  have hstart := congrArg (List.take 6) h
  unfold listToken variableToken at hstart
  rw [List.take_append_of_le_length (by decide), List.take_append_of_le_length (by decide)] at hstart
  exact absurd hstart (by decide)

section

variable {p : Project} {t : Target}

theorem referenceToken_unmonitored {id : String} (hm : p.monitor? id = none) (name : String) :
    referenceToken p t name id =
      if t.hasVariable id then variableToken name else listToken name := by
  unfold referenceToken
  rw [hm]
  rfl

/-- The argument for a slot stands at the place of the slot, behind those for the fields. -/
theorem getElem?_argumentTokens {call : CallText} {chain : ChainWriter} {b : Block}
    {tokens : List (List Char)} (h : argumentTokens p t call chain b = .ok tokens) {i : Nat}
    {slot : String × Input} (hslot : b.inputs[i]? = some slot) : ∃ token,
    tokens[b.fields.length + i]? = some token ∧
      inputText p t call chain b slot.2 = .ok token := by
  obtain ⟨slots, hslots, h⟩ := bind_eq_ok.mp h
  obtain ⟨token, htoken, hinput⟩ := getElem?_of_mapM hslots hslot
  refine ⟨token, ?_, hinput⟩
  rw [← Except.ok.inj h, List.getElem?_append_right (by simp), List.length_map,
    Nat.add_sub_cancel_left]
  exact htoken

/-- In a document every slot of a rendered block that refers to an id without a monitor shows a
    variable if the target has a variable under the id, and a list if it has none. -/
theorem kind_of_reference {text : String} (h : targetText p t = .ok text) {b : Block}
    (hb : t.Rendered b) {i : Nat} {slot name id : String}
    (hslot : b.inputs[i]? = some (slot, .reference name id)) (hm : p.monitor? id = none) :
    ∃ tokens token, argumentTokens p t (callForm p t) (chain p t) b = .ok tokens ∧
      StandsIn (List.intercalate separator tokens) text.toList ∧
      tokens[b.fields.length + i]? = some token ∧
      (id ∈ t.variableDecls.map Declaration.id → token = variableToken name) ∧
      (token = listToken name ↔ id ∉ t.variableDecls.map Declaration.id) := by
  obtain ⟨args, hargs, hstands⟩ := arguments_of_rendered h hb
  unfold arguments at hargs
  rw [argumentsText_eq] at hargs
  obtain ⟨tokens, htokens, rfl⟩ := map_eq_ok.mp hargs
  obtain ⟨token, htoken, hinput⟩ := getElem?_argumentTokens htokens hslot
  refine ⟨tokens, token, htokens, hstands, htoken, ?_⟩
  have hreference : token = referenceToken p t name id := (Except.ok.inj hinput).symm
  rw [hreference, referenceToken_unmonitored hm, ← Target.hasVariable_iff]
  by_cases hv : t.hasVariable id = true
  · rw [if_pos hv]
    refine ⟨fun _ => rfl, fun heq => ?_, fun hn => absurd hv hn⟩
    exact absurd heq.symm (listToken_ne_variableToken name name)
  · rw [if_neg hv]
    exact ⟨fun hyes => absurd hyes hv, fun _ => hv, fun _ => rfl⟩

end

/-! ## A sprite and the stage -/

/-- A stage with one variable. -/
def scoringStage : Target where
  name := "Stage"
  isStage := true
  variableDecls := [⟨"v", "score", .null⟩]
  listDecls := []
  blocks := []

/-- A statement that says a reference next to one to `lives`. -/
def sayScore : Block := Block.bare "s" "say" none
  [("A", .reference "lives" "w"), ("B", .reference "score" "v")]

/-- A sprite with a variable of its own that says it, and the one of the stage. -/
def scoringSprite : Target where
  name := "Cat"
  isStage := false
  variableDecls := [⟨"w", "lives", .null⟩]
  listDecls := []
  blocks := [{ Block.bare "r" "when" (some "s") [] with topLevel := true }, sayScore]

def scoringProject : Project := ⟨[scoringStage, scoringSprite], []⟩

def scoringText : String :=
  "\n".intercalate ["// Generate by scratch-script", "#meta(false, \"Cat\");",
    "#init_var(\"lives\", null);", "@(0, 0)", "when(\x7b",
    "    say(data_variablelives, data_listcontentsscore);", "\x7d);", ""]

theorem rendered_sayScore : scoringSprite.Rendered sayScore :=
  .followed (.root (List.mem_singleton_self _) (List.mem_singleton_self _)) rfl

theorem targetText_scoringSprite : targetText scoringProject scoringSprite = .ok scoringText := by
  decide +kernel

theorem kind_of_lives :
    targetText scoringProject scoringSprite = .ok scoringText ∧ scoringSprite.Rendered sayScore ∧
      sayScore.inputs[0]? = some ("A", .reference "lives" "w") ∧
      scoringProject.monitor? "w" = none ∧
      ∃ tokens token, argumentTokens scoringProject scoringSprite
          (callForm scoringProject scoringSprite) (chain scoringProject scoringSprite) sayScore =
            .ok tokens ∧
        StandsIn (List.intercalate separator tokens) scoringText.toList ∧
        tokens[0]? = some token ∧ token = variableToken "lives" := by
  obtain ⟨tokens, token, htokens, hstands, htoken, hvariable, -⟩ :=
    kind_of_reference (i := 0) targetText_scoringSprite rendered_sayScore rfl rfl
  exact ⟨targetText_scoringSprite, rendered_sayScore, rfl, rfl, tokens, token, htokens, hstands,
    htoken, hvariable (List.mem_singleton_self _)⟩

/-- No id is that of a variable and of a list, the stage has a variable under the id of the second
    slot, and the slot is shown as a list. -/
theorem stageVariable_shown_as_list :
    (∀ t ∈ scoringProject.targets, ∀ u ∈ scoringProject.targets, ∀ d ∈ t.variableDecls,
        ∀ e ∈ u.listDecls, d.id ≠ e.id) ∧
      targetText scoringProject scoringSprite = .ok scoringText ∧
      scoringSprite.Rendered sayScore ∧
      sayScore.inputs[1]? = some ("B", .reference "score" "v") ∧
      scoringProject.monitor? "v" = none ∧
      (scoringStage ∈ scoringProject.targets ∧ scoringStage.isStage = true ∧
        "v" ∈ scoringStage.variableDecls.map Declaration.id) ∧
      argumentTokens scoringProject scoringSprite (callForm scoringProject scoringSprite)
          (chain scoringProject scoringSprite) sayScore =
        .ok [variableToken "lives", listToken "score"] ∧
      listToken "score" ≠ variableToken "score" := by
  refine ⟨?_, targetText_scoringSprite, rendered_sayScore, rfl, rfl, ⟨?_, rfl, ?_⟩, ?_, ?_⟩
  · intro t ht u hu d hd e he
    have hnone : ∀ u ∈ scoringProject.targets, u.listDecls = [] := by
      simp [scoringProject, scoringStage, scoringSprite]
    rw [hnone u hu] at he
    cases he
  · exact List.mem_cons_self ..
  · exact List.mem_singleton_self _
  · decide +kernel
  · exact listToken_ne_variableToken "score" "score"

end Script

end BlockScript
