/-
  What the steps of a rendering are.

  On every scale of use a body is written alike: its brace on the ground, its statements one level
  above, and the closing brace on the ground again (`Scale.Regular`). The steps of a text at a level
  are the ones of such bodies, and the spaces of its own lines (`Step.Within`). In a rendering that
  does not halt each move up has its move back (`Undone`).

  A trace keeps to this, with a given result, if its parts do (`Keeps`, and `Yields` where it may
  halt). That is shown here for the operations of an emitter and for what is written between a move
  up and the move back (`yields_raised`).
-/
import BlockScript.Proofs.Graph.Termination
import BlockScript.Proofs.Levels.Traces

namespace BlockScript.Script

variable {L : Type}

/-! ## Scales for bodies -/

/-- The ground has no spaces, the level above it has four, and one level back from there is the
    ground again. -/
structure Scale.Regular (s : Scale L) : Prop where
  width_ground : s.width s.ground = 0
  width_first : s.width s.first = 4
  move_first : s.move s.first (-1) = s.ground

section

variable {s : Scale L} (hs : s.Regular) {e : Emitter}

include hs

theorem Scale.Regular.width_of_zero (h : e.indent = 0) :
    s.width s.ground = Scale.words.width e.indent := by
  rw [hs.width_ground, h]
  rfl

theorem Scale.Regular.width_of_one (h : e.indent = 0 + 1) :
    s.width s.first = Scale.words.width e.indent := by
  rw [hs.width_first, h]
  rfl

end

theorem Scale.regular_words : Scale.words.Regular := ⟨by decide, by decide, by decide⟩

theorem Scale.regular_integers : Scale.integers.Regular := ⟨by decide, by decide, by decide⟩

/-! ## Steps -/

namespace Step

/-- The steps of a text at a level: the spaces of that level are counted, and the bodies nested in
    the text go up from the ground by one level and back. -/
inductive Within (s : Scale L) (level : L) : Step L → Prop
  | own : Within s level (.indent level)
  | ground : Within s level (.indent s.ground)
  | first : Within s level (.indent s.first)
  | up : Within s level (.move s.ground 1)
  | back : Within s level (.move s.first (-1))

/-- A step on words that neither stops at an end of the range nor wraps. -/
def InRange : Step UInt64 → Prop
  | .move level delta => 0 ≤ level.toNat + delta ∧ level.toNat + delta < UInt64.size
  | .indent level => level.toNat * 4 < UInt64.size

instance : DecidablePred InRange
  | .move _ _ => inferInstanceAs (Decidable (_ ∧ _))
  | .indent _ => inferInstanceAs (Decidable (_ < _))

/-- Nothing but the level of the text itself can be out of range. -/
theorem Within.inRange {level : UInt64} (hl : (Step.indent level).InRange) {step : Step UInt64}
    (h : step.Within Scale.words level) : step.InRange := by
  cases h with
  | own => exact hl
  | ground => decide
  | first => decide
  | up => decide
  | back => decide

/-- A step on words that gives what it gives on integers. -/
def Exact : Step UInt64 → Prop
  | .move level delta =>
    ((Scale.words.move level delta).toNat : Int) = Scale.integers.move level.toNat delta
  | .indent level => Scale.words.width level = Scale.integers.width level.toNat

/-- Words differ from integers at the ends of their range and nowhere else. -/
theorem inRange_iff_exact (step : Step UInt64) : step.InRange ↔ step.Exact := by
  have hsize : UInt64.size = 18446744073709551616 := rfl
  cases step with
  | move level delta =>
    unfold InRange Exact Scale.words Scale.integers
    dsimp only
    rw [Emitter.toNat_indent_addIndent]
    dsimp only
    omega
  | indent level =>
    have hwidth : Emitter.indentWidth.toNat = 4 := rfl
    unfold InRange Exact Scale.words Scale.integers
    dsimp only
    rw [UInt64.toNat_mul, hwidth]
    omega

end Step

/-- Each move up is followed by a move back from where it led, and that leads to where it started.
    What lies between the two is undone as well. -/
inductive Undone (s : Scale L) : List (Step L) → Prop
  | nil : Undone s []
  | indent {level : L} {rest : List (Step L)} (hrest : Undone s rest) :
    Undone s (.indent level :: rest)
  | pair {level : L} {inner rest : List (Step L)} (hinner : Undone s inner)
    (hrest : Undone s rest) (hback : s.move (s.move level 1) (-1) = level) :
    Undone s (.move level 1 :: (inner ++ .move (s.move level 1) (-1) :: rest))

theorem Undone.append {s : Scale L} {first second : List (Step L)} (hf : Undone s first)
    (hs : Undone s second) : Undone s (first ++ second) := by
  induction hf with
  | nil => exact hs
  | indent _ ih => exact .indent ih
  | pair hinner _ hback _ ih =>
    rw [List.cons_append, List.append_assoc]
    exact .pair hinner ih hback

/-! ## Traces -/

/-- A trace has the given result, and its steps are those of a text at a level. Unless the result is
    a halt, they are undone. -/
structure Keeps {α : Type} (s : Scale L) (level : L) (halt : α → Option Halt) (x : Traced L α)
    (given : α) : Prop where
  result : x.result = given
  within : ∀ step ∈ x.steps, step.Within s level
  undone : halt given = none → Undone s x.steps

/-- The same of a rendering that may halt. -/
abbrev Yields {α : Type} (s : Scale L) (level : L) (x : Tracing L α) (given : Except Halt α) :
    Prop :=
  Keeps s level halting x.run given

section

variable {α β : Type} {s : Scale L} {level : L}

theorem Keeps.pure {halt : α → Option Halt} (a : α) : Keeps s level halt (Pure.pure a) a where
  result := rfl
  within := by intro step h; cases h
  undone _ := .nil

/-- A trace behind another. If the first ends in a halt, so does the whole. -/
theorem Keeps.bind {halt : α → Option Halt} {halt' : β → Option Halt} {x : Traced L α} {a : α}
    {f : α → Traced L β} {b : β} (hx : Keeps s level halt x a) (hf : Keeps s level halt' (f a) b)
    (hstop : halt' b = none → halt a = none) : Keeps s level halt' (x >>= f) b := by
  have hsteps : (x >>= f).steps = x.steps ++ (f a).steps := by rw [← hx.result]; rfl
  refine ⟨?_, ?_, fun hb => ?_⟩
  · rw [← hf.result, ← hx.result]
    rfl
  · intro step hstep
    rw [hsteps] at hstep
    rcases List.mem_append.mp hstep with hstep | hstep
    · exact hx.within step hstep
    · exact hf.within step hstep
  · rw [hsteps]
    exact (hx.undone (hstop hb)).append (hf.undone hb)

namespace Yields

theorem ok (a : α) : Yields s level (Pure.pure a) (.ok a) := Keeps.pure _

theorem error (h : Halt) : Yields s level (throw h : Tracing L α) (.error h) := Keeps.pure _

theorem except (x : Except Halt α) : Yields s level (liftM x) x := Keeps.pure x

theorem halted {x : Tracing L α} {h : Halt} (hx : Yields s level x (.error h))
    (f : α → Tracing L β) : Yields s level (x >>= f) (.error h) :=
  Keeps.bind hx (.pure _) id

/-- A rendering behind another, whose result is a view of what is given. -/
theorem bind_view {γ : Type} {view : γ → α} {x : Tracing L α} {y : Except Halt γ}
    {f : α → Tracing L β} {g : γ → Except Halt β} (hx : Yields s level x (y.map view))
    (hf : ∀ c, y = .ok c → Yields s level (f (view c)) (g c)) :
    Yields s level (x >>= f) (y >>= g) := by
  cases y with
  | error h => exact hx.halted f
  | ok c => exact Keeps.bind hx (hf c rfl) fun _ => rfl

theorem bind {x : Tracing L α} {y : Except Halt α} {f : α → Tracing L β} {g : α → Except Halt β}
    (hx : Yields s level x y) (hf : ∀ a, y = .ok a → Yields s level (f a) (g a)) :
    Yields s level (x >>= f) (y >>= g) := by
  have hview : Yields s level x (y.map id) := by cases y <;> exact hx
  exact hview.bind_view hf

/-- A rendering behind a trace. If the trace ends in a halt, so does the rendering. -/
theorem after {halt : α → Option Halt} {x : Traced L α} {a : α} {f : α → Tracing L β}
    {y : Except Halt β} (hx : Keeps s level halt x a) (hf : Yields s level (f a) y)
    (hstop : halting y = none → halt a = none) : Yields s level (liftM x >>= f) y :=
  Keeps.bind (f := fun a => (f a).run) hx hf hstop

theorem lift {x : Traced L α} {a : α} (hx : Keeps s level (fun _ => none) x a) :
    Yields s level (liftM x) (.ok a) :=
  ⟨congrArg Except.ok hx.result, hx.within, fun _ => hx.undone rfl⟩

theorem mapM {l : List β} {f : β → Tracing L α} {g : β → Except Halt α}
    (h : ∀ b ∈ l, Yields s level (f b) (g b)) : Yields s level (l.mapM f) (l.mapM g) := by
  induction l with
  | nil => exact .ok []
  | cons b l ih =>
    rw [List.mapM_cons, List.mapM_cons]
    refine (h b (List.mem_cons_self ..)).bind fun a _ => ?_
    exact (ih fun c hc => h c (List.mem_cons_of_mem b hc)).bind fun as _ => .ok (a :: as)

end Yields

/-! ## Sheets -/

section

variable {l : L} {e : Emitter}

/-- Text is written as the emitter writes it where their levels have the same spaces. -/
theorem keeps_write (hl : (Step.indent l).Within s level)
    (hw : s.width l = Scale.words.width e.indent) (text : List Char) (indented : Bool) :
    Keeps s level (fun _ => none) ((e.on l).write s text indented)
      ((e.write text indented).on l) := by
  cases indented with
  | false => exact .pure _
  | true =>
    refine ⟨?_, ?_, fun _ => .indent .nil⟩
    · have hmargin : List.replicate (s.width l) ' ' = e.margin := by rw [hw]; rfl
      show Sheet.mk (e.text ++ String.ofList (List.replicate (s.width l) ' ' ++ text)) l = _
      rw [hmargin]
      rfl
    · intro step hstep
      rw [List.mem_singleton.mp hstep]
      exact hl

theorem keeps_writeLine (hl : (Step.indent l).Within s level)
    (hw : s.width l = Scale.words.width e.indent) (text : List Char) (indented : Bool) :
    Keeps s level (fun _ => none) ((e.on l).writeLine s text indented)
      ((e.writeLine text indented).on l) :=
  (keeps_write hl hw text indented).bind
    (keeps_write (e := e.write text indented) hl hw ['\n'] false) fun _ => rfl

theorem keeps_writeLines (hl : (Step.indent l).Within s level)
    (hw : s.width l = Scale.words.width e.indent) (texts : List (List Char)) :
    Keeps s level (fun _ => none) ((e.on l).writeLines s texts) ((e.writeLines texts).on l) := by
  induction texts generalizing e with
  | nil => exact .pure _
  | cons text rest ih => exact (keeps_writeLine hl hw text true).bind (ih hw) fun _ => rfl

end

/-- What an emitter has written, unless it halted. -/
def ended (written : Emitter × Option Halt) : Except Halt Emitter :=
  match written with
  | (_, some halt) => .error halt
  | (out, none) => .ok out

theorem eq_of_ended {written : Emitter × Option Halt} {out : Emitter}
    (h : ended written = .ok out) : written.1 = out := by
  obtain ⟨filled, halt⟩ := written
  cases halt with
  | some halt => cases h
  | none => exact Except.ok.inj h

theorem yields_filled {l : L} {x : Traced L (Sheet L × Option Halt)}
    {written : Emitter × Option Halt}
    (h : Keeps s level Prod.snd x (written.1.on l, written.2)) :
    Yields s level (filled x) ((ended written).map (·.on l)) := by
  obtain ⟨out, halt⟩ := written
  cases halt with
  | some halt => exact .after h (.error halt) fun h => absurd h (Option.some_ne_none halt)
  | none => exact .after h (.ok _) fun _ => rfl

theorem run_bind_of_result {x : Tracing L α} {a : α} (h : x.run.result = .ok a)
    (f : α → Tracing L β) :
    (x >>= f).run = ⟨(f a).run.result, x.run.steps ++ (f a).run.steps⟩ := by
  show (x.run >>= ExceptT.bindCont f) = _
  show Traced.mk (ExceptT.bindCont f x.run.result).result
    (x.run.steps ++ (ExceptT.bindCont f x.run.result).steps) = _
  rw [h]
  rfl

/-- A move up from the ground, what is done one level above, the move back, and the rest. -/
theorem keeps_pair (hs : s.Regular) {x : Tracing L β} {b : β} {rest : Tracing L α}
    {y : Except Halt α} (hx : Yields s level x (.ok b)) (hrest : Yields s level rest y) :
    Keeps s level halting ⟨rest.run.result,
      .move s.ground 1 :: (x.run.steps ++ .move s.first (-1) :: rest.run.steps)⟩ y := by
  refine ⟨hrest.result, fun step hstep => ?_, fun hy => ?_⟩
  · rcases List.mem_cons.mp hstep with rfl | hstep
    · exact .up
    rcases List.mem_append.mp hstep with hstep | hstep
    · exact hx.within step hstep
    rcases List.mem_cons.mp hstep with rfl | hstep
    · exact .back
    · exact hrest.within step hstep
  · exact .pair (hx.undone rfl) (hrest.undone hy) hs.move_first

/-- What is written one level above the ground, and the rest behind it on the ground again. -/
theorem yields_raised (hs : s.Regular) {e : Emitter} {g : Sheet L → Tracing L (Sheet L)}
    {k : Sheet L → Tracing L α} {r : Except Halt Emitter} {y : Emitter → Except Halt α}
    (hg : Yields s level (g ((e.addIndent 1).on s.first)) (r.map (·.on s.first)))
    (hk : ∀ f, r = .ok f → Yields s level (k ((f.addIndent (-1)).on s.ground)) (y f)) :
    Yields s level
      (do
        let out ← (e.on s.ground).addIndent s 1
        let out ← g out
        let out ← out.addIndent s (-1)
        k out)
      (r >>= y) := by
  cases r with
  | error halt =>
    -- The move up stays as it is: a halt comes before the move back.
    have hup : Keeps s level (fun _ => some halt) ((e.on s.ground).addIndent s 1)
        ((e.addIndent 1).on s.first) := by
      refine ⟨rfl, fun step hstep => ?_, fun h => absurd h (Option.some_ne_none halt)⟩
      rw [List.mem_singleton.mp hstep]
      exact .up
    exact .after hup (hg.halted _) fun h => absurd h (Option.some_ne_none halt)
  | ok f =>
    have hback : (f.addIndent (-1)).on s.ground = ((f.on s.first).addIndent s (-1)).result := by
      show Sheet.mk f.text s.ground = Sheet.mk f.text (s.move s.first (-1))
      rw [hs.move_first]
    have hpair := keeps_pair hs hg (hk f rfl)
    rw [hback] at hpair
    have hinner := run_bind_of_result hg.result fun out => out.addIndent s (-1) >>= k
    show Keeps s level halting (Traced.mk
      (g ((e.addIndent 1).on s.first) >>= fun out => out.addIndent s (-1) >>= k).run.result
      (.move s.ground 1 ::
        (g ((e.addIndent 1).on s.first) >>= fun out => out.addIndent s (-1) >>= k).run.steps)) (y f)
    rw [hinner]
    exact hpair

end

end BlockScript.Script
