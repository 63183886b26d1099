/-
  Compact JSON text read back.

  The text of a document has no blank outside of strings and no control character anywhere. A reader
  that takes numerals as exact numbers reads the whole of it, whatever its strings hold and however
  deep it nests, and finds the document again: the same structure, keys in the same order, the same
  strings, integers as they are and doubles as the number of their shortest digits
  (`compact_readsBack`).
-/
import BlockScript.Json.Printer
import BlockScript.Proofs.Number.Layout
import BlockScript.Proofs.Text.Brackets
import BlockScript.Proofs.Text.Delimited

namespace BlockScript.Json

open BlockScript.Text

namespace Reader

/-! ## One step of the reader -/

section

variable {ν : Type} {number? : Numeral → Option ν} {fuel depth : Nat} {text rest : List Char}

theorem value_null :
    value number? (fuel + 1) depth ("null".toList ++ rest) = some (.null, rest) := by
  rfl

theorem value_bool (b : Bool) :
    value number? (fuel + 1) depth (boolText b ++ rest) = some (.bool b, rest) := by
  cases b <;> rfl

theorem quoted_append (s : String) (rest : List Char) :
    quoted s ++ rest = '"' :: (s.toList.flatMap escaped ++ '"' :: rest) := by
  simp [quoted]

theorem value_string (s : String) :
    value number? (fuel + 1) depth (quoted s ++ rest) = some (.string s, rest) := by
  have hbody := stringBody_flatMap_escaped s.toList rest
  rw [quoted_append]
  simp [value, skipBlanks, isBlank, hbody]

/-- What starts a numeral starts no other value and is neither a blank nor a closing bracket. -/
theorem not_mem_of_starts {c : Char} (hc : c = '-' ∨ c.isDigit) :
    c ∉ ['n', 't', 'f', '"', '[', '\x7b', ']', ' ', '\t', '\n', '\r'] := by
  intro hmem
  have hnone : ∀ c ∈ ['n', 't', 'f', '"', '[', '\x7b', ']', ' ', '\t', '\n', '\r'],
      c ≠ '-' ∧ c.isDigit = false := by simp [Char.isDigit]
  obtain ⟨hsign, hdigit⟩ := hnone c hmem
  rcases hc with hc | hc
  · exact hsign hc
  · rw [hdigit] at hc
    cases hc

theorem isBlank_of_starts {c : Char} (hc : c = '-' ∨ c.isDigit) : isBlank c = false := by
  have hother := not_mem_of_starts hc
  simp only [List.mem_cons, List.not_mem_nil, or_false, not_or] at hother
  simp [isBlank, hother]

theorem value_number {c : Char} (hc : c = '-' ∨ c.isDigit) {numeral : Numeral} {n : ν}
    (hread : numeral? (c :: text) = some (numeral, rest)) (hn : number? numeral = some n) :
    value number? (fuel + 1) depth (c :: text) = some (.number n, rest) := by
  have hother := not_mem_of_starts hc
  simp only [List.mem_cons, List.not_mem_nil, or_false, not_or] at hother
  obtain ⟨hnull, htrue, hfalse, hquote, hbracket, hbrace, -⟩ := hother
  have hskip : skipBlanks (c :: text) = c :: text := by
    simp [skipBlanks, isBlank_of_starts hc]
  rw [value, hskip]
  split
  case h_7 => simp [hread, hn]
  all_goals
    rename_i heq
    cases heq
    contradiction

theorem value_array_nil :
    value number? (fuel + 1) (depth + 1) ('[' :: ']' :: rest) = some (.array [], rest) := by
  rfl

theorem value_array {c : Char} (hblank : isBlank c = false) (hc : c ≠ ']') {xs : List (Value ν)}
    (hread : items number? fuel depth (c :: text) = some (xs, rest)) :
    value number? (fuel + 1) (depth + 1) ('[' :: c :: text) = some (.array xs, rest) := by
  have hopen : isBlank '[' = false := rfl
  simp [value, skipBlanks, hopen, hblank, hc, hread]

theorem value_object_nil :
    value number? (fuel + 1) (depth + 1) ('\x7b' :: '\x7d' :: rest) = some (.object [], rest) := by
  rfl

theorem value_object {c : Char} (hblank : isBlank c = false) (hc : c ≠ '\x7d')
    {xs : List (String × Value ν)}
    (hread : members number? fuel depth (c :: text) = some (xs, rest)) :
    value number? (fuel + 1) (depth + 1) ('\x7b' :: c :: text) =
      some (.object (Keyed.settle xs), rest) := by
  have hopen : isBlank '\x7b' = false := rfl
  simp [value, skipBlanks, hopen, hblank, hc, hread]

theorem items_last {x : Value ν} (hread : value number? fuel depth text = some (x, ']' :: rest)) :
    items number? (fuel + 1) depth text = some ([x], rest) := by
  rw [items, hread]
  rfl

theorem items_cons {x : Value ν} {more : List Char} {xs : List (Value ν)}
    (hread : value number? fuel depth text = some (x, ',' :: more))
    (hmore : items number? fuel depth more = some (xs, rest)) :
    items number? (fuel + 1) depth text = some (x :: xs, rest) := by
  rw [items, hread]
  show (items number? fuel depth more).bind _ = _
  rw [hmore]
  rfl

theorem members_last (key : String) {x : Value ν}
    (hread : value number? fuel depth text = some (x, '\x7d' :: rest)) :
    members number? (fuel + 1) depth (quoted key ++ ':' :: text) = some ([(key, x)], rest) := by
  have hbody := stringBody_flatMap_escaped key.toList (':' :: text)
  rw [quoted_append]
  simp [members, skipBlanks, isBlank, hbody, hread]

theorem members_cons (key : String) {x : Value ν} {more : List Char}
    {xs : List (String × Value ν)}
    (hread : value number? fuel depth text = some (x, ',' :: more))
    (hmore : members number? fuel depth more = some (xs, rest)) :
    members number? (fuel + 1) depth (quoted key ++ ':' :: text) =
      some ((key, x) :: xs, rest) := by
  have hbody := stringBody_flatMap_escaped key.toList (':' :: text)
  rw [quoted_append]
  simp [members, skipBlanks, isBlank, hbody, hread, hmore]

end

end Reader

/-! ## Documents with exact numbers -/

mutual

/-- A value with other numbers in it. -/
def Value.mapNumbers {ν μ : Type} (f : ν → μ) : Value ν → Value μ
  | .null => .null
  | .bool b => .bool b
  | .number n => .number (f n)
  | .string s => .string s
  | .array items => .array (mapItems f items)
  | .object members => .object (mapMembers f members)

@[inherit_doc Value.mapNumbers]
def mapItems {ν μ : Type} (f : ν → μ) : List (Value ν) → List (Value μ)
  | [] => []
  | item :: rest => item.mapNumbers f :: mapItems f rest

@[inherit_doc Value.mapNumbers]
def mapMembers {ν μ : Type} (f : ν → μ) : List (String × Value ν) → List (String × Value μ)
  | [] => []
  | (key, value) :: rest => (key, value.mapNumbers f) :: mapMembers f rest

end

mutual

/-- How many arrays and objects of a value stand inside one another. -/
def Value.depth {ν : Type} : Value ν → Nat
  | .array items => itemsDepth items + 1
  | .object members => membersDepth members + 1
  | _ => 0

@[inherit_doc Value.depth]
def itemsDepth {ν : Type} : List (Value ν) → Nat
  | [] => 0
  | item :: rest => max item.depth (itemsDepth rest)

@[inherit_doc Value.depth]
def membersDepth {ν : Type} : List (String × Value ν) → Nat
  | [] => 0
  | (_, value) :: rest => max value.depth (membersDepth rest)

end

/-- The number that a number of a document is written as. -/
def Number.exact : Number → ℚ
  | .integer n => n
  | .double d => d.exact

/-- Whether a number is neither infinite nor undefined. -/
def Number.IsFinite : Number → Prop
  | .integer _ => True
  | .double d => d.IsFinite

/-- Documents with finite numbers whose objects have no key twice. -/
inductive Value.Regular : Document → Prop
  | null : Regular .null
  | bool (b : Bool) : Regular (.bool b)
  | number {n : Number} (h : n.IsFinite) : Regular (.number n)
  | string (s : String) : Regular (.string s)
  | array {items : List Document} (h : ∀ item ∈ items, Regular item) : Regular (.array items)
  | object {members : List (String × Document)} (hkeys : (members.map Prod.fst).Nodup)
      (h : ∀ member ∈ members, Regular member.2) : Regular (.object members)

theorem map_fst_mapMembers {ν μ : Type} (f : ν → μ) (members : List (String × Value ν)) :
    (mapMembers f members).map Prod.fst = members.map Prod.fst := by
  induction members with
  | nil => rfl
  | cons member rest ih => simp [mapMembers, ih]

/-! ## Numbers -/

theorem Number.exists_written {n : Number} (h : n.IsFinite) : ∃ (negative : Bool) (w : Written),
    n.text = signText negative ++ w.text ∧ signFactor negative * w.value = n.exact := by
  cases n with
  | double d => exact d.exists_written h
  | integer n =>
    rcases lt_or_ge n 0 with hneg | hnonneg
    · refine ⟨true, .ofNat n.natAbs, ?_, ?_⟩
      · rw [Written.text_ofNat]
        exact if_pos hneg
      · have habs : (n.natAbs : ℤ) = -n := by omega
        rw [Written.value_ofNat, ← Int.cast_natCast, habs]
        simp [signFactor, Number.exact]
    · refine ⟨false, .ofNat n.natAbs, ?_, ?_⟩
      · rw [Written.text_ofNat]
        exact if_neg (not_lt.mpr hnonneg)
      · have habs : (n.natAbs : ℤ) = n := by omega
        rw [Written.value_ofNat, ← Int.cast_natCast, habs]
        simp [signFactor, Number.exact]

/-- The first character of a number. -/
theorem Written.head_text (w : Written) (negative : Bool) : ∃ c rest,
    signText negative ++ w.text = c :: rest ∧ (c = '-' ∨ c.isDigit) := by
  cases negative with
  | true => exact ⟨'-', w.text, rfl, .inl rfl⟩
  | false =>
    obtain ⟨c, run, heq, -⟩ := w.whole_head
    refine ⟨c, run ++ (pointed w.fraction ++ marked w.exponent), ?_, .inr ?_⟩
    · rw [Written.text, heq]
      rfl
    · exact w.whole_digits c (by rw [heq]; exact List.mem_cons_self ..)

/-! ## Reading a document back -/

/-- The number of a numeral, for a reader. -/
def exactNumber? (n : Numeral) : Option ℚ := some n.exact

/-- Whether a document is read back from the start of a text that begins with its own, given a step
    of the reader for every character. -/
structure Recovers (v : Document) : Prop where
  head : ∃ c rest, v.compact = c :: rest ∧ Reader.isBlank c = false ∧ c ≠ ']'
  read : ∀ {fuel depth : Nat} {rest : List Char}, v.compact.length ≤ fuel → v.depth ≤ depth →
    Apart rest → Reader.value exactNumber? fuel depth (v.compact ++ rest) =
      some (v.mapNumbers Number.exact, rest)

/-- A text that is not empty gives the reader its first step. -/
theorem recovers_of_head {v : Document} {c : Char} {tail : List Char}
    (hhead : v.compact = c :: tail) (hblank : Reader.isBlank c = false) (hc : c ≠ ']')
    (hread : ∀ {fuel depth : Nat} {rest : List Char}, v.compact.length ≤ fuel + 1 →
      v.depth ≤ depth → Apart rest →
        Reader.value exactNumber? (fuel + 1) depth (v.compact ++ rest) =
          some (v.mapNumbers Number.exact, rest)) : Recovers v where
  head := ⟨c, tail, hhead, hblank, hc⟩
  read {fuel _ _} hfuel hdepth hrest := by
    cases fuel with
    | zero =>
      rw [hhead, List.length_cons] at hfuel
      omega
    | succ fuel => exact hread hfuel hdepth hrest

theorem recovers_null : Recovers .null := by
  refine recovers_of_head (by rw [Value.compact]; rfl) rfl (by decide) fun _ _ _ => ?_
  rw [Value.compact, Reader.value_null, Value.mapNumbers]

theorem recovers_bool (b : Bool) : Recovers (.bool b) := by
  obtain ⟨c, tail, heq, hblank, hc⟩ : ∃ c tail, boolText b = c :: tail ∧
      Reader.isBlank c = false ∧ c ≠ ']' := by
    cases b
    · exact ⟨'f', _, rfl, rfl, by decide⟩
    · exact ⟨'t', _, rfl, rfl, by decide⟩
  refine recovers_of_head (by rw [Value.compact, heq]) hblank hc fun _ _ _ => ?_
  rw [Value.compact, Reader.value_bool, Value.mapNumbers]

theorem recovers_string (s : String) : Recovers (.string s) := by
  refine recovers_of_head (by rw [Value.compact]; rfl) rfl (by decide) fun _ _ _ => ?_
  rw [Value.compact, Reader.value_string, Value.mapNumbers]

theorem recovers_number {n : Number} (h : n.IsFinite) : Recovers (.number n) := by
  obtain ⟨negative, w, htext, hvalue⟩ := n.exists_written h
  obtain ⟨c, tail, heq, hc⟩ := w.head_text negative
  have hbracket : c ≠ ']' := by
    rintro rfl
    exact Reader.not_mem_of_starts hc (by decide)
  refine recovers_of_head (by rw [Value.compact, htext, heq]) (Reader.isBlank_of_starts hc) hbracket
    fun {_ _ rest} _ _ hrest => ?_
  have hnumeral := Reader.numeral?_text w negative hrest
  have hexact : exactNumber? (w.numeral negative) = some n.exact := by
    rw [exactNumber?, w.exact_numeral, hvalue]
  rw [heq] at hnumeral
  rw [Value.compact, htext, heq, Value.mapNumbers]
  exact Reader.value_number hc hnumeral hexact

/-! ## Arrays and objects -/

theorem depth_le_itemsDepth {ν : Type} {items : List (Value ν)} {item : Value ν}
    (h : item ∈ items) : item.depth ≤ itemsDepth items := by
  induction items with
  | nil => exact absurd h List.not_mem_nil
  | cons first rest ih =>
    rw [itemsDepth]
    rcases List.mem_cons.mp h with rfl | h
    · exact Nat.le_max_left ..
    · exact (ih h).trans (Nat.le_max_right ..)

theorem depth_le_membersDepth {ν : Type} {members : List (String × Value ν)}
    {member : String × Value ν} (h : member ∈ members) : member.2.depth ≤ membersDepth members := by
  induction members with
  | nil => exact absurd h List.not_mem_nil
  | cons first rest ih =>
    rw [membersDepth]
    rcases List.mem_cons.mp h with rfl | h
    · exact Nat.le_max_left ..
    · exact (ih h).trans (Nat.le_max_right ..)

/-- The items of an array are read one after the other up to its bracket. -/
theorem items_recovered {items : List Document} (hne : items ≠ [])
    (h : ∀ item ∈ items, Recovers item) {fuel depth : Nat} (rest : List Char)
    (hfuel : (List.intercalate [','] (itemTexts items)).length < fuel)
    (hdepth : itemsDepth items ≤ depth) :
    Reader.items exactNumber? fuel depth
        (List.intercalate [','] (itemTexts items) ++ ']' :: rest) =
      some (mapItems Number.exact items, rest) := by
  induction items generalizing fuel with
  | nil => exact absurd rfl hne
  | cons item others ih =>
    obtain ⟨hitem, hothers⟩ := List.forall_mem_cons.mp h
    obtain ⟨c, tail, heq, -⟩ := hitem.head
    have hlength : 1 ≤ item.compact.length := by
      rw [heq]
      exact Nat.succ_pos _
    have hd := (depth_le_itemsDepth (List.mem_cons_self ..)).trans hdepth
    obtain ⟨fuel, rfl⟩ := Nat.exists_eq_add_of_lt (Nat.zero_lt_of_lt hfuel)
    cases others with
    | nil =>
      rw [itemTexts, itemTexts, List.intercalate_singleton] at hfuel ⊢
      exact Reader.items_last (hitem.read (by omega) hd (apart_cons (by decide) rest))
    | cons next others =>
      rw [itemTexts, itemTexts, List.intercalate_cons_cons, ← itemTexts] at hfuel ⊢
      simp only [List.length_append, List.length_singleton] at hfuel
      rw [List.append_assoc, List.append_assoc]
      refine Reader.items_cons (hitem.read (by omega) hd (apart_cons (by decide) _)) ?_
      refine ih (List.cons_ne_nil next others) hothers (by omega) ?_
      exact (Nat.le_max_right ..).trans hdepth

/-- The members of an object are read one after the other up to its brace. -/
theorem members_recovered {members : List (String × Document)} (hne : members ≠ [])
    (h : ∀ member ∈ members, Recovers member.2) {fuel depth : Nat} (rest : List Char)
    (hfuel : (List.intercalate [','] (memberTexts members)).length < fuel)
    (hdepth : membersDepth members ≤ depth) :
    Reader.members exactNumber? fuel depth
        (List.intercalate [','] (memberTexts members) ++ '\x7d' :: rest) =
      some (mapMembers Number.exact members, rest) := by
  induction members generalizing fuel with
  | nil => exact absurd rfl hne
  | cons member others ih =>
    obtain ⟨key, value⟩ := member
    obtain ⟨hvalue, hothers⟩ := List.forall_mem_cons.mp h
    have hd := (depth_le_membersDepth (List.mem_cons_self ..)).trans hdepth
    dsimp only at hvalue hd
    obtain ⟨fuel, rfl⟩ := Nat.exists_eq_add_of_lt (Nat.zero_lt_of_lt hfuel)
    cases others with
    | nil =>
      rw [memberTexts, memberTexts, List.intercalate_singleton] at hfuel ⊢
      simp only [List.length_append, List.length_cons] at hfuel
      rw [List.append_assoc]
      exact Reader.members_last key (hvalue.read (by omega) hd (apart_cons (by decide) rest))
    | cons next others =>
      obtain ⟨nextKey, nextValue⟩ := next
      rw [memberTexts, memberTexts, List.intercalate_cons_cons, ← memberTexts] at hfuel ⊢
      simp only [List.length_append, List.length_cons, List.length_nil] at hfuel
      rw [List.append_assoc, List.append_assoc, List.append_assoc]
      refine Reader.members_cons key (hvalue.read (by omega) hd (apart_cons (by decide) _)) ?_
      refine ih (List.cons_ne_nil _ others) hothers (by omega) ?_
      exact (Nat.le_max_right ..).trans hdepth

theorem intercalate_cons_eq (sep text : List Char) (texts : List (List Char)) :
    ∃ tail, List.intercalate sep (text :: texts) = text ++ tail := by
  cases texts with
  | nil => exact ⟨[], by simp⟩
  | cons next texts =>
    exact ⟨sep ++ List.intercalate sep (next :: texts), by
      rw [List.intercalate_cons_cons, List.append_assoc]⟩

theorem recovers_array {items : List Document} (h : ∀ item ∈ items, Recovers item) :
    Recovers (.array items) := by
  refine recovers_of_head (by rw [Value.compact]) rfl (by decide)
    fun {fuel depth rest} hfuel hdepth _ => ?_
  rw [Value.depth] at hdepth
  rw [Value.compact] at hfuel ⊢
  rw [Value.mapNumbers, List.cons_append, List.append_assoc]
  simp only [List.length_cons, List.length_append, List.length_nil] at hfuel
  obtain ⟨depth, rfl⟩ := Nat.exists_eq_add_of_le' (Nat.one_le_of_lt hdepth)
  cases items with
  | nil => exact Reader.value_array_nil
  | cons item others =>
    obtain ⟨c, first, hfirst, hblank, hc⟩ := (h item (List.mem_cons_self ..)).head
    obtain ⟨tail, htail⟩ := intercalate_cons_eq [','] item.compact (itemTexts others)
    have hread := items_recovered (List.cons_ne_nil item others) h rest
      (show _ < fuel by omega) (show _ ≤ depth by omega)
    rw [itemTexts, htail, hfirst] at hread ⊢
    exact Reader.value_array hblank hc hread

theorem recovers_object {members : List (String × Document)} (hkeys : (members.map Prod.fst).Nodup)
    (h : ∀ member ∈ members, Recovers member.2) : Recovers (.object members) := by
  refine recovers_of_head (by rw [Value.compact]) rfl (by decide)
    fun {fuel depth rest} hfuel hdepth _ => ?_
  rw [Value.depth] at hdepth
  rw [Value.compact] at hfuel ⊢
  rw [Value.mapNumbers, List.cons_append, List.append_assoc]
  simp only [List.length_cons, List.length_append, List.length_nil] at hfuel
  obtain ⟨depth, rfl⟩ := Nat.exists_eq_add_of_le' (Nat.one_le_of_lt hdepth)
  have hsettled : Keyed.settle (mapMembers Number.exact members) =
      mapMembers Number.exact members := Keyed.settle_of_nodup (by rwa [map_fst_mapMembers])
  cases members with
  | nil => exact Reader.value_object_nil
  | cons member others =>
    obtain ⟨key, value⟩ := member
    obtain ⟨tail, htail⟩ := intercalate_cons_eq [','] (quoted key ++ ':' :: value.compact)
      (memberTexts others)
    have hread := members_recovered (List.cons_ne_nil _ others) h rest
      (show _ < fuel by omega) (show _ ≤ depth by omega)
    rw [memberTexts, htail, quoted] at hread ⊢
    have hvalue := Reader.value_object rfl (by decide) hread
    rwa [hsettled] at hvalue

theorem recovers_of_regular {v : Document} (h : v.Regular) : Recovers v := by
  induction h with
  | null => exact recovers_null
  | bool b => exact recovers_bool b
  | number h => exact recovers_number h
  | string s => exact recovers_string s
  | array _ ih => exact recovers_array ih
  | object hkeys _ ih => exact recovers_object hkeys ih

theorem read?_compact {v : Document} (h : v.Regular) {depth : Nat} (hdepth : v.depth ≤ depth) :
    read? exactNumber? depth v.compact = some (v.mapNumbers Number.exact) := by
  have hread := (recovers_of_regular h).read
    (show v.compact.length ≤ 2 * v.compact.length + 2 by omega) hdepth apart_nil
  rw [List.append_nil] at hread
  unfold read?
  rw [hread]
  rfl

/-! ## What stands outside of strings -/

/-- The characters of a text that a reader meets outside of strings. -/
def unquoted (q : Quoting) : List Char → List Char
  | [] => []
  | c :: rest => if q = .outside then c :: unquoted (q.next c) rest else unquoted (q.next c) rest

/-- Whether a character is one of the visible ones below U+007F. -/
def Visible (c : Char) : Prop := 32 < c.toNat ∧ c.toNat < 127

instance : DecidablePred Visible := fun _ => inferInstanceAs (Decidable (_ ∧ _))

/-- Text that leads from outside of strings back there and has only visible characters outside. -/
structure Solid (text : List Char) : Prop where
  outside : text.foldl Quoting.next .outside = .outside
  visible : ∀ c ∈ unquoted .outside text, Visible c

theorem unquoted_append (q : Quoting) (a b : List Char) :
    unquoted q (a ++ b) = unquoted q a ++ unquoted (a.foldl Quoting.next q) b := by
  induction a generalizing q with
  | nil => rfl
  | cons c rest ih =>
    rw [List.cons_append, unquoted, unquoted, ih]
    split <;> rfl

theorem unquoted_of_inString {weight : Char → Int} {depth : Int} {s s' : Scan} {text : List Char}
    (h : Reads weight (·.InString depth) s text s') :
    unquoted s.quoting text = [] ∧ text.foldl Quoting.next s.quoting = s'.quoting := by
  induction h with
  | nil _ => exact ⟨rfl, rfl⟩
  | cons h _ ih =>
    rw [unquoted, if_neg h.1]
    exact ih

theorem solid_nil : Solid [] := ⟨rfl, fun _ hc => absurd hc List.not_mem_nil⟩

theorem Solid.append {a b : List Char} (ha : Solid a) (hb : Solid b) : Solid (a ++ b) where
  outside := by rw [List.foldl_append, ha.outside, hb.outside]
  visible c hc := by
    rw [unquoted_append, ha.outside] at hc
    rcases List.mem_append.mp hc with hc | hc
    · exact ha.visible c hc
    · exact hb.visible c hc

theorem Solid.cons {c : Char} {text : List Char} (hc : Visible c) (hquote : c ≠ '"')
    (h : Solid text) : Solid (c :: text) := by
  have hnext : Quoting.next .outside c = .outside := if_neg hquote
  constructor
  · rw [List.foldl_cons, hnext, h.outside]
  · rw [unquoted, if_pos rfl, hnext, List.forall_mem_cons]
    exact ⟨hc, h.visible⟩

theorem solid_of_visible {text : List Char} (h : ∀ c ∈ text, Visible c ∧ c ≠ '"') : Solid text := by
  induction text with
  | nil => exact solid_nil
  | cons c rest ih =>
    obtain ⟨hc, hrest⟩ := List.forall_mem_cons.mp h
    exact (ih hrest).cons hc.1 hc.2

theorem solid_intercalate {texts : List (List Char)} (h : ∀ text ∈ texts, Solid text) :
    Solid (List.intercalate [','] texts) := by
  induction texts with
  | nil => exact solid_nil
  | cons text rest ih =>
    obtain ⟨htext, hrest⟩ := List.forall_mem_cons.mp h
    cases rest with
    | nil => simpa using htext
    | cons next rest =>
      rw [List.intercalate_cons_cons, List.append_assoc]
      exact htext.append ((ih hrest).cons (by decide) (by decide))

theorem solid_quoted (s : String) : Solid (quoted s) := by
  have hreads : Reads brackets (·.InString 0) ⟨.inside, 0⟩ (s.toList.flatMap escaped)
      ⟨.inside, 0⟩ := reads_flatMap_escaped s.toList 0
  obtain ⟨hnone, hinside⟩ := unquoted_of_inString hreads
  have hnext : Quoting.next .outside '"' = .inside := rfl
  unfold quoted
  constructor
  · rw [List.foldl_cons, hnext, List.foldl_append, hinside]
    rfl
  · rw [unquoted, if_pos rfl, hnext, unquoted_append, hnone, hinside]
    show ∀ c ∈ ['"'], Visible c
    intro c hc
    rw [List.mem_singleton.mp hc]
    decide

theorem visible_of_numeral {c : Char} (h : isNumeral c) : Visible c ∧ c ≠ '"' := by
  unfold isNumeral Char.isAlphanum Char.isAlpha Char.isUpper Char.isLower Char.isDigit at h
  simp only [Bool.or_eq_true, Bool.and_eq_true, decide_eq_true_eq, beq_iff_eq,
    UInt32.le_iff_toNat_le, ge_iff_le] at h
  have hquote : c = '"' → c.toNat = 34 := by
    rintro rfl
    rfl
  have hv : c.toNat = c.val.toNat := rfl
  unfold Visible
  rcases h with (((((h | h) | h) | rfl) | rfl) | rfl)
  · have : 'A'.val.toNat = 65 ∧ 'Z'.val.toNat = 90 := ⟨rfl, rfl⟩
    exact ⟨by omega, fun heq => by have := hquote heq; omega⟩
  · have : 'a'.val.toNat = 97 ∧ 'z'.val.toNat = 122 := ⟨rfl, rfl⟩
    exact ⟨by omega, fun heq => by have := hquote heq; omega⟩
  · have : '0'.val.toNat = 48 ∧ '9'.val.toNat = 57 := ⟨rfl, rfl⟩
    exact ⟨by omega, fun heq => by have := hquote heq; omega⟩
  all_goals decide

theorem solid_of_numeral {text : List Char} (h : ∀ c ∈ text, isNumeral c) : Solid text :=
  solid_of_visible fun c hc => visible_of_numeral (h c hc)

mutual

theorem Value.solid_compact : (v : Document) → Solid v.compact
  | .null => by
    rw [Value.compact]
    exact solid_of_numeral (by simp [isNumeral])
  | .bool b => by
    rw [Value.compact]
    exact solid_of_numeral (by cases b <;> simp [boolText, isNumeral])
  | .number n => by
    rw [Value.compact]
    exact solid_of_numeral fun _ => Number.numeral_text
  | .string s => by
    rw [Value.compact]
    exact solid_quoted s
  | .array items => by
    rw [Value.compact]
    have hitems := solid_intercalate (solid_itemTexts items)
    exact (hitems.append (solid_nil.cons (by decide) (by decide))).cons (by decide) (by decide)
  | .object members => by
    rw [Value.compact]
    have hmembers := solid_intercalate (solid_memberTexts members)
    exact (hmembers.append (solid_nil.cons (by decide) (by decide))).cons (by decide) (by decide)

theorem solid_itemTexts : (items : List Document) → ∀ text ∈ itemTexts items, Solid text
  | [] => by simp [itemTexts]
  | item :: rest => by
    rw [itemTexts, List.forall_mem_cons]
    exact ⟨item.solid_compact, solid_itemTexts rest⟩

theorem solid_memberTexts :
    (members : List (String × Document)) → ∀ text ∈ memberTexts members, Solid text
  | [] => by simp [memberTexts]
  | (key, value) :: rest => by
    rw [memberTexts, List.forall_mem_cons]
    have hvalue := value.solid_compact.cons (show Visible ':' by decide) (by decide)
    exact ⟨(solid_quoted key).append hvalue, solid_memberTexts rest⟩

end

/-- Compact text holds no control character, and outside of strings only visible characters. A
    reader of exact numbers that allows for its nesting finds the document in it, from the first
    character to the last. -/
theorem compact_readsBack (v : Document) :
    Printable v.compact ∧ (∀ c ∈ unquoted .outside v.compact, Visible c) ∧
      (v.Regular → ∀ depth, v.depth ≤ depth →
        read? exactNumber? depth v.compact = some (v.mapNumbers Number.exact)) :=
  ⟨v.printable_compact, v.solid_compact.visible, fun h _ hdepth => read?_compact h hdepth⟩

/-- Escapes of each kind, an empty key, an empty object, a negative zero and a small double. -/
def mixedDocument : Document :=
  .object [("\"\\\n\x01", .array [.number (.integer (-7)), .number (.double ⟨0x8000000000000000⟩),
    .number (.double ⟨0x3e8421f5f40d8376⟩)]), ("", .object []), ("é", .string " \x1f")]

theorem regular_mixedDocument : mixedDocument.Regular := by
  refine .object (by decide) ?_
  simp only [List.forall_mem_cons, List.not_mem_nil, false_implies, implies_true, and_true]
  refine ⟨.array ?_, .object List.nodup_nil (by simp), .string _⟩
  simp only [List.forall_mem_cons, List.not_mem_nil, false_implies, implies_true, and_true]
  exact ⟨.number trivial, .number ⟨by decide, by decide⟩, .number ⟨by decide, by decide⟩⟩

theorem compact_readsBack_mixedDocument : mixedDocument.Regular ∧ mixedDocument.depth = 2 ∧
    mixedDocument.compact =
      "\x7b\"\\\"\\\\\\n\\u0001\":[-7,0,1.5e-7],\"\":\x7b\x7d,\"é\":\" \\u001f\"\x7d".toList ∧
    read? exactNumber? 2 mixedDocument.compact = some (mixedDocument.mapNumbers Number.exact) :=
  ⟨regular_mixedDocument, by decide, by decide +kernel,
    (compact_readsBack mixedDocument).2.2 regular_mixedDocument 2 (by decide)⟩

end BlockScript.Json
