/-
  The order of texts by their bytes.

  Of two characters the one with the smaller code has the smaller bytes, and neither encoding starts
  the other (`utf8EncodeChar_append_lt`). So texts are in the same order by their characters as by
  the bytes of their encoding (`bytes_lt_iff`).
-/
import Mathlib.Data.String.Basic

namespace BlockScript.Text

/-- The bytes of a text. -/
def bytes (s : String) : List UInt8 := s.toUTF8.data.toList

theorem bytes_eq (s : String) : bytes s = s.toList.flatMap String.utf8EncodeChar := by
  unfold bytes
  rw [String.toUTF8, ← String.utf8Encode_toList, List.utf8Encode, List.data_toByteArray]

theorem code_lt (c : Char) : c.val.toNat < 0x110000 := by
  rcases c.valid with h | ⟨-, h⟩
  · exact Nat.lt_trans h (by decide)
  · exact h

theorem byte_cons_lt {m n : Nat} {a b : List UInt8} (hle : m ≤ n) (hn : n < 256)
    (h : m = n → a < b) : UInt8.ofNat m :: a < UInt8.ofNat n :: b := by
  rw [List.cons_lt_cons_iff, UInt8.lt_iff_toNat_lt, UInt8.toNat_ofNat', UInt8.toNat_ofNat',
    Nat.mod_eq_of_lt hn, Nat.mod_eq_of_lt (Nat.lt_of_le_of_lt hle hn)]
  rcases Nat.lt_or_eq_of_le hle with hlt | rfl
  · exact .inl hlt
  · exact .inr ⟨rfl, h rfl⟩

/-- Of two characters the one with the smaller code has the smaller bytes, whatever follows. -/
theorem utf8EncodeChar_append_lt {c d : Char} (h : c < d) (a b : List UInt8) :
    String.utf8EncodeChar c ++ a < String.utf8EncodeChar d ++ b := by
  have hcode : c.val.toNat < d.val.toNat := h
  have hd := code_lt d
  unfold String.utf8EncodeChar
  dsimp only
  -- one case for each pair of lengths; byte by byte the codes agree or are in order
  split_ifs
  all_goals repeat refine byte_cons_lt (by omega) (by omega) fun _ => ?_
  all_goals omega

theorem flatMap_utf8EncodeChar_lt {l m : List Char} (h : l < m) :
    l.flatMap String.utf8EncodeChar < m.flatMap String.utf8EncodeChar := by
  induction l generalizing m with
  | nil =>
    cases m with
    | nil => exact absurd h (List.not_lt_nil [])
    | cons d m =>
      obtain ⟨first, more, hfirst⟩ :=
        List.exists_cons_of_ne_nil (String.utf8EncodeChar_ne_nil (c := d))
      rw [List.flatMap_cons, hfirst]
      exact List.nil_lt_cons _ _
  | cons c l ih =>
    cases m with
    | nil => exact absurd h (List.not_lt_nil _)
    | cons d m =>
      rw [List.flatMap_cons, List.flatMap_cons]
      rcases List.cons_lt_cons_iff.mp h with hlt | ⟨rfl, hlt⟩
      · exact utf8EncodeChar_append_lt hlt _ _
      · exact List.append_left_lt (ih hlt)

theorem bytes_lt_of_lt {s t : String} (h : s < t) : bytes s < bytes t := by
  rw [bytes_eq, bytes_eq]
  exact flatMap_utf8EncodeChar_lt (String.lt_iff.mp h)

theorem bytes_inj {s t : String} : bytes s = bytes t ↔ s = t := by
  constructor
  · intro h
    rcases lt_trichotomy s t with hlt | heq | hlt
    · exact absurd (h ▸ bytes_lt_of_lt hlt) (List.lt_irrefl _)
    · exact heq
    · exact absurd (h ▸ bytes_lt_of_lt hlt) (List.lt_irrefl _)
  · exact congrArg bytes

/-- Texts are in the same order by their characters as by their bytes. -/
theorem bytes_lt_iff {s t : String} : bytes s < bytes t ↔ s < t := by
  constructor
  · intro h
    rcases lt_trichotomy s t with hlt | rfl | hlt
    · exact hlt
    · exact absurd h (List.lt_irrefl _)
    · exact absurd (List.lt_trans h (bytes_lt_of_lt hlt)) (List.lt_irrefl _)
  · exact bytes_lt_of_lt

/-- So are sequences of texts. -/
theorem map_bytes_lt_iff {a b : List String} : a.map bytes < b.map bytes ↔ a < b := by
  induction a generalizing b with
  | nil => cases b <;> simp
  | cons s a ih =>
    cases b with
    | nil => simp
    | cons t b =>
      rw [List.map_cons, List.map_cons, List.cons_lt_cons_iff, List.cons_lt_cons_iff, bytes_lt_iff,
        bytes_inj, ih]

end BlockScript.Text
