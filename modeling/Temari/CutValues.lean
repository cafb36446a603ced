import Temari.JsonGrammar
import Temari.JsonPanics
import Temari.Base64
import Mathlib.Data.List.Infix

/-! Strings and values of a text that breaks off. In a prefix of a text the parser reads a
string or a value as in the text, or it reads what is left of it. -/
namespace Temari.CutValues
open RoundMachine Utf8 FlatJson JsonReading JsonGrammar Base64
variable {b p v : Bytes} {i j : Nat} {c : UInt8}

section Prefix

theorem prefix_getElem (hp : p <+: b) (hi : i < p.length) : p[i]? = b[i]? := by
  obtain ⟨s, rfl⟩ := hp
  exact (List.getElem?_append_left hi).symm

end Prefix

section Strings

theorem escape_other (hp : p <+: b) (hi : i < p.length) (h : b[i]? = some c) (hu : c ≠ 0x75) :
    ∃ pushed, escape b i = some (pushed, 0) ∧ escape p i = some (pushed, 0) := by
  have hp' := (prefix_getElem hp hi).trans h
  rw [escape, escape, h, hp']
  dsimp only
  repeat
    split
    · exact ⟨_, rfl, rfl⟩
  exact ⟨_, rfl, rfl⟩

theorem escape_unicode (h : b[i]? = some 0x75) (hlt : i + 4 < b.length) :
    escape b i = (sliceStr b (i + 1) (i + 5)).map fun hex => (unicodeEscape hex, 4) := by
  rw [escape, h]
  simp only [quote, backslash, hlt]
  cases sliceStr b (i + 1) (i + 5) <;> rfl

end Strings

section Values

/-- What is left of a value where the text breaks off. -/
inductive CutValue : Bytes → Bytes → Prop
  | text {kept more stray : Bytes} (h : stray.length ≤ 3) :
      CutValue (fromUtf8Lossy (kept ++ more)) (fromUtf8Lossy (kept ++ stray))
  | bare {v v' : Bytes} (h : v' <+: v) : CutValue v v'

end Values

end Temari.CutValues
