import Temari.JsonReading

/-! The whole JSON grammar, with every escape and nested values, and what it says of the
quotes and backslashes of a text. -/
namespace Temari.JsonGrammar
open Utf8 JsonText JsonReading

section Flat
variable {t : List UInt8}

end Flat

/-- The quotes of the text pair up and a backslash is met within them only, where it starts an
escape: a letter, or u and four bytes that are neither. The flag says whether the text starts
within a string. -/
inductive Lexed : Bool → List UInt8 → Prop
  | nil : Lexed false []
  | plain {s : Bool} {c : UInt8} {t : List UInt8} (hq : c ≠ 0x22) (hb : c ≠ 0x5C) (h : Lexed s t) :
      Lexed s (c :: t)
  | quote {s : Bool} {t : List UInt8} (h : Lexed (!s) t) : Lexed s (0x22 :: t)
  | short {e : UInt8} {t : List UInt8} (he : e ≠ 0x75) (h : Lexed true t) :
      Lexed true (0x5C :: e :: t)
  | unicode {hex t : List UInt8} (hhex : ∀ c ∈ hex, c ≠ 0x22 ∧ c ≠ 0x5C) (hlen : hex.length = 4)
      (h : Lexed true t) : Lexed true (0x5C :: 0x75 :: (hex ++ t))

section Lexing
variable {s : Bool} {t rest : List UInt8}

theorem Lexed.append (h : Lexed s t) (hrest : Lexed false rest) : Lexed s (t ++ rest) := by
  induction h with
  | nil => exact hrest
  | plain hq hb _ ih => exact Lexed.plain hq hb ih
  | quote _ ih => exact Lexed.quote ih
  | short he _ ih => exact Lexed.short he ih
  | unicode hhex hlen _ ih =>
    rw [List.cons_append, List.cons_append, List.append_assoc]
    exact Lexed.unicode hhex hlen ih

end Lexing

end Temari.JsonGrammar
