import Temari.CutValues

/-! Fields of a text that breaks off. From a prefix of a text the parser takes the same fields
as from the text, up to the field in which the prefix ends. -/
namespace Temari.CutFields
open RoundMachine Utf8 FlatJson JsonReading JsonGrammar CutValues
variable {b p v : Bytes} {i j : Nat}

section Fields

/-- A field as the parser takes it, and the cursor after it. -/
structure Field where
  key : Bytes
  value : Bytes
  stop : Nat

def Field.pair (f : Field) : Bytes × Bytes := (f.key, f.value)

/-- Where the value of a key starts: past the next colon and space. -/
def valueAt (b : Bytes) (keyEnd : Nat) : Nat :=
  skipWhile isWhitespace b (skipWhile (· ≠ colon) b (keyEnd + 1) + 1)

variable {f : Field} {fs : List Field} {out : List (Bytes × Bytes)}

end Fields

section Cut
variable {f : Field} {fs : List Field} {out : List (Bytes × Bytes)}

/-- What is taken from the prefix: the fields that end in it, with or without what is left of
the next. -/
inductive Taken (done : List Field) : List Field → List (Bytes × Bytes) → Prop
  | whole {rest : List Field} : Taken done rest (done.map Field.pair)
  | cut {f : Field} {rest : List Field} {v' : Bytes} (h : CutValue f.value v') :
      Taken done (f :: rest) (done.map Field.pair ++ [(f.key, v')])

theorem Taken.cons {done rest : List Field} {taken : List (Bytes × Bytes)} (f : Field)
    (h : Taken done rest taken) : Taken (f :: done) rest (f.pair :: taken) := by
  cases h with
  | whole => exact Taken.whole
  | cut h => exact Taken.cut h

end Cut

end Temari.CutFields
