import Temari.CutFields
import Temari.TemplateFormat

/-! What is loaded from a response that breaks off. -/
namespace Temari.CutResponse
open RoundMachine Rounds Utf8 FlatJson JsonText JsonReading JsonGrammar TemplateLoader
open TemplateFormat Base64 CutValues CutFields
variable {b : Bytes} {i : Nat}

section Lookup
variable {done rest : List Field} {k : Bytes} {taken : List (Bytes × Bytes)}

theorem fieldMap_append {xs ys : List (Bytes × Bytes)} (hk : k ∉ ys.map Prod.fst) :
    fieldMap (xs ++ ys) k = fieldMap xs k := by
  rw [fieldMap, List.foldl_append]
  exact foldl_insertField _ hk

/-- The field of that key is found where none comes after it. -/
theorem fieldMap_after (xs : List (Bytes × Bytes)) {ys : List (Bytes × Bytes)} (v : Bytes)
    (hk : k ∉ ys.map Prod.fst) : fieldMap (xs ++ (k, v) :: ys) k = some v := by
  rw [List.append_cons, fieldMap_append hk, fieldMap, List.foldl_append, List.foldl_cons,
    List.foldl_nil, insertField, Function.update_self]

end Lookup

section Loaded
variable {done rest : List Field} {taken : List (Bytes × Bytes)} {T T' : Template}

/-- The registers by the names of their fields. -/
def registers : List (String × (R1Entry → Word)) :=
  [("rcx", R1Entry.rcx), ("rax", R1Entry.rax), ("rdx", R1Entry.rdx), ("r9", R1Entry.r9),
    ("rbp", R1Entry.rbp)]

end Loaded

section Compact
variable {fields : List (Bytes × Bytes)}

end Compact

end Temari.CutResponse
