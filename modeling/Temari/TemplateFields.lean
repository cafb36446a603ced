import Temari.CutResponse
import Mathlib.Data.List.Induction

/-! What of a document the loader looks at: the last value of each of seven names. What comes before
it under the same name, what stands under other names, the order of the members and the way they are
written make no difference, to the template or to the error. -/
namespace Temari.TemplateFields
open RoundMachine Rounds Utf8 JsonText JsonReading Base64 TemplateLoader TemplateFormat Rfc4648
open CutResponse (fieldMap_after)
variable {ms ms' : List Member} {text text' : Bytes} {f g : Bytes → Option Bytes}

/-- The last value of a name. -/
def lastValue (ms : List Member) (name : Bytes) : Option Bytes :=
  ((ms.filter fun m => utf8 m.key = name).getLast?).map fun m => m.value.content

def registerNames : List String := ["rcx", "rax", "rdx", "r9", "rbp"]

/-- The two blobs decode to the same bytes and the five registers are read alike. -/
structure SameFields (f g : Bytes → Option Bytes) : Prop where
  ctx : (f (str "ctx")).map base64Decode = (g (str "ctx")).map base64Decode
  state : (f (str "state")).map base64Decode = (g (str "state")).map base64Decode
  registers : ∀ name ∈ registerNames, registerOf f name = registerOf g name

/-- Each insertion into the map replaces what the name had. -/
theorem fieldMap_last (ms : List Member) : fieldMap (ms.map Member.read) = lastValue ms := by
  induction ms using List.reverseRecOn with
  | nil => rfl
  | append_singleton ms m ih =>
    funext name
    rw [List.map_append, fieldMap, List.foldl_append, ← fieldMap, ih]
    by_cases hkey : utf8 m.key = name
    · subst hkey
      simp [insertField, Member.read, lastValue]
    · simp [insertField, Member.read, lastValue, hkey, Function.update_of_ne (Ne.symm hkey)]

/-- Neither field is there, or both are and they decode alike. -/
theorem same_value {x y : Option Bytes} (h : x.map base64Decode = y.map base64Decode) :
    x = none ∧ y = none ∨ ∃ a b, x = some a ∧ y = some b ∧ base64Decode a = base64Decode b := by
  cases x with
  | none => exact Or.inl ⟨rfl, Option.map_eq_none_iff.mp h.symm⟩
  | some a =>
    obtain ⟨b, hb, hab⟩ := Option.map_eq_some_iff.mp h.symm
    exact Or.inr ⟨a, b, rfl, hb, hab.symm⟩

/-- The checks that come after the map has been made. -/
theorem templateFromFields_same (h : SameFields f g) :
    templateFromFields f = templateFromFields g := by
  have hreg (name : String) (hname : name ∈ registerNames) :
      parseHex ((f (str name)).getD (str "0x0")) = parseHex ((g (str name)).getD (str "0x0")) :=
    h.registers name hname
  have hctx := h.ctx
  have hstate := h.state
  simp only [templateFromFields, hreg "rcx" (by decide), hreg "rax" (by decide),
    hreg "rdx" (by decide), hreg "r9" (by decide), hreg "rbp" (by decide)]
  obtain ⟨hf, hg⟩ | ⟨c, c', hf, hg, hc⟩ := same_value hctx
  · simp only [hf, hg]
  · obtain ⟨hf', hg'⟩ | ⟨v, v', hf', hg', hv⟩ := same_value hstate
    · simp only [hf, hg, hf', hg']
    · simp only [hf, hg, hf', hg', hc, hv]

/-- Two documents whose last values say the same give the same template, or the same error. -/
theorem loader_last_wins (h : ObjectText ms text) (h' : ObjectText ms' text')
    (hsame : SameFields (lastValue ms) (lastValue ms')) :
    templateFromJson text = templateFromJson text' := by
  rw [templateFromJson, templateFromJson, parseFlatJson_object h, parseFlatJson_object h']
  refine congrArg some (templateFromFields_same ?_)
  rwa [fieldMap_last, fieldMap_last]

/-- The blobs of a document's fields, whatever stands before them. -/
theorem fieldList_blobs (xs : List (Bytes × Bytes)) (D : TemplateData)
    (rcx rax rdx r9 rbp : Bytes) :
    fieldMap (xs ++ fieldList D rcx rax rdx r9 rbp) (str "ctx") = some (encode D.ctx) ∧
      fieldMap (xs ++ fieldList D rcx rax rdx r9 rbp) (str "state") = some (encode D.state) := by
  constructor
  · exact fieldMap_after xs (encode D.ctx)
      (by simp only [List.map_cons, List.map_nil]; decide +kernel)
  · rw [fieldList, List.append_cons]
    exact fieldMap_after _ (encode D.state)
      (by simp only [List.map_cons, List.map_nil]; decide +kernel)

/-- Values of three names that are not the last ones, and a name the loader does not know. -/
def early : List (Bytes × Bytes) :=
  [(str "ctx", str "AA"), (str "rcx", str "1"), (str "rax", str "x"), (str "note", str "1")]

theorem early_plain : ∀ f ∈ early,
    (∀ c ∈ f.1, isPlain c = true) ∧ ∀ c ∈ f.2, isPlain c = true := by
  simp only [early, List.forall_mem_cons]
  decide +kernel

/-- A document that loads, and one with those in front and two registers spelled otherwise. -/
theorem loader_last_wins_early :
    templateFromJson (compact (fieldList zeroData (str "0x1F") (str "1f") (str "0") (str "0")
      (str "0"))) = some (.ok zeroData.template) ∧
    templateFromJson (compact (early ++ fieldList zeroData (str "1f") (str "0x1F") (str "0")
      (str "0") (str "0"))) = some (.ok zeroData.template) := by
  obtain ⟨ms₀, hdoc⟩ := document_write (D := zeroData) registerText_upper registerText_lower
    registerText_zero registerText_zero registerText_zero
  have hload := templateFromJson_document hdoc
  refine ⟨hload, ?_⟩
  obtain ⟨ms', htext', hread'⟩ := objectText_compact
    (List.append_ne_nil_of_left_ne_nil (List.cons_ne_nil _ _) _ : early ++ fieldList zeroData
      (str "1f") (str "0x1F") (str "0") (str "0") (str "0") ≠ [])
    (List.forall_mem_append.mpr ⟨early_plain, fieldList_plain (D := zeroData) registerText_lower
      registerText_upper registerText_zero registerText_zero registerText_zero⟩)
  obtain ⟨hctx', hstate'⟩ := fieldList_blobs early zeroData (str "1f") (str "0x1F") (str "0")
    (str "0") (str "0")
  obtain ⟨hctx, hstate⟩ := fieldList_blobs [] zeroData (str "0x1F") (str "1f") (str "0") (str "0")
    (str "0")
  obtain ⟨ms, htext, hread⟩ := objectText_compact
    (List.cons_ne_nil _ _ : fieldList zeroData (str "0x1F") (str "1f") (str "0") (str "0")
      (str "0") ≠ [])
    (fieldList_plain (D := zeroData) registerText_upper registerText_lower registerText_zero
      registerText_zero registerText_zero)
  refine (loader_last_wins htext' htext ?_).trans hload
  rw [← fieldMap_last, ← fieldMap_last, hread', hread]
  exact ⟨(congrArg _ hctx').trans (congrArg _ hctx).symm,
    (congrArg _ hstate').trans (congrArg _ hstate).symm, by decide +kernel⟩

end Temari.TemplateFields
