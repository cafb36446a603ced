import Temari.TemplateLoader
import Temari.JsonReading

/-! The JSON template format: the documents that carry given data, and what is loaded. -/
namespace Temari.TemplateFormat
open RoundMachine Rounds Utf8 FlatJson JsonText JsonReading Rfc4648 Base64 TemplateLoader

/-- What the key server holds: the table, the state blob and 64-bit registers. -/
structure TemplateData where
  ctx : Bytes
  state : Bytes
  rcx : BitVec 64
  rax : BitVec 64
  rdx : BitVec 64
  r9 : BitVec 64
  rbp : BitVec 64
  ctx_size : ctxSize ≤ ctx.length
  state_size : 0x2000 ≤ state.length

/-- A register in hex of either case, with or without 0x. -/
def RegisterText (b : Bytes) (v : BitVec 64) : Prop :=
  ∃ hex, hex ≠ [] ∧ HexText hex v.toNat ∧ (b = hex ∨ b = str "0x" ++ hex)

/-- The members of the documented format, with the registers spelled so. -/
def fieldList (D : TemplateData) (rcx rax rdx r9 rbp : Bytes) : List (Bytes × Bytes) :=
  [(str "ctx", encode D.ctx), (str "state", encode D.state), (str "rcx", rcx), (str "rax", rax),
    (str "rdx", rdx), (str "r9", r9), (str "rbp", rbp)]

/-- The document carries the data: its members, in some order, read as the seven. -/
structure Document (D : TemplateData) (doc : Bytes) (ms : List Member)
    (rcx rax rdx r9 rbp : Bytes) : Prop where
  text : ObjectText ms doc
  fields : (ms.map Member.read).Perm (fieldList D rcx rax rdx r9 rbp)
  rcx : RegisterText rcx D.rcx
  rax : RegisterText rax D.rax
  rdx : RegisterText rdx D.rdx
  r9 : RegisterText r9 D.r9
  rbp : RegisterText rbp D.rbp

section Registers

/-- A register is read modulo 2^32. -/
theorem parseHex_register {b : Bytes} {v : BitVec 64} (h : RegisterText b v) :
    parseHex b = .ok (v.setWidth 32) := by
  obtain ⟨hex, hne, hhex, hb⟩ := h
  have hdigits := HexText.digits hhex
  have hprintable : ∀ c ∈ hex, 0x20 < c ∧ c < 0x80 := fun c hc => by
    obtain ⟨d, hd⟩ := hdigits c hc
    exact hexDigit_printable hd
  have hzerox : str "0x" = [0x30, 0x78] := by decide
  have hstripped : stripPrefix (str "0x") (trim b) = hex := by
    obtain rfl | rfl := hb
    · rw [trim_printable hprintable, stripPrefix, hzerox, if_neg]
      intro hp
      have hx : (0x78 : UInt8) ∈ b := (List.isPrefixOf_iff_prefix.mp hp).subset (by decide)
      obtain ⟨d, hd⟩ := hdigits _ hx
      cases hd
    · rw [trim_printable, stripPrefix, if_pos, List.drop_left]
      · exact List.isPrefixOf_iff_prefix.mpr (List.prefix_append _ _)
      · rw [hzerox, List.forall_mem_append]
        exact ⟨by decide +kernel, hprintable⟩
  rw [parseHex, hstripped, fromStrRadix16_text hhex hne v.isLt]
  dsimp only
  rw [BitVec.ofNat_toNat]

end Registers

section Fields

theorem foldl_insertField {k : Bytes} {fields : List (Bytes × Bytes)} (map : Bytes → Option Bytes)
    (hk : k ∉ fields.map Prod.fst) : fields.foldl insertField map k = map k := by
  induction fields generalizing map with
  | nil => rfl
  | cons f fields ih =>
    rw [List.map_cons, List.mem_cons, not_or] at hk
    rw [List.foldl_cons, ih _ hk.2, insertField, Function.update_of_ne hk.1]

/-- Where keys differ each field is found under its key. -/
theorem fieldMap_mem {fields : List (Bytes × Bytes)} {k v : Bytes}
    (hkeys : (fields.map Prod.fst).Nodup) (h : (k, v) ∈ fields) : fieldMap fields k = some v := by
  obtain ⟨before, after, rfl⟩ := List.append_of_mem h
  rw [List.map_append, List.nodup_append, List.map_cons, List.nodup_cons] at hkeys
  rw [fieldMap, List.foldl_append, List.foldl_cons, foldl_insertField _ hkeys.2.1.1,
    insertField, Function.update_self]

end Fields

section State

theorem wordAt_isSome {b : Bytes} {pos : Nat} (h : pos + 4 ≤ b.length) :
    ∃ w, wordAt b pos = some w := by
  have hget (k : Nat) (hk : k < 4) : ∃ x, b[pos + k]? = some x :=
    ⟨_, List.getElem?_eq_getElem (by omega : pos + k < b.length)⟩
  obtain ⟨x0, h0⟩ := hget 0 (by decide)
  obtain ⟨x1, h1⟩ := hget 1 (by decide)
  obtain ⟨x2, h2⟩ := hget 2 (by decide)
  obtain ⟨x3, h3⟩ := hget 3 (by decide)
  exact ⟨fromLeBytes x0 x1 x2 x3, by simp_all [wordAt]⟩

theorem storeSlot_get {raw : Bytes} (hraw : 0x2000 ≤ raw.length) {k off : Nat} (hk : k < stSize)
    (hoff : 4 ≤ off) (st : St) :
    (storeSlot raw st off)[k]? = if k = off then wordAt raw (0x2000 - k) else st[k]? := by
  rw [storeSlot]
  by_cases hhigh : off ≥ stSize
  · rw [if_pos hhigh, if_neg (by omega)]
  · have hsize : stSize = 2048 := rfl
    obtain ⟨w, hw⟩ := wordAt_isSome (by omega : 0x2000 - off + 4 ≤ raw.length)
    rw [if_neg hhigh, hw]
    dsimp only
    split
    next heq =>
      subst heq
      rw [Vector.getElem?_setIfInBounds_self_of_lt hk, hw]
    next hne => rw [Vector.getElem?_setIfInBounds_ne (Ne.symm hne)]

theorem foldl_storeSlot {raw : Bytes} (hraw : 0x2000 ≤ raw.length) {k : Nat} (hk : k < stSize)
    {slots : List Nat} (hslots : ∀ off ∈ slots, 4 ≤ off) (st : St) :
    (slots.foldl (storeSlot raw) st)[k]? =
      if k ∈ slots then wordAt raw (0x2000 - k) else st[k]? := by
  induction slots generalizing st with
  | nil => rfl
  | cons off slots ih =>
    obtain ⟨hoff, hslots⟩ := List.forall_mem_cons.mp hslots
    rw [List.foldl_cons, ih hslots, storeSlot_get hraw hk hoff]
    simp only [List.mem_cons]
    split_ifs <;> simp_all

/-- The slots hold their words of the blob, the others nothing. -/
theorem stFromRaw_slot {raw : Bytes} (hraw : 0x2000 ≤ raw.length) {k : Nat} (hk : k < stSize) :
    (stFromRaw raw)[k]? = if k ∈ stSlots then wordAt raw (0x2000 - k) else some 0 := by
  have hslots : ∀ off ∈ stSlots, 4 ≤ off := by decide +kernel
  rw [stFromRaw, foldl_storeSlot hraw hk hslots]
  simp [hk]

end State

/-- What is loaded from the data. -/
def TemplateData.template (D : TemplateData) : Template where
  ctx := D.ctx
  stInit := stFromRaw D.state
  r1Entry :=
    { rdx := D.rdx.setWidth 32
      rcx := D.rcx.setWidth 32
      rax := D.rax.setWidth 32
      r9 := D.r9.setWidth 32
      rbp := D.rbp.setWidth 32 }

theorem TemplateData.template_stInit (D : TemplateData) :
    D.template.stInit = stFromRaw D.state := by
  rw [template]

variable {D : TemplateData} {doc rcx rax rdx r9 rbp : Bytes} {ms : List Member}

theorem templateFromFields_data {map : Bytes → Option Bytes}
    (hctx : map (str "ctx") = some (encode D.ctx))
    (hstate : map (str "state") = some (encode D.state)) (hrcx : map (str "rcx") = some rcx)
    (hrax : map (str "rax") = some rax) (hrdx : map (str "rdx") = some rdx)
    (hr9 : map (str "r9") = some r9) (hrbp : map (str "rbp") = some rbp)
    (tcx : RegisterText rcx D.rcx) (tax : RegisterText rax D.rax) (tdx : RegisterText rdx D.rdx)
    (t9 : RegisterText r9 D.r9) (tbp : RegisterText rbp D.rbp) :
    templateFromFields map = .ok D.template := by
  have hsize := Nat.not_lt.mpr D.ctx_size
  have hstate_size := Nat.not_lt.mpr D.state_size
  simp only [templateFromFields, hctx, hstate, hrcx, hrax, hrdx, hr9, hrbp, Option.getD_some,
    parseHex_register tcx, parseHex_register tax, parseHex_register tdx, parseHex_register t9,
    parseHex_register tbp, base64Decode_encode, if_neg hsize, if_neg hstate_size]
  rfl

/-- A document is loaded as the data it carries. -/
theorem templateFromJson_document (h : Document D doc ms rcx rax rdx r9 rbp) :
    templateFromJson doc = some (.ok D.template) := by
  have hnodup : ((ms.map Member.read).map Prod.fst).Nodup :=
    (h.fields.map Prod.fst).nodup_iff.mpr (by
      simp only [fieldList, List.map_cons, List.map_nil]
      decide)
  have hget (k v : Bytes) (hmem : (k, v) ∈ fieldList D rcx rax rdx r9 rbp) :
    fieldMap (ms.map Member.read) k = some v :=
    fieldMap_mem hnodup (h.fields.mem_iff.mpr hmem)
  rw [templateFromJson, parseFlatJson_object h.text]
  refine congrArg some (templateFromFields_data (hget _ _ ?_) (hget _ _ ?_) (hget _ _ ?_)
    (hget _ _ ?_) (hget _ _ ?_) (hget _ _ ?_) (hget _ _ ?_) h.rcx h.rax h.rdx h.r9 h.rbp)
  all_goals simp [fieldList]

section Compact

theorem sextetChar_plain (v : Nat) : isPlain (sextetChar v) = true := by
  have hall : ∀ v < 64, isPlain (sextetChar v) = true := by decide
  by_cases hv : v < 64
  · exact hall v hv
  · rw [sextetChar, if_neg (by omega), if_neg (by omega), if_neg (by omega), if_neg (by omega)]
    rfl

theorem encode_plain (b : Bytes) : ∀ c ∈ encode b, isPlain c = true := by
  have hpad : isPlain pad = true := rfl
  induction b using encode.induct <;> simp_all [encode, sextetChar_plain]

theorem register_plain {b : Bytes} {v : BitVec 64} (h : RegisterText b v) :
    ∀ c ∈ b, isPlain c = true := by
  obtain ⟨hex, -, hhex, hb⟩ := h
  have hplain : ∀ c ∈ hex, isPlain c = true := fun c hc => by
    obtain ⟨d, hd⟩ := HexText.digits hhex c hc
    have hquote : c ≠ 0x22 := by
      rintro rfl
      cases hd
    have hback : c ≠ 0x5C := by
      rintro rfl
      cases hd
    obtain ⟨hlow, hhigh⟩ := hexDigit_printable hd
    simp [isPlain, UInt8.le_of_lt hlow, hhigh, hquote, hback]
  obtain rfl | rfl := hb
  · exact hplain
  · exact List.forall_mem_append.mpr ⟨by decide +kernel, hplain⟩

def writeDocument (D : TemplateData) (rcx rax rdx r9 rbp : Bytes) : Bytes :=
  compact (fieldList D rcx rax rdx r9 rbp)

/-- No field needs an escape. -/
theorem fieldList_plain (hrcx : RegisterText rcx D.rcx) (hrax : RegisterText rax D.rax)
    (hrdx : RegisterText rdx D.rdx) (hr9 : RegisterText r9 D.r9) (hrbp : RegisterText rbp D.rbp) :
    ∀ f ∈ fieldList D rcx rax rdx r9 rbp,
      (∀ c ∈ f.1, isPlain c = true) ∧ ∀ c ∈ f.2, isPlain c = true := by
  have hkey : ∀ k ∈ [str "ctx", str "state", str "rcx", str "rax", str "rdx", str "r9", str "rbp"],
      ∀ c ∈ k, isPlain c = true := by decide +kernel
  simp only [fieldList, List.forall_mem_cons] at hkey ⊢
  obtain ⟨h1, h2, h3, h4, h5, h6, h7, -⟩ := hkey
  exact ⟨⟨h1, encode_plain _⟩, ⟨h2, encode_plain _⟩, ⟨h3, register_plain hrcx⟩,
    ⟨h4, register_plain hrax⟩, ⟨h5, register_plain hrdx⟩, ⟨h6, register_plain hr9⟩,
    ⟨h7, register_plain hrbp⟩, List.forall_mem_nil _⟩

/-- The compact text is a document of the data. -/
theorem document_write (hrcx : RegisterText rcx D.rcx) (hrax : RegisterText rax D.rax)
    (hrdx : RegisterText rdx D.rdx) (hr9 : RegisterText r9 D.r9) (hrbp : RegisterText rbp D.rbp) :
    ∃ ms, Document D (writeDocument D rcx rax rdx r9 rbp) ms rcx rax rdx r9 rbp := by
  obtain ⟨ms, htext, hread⟩ := objectText_compact (List.cons_ne_nil _ _)
    (fieldList_plain hrcx hrax hrdx hr9 hrbp)
  exact ⟨ms, htext, List.Perm.of_eq hread, hrcx, hrax, hrdx, hr9, hrbp⟩

end Compact

def zeroData : TemplateData where
  ctx := List.replicate 0x8000 0
  state := List.replicate 0x2000 0
  rcx := 0x1F
  rax := 0x1F
  rdx := 0
  r9 := 0
  rbp := 0
  ctx_size := by rw [List.length_replicate, ctxSize]
  state_size := by rw [List.length_replicate]

theorem registerText_zero : RegisterText (str "0") 0 :=
  ⟨str "0", by decide, HexText.snoc HexText.nil (HexDigit.decimal (d := 0) (by decide)), Or.inl rfl⟩

theorem registerText_upper : RegisterText (str "0x1F") 0x1F :=
  ⟨str "1F", by decide,
    HexText.snoc (HexText.snoc HexText.nil (HexDigit.decimal (d := 1) (by decide)))
    (HexDigit.upper (d := 5) (by decide)), Or.inr (by decide)⟩

theorem registerText_lower : RegisterText (str "1f") 0x1F :=
  ⟨str "1f", by decide,
    HexText.snoc (HexText.snoc HexText.nil (HexDigit.decimal (d := 1) (by decide)))
    (HexDigit.lower (d := 5) (by decide)), Or.inl rfl⟩

/-- From every document that carries the data the loader returns the table as it is, in each
slot its word of the blob and nothing elsewhere, and the registers modulo 2^32. -/
theorem documents_load (h : Document D doc ms rcx rax rdx r9 rbp) :
    ∃ T, templateFromJson doc = some (.ok T) ∧ T.ctx = D.ctx ∧
      (∀ k < stSize, T.stInit[k]? =
        if k ∈ stSlots then wordAt D.state (0x2000 - k) else some 0) ∧
      T.r1Entry.rcx = D.rcx.setWidth 32 ∧ T.r1Entry.rax = D.rax.setWidth 32 ∧
      T.r1Entry.rdx = D.rdx.setWidth 32 ∧ T.r1Entry.r9 = D.r9.setWidth 32 ∧
      T.r1Entry.rbp = D.rbp.setWidth 32 := by
  refine ⟨D.template, templateFromJson_document h, rfl, ?_, rfl, rfl, rfl, rfl, rfl⟩
  intro k hk
  rw [TemplateData.template_stInit, stFromRaw_slot D.state_size hk]

theorem documents_load_zero : ∃ T, templateFromJson
      (writeDocument zeroData (str "0x1F") (str "1f") (str "0") (str "0") (str "0")) =
        some (.ok T) ∧
    T.ctx = List.replicate 0x8000 0 ∧ T.r1Entry.rcx = 0x1F ∧ T.r1Entry.rax = 0x1F := by
  obtain ⟨ms, h⟩ := document_write (D := zeroData) registerText_upper registerText_lower
    registerText_zero registerText_zero registerText_zero
  obtain ⟨T, hT, hctx, -, hrcx, hrax, -⟩ := documents_load h
  exact ⟨T, hT, hctx, hrcx, hrax⟩

end Temari.TemplateFormat
