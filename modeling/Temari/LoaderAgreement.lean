import Temari.TemplateAgreement
import Temari.TemplateFormat

/-! The JSON loader and the binary loader give templates that decrypt alike. -/
namespace Temari.LoaderAgreement
open RoundMachine Rounds BlockSim BlockLoop Utf8 TemplateLoader TemplateFormat TemplateAgreement
  JsonText
variable {T T' : Template}

/-- Every slot that is read before it is written is among those the JSON loader keeps. -/
theorem exposed_kept : ∀ k ∈ exposedSlots, k ∈ stSlots ∧ k < stSize := by decide +kernel

theorem getElem?_eq_of_take {a b : Bytes} {n o : Nat} (h : a.take n = b.take n) (ho : o < n) :
    a[o]? = b[o]? := by
  rw [← List.getElem?_take_of_lt ho, h, List.getElem?_take_of_lt ho]

theorem agree_of_kept (hctx : ctxSize ≤ T.ctx.length)
    (htable : T.ctx.take ctxSize = T'.ctx.take ctxSize)
    (hslots : ∀ k ∈ stSlots, k < stSize → T.stInit[k]? = T'.stInit[k]?)
    (hrcx : T.r1Entry.rcx &&& 0xFF = T'.r1Entry.rcx &&& 0xFF)
    (hrax : T.r1Entry.rax &&& 0xFFFFFF = T'.r1Entry.rax &&& 0xFFFFFF) : Agree T T' where
  ctx := by
    have hlen := congrArg List.length htable
    rw [List.length_take, List.length_take] at hlen
    have hsize : ctxSize = 0x8000 := rfl
    exact ⟨hctx, by omega, fun o ho => getElem?_eq_of_take htable ho⟩
  rcx := hrcx
  rax := hrax
  slots k hk := hslots k (exposed_kept k hk).1 (exposed_kept k hk).2

section Binary
variable {bin : Bytes}

theorem fillSlot_run {off n : Nat} (hn : n ≤ stSize) (hlen : off + stSize * 4 ≤ bin.length) :
    ∃ st, (List.range n).foldlM (fillSlot bin off) (Vector.replicate stSize 0) = some st ∧
      ∀ k < n, st[k]? = wordAt bin (off + k * 4) := by
  induction n with
  | zero => exact ⟨_, rfl, by simp⟩
  | succ n ih =>
    obtain ⟨st, hrun, hst⟩ := ih (by omega)
    obtain ⟨w, hw⟩ := wordAt_isSome (by omega : off + n * 4 + 4 ≤ bin.length)
    refine ⟨st.setIfInBounds n w, ?_, fun k hk => ?_⟩
    · rw [List.range_succ, List.foldlM_append, hrun]
      simp [fillSlot, hw]
    · by_cases hkn : k = n
      · subst hkn
        rw [Vector.getElem?_setIfInBounds_self_of_lt (by omega), hw]
      · rw [Vector.getElem?_setIfInBounds_ne (Ne.symm hkn), hst k (by omega)]

/-- What the binary loader takes from a file that is long enough. -/
theorem loadBinaryTemplate_file (hlen : ctxSize + 8192 * 4 + 20 ≤ bin.length) :
    ∃ T, loadBinaryTemplate bin = some T ∧ T.ctx = bin.take ctxSize ∧
      (∀ k < stSize, T.stInit[k]? = wordAt bin (ctxSize + k * 4)) ∧
      wordAt bin (ctxSize + 8192 * 4 + 4) = some T.r1Entry.rcx ∧
      wordAt bin (ctxSize + 8192 * 4 + 8) = some T.r1Entry.rax := by
  obtain ⟨st, hrun, hst⟩ := fillSlot_run (n := stSize) (Nat.le_refl _)
    (Nat.le_trans (by decide : ctxSize + stSize * 4 ≤ ctxSize + 8192 * 4 + 20) hlen)
  have hword (k : Nat) (hk : k + 4 ≤ 20) : ∃ w, wordAt bin (ctxSize + 8192 * 4 + k) = some w :=
    wordAt_isSome (Nat.le_trans (Nat.add_le_add_left hk _) hlen)
  obtain ⟨rdx, hrdx⟩ := hword 0 (by decide)
  obtain ⟨rcx, hrcx⟩ := hword 4 (by decide)
  obtain ⟨rax, hrax⟩ := hword 8 (by decide)
  obtain ⟨r9, hr9⟩ := hword 12 (by decide)
  obtain ⟨rbp, hrbp⟩ := hword 16 (by decide)
  rw [Nat.add_zero] at hrdx
  refine ⟨⟨bin.take ctxSize, st, ⟨rdx, rcx, rax, r9, rbp⟩⟩, ?_, rfl, hst, hrcx, hrax⟩
  simp only [loadBinaryTemplate, if_neg (Nat.not_lt.mpr hlen), hrun, hrdx, hrcx, hrax, hr9, hrbp]
  rfl

/-- The file holds the data, as far as a template from JSON keeps it. -/
structure FileOf (D : TemplateData) (bin : Bytes) : Prop where
  length : ctxSize + 8192 * 4 + 20 ≤ bin.length
  ctx : bin.take ctxSize = D.ctx.take ctxSize
  slots : ∀ k ∈ stSlots, k < stSize → wordAt bin (ctxSize + k * 4) = wordAt D.state (0x2000 - k)
  rcx : wordAt bin (ctxSize + 8192 * 4 + 4) = some (D.rcx.setWidth 32)
  rax : wordAt bin (ctxSize + 8192 * 4 + 8) = some (D.rax.setWidth 32)

/-- The two loaders give templates that agree on what decryption reads. -/
theorem FileOf.agree {D : TemplateData} (h : FileOf D bin) :
    ∃ T, loadBinaryTemplate bin = some T ∧ Agree D.template T := by
  obtain ⟨T, hload, hctx, hst, hrcx, hrax⟩ := loadBinaryTemplate_file h.length
  refine ⟨T, hload, agree_of_kept D.ctx_size ?_ (fun k hk hsize => ?_) ?_ ?_⟩
  · rw [hctx, List.take_take, Nat.min_self, h.ctx]
    rfl
  · rw [D.template_stInit, stFromRaw_slot D.state_size hsize, if_pos hk, hst k hsize,
      h.slots k hk hsize]
  · rw [h.rcx, Option.some.injEq] at hrcx
    rw [← hrcx]
    rfl
  · rw [h.rax, Option.some.injEq] at hrax
    rw [← hrax]
    rfl

end Binary

section Samples

/-- Zero bytes and then these. -/
def zerosThen (n : Nat) (rest : Bytes) : Bytes := List.replicate n 0 ++ rest

theorem zerosThen_length (n : Nat) (rest : Bytes) :
    (zerosThen n rest).length = n + rest.length := by
  rw [zerosThen, List.length_append, List.length_replicate]

theorem zerosThen_take {m n : Nat} (h : m ≤ n) (rest : Bytes) :
    (zerosThen n rest).take m = List.replicate m 0 := by
  rw [zerosThen, List.take_append_of_le_length (by rwa [List.length_replicate]),
    List.take_replicate, Nat.min_eq_left h]

theorem wordAt_zeros {n pos : Nat} (h : pos + 4 ≤ n) (rest : Bytes) :
    wordAt (zerosThen n rest) pos = some 0 := by
  have hget (k : Nat) (hk : k < 4) : (zerosThen n rest)[pos + k]? = some 0 := by
    rw [zerosThen, List.getElem?_append_left (by rw [List.length_replicate]; omega),
      List.getElem?_replicate_of_lt (by omega)]
  have h0 := hget 0 (by decide)
  rw [Nat.add_zero] at h0
  rw [wordAt, h0, hget 1 (by decide), hget 2 (by decide), hget 3 (by decide)]
  rfl

theorem wordAt_after (n k : Nat) (rest : Bytes) :
    wordAt (zerosThen n rest) (n + k) = wordAt rest k := by
  simp [wordAt, zerosThen, Nat.add_assoc, List.getElem?_append_right]

/-- Registers as the file has them: rdx, rcx, rax, r9 and rbp. -/
def registerBytes : Bytes := [1, 0, 0, 0, 0x1F, 0, 0, 0, 0x1F, 0, 0, 0, 2, 0, 0, 0, 3, 0, 0, 0]

theorem zeroFile_holds : FileOf zeroData (zerosThen (ctxSize + 8192 * 4) registerBytes) where
  length := Nat.le_of_eq (zerosThen_length (ctxSize + 8192 * 4) registerBytes).symm
  ctx := by
    have hzero : zeroData.ctx = List.replicate ctxSize 0 := rfl
    rw [hzero, zerosThen_take (Nat.le_add_right _ _), List.take_replicate, Nat.min_self]
  slots k hk hsize := by
    have hfour : ∀ k ∈ stSlots, 4 ≤ k := by decide +kernel
    have hk4 := hfour k hk
    have hword : ctxSize + k * 4 + 4 ≤ ctxSize + 8192 * 4 := by
      rw [stSize] at hsize
      omega
    have hstate := wordAt_zeros (by omega : 0x2000 - k + 4 ≤ 0x2000) []
    rw [zerosThen, List.append_nil] at hstate
    rw [wordAt_zeros hword]
    exact hstate.symm
  rcx := wordAt_after _ 4 _
  rax := wordAt_after _ 8 _

/-- Another state in a slot that is not kept, and other registers. -/
def elseTemplate : Template :=
  { eightTemplate with
    stInit := eightTemplate.stInit.setIfInBounds 0x31 9
    r1Entry := ⟨1, 0x100, 0x1000000, 2, 3⟩ }

end Samples

/-- Whatever else two templates hold, they decrypt alike when they agree on the table, the kept
slots, the low byte of rcx and the low three bytes of rax; so do the two loaders' templates. -/
theorem kept_decides :
    (∀ T T' : Template, ctxSize ≤ T.ctx.length → T.ctx.take ctxSize = T'.ctx.take ctxSize →
      (∀ k ∈ stSlots, k < stSize → T.stInit[k]? = T'.stInit[k]?) →
      T.r1Entry.rcx &&& 0xFF = T'.r1Entry.rcx &&& 0xFF →
      T.r1Entry.rax &&& 0xFFFFFF = T'.r1Entry.rax &&& 0xFFFFFF →
      ∀ sample, ∃ out, decrypt T sample = some out ∧ decrypt T' sample = some out) ∧
    (∀ D doc ms rcx rax rdx r9 rbp bin, Document D doc ms rcx rax rdx r9 rbp → FileOf D bin →
      ∃ T T', templateFromJson doc = some (.ok T) ∧ loadBinaryTemplate bin = some T' ∧
        ∀ sample, ∃ out, decrypt T sample = some out ∧ decrypt T' sample = some out) := by
  refine ⟨fun T T' hctx htable hslots hrcx hrax => ?_, fun D doc ms _ _ _ _ _ bin hdoc hbin => ?_⟩
  · exact (agree_of_kept hctx htable hslots hrcx hrax).decrypt_agree
  · obtain ⟨T', hload, hagree⟩ := hbin.agree
    exact ⟨D.template, T', templateFromJson_document hdoc, hload, hagree.decrypt_agree⟩

theorem kept_decides_samples :
    (∃ out, decrypt eightTemplate (List.replicate 32 7) = some out ∧
      decrypt elseTemplate (List.replicate 32 7) = some out) ∧
    ∃ T T', templateFromJson
        (writeDocument zeroData (str "0x1F") (str "1f") (str "0") (str "0") (str "0")) =
          some (.ok T) ∧
      loadBinaryTemplate (zerosThen (ctxSize + 8192 * 4) registerBytes) = some T' ∧
      ∀ sample, ∃ out, decrypt T sample = some out ∧ decrypt T' sample = some out := by
  have hslots : ∀ k ∈ stSlots, k < stSize → eightTemplate.stInit[k]? = elseTemplate.stInit[k]? := by
    intro k hk _
    have hne : 0x31 ≠ k := by
      rintro rfl
      revert hk
      decide
    exact (Vector.getElem?_setIfInBounds_ne hne).symm
  have hctx : ctxSize ≤ eightTemplate.ctx.length := Nat.le_of_eq (List.length_replicate).symm
  obtain ⟨ms, hdoc⟩ := document_write (D := zeroData) registerText_upper registerText_lower
    registerText_zero registerText_zero registerText_zero
  exact ⟨kept_decides.1 eightTemplate elseTemplate hctx rfl hslots rfl rfl _,
    kept_decides.2 zeroData _ ms _ _ _ _ _ _ hdoc zeroFile_holds⟩

end Temari.LoaderAgreement
