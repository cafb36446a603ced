import Temari.CbcReach
import Mathlib.Data.FinEnum
import Mathlib.Data.Fintype.EquivFin

/-! When damage shows. A changed ciphertext byte changes the plaintext byte sixteen places on, in
every sample, exactly when the two tables that a byte goes through on its way are one to one. -/
namespace Temari.CbcTables
open RoundMachine Rounds BlockLoop Cbc Lanes CbcLanes CbcReach
variable {T : Template} {s t out out' : Bytes}

/-- A single changed byte of a full block before a full block is seen sixteen places on. -/
def Shows (T : Template) : Prop :=
  ∀ (s t : Bytes) (p : Nat) (out out' : Bytes), s.length = t.length → s.length < 2 ^ 32 →
    p / 16 + 1 < s.length / 16 → s[p]? ≠ t[p]? → (∀ q, q ≠ p → s[q]? = t[q]?) →
    decrypt T s = some out → decrypt T t = some out' → out[p + 16]? ≠ out'[p + 16]?

/-- The byte sixteen places on, for a fixed block that it lies in. -/
theorem byte_after (hctx : 0x8000 ≤ T.ctx.length) (h8 : constOf T 0x220 = 8) (C : Bytes) (k : Nat)
    (hk : k < 16) : ∃ g, ∀ s out, s.length < 2 ^ 32 → decrypt T s = some out →
      ∀ i, i + 1 < s.length / 16 → block s (i + 1) = C →
        out[i * 16 + k + 16]? =
          some (outTable T.ctx (inTable T.ctx (s.getD (i * 16 + k) 0) ^^^ g)) := by
  obtain ⟨g, hg⟩ := mixed_bytes hctx h8 C
  refine ⟨g k, fun s out hs ho i hi hC => ?_⟩
  have hat : (i + 1) * 16 + k = i * 16 + k + 16 := by omega
  rw [← hat, hg s out hs ho (i + 1) hi hC k hk, chainByte]

theorem shows_of_injective (hctx : 0x8000 ≤ T.ctx.length) (h8 : constOf T 0x220 = 8)
    (hin : Function.Injective (inTable T.ctx)) (hout : Function.Injective (outTable T.ctx)) :
    Shows T := by
  intro s t p out out' hlen hs hp hne hother ho ho' hsame
  have hat : p / 16 * 16 + p % 16 = p := Nat.div_add_mod' p 16
  obtain ⟨g, hg⟩ := byte_after hctx h8 (block s (p / 16 + 1)) (p % 16) (Nat.mod_lt p (by decide))
  have hblock : block t (p / 16 + 1) = block s (p / 16 + 1) :=
    block_eq fun k hk => (hother _ (by omega)).symm
  have hs' := hg s out hs ho (p / 16) hp rfl
  have ht' := hg t out' (hlen ▸ hs) ho' (p / 16) (hlen ▸ hp) hblock
  rw [hat] at hs' ht'
  rw [hs', ht', Option.some.injEq] at hsame
  have hbyte : s.getD p 0 = t.getD p 0 := hin ((UInt8.xor_left_inj g).mp (hout hsame))
  have hps : p < s.length := by omega
  have hpt : p < t.length := by omega
  rw [List.getD_eq_getElem _ _ hps, List.getD_eq_getElem _ _ hpt] at hbyte
  exact hne (by rw [List.getElem?_eq_getElem hps, List.getElem?_eq_getElem hpt, hbyte])

section Probe

/-- Two blocks, of zeros but for their first byte. -/
def probe (c : UInt8) : Bytes := c :: List.replicate 31 0

theorem probe_length (c : UInt8) : (probe c).length = 32 := by simp [probe]

theorem probe_other (c d : UInt8) {q : Nat} (hq : q ≠ 0) : (probe c)[q]? = (probe d)[q]? := by
  obtain ⟨q, rfl⟩ := Nat.exists_eq_succ_of_ne_zero hq
  rfl

/-- The byte in question, of the two blocks. -/
theorem probe_byte (hctx : 0x8000 ≤ T.ctx.length) (h8 : constOf T 0x220 = 8) :
    ∃ g, ∀ c, ∃ out, decrypt T (probe c) = some out ∧
      out[16]? = some (outTable T.ctx (inTable T.ctx c ^^^ g)) := by
  obtain ⟨g, hg⟩ := byte_after hctx h8 (.replicate 16 0) 0 (by decide)
  refine ⟨g, fun c => ?_⟩
  obtain ⟨out, ho, -⟩ := decrypt_isSome hctx (probe c)
  have hbyte := hg (probe c) out (by rw [probe_length]; decide) ho 0
    (by rw [probe_length]; decide) rfl
  exact ⟨out, ho, hbyte⟩

theorem probe_injective (hctx : 0x8000 ≤ T.ctx.length) (h8 : constOf T 0x220 = 8) (h : Shows T) :
    ∃ g, Function.Injective fun c => outTable T.ctx (inTable T.ctx c ^^^ g) := by
  obtain ⟨g, hg⟩ := probe_byte hctx h8
  refine ⟨g, fun c d hcd => ?_⟩
  obtain ⟨out, ho, hbyte⟩ := hg c
  obtain ⟨out', ho', hbyte'⟩ := hg d
  by_contra hne
  refine h (probe c) (probe d) 0 out out' (by rw [probe_length, probe_length])
    (by rw [probe_length]; decide) (by rw [probe_length]; decide) ?_
    (fun q => probe_other c d) ho ho' ?_
  · exact fun hsame => hne (Option.some.inj hsame)
  · rw [hbyte, hbyte']
    exact congrArg some hcd

theorem injective_of_shows (hctx : 0x8000 ≤ T.ctx.length) (h8 : constOf T 0x220 = 8) (h : Shows T) :
    Function.Injective (inTable T.ctx) ∧ Function.Injective (outTable T.ctx) := by
  obtain ⟨g, hg⟩ := probe_injective hctx h8 h
  have hin : Function.Injective (inTable T.ctx) := fun c d hcd => hg (by simp only [hcd])
  -- a one to one table of bytes takes every value, so every index of the second one is met
  have hall : Function.Surjective (inTable T.ctx) := Finite.injective_iff_surjective.mp hin
  refine ⟨hin, fun x y hxy => ?_⟩
  obtain ⟨c, hc⟩ := hall (x ^^^ g)
  obtain ⟨d, hd⟩ := hall (y ^^^ g)
  have hx : inTable T.ctx c ^^^ g = x := by rw [hc, UInt8.xor_assoc, UInt8.xor_self, UInt8.xor_zero]
  have hy : inTable T.ctx d ^^^ g = y := by rw [hd, UInt8.xor_assoc, UInt8.xor_self, UInt8.xor_zero]
  have hcd : c = d := hg (by simp only [hx, hy, hxy])
  rw [← hx, ← hy, hcd]

end Probe

/-- Damage always shows sixteen bytes on exactly when both tables are one to one. -/
theorem damage_shows_iff (T : Template) (hctx : 0x8000 ≤ T.ctx.length) (h8 : T.stInit[0x220] = 8) :
    Shows T ↔ Function.Injective (inTable T.ctx) ∧ Function.Injective (outTable T.ctx) :=
  ⟨injective_of_shows hctx h8, fun h => shows_of_injective hctx h8 h.1 h.2⟩

/-- The table that counts up, byte for byte. -/
def countTemplate : Template := { eightTemplate with ctx := (List.range 0x8000).map UInt8.ofNat }

theorem countTemplate_ctx {k : Nat} (hk : k < 0x8000) :
    countTemplate.ctx.getD k 0 = UInt8.ofNat k := by
  have hlen : k < ((List.range 0x8000).map UInt8.ofNat).length := by simpa using hk
  rw [countTemplate, List.getD_eq_getElem _ _ hlen, List.getElem_map, List.getElem_range]

/-- A stretch of it is one to one. -/
theorem countTemplate_injective {base : Nat} (hbase : base + 256 ≤ 0x8000) :
    Function.Injective fun b : UInt8 => countTemplate.ctx.getD (base + b.toNat) 0 := by
  intro b d hbd
  have hb := b.toNat_lt
  have hd := d.toNat_lt
  simp only [countTemplate_ctx (by omega : base + b.toNat < 0x8000),
    countTemplate_ctx (by omega : base + d.toNat < 0x8000), UInt8.ofNat_add,
    UInt8.ofNat_toNat] at hbd
  exact (UInt8.add_right_inj _).mp hbd

theorem damage_shows_iff_count : Shows countTemplate := by
  have hlen : 0x8000 ≤ countTemplate.ctx.length := by simp [countTemplate]
  refine (damage_shows_iff countTemplate hlen (Vector.getElem_replicate _)).mpr ⟨fun b d hbd => ?_,
    fun b d hbd => ?_⟩
  · exact countTemplate_injective (by decide) ((UInt8.xor_left_inj _).mp hbd)
  · exact countTemplate_injective (by decide) ((UInt8.xor_left_inj _).mp hbd)

end Temari.CbcTables
