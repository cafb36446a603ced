import Temari.CbcLanes
import Temari.RegionPaths

/-! How far a ciphertext byte reaches: to the plaintext of its own block and to one byte of the
next. So damage stays local, and decryption can start at any block. -/
namespace Temari.CbcReach
open RoundMachine Rounds BlockLoop Cbc CbcLanes RegionPaths
variable {T : Template} {s t out out' : Bytes}

/-- Past the last full block the plaintext is the ciphertext. -/
theorem tail_byte (hctx : 0x8000 ≤ T.ctx.length) (ho : decrypt T s = some out) {q : Nat}
    (hq : s.length / 16 ≤ q / 16) : out[q]? = s[q]? := by
  obtain ⟨o, hd, hlen⟩ := decrypt_isSome hctx s
  cases ho.symm.trans hd
  obtain ⟨d, rfl⟩ : ∃ d, q = s.length - s.length % 16 + d :=
    ⟨q - (s.length - s.length % 16), by omega⟩
  rw [← List.getElem?_drop, decrypt_tail ho hlen, List.getElem?_drop]

theorem block_eq {i j : Nat} (h : ∀ k < 16, s[i * 16 + k]? = t[j * 16 + k]?) :
    block s i = block t j := by
  refine List.ext_getElem? fun k => ?_
  by_cases hk : k < 16
  · rw [block_getElem? _ _ hk, block_getElem? _ _ hk, h k hk]
  · rw [List.getElem?_eq_none (by simp only [block, List.length_take]; omega),
      List.getElem?_eq_none (by simp only [block, List.length_take]; omega)]

theorem chain_eq {i j k : Nat} (h : s[i * 16 + k]? = t[j * 16 + k]?) :
    chainByte T s (i + 1) k = chainByte T t (j + 1) k := by
  rw [chainByte, chainByte, List.getD_eq_getElem?_getD, List.getD_eq_getElem?_getD, h]

/-- Two places with the same block and the same byte sixteen before decrypt to the same byte. -/
theorem same_byte (hctx : 0x8000 ≤ T.ctx.length) (h8 : constOf T 0x220 = 8)
    (hs : s.length < 2 ^ 32) (ht : t.length < 2 ^ 32) (ho : decrypt T s = some out)
    (ho' : decrypt T t = some out') {i j k : Nat} (hi : i < s.length / 16) (hj : j < t.length / 16)
    (hk : k < 16) (hblock : block s i = block t j)
    (hchain : chainByte T s i k = chainByte T t j k) : out[i * 16 + k]? = out'[j * 16 + k]? := by
  obtain ⟨g, hg⟩ := mixed_bytes hctx h8 (block s i)
  rw [hg s out hs ho i hi rfl k hk, hg t out' ht ho' j hj hblock.symm k hk, hchain]

/-- A plaintext byte depends on the sixteen ciphertext bytes of its block and on the byte sixteen
places before it. -/
theorem byte_depends (hctx : 0x8000 ≤ T.ctx.length) (h8 : constOf T 0x220 = 8)
    (hlen : s.length = t.length) (hs : s.length < 2 ^ 32) (ho : decrypt T s = some out)
    (ho' : decrypt T t = some out') {q : Nat} (hown : ∀ j, j / 16 = q / 16 → s[j]? = t[j]?)
    (hprev : 16 ≤ q → s[q - 16]? = t[q - 16]?) : out[q]? = out'[q]? := by
  by_cases hfull : q / 16 < s.length / 16
  · have hchain : chainByte T s (q / 16) (q % 16) = chainByte T t (q / 16) (q % 16) := by
      cases hi : q / 16 with
      | zero => rfl
      | succ i =>
        have hat : i * 16 + q % 16 = q - 16 := by omega
        exact chain_eq (by rw [hat, hprev (by omega)])
    have hsame := same_byte hctx h8 hs (hlen ▸ hs) ho ho' hfull (hlen ▸ hfull)
      (Nat.mod_lt q (by decide)) (block_eq fun k hk => hown _ (by omega)) hchain
    rwa [Nat.div_add_mod'] at hsame
  · rw [tail_byte hctx ho (by omega), tail_byte hctx ho' (by omega)]
    exact hown q rfl

/-- Damage to one ciphertext byte shows in the plaintext of its own block and, of everything after
it, in the byte sixteen places on; in the tail it shows in that byte only. -/
theorem damage_contained (T : Template) (hctx : 0x8000 ≤ T.ctx.length) (h8 : T.stInit[0x220] = 8)
    {s t : Bytes} (hlen : s.length = t.length) (hs : s.length < 2 ^ 32) {p : Nat}
    (hp : ∀ q, q ≠ p → s[q]? = t[q]?) : ∃ out out', decrypt T s = some out ∧
      decrypt T t = some out' ∧ ∀ q, out[q]? ≠ out'[q]? →
        q = p ∨ p / 16 < s.length / 16 ∧ (q / 16 = p / 16 ∨ q = p + 16) := by
  obtain ⟨out, ho, -⟩ := decrypt_isSome hctx s
  obtain ⟨out', ho', -⟩ := decrypt_isSome hctx t
  refine ⟨out, out', ho, ho', fun q hne => ?_⟩
  by_contra hno
  obtain ⟨hqp, hfar⟩ := not_or.mp hno
  by_cases hfull : q / 16 < s.length / 16
  · refine hne (byte_depends hctx h8 hlen hs ho ho' (fun j hj => hp j ?_) fun hq => hp _ ?_)
    · rintro rfl
      exact hfar ⟨hj ▸ hfull, .inl hj.symm⟩
    · rintro rfl
      exact hfar ⟨by omega, .inr (by omega)⟩
  · refine hne ?_
    rw [tail_byte hctx ho (by omega), tail_byte hctx ho' (by omega)]
    exact hp q hqp

theorem damage_contained_zeros :
    ∃ out out', decrypt eightTemplate (List.replicate 40 0) = some out ∧
    decrypt eightTemplate ((List.replicate 40 0).set 3 1) = some out' ∧ ∀ q, out[q]? ≠ out'[q]? →
      q = 3 ∨ 3 / 16 < (List.replicate 40 (0 : UInt8)).length / 16 ∧
      (q / 16 = 3 / 16 ∨ q = 3 + 16) :=
  damage_contained eightTemplate List.length_replicate.ge (Vector.getElem_replicate _)
    (by simp) (by simp) fun _ hq => (List.getElem?_set_ne hq.symm).symm

/-- The first blocks decrypt without what follows them. -/
theorem prefix_byte (hctx : 0x8000 ≤ T.ctx.length) (h8 : constOf T 0x220 = 8) {b : Bytes}
    (hs : (s ++ b).length < 2 ^ 32) (ho : decrypt T (s ++ b) = some out)
    (ho' : decrypt T s = some out') {q : Nat} (hq : q / 16 < s.length / 16) :
    out[q]? = out'[q]? := by
  rw [List.length_append] at hs
  have hsame (j : Nat) (hj : j / 16 ≤ q / 16) : (s ++ b)[j]? = s[j]? :=
    List.getElem?_append_left (by omega)
  have hchain : chainByte T (s ++ b) (q / 16) (q % 16) = chainByte T s (q / 16) (q % 16) := by
    cases hi : q / 16 with
    | zero => rfl
    | succ i => exact chain_eq (hsame _ (by omega))
  have hbyte := same_byte hctx h8 (by rw [List.length_append]; exact hs) (by omega) ho ho'
    (by rw [List.length_append]; omega) hq (Nat.mod_lt q (by decide))
    (block_eq fun k hk => hsame _ (by omega)) hchain
  rwa [Nat.div_add_mod'] at hbyte

/-- After a first full block the bytes decrypt as they do behind any other full blocks. -/
theorem suffix_byte (hctx : 0x8000 ≤ T.ctx.length) (h8 : constOf T 0x220 = 8) {a : Bytes}
    (ha : a.length % 16 = 0) (hs : (a ++ s).length < 2 ^ 32) (ho : decrypt T (a ++ s) = some out)
    (ho' : decrypt T s = some out') {q : Nat} (hq : 16 ≤ q) :
    out[a.length + q]? = out'[q]? := by
  rw [List.length_append] at hs
  have hsame (j : Nat) : (a ++ s)[a.length + j]? = s[j]? := by
    rw [List.getElem?_append_right (by omega), Nat.add_sub_cancel_left]
  obtain ⟨m, hm⟩ : ∃ m, a.length = m * 16 := ⟨a.length / 16, by omega⟩
  obtain ⟨i, hi⟩ : ∃ i, q / 16 = i + 1 := ⟨q / 16 - 1, by omega⟩
  by_cases hfull : q / 16 < s.length / 16
  · have hat (j k : Nat) : (m + j) * 16 + k = a.length + (j * 16 + k) := by omega
    have hchain : chainByte T (a ++ s) (m + i + 1) (q % 16) = chainByte T s (i + 1) (q % 16) :=
      chain_eq (by rw [hat, hsame])
    have hbyte := same_byte hctx h8 (by rw [List.length_append]; exact hs) (by omega) ho ho'
      (i := m + i + 1) (by rw [List.length_append]; omega) (hi ▸ hfull) (Nat.mod_lt q (by decide))
      (block_eq fun k _ => by rw [Nat.add_assoc, hat, hsame]) hchain
    rwa [Nat.add_assoc, hat, ← hi, Nat.div_add_mod'] at hbyte
  · rw [tail_byte hctx ho (by rw [List.length_append]; omega), tail_byte hctx ho' (by omega), hsame]

/-- Decryption can start at any full block: what follows it decrypts as it does with no more of
the sample before it than the block itself, whose own plaintext is dropped. -/
theorem decrypt_resumes (T : Template) (hctx : 0x8000 ≤ T.ctx.length) (h8 : T.stInit[0x220] = 8)
    (a c b : Bytes) (ha : a.length % 16 = 0) (hc : c.length = 16)
    (hlen : (a ++ c ++ b).length < 2 ^ 32) : ∃ head rest, decrypt T (a ++ c) = some head ∧
      decrypt T (c ++ b) = some rest ∧ decrypt T (a ++ c ++ b) = some (head ++ rest.drop 16) := by
  obtain ⟨head, hh, hhead⟩ := decrypt_isSome hctx (a ++ c)
  obtain ⟨rest, hr, -⟩ := decrypt_isSome hctx (c ++ b)
  obtain ⟨out, ho, -⟩ := decrypt_isSome hctx (a ++ c ++ b)
  refine ⟨head, rest, hh, hr, ho.trans (congrArg some (List.ext_getElem? fun q => ?_))⟩
  rw [List.length_append] at hhead
  by_cases hq : q < head.length
  · rw [List.getElem?_append_left hq]
    exact prefix_byte hctx h8 hlen ho hh (by rw [List.length_append]; omega)
  · obtain ⟨d, rfl⟩ : ∃ d, q = a.length + (16 + d) := ⟨q - head.length, by omega⟩
    rw [List.append_assoc] at hlen ho
    rw [List.getElem?_append_right (by omega), List.getElem?_drop,
      suffix_byte hctx h8 ha hlen ho hr (Nat.le_add_right 16 d)]
    congr 1
    omega

theorem decrypt_resumes_zeros : ∃ head rest,
    decrypt eightTemplate (List.replicate 32 7 ++ List.replicate 16 9) = some head ∧
      decrypt eightTemplate (List.replicate 16 9 ++ List.replicate 21 5) = some rest ∧
      decrypt eightTemplate (List.replicate 32 7 ++ List.replicate 16 9 ++ List.replicate 21 5) =
        some (head ++ rest.drop 16) :=
  decrypt_resumes eightTemplate List.length_replicate.ge (Vector.getElem_replicate _) _ _ _
    (by simp) (by simp) (by simp)

end Temari.CbcReach
