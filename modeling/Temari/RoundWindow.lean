import Temari.RoundRules
import Temari.BitIdentities

/-! The page window of round 1. The block position is masked into the registers,
and every ciphertext index is unmasked from it: position plus k for the sixteen k. -/
namespace Temari.RoundWindow
open RoundMachine Relational RoundRules BitIdentities

/-- The mask under which `rdi` carries the block position. -/
abbrev rdiMask : Word := 0x1EB2C6B4

theorem toNat_and_mask (x : Word) (n : Nat) (hn : n < 32) :
    (x &&& BitVec.ofNat 32 (2 ^ n - 1)).toNat = x.toNat % 2 ^ n := by
  have hlt : 2 ^ n - 1 < 2 ^ 32 := by
    have := Nat.pow_lt_pow_right (show 1 < 2 by decide) hn
    omega
  rw [BitVec.toNat_and, BitVec.toNat_ofNat, Nat.mod_eq_of_lt hlt, Nat.and_two_pow_sub_one_eq_mod]

theorem toNat_and_fifteen (x : Word) : (x &&& 15).toNat = x.toNat % 16 :=
  toNat_and_mask x 4 (by decide)

theorem toNat_and_page (x : Word) : (x &&& 0xFFF).toNat = x.toNat % 4096 :=
  toNat_and_mask x 12 (by decide)

theorem toNat_and_not_page (x : Word) : (x &&& ~~~0xFFF).toNat = x.toNat - x.toNat % 4096 := by
  have h : (x &&& ~~~0xFFF) + (x &&& 0xFFF) = x := by
    have hand : (x &&& ~~~0xFFF) &&& (x &&& 0xFFF) = 0 := by
      rw [BitVec.and_comm x, BitVec.and_assoc, ← BitVec.and_assoc x, BitVec.and_self,
        BitVec.and_comm x, ← BitVec.and_assoc]
      simp
    rw [add_eq_xor_add, hand]
    apply BitVec.eq_of_getLsbD_eq
    intro i hi
    simp only [BitVec.ofNat_eq_ofNat, BitVec.mul_zero, BitVec.add_zero, BitVec.getLsbD_xor,
      BitVec.getLsbD_and, BitVec.getLsbD_not, hi, decide_true, Bool.true_and]
    cases x.getLsbD i <;> cases (0xFFF#32).getLsbD i <;> rfl
  have hle : (x &&& ~~~0xFFF).toNat ≤ x.toNat := by
    rw [BitVec.toNat_and]
    exact Nat.and_le_left
  have hn := congrArg BitVec.toNat h
  rw [BitVec.toNat_add, toNat_and_page] at hn
  have := x.isLt
  omega

section Offsets
variable {pos k d : Word}

theorem offset_bounds (hp : pos &&& 15 = 0) (hk : k &&& 15 = k) :
    pos.toNat % 16 = 0 ∧ k.toNat < 16 := by
  have h := congrArg BitVec.toNat hp
  have h' := congrArg BitVec.toNat hk
  rw [toNat_and_fifteen] at h h'
  exact ⟨h, by omega⟩

theorem offset_toNat (hp : pos &&& 15 = 0) (hk : k &&& 15 = k) :
    (pos + k).toNat = pos.toNat + k.toNat := by
  obtain ⟨h, h'⟩ := offset_bounds hp hk
  rw [BitVec.toNat_add]
  have := pos.isLt
  omega

theorem and_eq_zero (hp : pos &&& 15 = 0) (hk : k &&& 15 = k) : pos &&& k = 0 := by
  rw [← hk, BitVec.and_comm k, ← BitVec.and_assoc, hp]
  exact BitVec.zero_and

theorem xor_eq_add (hp : pos &&& 15 = 0) (hk : k &&& 15 = k) : pos ^^^ k = pos + k := by
  rw [add_eq_xor_add, and_eq_zero hp hk]
  exact (BitVec.add_zero _).symm

theorem offset_zero : (rdiMask ^^^ pos) ^^^ rdiMask = pos + 0 := by
  rw [BitVec.xor_comm rdiMask, BitVec.xor_assoc, BitVec.xor_self, BitVec.xor_zero]
  exact (BitVec.add_zero pos).symm

theorem offset_or (hp : pos &&& 15 = 0) (hk : k &&& 15 = k) (hd : (rdiMask ||| k) ^^^ d = k) :
    ((rdiMask ^^^ pos) ||| k) ^^^ d = pos + k := by
  rw [xor_or _ _ _ (and_eq_zero hp hk), BitVec.xor_assoc, BitVec.xor_comm pos,
    ← BitVec.xor_assoc, hd, BitVec.xor_comm, xor_eq_add hp hk]

/-- The mask c on x, written as x - (2x & 2c) + c. -/
theorem offset_neg {x m c : Word} (hm : m = 2 * c) : x + -(2 * x &&& m) + c = x ^^^ c := by
  rw [hm, ← BitVec.sub_eq_add_neg]
  exact sub_and_add x c

/-- The same with the complement form; n is the complement of bits that k sets in 2x. -/
theorem offset_not {m n c : Word} (hp : pos &&& 15 = 0) (hk : k &&& 15 = k) (hm : m &&& ~~~n = 0)
    (hc : m ||| ~~~n = 2 * (c - 1)) (hn : 2 * k &&& ~~~n = ~~~n) (hn' : ~~~n &&& 31 = ~~~n) :
    (pos + k) + ((2 * (pos + k) &&& m) ^^^ n) + c = (pos + k) ^^^ (c - 1) := by
  have ht : 2 * (pos + k) &&& ~~~n = ~~~n := by
    have hmod : (2 * (pos + k)) &&& 31 = 2 * k &&& 31 := by
      apply BitVec.eq_of_toNat_eq
      have e (x : Word) : (x &&& 31).toNat = x.toNat % 32 := toNat_and_mask x 5 (by decide)
      obtain ⟨h, h'⟩ := offset_bounds hp hk
      rw [e, e, BitVec.toNat_mul, BitVec.toNat_mul, offset_toNat hp hk]
      rw [show (2 : Word).toNat = 2 from rfl]
      omega
    rw [← hn', BitVec.and_comm _ 31, ← BitVec.and_assoc, hmod, BitVec.and_assoc,
      BitVec.and_comm 31, hn', hn]
  have h := add_not_and_add (pos + k) (c - 1) m (~~~n) hm hc ht
  rw [BitVec.not_not] at h
  rw [← h]
  congr 1
  exact (BitVec.sub_add_cancel c 1).symm

theorem offset_unmask {c : Word} : ((pos + k) ^^^ c) ^^^ c = pos + k := by
  rw [BitVec.xor_assoc, BitVec.xor_self, BitVec.xor_zero]

/-- The constants of an offset k, of the same under a mask again, and of the complement form. -/
abbrev OrForm (k d : Word) : Prop := k &&& 15 = k ∧ (rdiMask ||| k) ^^^ d = k

abbrev NegForm (k d m c : Word) : Prop := OrForm k d ∧ m = 2 * c

abbrev NotForm (k d m n c : Word) : Prop :=
  OrForm k d ∧ m &&& ~~~n = 0 ∧ m ||| ~~~n = 2 * (c - 1) ∧ 2 * k &&& ~~~n = ~~~n ∧
    ~~~n &&& 31 = ~~~n

/-- The ways round1_mid puts the offset k of its block under a mask again. -/
inductive Masked (pos : Word) : Word → Word → Word → Prop
  | neg {k d m c : Word} (h : NegForm k d m c) :
    Masked pos (((rdiMask ^^^ pos ||| k) ^^^ d) +
      -(2 * ((rdiMask ^^^ pos ||| k) ^^^ d) &&& m) + c) k c
  | not {k d m n c : Word} (h : NotForm k d m n c) :
    Masked pos (((rdiMask ^^^ pos ||| k) ^^^ d) +
      ((2 * ((rdiMask ^^^ pos ||| k) ^^^ d) &&& m) ^^^ n) + c) k (c - 1)

theorem Masked.eq {x c : Word} (hp : pos &&& 15 = 0) (h : Masked pos x k c) :
    x = (pos + k) ^^^ c := by
  cases h with
  | neg h =>
    obtain ⟨⟨hk, hd⟩, hm⟩ := h
    rw [offset_or hp hk hd, offset_neg hm]
  | not h =>
    obtain ⟨⟨hk, hd⟩, hm, hc, hn, hn'⟩ := h
    rw [offset_or hp hk hd, offset_not hp hk hm hc hn hn']

/-- The ways it comes by the offset itself. -/
inductive Unmasked (pos : Word) : Word → Word → Prop
  | plain {k : Word} : Unmasked pos (pos + k) k
  | swapped {k : Word} : Unmasked pos (k + pos) k
  | start : Unmasked pos ((rdiMask ^^^ pos) ^^^ rdiMask) 0
  | or {k d : Word} (h : OrForm k d) : Unmasked pos (((rdiMask ^^^ pos) ||| k) ^^^ d) k
  | again {k c c' : Word} (h : c' = c) : Unmasked pos (((pos + k) ^^^ c) ^^^ c') k
  | neg {k d m c c' : Word} (h : NegForm k d m c ∧ c' = c) :
    Unmasked pos ((((rdiMask ^^^ pos ||| k) ^^^ d) +
      -(2 * ((rdiMask ^^^ pos ||| k) ^^^ d) &&& m) + c) ^^^ c') k
  | not {k d m n c c' : Word} (h : NotForm k d m n c ∧ c' = c - 1) :
    Unmasked pos ((((rdiMask ^^^ pos ||| k) ^^^ d) +
      ((2 * ((rdiMask ^^^ pos ||| k) ^^^ d) &&& m) ^^^ n) + c) ^^^ c') k

theorem Unmasked.eq {x : Word} (hp : pos &&& 15 = 0) (h : Unmasked pos x k) : x = pos + k := by
  cases h with
  | plain => rfl
  | swapped => exact BitVec.add_comm _ _
  | start => exact offset_zero
  | or h => exact offset_or hp h.1 h.2
  | again h => rw [h, offset_unmask]
  | neg h => rw [h.2, (Masked.neg h.1).eq hp, offset_unmask]
  | not h => rw [h.2, (Masked.not h.1).eq hp, offset_unmask]

end Offsets

/-- Both runs find the same sixteen ciphertext bytes at their positions. -/
def SameWindow (ct ct' : Bytes) (pos pos' : Word) : Prop :=
  ∀ k < 16, ∃ b, ct[pos.toNat + k]? = some b ∧ ct'[pos'.toNat + k]? = some b

/-- The page of `rsi` is the page of the byte: the read is at the block's own byte k. -/
theorem ctPage_eq {ct : Bytes} {pos k : Word} (hp : pos &&& 15 = 0) (hk : k &&& 15 = k) :
    ctPage ct (8 + pos) (pos + k) = (do return byteWord (← ct[pos.toNat + k.toNat]?)) := by
  obtain ⟨h, h'⟩ := offset_bounds hp hk
  have h8 : (8 + pos).toNat = pos.toNat + 8 := by
    rw [BitVec.add_comm]
    exact offset_toNat hp (by decide)
  have hsum : ((pos + k) &&& 0xFFF).toNat + ((8 + pos) &&& ~~~0xFFF).toNat =
      pos.toNat + k.toNat := by
    rw [toNat_and_page, toNat_and_not_page, h8, offset_toNat hp hk]
    omega
  have hlt : pos.toNat + k.toNat < 2 ^ 32 := offset_toNat hp hk ▸ (pos + k).isLt
  have hadd : addU32 ((pos + k) &&& 0xFFF) ((8 + pos) &&& ~~~0xFFF) =
      some (((pos + k) &&& 0xFFF) + ((8 + pos) &&& ~~~0xFFF)) := by
    rw [addU32, if_pos (by omega)]
  have hidx : (((pos + k) &&& 0xFFF) + ((8 + pos) &&& ~~~0xFFF)).toNat =
      pos.toNat + k.toNat := by
    rw [BitVec.toNat_add, hsum, Nat.mod_eq_of_lt hlt]
  simp only [ctPage, hadd]
  rw [← hidx]
  rfl

section Rules
variable {γ δ : Type} {P : St → St → Prop} {Q : γ → δ → St → St → Prop} {r : Runs}
  {K : Facts SlotFact}

theorem Sim.ctPage {ct ct' : Bytes} {pos pos' x x' k : Word} (hw : SameWindow ct ct' pos pos')
    (hp : pos &&& 15 = 0) (hp' : pos' &&& 15 = 0) {f : Word → Round γ} {g : Word → Round δ}
    (h : ∀ v, Sim P (f v) (g v) Q)
    (hx : Unmasked pos x k := by with_reducible constructor <;> decide)
    (hx' : Unmasked pos' x' k := by with_reducible constructor <;> decide)
    (hk : k &&& 15 = k := by decide) :
    Sim P (ctPage ct (8 + pos) x >>= f) (ctPage ct' (8 + pos') x' >>= g) Q := by
  obtain rfl := hx.eq hp
  obtain rfl := hx'.eq hp'
  obtain ⟨b, hb, hb'⟩ := hw k.toNat (offset_bounds hp hk).2
  rw [ctPage_eq hp hk, ctPage_eq hp' hk, hb, hb']
  exact h _

theorem Sim.store_off {k : Nat} {o v v' : Word} {f : Unit → Round γ} {g : Unit → Round δ}
    (hp : r.pos &&& 15 = 0) (hp' : r.pos' &&& 15 = 0)
    (h : Sim (Holds (SlotFact.den r) ((k, .off) :: K)) (f ()) (g ()) Q)
    (hv : Unmasked r.pos v o := by with_reducible constructor <;> decide)
    (hv' : Unmasked r.pos' v' o := by with_reducible constructor <;> decide)
    (ho : offsetOf k = o := by decide) (hk : k < stSize := by decide) :
    Sim (Holds (SlotFact.den r) K) (store k v >>= f) (store k v' >>= g) Q := by
  subst ho
  exact Sim.write .off hk (show SlotFact.den r .off k v v' from ⟨hv.eq hp, hv'.eq hp'⟩) h

theorem Sim.store_masked {k : Nat} {o c v v' : Word} {f : Unit → Round γ} {g : Unit → Round δ}
    (hp : r.pos &&& 15 = 0) (hp' : r.pos' &&& 15 = 0)
    (h : Sim (Holds (SlotFact.den r) ((k, .masked) :: K)) (f ()) (g ()) Q)
    (hv : Masked r.pos v o c := by with_reducible constructor <;> decide)
    (hv' : Masked r.pos' v' o c := by with_reducible constructor <;> decide)
    (ho : offsetOf k = o := by decide) (hc : slotMask = c := by decide)
    (hk : k < stSize := by decide) :
    Sim (Holds (SlotFact.den r) K) (store k v >>= f) (store k v' >>= g) Q := by
  subst ho hc
  exact Sim.write .masked hk (show SlotFact.den r .masked k v v' from ⟨hv.eq hp, hv'.eq hp'⟩) h

end Rules

end Temari.RoundWindow
