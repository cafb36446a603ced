import Mathlib.Data.Nat.Bitwise
import Mathlib.Tactic.Ring

/-! Identities between the arithmetic and the bitwise operations of machine
words, as obfuscated straight-line code uses them. Any width. -/
namespace Temari.BitIdentities

theorem nat_add_eq_xor_add (a b : Nat) : a + b = (a ^^^ b) + 2 * (a &&& b) := by
  induction a using Nat.strong_induction_on generalizing b with
  | _ a ih =>
    by_cases ha : a = 0
    · subst a; simp
    · have h := ih (a / 2) (by omega) (b / 2)
      rw [← Nat.xor_div_two, ← Nat.and_div_two] at h
      have hx := Nat.xor_mod_two_eq_one (a := a) (b := b)
      have hy := Nat.and_mod_two_eq_one (a := a) (b := b)
      omega

variable {w : Nat}

/-- Addition is exclusive or plus the carries. -/
theorem add_eq_xor_add (x y : BitVec w) : x + y = (x ^^^ y) + 2#w * (x &&& y) := by
  apply BitVec.eq_of_toNat_eq
  have h := nat_add_eq_xor_add x.toNat y.toNat
  simp only [BitVec.toNat_add, BitVec.toNat_xor, BitVec.toNat_mul, BitVec.toNat_and,
    BitVec.toNat_ofNat]
  rw [h]
  simp [Nat.add_mod, Nat.mul_mod]

theorem two_mul_eq_shiftLeft (x : BitVec w) : 2#w * x = x <<< 1 := by
  apply BitVec.eq_of_toNat_eq
  simp [Nat.shiftLeft_eq, Nat.mul_comm]

theorem two_mul_and (x c : BitVec w) : 2#w * (x &&& c) = 2#w * x &&& 2#w * c := by
  simp only [two_mul_eq_shiftLeft, BitVec.shiftLeft_and_distrib]

/-- x - (2x & 2c) + c computes x ^ c. -/
theorem sub_and_add (x c : BitVec w) : x - (2#w * x &&& 2#w * c) + c = x ^^^ c := by
  rw [BitVec.sub_add_comm, add_eq_xor_add x c, two_mul_and, BitVec.add_sub_cancel]

/-- The same with the subtraction hidden in a complement: m is 2c less the bits t,
which are all set in 2x. -/
theorem add_not_and_add (x c m t : BitVec w) (hm : m &&& t = 0#w) (hc : m ||| t = 2#w * c)
    (ht : 2#w * x &&& t = t) : x + ((2#w * x &&& m) ^^^ ~~~t) + (c + 1#w) = x ^^^ c := by
  have hd : (2#w * x &&& m) ^^^ t = 2#w * x &&& 2#w * c := by
    rw [← hc, BitVec.and_or_distrib_left, ht]
    apply BitVec.eq_of_getLsbD_eq
    intro i hi
    have hb := congrArg (fun v => v.getLsbD i) hm
    simp only [BitVec.getLsbD_and, BitVec.getLsbD_zero] at hb
    cases hmi : m.getLsbD i <;> cases hti : t.getLsbD i <;> simp_all
  have hn : (2#w * x &&& m) ^^^ ~~~t = -(2#w * x &&& 2#w * c) - 1#w := by
    rw [← hd, ← BitVec.not_eq_neg_add, BitVec.not_xor_right]
  rw [hn, ← sub_and_add x c]
  grind

/-- A window of zero bits lets or act as xor. -/
theorem xor_or (c p k : BitVec w) (hp : p &&& k = 0#w) : (c ^^^ p) ||| k = (c ||| k) ^^^ p := by
  apply BitVec.eq_of_getLsbD_eq
  intro i hi
  have hb := congrArg (fun v => v.getLsbD i) hp
  simp only [BitVec.getLsbD_and, BitVec.getLsbD_zero] at hb
  cases hpi : p.getLsbD i <;> cases hki : k.getLsbD i <;> simp_all

end Temari.BitIdentities
