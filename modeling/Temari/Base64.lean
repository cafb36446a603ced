import Temari.RoundMachine
import Temari.Rfc4648
import Temari.Utf8

/-! The base64 decoder of the template loader and the encoding it undoes. -/
namespace Temari.Base64
open RoundMachine Rfc4648 Utf8

/-- The value of a character of the alphabet. -/
def sextet (c : UInt8) : Option Word :=
  if 0x41 ≤ c ∧ c ≤ 0x5A then some (byteWord (c - 0x41))
  else if 0x61 ≤ c ∧ c ≤ 0x7A then some (byteWord (c - 0x61 + 26))
  else if 0x30 ≤ c ∧ c ≤ 0x39 then some (byteWord (c - 0x30 + 52))
  else if c = 0x2B then some 62
  else if c = 0x2F then some 63
  else none

/-- The decoding loop; the accumulator is never masked. -/
def decodeLoop : Bytes → Word → Nat → Bytes → Bytes
  | [], _, _, out => out
  | c :: s, buf, bits, out =>
    if c = 0x3D then out
    else
      match sextet c with
      | none => decodeLoop s buf bits out
      | some v =>
        let buf := buf <<< 6 ||| v
        let bits := bits + 6
        if bits ≥ 8 then decodeLoop s buf (bits - 8) (out ++ [wordByte (buf >>> (bits - 8))])
        else decodeLoop s buf bits out

def base64Decode (s : Bytes) : Bytes := decodeLoop s 0 0 []

section Sextets
variable {v : Nat} {buf : Word} {s out : Bytes}

theorem sextet_sextetChar : ∀ v < 64, sextet (sextetChar v) = some (BitVec.ofNat 32 v) ∧
    sextetChar v ≠ 0x3D := by decide +kernel

/-- The accumulator after a character of value v. -/
def push (buf : Word) (v : Nat) : Word := buf <<< 6 ||| BitVec.ofNat 32 v

theorem push_toNat (buf : Word) (hv : v < 64) :
    (push buf v).toNat = (buf.toNat * 64 + v) % 2 ^ 32 := by
  have hshift : (buf <<< 6).toNat = (buf.toNat % 2 ^ 26) <<< 6 := by
    rw [BitVec.toNat_shiftLeft, Nat.shiftLeft_eq, Nat.shiftLeft_eq]
    omega
  rw [push, BitVec.toNat_or, hshift, BitVec.toNat_ofNat, Nat.mod_eq_of_lt (by omega : v < 2 ^ 32),
    ← Nat.shiftLeft_add_eq_or_of_lt hv, Nat.shiftLeft_eq]
  omega

theorem decodeLoop_sextet (hv : v < 64) (s : Bytes) (buf : Word) (bits : Nat) (out : Bytes) :
    decodeLoop (sextetChar v :: s) buf bits out =
      if bits + 6 ≥ 8 then decodeLoop s (push buf v) (bits + 6 - 8)
        (out ++ [wordByte (push buf v >>> (bits + 6 - 8))])
      else decodeLoop s (push buf v) (bits + 6) out := by
  obtain ⟨hs, hne⟩ := sextet_sextetChar v hv
  rw [decodeLoop, if_neg hne, hs]
  rfl

theorem wordByte_toNat (w : Word) (k : Nat) :
    (wordByte (w >>> k)).toNat = w.toNat / 2 ^ k % 256 := by
  simp [wordByte, Nat.shiftRight_eq_div_pow]

theorem decodeLoop_pad (s : Bytes) (buf : Word) (bits : Nat) (out : Bytes) :
    decodeLoop (pad :: s) buf bits out = out := by
  rw [decodeLoop, if_pos (by decide)]

/-- From a clear start the first two characters give one byte. -/
theorem decodeLoop_first {a : UInt8} {w : Nat} (hw : w < 16) (s : Bytes) (buf : Word)
    (out : Bytes) : ∃ buf' : Word, buf'.toNat % 16 = w ∧
      decodeLoop (sextetChar (a.toNat / 4) :: sextetChar (a.toNat % 4 * 16 + w) :: s) buf 0 out =
        decodeLoop s buf' 4 (out ++ [a]) := by
  have ha := a.toNat_lt
  have hv : a.toNat / 4 < 64 := by omega
  have hv' : a.toNat % 4 * 16 + w < 64 := by omega
  refine ⟨push (push buf (a.toNat / 4)) (a.toNat % 4 * 16 + w), ?_, ?_⟩
  · rw [push_toNat _ hv']
    omega
  · rw [decodeLoop_sextet hv, if_neg (by decide), decodeLoop_sextet hv', if_pos (by decide)]
    congr 3
    rw [← UInt8.toNat_inj, wordByte_toNat, push_toNat _ hv', push_toNat _ hv]
    omega

/-- The third character completes the second byte. -/
theorem decodeLoop_second {b : UInt8} {buf : Word} {w : Nat} (hbuf : buf.toNat % 16 = b.toNat / 16)
    (hw : w < 4) (s out : Bytes) :
    ∃ buf' : Word, buf'.toNat % 4 = w ∧
      decodeLoop (sextetChar (b.toNat % 16 * 4 + w) :: s) buf 4 out =
        decodeLoop s buf' 2 (out ++ [b]) := by
  have hb := b.toNat_lt
  have hv : b.toNat % 16 * 4 + w < 64 := by omega
  refine ⟨push buf (b.toNat % 16 * 4 + w), ?_, ?_⟩
  · rw [push_toNat _ hv]
    omega
  · rw [decodeLoop_sextet hv, if_pos (by decide)]
    congr 3
    rw [← UInt8.toNat_inj, wordByte_toNat, push_toNat _ hv]
    omega

/-- The fourth character completes the third byte. -/
theorem decodeLoop_third {c : UInt8} {buf : Word} (hbuf : buf.toNat % 4 = c.toNat / 64)
    (s out : Bytes) : ∃ buf' : Word,
      decodeLoop (sextetChar (c.toNat % 64) :: s) buf 2 out = decodeLoop s buf' 0 (out ++ [c]) := by
  have hc := c.toNat_lt
  have hv : c.toNat % 64 < 64 := by omega
  refine ⟨push buf (c.toNat % 64), ?_⟩
  rw [decodeLoop_sextet hv, if_pos (by decide)]
  congr 3
  rw [← UInt8.toNat_inj, wordByte_toNat, push_toNat _ hv]
  omega

end Sextets

theorem decodeLoop_encode (b : Bytes) (buf : Word) (out : Bytes) :
    decodeLoop (encode b) buf 0 out = out ++ b := by
  induction b using encode.induct generalizing buf out with
  | case1 => simp [encode, decodeLoop]
  | case2 a =>
    obtain ⟨buf1, -, h1⟩ := decodeLoop_first (a := a) (w := 0) (by decide) [pad, pad] buf out
    rw [encode]
    exact h1.trans (decodeLoop_pad _ _ _ _)
  | case3 a b =>
    have hb := b.toNat_lt
    obtain ⟨buf1, hbuf1, h1⟩ := decodeLoop_first (a := a) (w := b.toNat / 16) (by omega)
      [sextetChar (b.toNat % 16 * 4), pad] buf out
    obtain ⟨buf2, -, h2⟩ := decodeLoop_second (w := 0) hbuf1 (by decide) [pad] (out ++ [a])
    rw [encode, h1]
    refine (h2.trans (decodeLoop_pad _ _ _ _)).trans ?_
    simp
  | case4 a b c rest ih =>
    have hb := b.toNat_lt
    have hc := c.toNat_lt
    obtain ⟨buf1, hbuf1, h1⟩ := decodeLoop_first (a := a) (w := b.toNat / 16) (by omega)
      (sextetChar (b.toNat % 16 * 4 + c.toNat / 64) :: sextetChar (c.toNat % 64) :: encode rest)
      buf out
    obtain ⟨buf2, hbuf2, h2⟩ := decodeLoop_second (w := c.toNat / 64) hbuf1 (by omega)
      (sextetChar (c.toNat % 64) :: encode rest) (out ++ [a])
    obtain ⟨buf3, h3⟩ := decodeLoop_third hbuf2 (encode rest) (out ++ [a] ++ [b])
    rw [encode, h1, h2, h3, ih]
    simp

/-- Decoding undoes the standard encoding. -/
theorem base64Decode_encode (b : Bytes) : base64Decode (encode b) = b := by
  rw [base64Decode, decodeLoop_encode, List.nil_append]

section Scatter
variable {b t p : Bytes} {s : List Char}

/-- What follows a pad is not read, and neither is the pad. -/
theorem decodeLoop_append_pad (s rest : Bytes) (buf : Word) (bits : Nat) (out : Bytes) :
    decodeLoop (s ++ pad :: rest) buf bits out = decodeLoop s buf bits out := by
  induction s generalizing buf bits out with
  | nil => exact decodeLoop_pad rest buf bits out
  | cons c s ih =>
    rw [List.cons_append, decodeLoop, decodeLoop]
    split
    · rfl
    · split
      · exact ih buf bits out
      · dsimp only
        split
        · exact ih _ _ _
        · exact ih _ _ _

/-- Equal rests decode alike after the same character. -/
theorem decodeLoop_cons_congr {s s' : Bytes}
    (h : ∀ buf bits out, decodeLoop s buf bits out = decodeLoop s' buf bits out) (c : UInt8)
    (buf : Word) (bits : Nat) (out : Bytes) :
    decodeLoop (c :: s) buf bits out = decodeLoop (c :: s') buf bits out := by
  rw [decodeLoop, decodeLoop]
  simp only [h]

theorem decodeLoop_ignored {x : Bytes} (hx : ∀ c ∈ x, sextet c = none ∧ c ≠ pad) (s : Bytes)
    (buf : Word) (bits : Nat) (out : Bytes) :
    decodeLoop (x ++ s) buf bits out = decodeLoop s buf bits out := by
  induction x with
  | nil => rfl
  | cons c x ih =>
    obtain ⟨⟨hnone, hpad⟩, hrest⟩ := List.forall_mem_cons.mp hx
    rw [List.cons_append, decodeLoop, if_neg (show ¬ c = 0x3D from hpad), hnone]
    exact ih hrest

theorem encodeChar_sextet : ∀ v < 64, String.utf8EncodeChar (Char.ofNat (sextetChar v).toNat) =
    [UInt8.ofNat (Char.ofNat (sextetChar v).toNat).toNat] := by decide +kernel

theorem encodeChar_alphabet {c : Char} (hc : c ∈ alphabet) :
    String.utf8EncodeChar c = [UInt8.ofNat c.toNat] := by
  obtain ⟨v, hv, rfl⟩ := List.mem_map.mp hc
  exact encodeChar_sextet v (List.mem_range.mp hv)

theorem sextet_ascii :
    ∀ n < 0x80, (sextet (UInt8.ofNat n)).isSome = true → Char.ofNat n ∈ alphabet := by
  decide +kernel

theorem sextet_high : ∀ n < 0x100, 0x80 ≤ n → sextet (UInt8.ofNat n) = none := by decide +kernel

theorem high_ignored {x : UInt8} (hx : 0x80 ≤ x) : sextet x = none ∧ x ≠ pad := by
  refine ⟨?_, fun he => absurd (he ▸ hx) (by decide)⟩
  have := sextet_high x.toNat x.toNat_lt (UInt8.le_iff_toNat_le.mp hx)
  rwa [UInt8.ofNat_toNat] at this

/-- No byte of a character outside the alphabet is read as one of the alphabet or as a pad. -/
theorem encodeChar_ignored {c : Char} (hc : c ∉ alphabet) (hpad : c ≠ '=') :
    ∀ x ∈ String.utf8EncodeChar c, sextet x = none ∧ x ≠ pad := by
  obtain ⟨a, he, ha, hnat⟩ | ⟨a, rest, he, ha, hrest⟩ := encodeChar_shape c
  · rw [he, List.forall_mem_singleton]
    constructor
    · have hsome := sextet_ascii a.toNat (UInt8.lt_iff_toNat_lt.mp ha)
      rw [UInt8.ofNat_toNat, hnat, Char.ofNat_toNat] at hsome
      exact Option.not_isSome_iff_eq_none.mp (mt hsome hc)
    · rintro rfl
      exact hpad (by rw [← Char.ofNat_toNat c, ← hnat]; rfl)
  · rw [he, List.forall_mem_cons]
    refine ⟨high_ignored (UInt8.le_trans (by decide) ha), fun x hx => high_ignored ?_⟩
    have := hrest x hx
    simp only [isContinuation, decide_eq_true_eq] at this
    exact this.1

/-- Characters outside the alphabet leave the accumulator as it is. -/
theorem decodeLoop_scattered (h : Scattered t s) (p : Bytes) (buf : Word) (bits : Nat)
    (out : Bytes) : decodeLoop (utf8 s ++ p) buf bits out = decodeLoop (t ++ p) buf bits out := by
  induction h generalizing buf bits out with
  | nil => rfl
  | keep c hc _ ih =>
    rw [utf8_cons, encodeChar_alphabet hc]
    exact decodeLoop_cons_congr ih _ buf bits out
  | extra c hc hpad _ ih =>
    rw [utf8_cons, List.append_assoc, decodeLoop_ignored (encodeChar_ignored hc hpad)]
    exact ih buf bits out

theorem padding_eq (b : Bytes) : padding b = [] ∨ ∃ rest, padding b = pad :: rest := by
  cases h : padding b with
  | nil => exact Or.inl rfl
  | cons c rest =>
    right
    have hc := List.head?_dropWhile_not (· ≠ pad) (encode b)
    rw [← padding, h] at hc
    exact ⟨rest, by simpa using hc⟩

theorem decodeLoop_unpadded (hp : p = [] ∨ ∃ rest, p = pad :: rest) (b : Bytes) :
    decodeLoop (unpadded b ++ p) 0 0 [] = b := by
  have hfull : decodeLoop (unpadded b ++ padding b) 0 0 [] = b := by
    rw [unpadded, padding, List.takeWhile_append_dropWhile]
    exact base64Decode_encode b
  have hnone (q : Bytes) (hq : q = [] ∨ ∃ rest, q = pad :: rest) :
      decodeLoop (unpadded b ++ q) 0 0 [] = decodeLoop (unpadded b) 0 0 [] := by
    obtain rfl | ⟨rest, rfl⟩ := hq
    · rw [List.append_nil]
    · exact decodeLoop_append_pad _ _ _ _ _
  rw [hnone p hp, ← hnone (padding b) (padding_eq b), hfull]

/-- The encoding with or without its padding decodes to the bytes it encodes, whatever
characters outside the alphabet stand between its own. -/
theorem scattered_decodes (b : Bytes) (s : List Char) (p : Bytes) (h : Scattered (unpadded b) s)
    (hp : p = [] ∨ p = padding b) : base64Decode (utf8 s ++ p) = b := by
  have hp' : p = [] ∨ ∃ rest, p = pad :: rest := by
    obtain rfl | rfl := hp
    · exact Or.inl rfl
    · exact padding_eq b
  rw [base64Decode, decodeLoop_scattered h, decodeLoop_unpadded hp']

theorem scattered_decodes_spaced : base64Decode (str "Q U\nI" ++ str "=") = [0x41, 0x42] := by
  have hcore : unpadded [0x41, 0x42] = [0x51, 0x55, 0x49] := by decide +kernel
  have h : Scattered (unpadded [0x41, 0x42]) ['Q', ' ', 'U', '\n', 'I'] := by
    rw [hcore]
    exact .keep 'Q' (by decide +kernel) (.extra ' ' (by decide +kernel) (by decide)
      (.keep 'U' (by decide +kernel) (.extra '\n' (by decide +kernel) (by decide)
        (.keep 'I' (by decide +kernel) .nil))))
  exact scattered_decodes [0x41, 0x42] _ _ h (Or.inr (by decide +kernel))

end Scatter

end Temari.Base64
