import Mathlib.Data.List.Basic
import Mathlib.Logic.Function.Iterate

/-! Strings as their UTF-8 bytes: character boundaries, slices, and lossy conversion. -/
namespace Temari.Utf8

def utf8 (cs : List Char) : List UInt8 := cs.flatMap String.utf8EncodeChar

/-- A literal. -/
def str (s : String) : List UInt8 := utf8 s.toList

def isContinuation (c : UInt8) : Bool := decide (0x80 ≤ c ∧ c < 0xC0)

def isCharBoundary (b : List UInt8) (i : Nat) : Bool :=
  if i = 0 then true
  else
    match b[i]? with
    | some c => !isContinuation c
    | none => decide (i = b.length)

/-- `&s[lo..hi]`, which panics off a boundary or out of range. -/
def sliceStr (b : List UInt8) (lo hi : Nat) : Option (List UInt8) :=
  if lo ≤ hi ∧ isCharBoundary b lo ∧ isCharBoundary b hi then some ((b.take hi).drop lo) else none

/-- The character or the invalid chunk that starts with b0: whether it is valid, and how
many bytes it has. -/
def headChunk (b0 : UInt8) (rest : List UInt8) : Bool × Nat :=
  let at_ (k : Nat) : UInt8 := rest[k]?.getD 0
  let cont (k : Nat) : Bool := isContinuation (at_ k)
  if b0 < 0x80 then (true, 1)
  else if 0xC2 ≤ b0 ∧ b0 < 0xE0 then if cont 0 then (true, 2) else (false, 1)
  else if 0xE0 ≤ b0 ∧ b0 < 0xF0 then
    if cont 0 ∧ (b0 = 0xE0 → 0xA0 ≤ at_ 0) ∧ (b0 = 0xED → at_ 0 < 0xA0) then
      if cont 1 then (true, 3) else (false, 2)
    else (false, 1)
  else if 0xF0 ≤ b0 ∧ b0 < 0xF5 then
    if cont 0 ∧ (b0 = 0xF0 → 0x90 ≤ at_ 0) ∧ (b0 = 0xF4 → at_ 0 < 0x90) then
      if cont 1 then if cont 2 then (true, 4) else (false, 3) else (false, 2)
    else (false, 1)
  else (false, 1)

/-- `String::from_utf8_lossy`: each invalid chunk becomes U+FFFD. -/
def fromUtf8Lossy : List UInt8 → List UInt8
  | [] => []
  | b0 :: rest =>
    let chunk := headChunk b0 rest
    (if chunk.1 then (b0 :: rest).take chunk.2 else [0xEF, 0xBF, 0xBD]) ++
      fromUtf8Lossy (rest.drop (chunk.2 - 1))
termination_by b => b.length
decreasing_by
  simp only [List.length_drop, List.length_cons]
  omega

/-- The encodings of the characters with the White_Space property. -/
def whitespace : List (List UInt8) :=
  [0x09, 0x0A, 0x0B, 0x0C, 0x0D, 0x20, 0x85, 0xA0, 0x1680, 0x2000, 0x2001, 0x2002, 0x2003, 0x2004,
    0x2005, 0x2006, 0x2007, 0x2008, 0x2009, 0x200A, 0x2028, 0x2029, 0x202F, 0x205F, 0x3000].map
    fun n => String.utf8EncodeChar (Char.ofNat n)

/-- One whitespace character less at the start, or at the end. -/
def dropFirst (b : List UInt8) : List UInt8 :=
  match whitespace.find? (·.isPrefixOf b) with
  | some w => b.drop w.length
  | none => b

def dropLast (b : List UInt8) : List UInt8 :=
  match whitespace.find? (·.isSuffixOf b) with
  | some w => b.take (b.length - w.length)
  | none => b

/-- `str::trim`. -/
def trim (b : List UInt8) : List UInt8 := dropLast^[b.length] (dropFirst^[b.length] b)

/-- `strip_prefix(p).unwrap_or(s)`. -/
def stripPrefix (p s : List UInt8) : List UInt8 := if p.isPrefixOf s then s.drop p.length else s

section Boundaries

theorem utf8_cons (c : Char) (cs : List Char) :
    utf8 (c :: cs) = String.utf8EncodeChar c ++ utf8 cs :=
  List.flatMap_cons

theorem isContinuation_ofNat (n : Nat) : isContinuation (UInt8.ofNat (n % 64 + 128)) = true := by
  simp only [isContinuation, decide_eq_true_eq, UInt8.le_iff_toNat_le, UInt8.lt_iff_toNat_lt,
    UInt8.toNat_ofNat']
  simp
  omega

theorem toNat_byte {n : Nat} (h : n < 256) : (UInt8.ofNat n).toNat = n := by
  rw [UInt8.toNat_ofNat', Nat.mod_eq_of_lt h]

theorem ofNat_le_byte {m n : Nat} (hm : m < 256) (hn : n < 256) :
    UInt8.ofNat m ≤ UInt8.ofNat n ↔ m ≤ n := by
  rw [UInt8.le_iff_toNat_le, toNat_byte hm, toNat_byte hn]

theorem ofNat_lt_byte {m n : Nat} (hm : m < 256) (hn : n < 256) :
    UInt8.ofNat m < UInt8.ofNat n ↔ m < n := by
  rw [UInt8.lt_iff_toNat_lt, toNat_byte hm, toNat_byte hn]

theorem ofNat_eq_byte {m n : Nat} (hm : m < 256) (hn : n < 256) :
    UInt8.ofNat m = UInt8.ofNat n ↔ m = n := by
  rw [← UInt8.toNat_inj, toNat_byte hm, toNat_byte hn]

/-- A character is one ASCII byte, or a leading byte and continuation bytes. -/
theorem encodeChar_shape (c : Char) :
    (∃ a, String.utf8EncodeChar c = [a] ∧ a < 0x80 ∧ a.toNat = c.toNat) ∨
      ∃ a rest, String.utf8EncodeChar c = a :: rest ∧ 0xC0 ≤ a ∧
        ∀ x ∈ rest, isContinuation x = true := by
  have hcont := isContinuation_ofNat
  have hlead (n k : Nat) (hk : 0xC0 ≤ k) (hn : n + k < 256) : 0xC0 ≤ UInt8.ofNat (n + k) :=
    (ofNat_le_byte (m := 0xC0) (by decide) hn).mpr (Nat.le_add_left_of_le hk)
  rw [String.utf8EncodeChar]
  split
  next h =>
    exact Or.inl ⟨_, rfl, (ofNat_lt_byte (n := 0x80) (by omega) (by decide)).mpr
      (Nat.lt_succ_of_le h), toNat_byte (by omega)⟩
  next =>
    right
    split
    next =>
      exact ⟨_, _, rfl, hlead _ _ (by decide) (by omega),
        List.forall_mem_cons.mpr ⟨hcont _, List.forall_mem_nil _⟩⟩
    next =>
      split
      next =>
        exact ⟨_, _, rfl, hlead _ _ (by decide) (by omega), List.forall_mem_cons.mpr ⟨hcont _,
          List.forall_mem_cons.mpr ⟨hcont _, List.forall_mem_nil _⟩⟩⟩
      next =>
        exact ⟨_, _, rfl, hlead _ _ (by decide) (by omega), List.forall_mem_cons.mpr ⟨hcont _,
          List.forall_mem_cons.mpr ⟨hcont _, List.forall_mem_cons.mpr ⟨hcont _,
            List.forall_mem_nil _⟩⟩⟩⟩

theorem not_continuation_of_ascii {c : UInt8} (h : c < 0x80) : isContinuation c = false := by
  simp only [isContinuation, decide_eq_false_iff_not, not_and]
  exact fun hle => absurd h (UInt8.not_lt.mpr hle)

theorem not_continuation_of_lead {c : UInt8} (h : 0xC0 ≤ c) : isContinuation c = false := by
  simp only [isContinuation, decide_eq_false_iff_not, not_and]
  exact fun _ => UInt8.not_lt.mpr h

/-- Continuation bytes stand only after a leading byte or another continuation byte. -/
structure Aligned (b : List UInt8) : Prop where
  head : ∀ c : UInt8, b[0]? = some c → isContinuation c = false
  next : ∀ (i : Nat) (c d : UInt8), b[i]? = some c → c < 0x80 → b[i + 1]? = some d →
    isContinuation d = false

theorem aligned_utf8 (cs : List Char) : Aligned (utf8 cs) := by
  induction cs with
  | nil => exact ⟨by simp [utf8], by simp [utf8]⟩
  | cons c cs ih =>
    rw [utf8_cons]
    obtain ⟨a, he, ha, -⟩ | ⟨a, rest, he, ha, hrest⟩ := encodeChar_shape c
    · rw [he]
      refine ⟨fun x hx => ?_, fun i x y hx hx' hy => ?_⟩
      · cases hx
        exact not_continuation_of_ascii ha
      · cases i with
        | zero => exact ih.head y hy
        | succ i => exact ih.next i x y hx hx' hy
    · rw [he]
      refine ⟨fun x hx => ?_, fun i x y hx hx' hy => ?_⟩
      · cases hx
        exact not_continuation_of_lead ha
      · by_cases hi : i < (a :: rest).length
        · -- no byte of a longer character is ASCII
          rw [List.getElem?_append_left hi] at hx
          have hlarge : ∀ z ∈ a :: rest, 0x80 ≤ z := by
            refine List.forall_mem_cons.mpr ⟨UInt8.le_trans (by decide) ha, fun z hz => ?_⟩
            have hz := hrest z hz
            simp only [isContinuation, decide_eq_true_eq] at hz
            exact hz.1
          exact absurd hx' (UInt8.not_lt.mpr (hlarge x (List.mem_of_getElem? hx)))
        · rw [List.getElem?_append_right (by omega)] at hx hy
          rw [show i + 1 - (a :: rest).length = i - (a :: rest).length + 1 by omega] at hy
          exact ih.next _ x y hx hx' hy

variable {b : List UInt8} {i : Nat} {c : UInt8}

theorem boundary_iff (h0 : 0 < i) (hi : i ≤ b.length) :
    isCharBoundary b i = true ↔ ∀ c, b[i]? = some c → isContinuation c = false := by
  rw [isCharBoundary, if_neg (by omega)]
  cases hc : b[i]? with
  | some c => simp
  | none =>
    have := List.getElem?_eq_none_iff.mp hc
    simp only [decide_eq_true_eq, reduceCtorEq, false_implies, implies_true, iff_true]
    omega

theorem boundary_after (h : Aligned b) (hi : b[i]? = some c) (hc : c < 0x80) :
    isCharBoundary b (i + 1) = true :=
  (boundary_iff (Nat.succ_pos i) (List.getElem?_eq_some_iff.mp hi).1).mpr
    fun d hd => h.next i c d hi hc hd

theorem boundary_ascii (hi : b[i]? = some c) (hc : c < 0x80) : isCharBoundary b i = true := by
  rw [isCharBoundary, hi]
  simp [not_continuation_of_ascii hc]

theorem boundary_length (b : List UInt8) : isCharBoundary b b.length = true := by
  rw [isCharBoundary, List.getElem?_eq_none (Nat.le_refl _)]
  simp

theorem not_boundary_past (h : b.length < i) : isCharBoundary b i = false := by
  rw [isCharBoundary, if_neg (by omega), List.getElem?_eq_none (by omega)]
  simp only [decide_eq_false_iff_not]
  omega

end Boundaries

section Lossy
variable {b0 b1 b2 b3 : UInt8}

theorem headChunk_one (h : b0 < 0x80) (tail : List UInt8) :
    headChunk b0 tail = (true, 1) := if_pos h

theorem headChunk_two (h0 : 0xC2 ≤ b0) (h0' : b0 < 0xE0) (h1 : isContinuation b1 = true)
    (tail : List UInt8) : headChunk b0 (b1 :: tail) = (true, 2) := by
  have hlead : ¬ b0 < 0x80 := UInt8.not_lt.mpr (UInt8.le_trans (by decide) h0)
  simp [headChunk, hlead, h0, h0', h1]

theorem headChunk_three (h0 : 0xE0 ≤ b0) (h0' : b0 < 0xF0) (h1 : isContinuation b1 = true)
    (hlong : b0 = 0xE0 → 0xA0 ≤ b1) (hsurrogate : b0 = 0xED → b1 < 0xA0)
    (h2 : isContinuation b2 = true) (tail : List UInt8) :
    headChunk b0 (b1 :: b2 :: tail) = (true, 3) := by
  have hlead : ¬ b0 < 0x80 := UInt8.not_lt.mpr (UInt8.le_trans (by decide) h0)
  have htwo : ¬ b0 < 0xE0 := UInt8.not_lt.mpr h0
  simp only [headChunk, if_neg hlead, htwo, and_false, if_false, if_pos (And.intro h0 h0'),
    List.getElem?_cons_zero, List.getElem?_cons_succ, Option.getD_some, h1, h2, if_true]
  exact if_pos ⟨trivial, hlong, hsurrogate⟩

theorem headChunk_four (h0 : 0xF0 ≤ b0) (h0' : b0 < 0xF5) (h1 : isContinuation b1 = true)
    (hlong : b0 = 0xF0 → 0x90 ≤ b1) (hpast : b0 = 0xF4 → b1 < 0x90)
    (h2 : isContinuation b2 = true) (h3 : isContinuation b3 = true) (tail : List UInt8) :
    headChunk b0 (b1 :: b2 :: b3 :: tail) = (true, 4) := by
  have hlead : ¬ b0 < 0x80 := UInt8.not_lt.mpr (UInt8.le_trans (by decide) h0)
  have htwo : ¬ b0 < 0xE0 := UInt8.not_lt.mpr (UInt8.le_trans (by decide) h0)
  have hthree : ¬ b0 < 0xF0 := UInt8.not_lt.mpr h0
  simp only [headChunk, if_neg hlead, htwo, hthree, and_false, if_false, if_pos (And.intro h0 h0'),
    List.getElem?_cons_zero, List.getElem?_cons_succ, Option.getD_some, h1, h2, h3, if_true]
  exact if_pos ⟨trivial, hlong, hpast⟩

/-- The encoding of a character is taken whole, whatever follows. -/
theorem headChunk_encodeChar (c : Char) (tail : List UInt8) :
    ∃ b0 rest, String.utf8EncodeChar c = b0 :: rest ∧
      headChunk b0 (rest ++ tail) = (true, rest.length + 1) := by
  have hvalid : c.val.toNat.isValidChar := c.valid
  rw [Nat.isValidChar] at hvalid
  rw [String.utf8EncodeChar]
  split
  next h =>
    exact ⟨_, _, rfl,
      headChunk_one ((ofNat_lt_byte (n := 0x80) (by omega) (by decide)).mpr (by omega)) tail⟩
  next =>
    split
    next =>
      exact ⟨_, _, rfl, headChunk_two
        ((ofNat_le_byte (m := 0xC2) (by decide) (by omega)).mpr (by omega))
        ((ofNat_lt_byte (n := 0xE0) (by omega) (by decide)).mpr (by omega))
        (isContinuation_ofNat _) tail⟩
    next =>
      split
      next =>
        exact ⟨_, _, rfl, headChunk_three
          ((ofNat_le_byte (m := 0xE0) (by decide) (by omega)).mpr (by omega))
          ((ofNat_lt_byte (n := 0xF0) (by omega) (by decide)).mpr (by omega))
          (isContinuation_ofNat _)
          (fun h => (ofNat_le_byte (m := 0xA0) (by decide) (by omega)).mpr (by
            have := (ofNat_eq_byte (n := 0xE0) (by omega) (by decide)).mp h
            omega))
          (fun h => (ofNat_lt_byte (n := 0xA0) (by omega) (by decide)).mpr (by
            have := (ofNat_eq_byte (n := 0xED) (by omega) (by decide)).mp h
            omega))
          (isContinuation_ofNat _) tail⟩
      next =>
        exact ⟨_, _, rfl, headChunk_four
          ((ofNat_le_byte (m := 0xF0) (by decide) (by omega)).mpr (by omega))
          ((ofNat_lt_byte (n := 0xF5) (by omega) (by decide)).mpr (by omega))
          (isContinuation_ofNat _)
          (fun h => (ofNat_le_byte (m := 0x90) (by decide) (by omega)).mpr (by
            have := (ofNat_eq_byte (n := 0xF0) (by omega) (by decide)).mp h
            omega))
          (fun h => (ofNat_lt_byte (n := 0x90) (by omega) (by decide)).mpr (by
            have := (ofNat_eq_byte (n := 0xF4) (by omega) (by decide)).mp h
            omega))
          (isContinuation_ofNat _) (isContinuation_ofNat _) tail⟩

theorem fromUtf8Lossy_cons (c : Char) (tail : List UInt8) :
    fromUtf8Lossy (String.utf8EncodeChar c ++ tail) =
      String.utf8EncodeChar c ++ fromUtf8Lossy tail := by
  obtain ⟨b0, rest, he, hchunk⟩ := headChunk_encodeChar c tail
  rw [he, List.cons_append, fromUtf8Lossy, hchunk]
  simp

/-- What is valid stays as it is. -/
theorem fromUtf8Lossy_utf8 (cs : List Char) : fromUtf8Lossy (utf8 cs) = utf8 cs := by
  induction cs with
  | nil => rw [utf8, List.flatMap_nil, fromUtf8Lossy]
  | cons c cs ih => rw [utf8_cons, fromUtf8Lossy_cons, ih]

end Lossy

section Trim
variable {b : List UInt8}

theorem whitespace_byte : ∀ w ∈ whitespace, w ≠ [] ∧ ∀ c ∈ w, c ≤ 0x20 ∨ 0x80 ≤ c := by
  decide +kernel

/-- Between printable ASCII characters there is nothing to trim. -/
theorem trim_printable (h : ∀ c ∈ b, 0x20 < c ∧ c < 0x80) : trim b = b := by
  have hdisjoint : ∀ w ∈ whitespace, ∀ c ∈ w, c ∉ b := fun w hw c hc hb => by
    obtain hle | hle := (whitespace_byte w hw).2 c hc
    · exact UInt8.not_lt.mpr hle (h c hb).1
    · exact UInt8.not_lt.mpr hle (h c hb).2
  have hne : ∀ w ∈ whitespace, ∃ c, c ∈ w := fun w hw =>
    List.exists_mem_of_ne_nil w (whitespace_byte w hw).1
  have hfirst : dropFirst b = b := by
    rw [dropFirst, List.find?_eq_none.mpr fun w hw hp => ?_]
    obtain ⟨c, hc⟩ := hne w hw
    exact hdisjoint w hw c hc ((List.isPrefixOf_iff_prefix.mp hp).subset hc)
  have hlast : dropLast b = b := by
    rw [dropLast, List.find?_eq_none.mpr fun w hw hp => ?_]
    obtain ⟨c, hc⟩ := hne w hw
    exact hdisjoint w hw c hc ((List.isSuffixOf_iff_suffix.mp hp).subset hc)
  rw [trim, Function.iterate_fixed hfirst, Function.iterate_fixed hlast]

end Trim

end Temari.Utf8
