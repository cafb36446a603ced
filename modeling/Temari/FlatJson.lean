import Temari.RoundMachine
import Temari.Utf8
import Mathlib.Data.List.TakeWhile

/-! The flat JSON parser of the template loader. It runs a cursor over the bytes of the
input; a byte index or a str slice that is out of range or off a boundary is a panic and
has no result. -/
namespace Temari.FlatJson
open RoundMachine Utf8

abbrev quote : UInt8 := 0x22
abbrev backslash : UInt8 := 0x5C
abbrev colon : UInt8 := 0x3A

/-- `u8::is_ascii_whitespace`. -/
def isWhitespace (c : UInt8) : Bool := c = 0x20 || c = 0x09 || c = 0x0A || c = 0x0C || c = 0x0D

/-- What stands between members: whitespace, comma and braces. -/
def isSeparator (c : UInt8) : Bool := isWhitespace c || c = 0x2C || c = 0x7B || c = 0x7D

/-- What a bare value is made of. -/
def isBare (c : UInt8) : Bool := !isWhitespace c && c ≠ 0x2C && c ≠ 0x7D

/-- `while i < n && p(b[i]) { i += 1 }`. -/
def skipWhile (p : UInt8 → Bool) (b : Bytes) (i : Nat) : Nat :=
  i + ((b.drop i).takeWhile p).length

inductive ParseIntError where
  | empty | invalidDigit | posOverflow

def hexDigit (c : UInt8) : Option Nat :=
  if 0x30 ≤ c ∧ c ≤ 0x39 then some (c.toNat - 0x30)
  else if 0x41 ≤ c ∧ c ≤ 0x46 then some (c.toNat - 0x41 + 10)
  else if 0x61 ≤ c ∧ c ≤ 0x66 then some (c.toNat - 0x61 + 10)
  else none

/-- One digit more, with checked arithmetic in this many bits. -/
def pushDigit (bits acc : Nat) (c : UInt8) : Except ParseIntError Nat :=
  match hexDigit c with
  | none => .error .invalidDigit
  | some d => if acc * 16 + d < 2 ^ bits then .ok (acc * 16 + d) else .error .posOverflow

/-- The digit loop of from_str_radix. -/
def hexDigits (bits : Nat) (digits : Bytes) : Except ParseIntError Nat :=
  digits.foldlM (pushDigit bits) 0

/-- `from_str_radix(s, 16)` of an unsigned type, which takes a leading plus sign. -/
def fromStrRadix16 (bits : Nat) (s : Bytes) : Except ParseIntError Nat :=
  match s with
  | [] => .error .empty
  | [c] => if c = 0x2B ∨ c = 0x2D then .error .invalidDigit else hexDigits bits [c]
  | c :: rest => if c = 0x2B then hexDigits bits rest else hexDigits bits (c :: rest)

/-- `char::from_u32`. -/
def charFromU32 (v : Nat) : Option Char := if v.isValidChar then some (Char.ofNat v) else none

/-- What a \u escape with these hex digits pushes. -/
def unicodeEscape (hex : Bytes) : Bytes :=
  match fromStrRadix16 32 hex with
  | .ok v =>
    match charFromU32 v with
    | some c => String.utf8EncodeChar c
    | none => []
  | .error _ => []

/-- The escape whose letter is at i: what it pushes, and how far past i the cursor goes. -/
def escape (b : Bytes) (i : Nat) : Option (Bytes × Nat) :=
  match b[i]? with
  | none => none
  | some c =>
    if c = quote then some ([quote], 0)
    else if c = backslash then some ([backslash], 0)
    else if c = 0x2F then some ([0x2F], 0)
    else if c = 0x6E then some ([0x0A], 0)
    else if c = 0x74 then some ([0x09], 0)
    else if c = 0x75 then
      if i + 4 < b.length then do
        let hex ← sliceStr b (i + 1) (i + 5)
        return (unicodeEscape hex, 4)
      else some ([], 0)
    else some ([], 0)

/-- The loop over the body of a quoted string; it stops at the closing quote or the end. -/
def readString (b : Bytes) (i : Nat) (acc : Bytes) : Option (Bytes × Nat) :=
  match _hc : b[i]? with
  | none => some (acc, i)
  | some c =>
    if c = quote then some (acc, i)
    else if c = backslash ∧ i + 1 < b.length then
      match escape b (i + 1) with
      | none => none
      | some (pushed, skip) => readString b (i + 1 + skip + 1) (acc ++ pushed)
    else readString b (i + 1) (acc ++ [c])
termination_by b.length - i
decreasing_by
  all_goals
    have := (List.getElem?_eq_some_iff.mp _hc).1
    omega

/-- A value, quoted or bare, and the cursor after it. -/
def readValue (b : Bytes) (i : Nat) : Option (Bytes × Nat) :=
  if b[i]? = some quote then
    match readString b (i + 1) [] with
    | none => none
    | some (v, i) => some (fromUtf8Lossy v, i + 1)
  else
    let start := i
    let i := skipWhile isBare b i
    match sliceStr b start i with
    | none => none
    | some v => some (v, i)

theorem drop_takeWhile (p : UInt8 → Bool) (l : Bytes) :
    l.drop (l.takeWhile p).length = l.dropWhile p := by
  have h : (l.takeWhile p ++ l.dropWhile p).drop (l.takeWhile p).length = l.dropWhile p :=
    List.drop_left
  rwa [List.takeWhile_append_dropWhile] at h

theorem drop_skipWhile (p : UInt8 → Bool) (b : Bytes) (i : Nat) :
    b.drop (skipWhile p b i) = (b.drop i).dropWhile p := by
  rw [skipWhile, ← List.drop_drop, drop_takeWhile]

theorem le_skipWhile (p : UInt8 → Bool) (b : Bytes) (i : Nat) : i ≤ skipWhile p b i :=
  Nat.le_add_right _ _

theorem le_readString {b acc v : Bytes} {i j : Nat} (h : readString b i acc = some (v, j)) :
    i ≤ j := by
  fun_induction readString b i acc with
  | case1 | case2 =>
    cases h
    exact Nat.le_refl _
  | case3 => cases h
  | case4 _ _ _ _ _ _ _ _ _ ih =>
    have := ih h
    omega
  | case5 _ _ _ _ _ _ ih =>
    have := ih h
    omega

theorem le_readValue {b v : Bytes} {i j : Nat} (h : readValue b i = some (v, j)) : i ≤ j := by
  unfold readValue at h
  split at h
  · split at h
    next => cases h
    next hr =>
      cases h
      have := le_readString hr
      omega
  · dsimp only at h
    split at h
    next => cases h
    next =>
      cases h
      exact le_skipWhile _ _ _

/-- The loop over the members, from the cursor on. -/
def readMembers (b : Bytes) (i : Nat) (out : List (Bytes × Bytes)) :
    Option (List (Bytes × Bytes)) :=
  if i < b.length then
    let start := skipWhile isSeparator b i
    if start ≥ b.length then some out
    else if b[start]? ≠ some quote then some out
    else
      match _hk : readString b (start + 1) [] with
      | none => none
      | some (key, keyEnd) =>
        -- past the closing quote, then to the colon and past it
        let colonAt := skipWhile (· ≠ colon) b (keyEnd + 1)
        let valueAt := skipWhile isWhitespace b (colonAt + 1)
        match _hv : readValue b valueAt with
        | none => none
        | some (val, next) => readMembers b next (out ++ [(fromUtf8Lossy key, val)])
  else some out
termination_by b.length - i
decreasing_by
  have h1 : i ≤ start := le_skipWhile isSeparator b i
  have h2 : start + 1 ≤ keyEnd := le_readString _hk
  have h3 : keyEnd + 1 ≤ colonAt := le_skipWhile (· ≠ colon) b (keyEnd + 1)
  have h4 : colonAt + 1 ≤ valueAt := le_skipWhile isWhitespace b (colonAt + 1)
  have h5 : valueAt ≤ next := le_readValue _hv
  omega

def parseFlatJson (input : Bytes) : Option (List (Bytes × Bytes)) :=
  readMembers input (skipWhile (· ≠ 0x7B) input 0 + 1) []

section Cursor
variable {b : Bytes} {i : Nat} {c : UInt8}

theorem drop_eq_cons (h : b[i]? = some c) : b.drop i = c :: b.drop (i + 1) := by
  obtain ⟨hlt, rfl⟩ := List.getElem?_eq_some_iff.mp h
  exact List.drop_eq_getElem_cons hlt

theorem drop_eq_nil (h : b[i]? = none) : b.drop i = [] :=
  List.drop_eq_nil_of_le (List.getElem?_eq_none_iff.mp h)

theorem getElem?_of_drop {t : Bytes} (h : b.drop i = c :: t) : b[i]? = some c := by
  have := congrArg (fun l => l[0]?) h
  simpa using this

theorem drop_next {t : Bytes} (h : b.drop i = c :: t) : b.drop (i + 1) = t := by
  rw [← List.drop_drop, h, List.drop_one, List.tail_cons]

theorem drop_after {p t : Bytes} (h : b.drop i = p ++ t) : b.drop (i + p.length) = t := by
  rw [← List.drop_drop, h, List.drop_left]

theorem take_between {p t : Bytes} (h : b.drop i = p ++ t) :
    (b.take (i + p.length)).drop i = p := by
  rw [List.drop_take, h, Nat.add_sub_cancel_left, List.take_left]

theorem skipWhile_eq {p : UInt8 → Bool} {g t : Bytes} (h : b.drop i = g ++ t)
    (hg : ∀ c ∈ g, p c = true) (ht : ∀ c, t.head? = some c → p c = false) :
    skipWhile p b i = i + g.length := by
  have hstop : t.takeWhile p = [] := by
    cases t with
    | nil => rfl
    | cons c t => rw [List.takeWhile_cons_of_neg (by simp [ht c rfl])]
  rw [skipWhile, h, List.takeWhile_append_of_pos hg, hstop, List.append_nil]

theorem skipWhile_le (p : UInt8 → Bool) (hi : i ≤ b.length) : skipWhile p b i ≤ b.length := by
  have h := (List.takeWhile_sublist (l := b.drop i) p).length_le
  rw [List.length_drop] at h
  rw [skipWhile]
  omega

theorem skipWhile_stop {f : UInt8 → Bool} (h : b[skipWhile f b i]? = some c) : f c = false := by
  have hdrop := (drop_skipWhile f b i).symm.trans (drop_eq_cons h)
  have hhead := List.head?_dropWhile_not f (b.drop i)
  simpa [hdrop] using hhead

/-- What was skipped last. -/
theorem skipWhile_before {f : UInt8 → Bool} {r : Nat} (h : skipWhile f b i = r + 1) (hi : i ≤ r) :
    ∃ c, b[r]? = some c ∧ f c = true := by
  rw [skipWhile] at h
  have hlt : r - i < ((b.drop i).takeWhile f).length := by omega
  refine ⟨((b.drop i).takeWhile f)[r - i], ?_, List.mem_takeWhile_imp (List.getElem_mem hlt)⟩
  have hget : (b.drop i)[r - i]? = some ((b.drop i).takeWhile f)[r - i] := by
    rw [List.getElem?_eq_some_iff]
    exact ⟨hlt.trans_le (List.takeWhile_prefix f).length_le,
      ((List.takeWhile_prefix f).getElem hlt).symm⟩
  rwa [List.getElem?_drop, show i + (r - i) = r by omega] at hget

theorem ascii_of_isWhitespace (h : isWhitespace c = true) : c < 0x80 := by
  simp only [isWhitespace, Bool.or_eq_true, decide_eq_true_eq] at h
  obtain (((rfl | rfl) | rfl) | rfl) | rfl := h <;> decide

theorem ascii_of_not_isBare (h : isBare c = false) : c < 0x80 := by
  simp only [isBare, Bool.and_eq_false_iff, Bool.not_eq_false', decide_eq_false_iff_not,
    not_not] at h
  obtain (h | rfl) | rfl := h
  · exact ascii_of_isWhitespace h
  · decide
  · decide

end Cursor

end Temari.FlatJson
