import Temari.Utf8

/-! The texts of a flat JSON object: which bytes spell a string, a value and the members. -/
namespace Temari.JsonText
open Utf8

/-- JSON whitespace. -/
def Gap (g : List UInt8) : Prop := ∀ c ∈ g, c = 0x20 ∨ c = 0x09 ∨ c = 0x0A ∨ c = 0x0D

/-- A hex digit of either case and its value. -/
inductive HexDigit : UInt8 → Nat → Prop
  | decimal {d : Nat} (h : d < 10) : HexDigit (UInt8.ofNat (0x30 + d)) d
  | upper {d : Nat} (h : d < 6) : HexDigit (UInt8.ofNat (0x41 + d)) (10 + d)
  | lower {d : Nat} (h : d < 6) : HexDigit (UInt8.ofNat (0x61 + d)) (10 + d)

/-- Hex digits and the number they spell, leading zeros allowed. -/
inductive HexText : List UInt8 → Nat → Prop
  | nil : HexText [] 0
  | snoc {b : List UInt8} {v d : Nat} {c : UInt8} (h : HexText b v) (hc : HexDigit c d) :
      HexText (b ++ [c]) (v * 16 + d)

/-- The characters that have a short escape, and its letter. -/
def shortEscapes : List (Char × UInt8) :=
  [(Char.ofNat 0x22, 0x22), (Char.ofNat 0x5C, 0x5C), (Char.ofNat 0x2F, 0x2F),
    (Char.ofNat 0x0A, 0x6E), (Char.ofNat 0x09, 0x74)]

/-- The bytes between the quotes of a string. -/
inductive Written : List Char → List UInt8 → Prop
  | nil : Written [] []
  | raw {c : Char} {cs : List Char} {t : List UInt8} (hcontrol : 0x20 ≤ c.toNat)
      (hquote : c.toNat ≠ 0x22) (hback : c.toNat ≠ 0x5C) (h : Written cs t) :
      Written (c :: cs) (String.utf8EncodeChar c ++ t)
  | short {c : Char} {e : UInt8} {cs : List Char} {t : List UInt8} (he : (c, e) ∈ shortEscapes)
      (h : Written cs t) : Written (c :: cs) (0x5C :: e :: t)
  | unicode {c : Char} {hex : List UInt8} {cs : List Char} {t : List UInt8}
      (hhex : HexText hex c.toNat) (hlen : hex.length = 4) (h : Written cs t) :
      Written (c :: cs) (0x5C :: 0x75 :: (hex ++ t))

/-- Numbers, true, false and null are spelled with these. -/
def isTokenByte (c : UInt8) : Bool :=
  (0x30 ≤ c && c ≤ 0x39) || (0x41 ≤ c && c ≤ 0x5A) || (0x61 ≤ c && c ≤ 0x7A) || c = 0x2B ||
    c = 0x2D || c = 0x2E

/-- A string, or a token that is not quoted. -/
inductive Value where
  | text (cs : List Char)
  | bare (token : List UInt8)

def Value.content : Value → List UInt8
  | .text cs => utf8 cs
  | .bare token => token

inductive ValueText : Value → List UInt8 → Prop
  | text {cs : List Char} {t : List UInt8} (h : Written cs t) :
      ValueText (.text cs) (0x22 :: (t ++ [0x22]))
  | bare {t : List UInt8} (hne : t ≠ []) (h : ∀ c ∈ t, isTokenByte c = true) : ValueText (.bare t) t

structure Member where
  key : List Char
  value : Value

/-- What a reader gets of a member. -/
def Member.read (m : Member) : List UInt8 × List UInt8 := (utf8 m.key, m.value.content)

inductive MemberText : Member → List UInt8 → Prop
  | mk {m : Member} {k g g' v : List UInt8} (hk : Written m.key k) (hg : Gap g) (hg' : Gap g')
      (hv : ValueText m.value v) : MemberText m (0x22 :: (k ++ 0x22 :: (g ++ 0x3A :: (g' ++ v))))

/-- One member or more, with commas between. -/
inductive MembersText : List Member → List UInt8 → Prop
  | one {m : Member} {g t g' : List UInt8} (hg : Gap g) (h : MemberText m t) (hg' : Gap g') :
      MembersText [m] (g ++ (t ++ g'))
  | cons {m : Member} {g t g' ts : List UInt8} {ms : List Member} (hg : Gap g) (h : MemberText m t)
      (hg' : Gap g') (hms : MembersText ms ts) : MembersText (m :: ms)
      (g ++ (t ++ (g' ++ 0x2C :: ts)))

inductive ObjectText : List Member → List UInt8 → Prop
  | empty {g g' g'' : List UInt8} (hg : Gap g) (hg' : Gap g') (hg'' : Gap g'') :
      ObjectText [] (g ++ 0x7B :: (g' ++ 0x7D :: g''))
  | members {g t g' : List UInt8} {ms : List Member} (hg : Gap g) (h : MembersText ms t)
      (hg' : Gap g') : ObjectText ms (g ++ 0x7B :: (t ++ 0x7D :: g'))

/-- What follows in a string never continues a character. -/
theorem Written.head_not_continuation {cs : List Char} {t : List UInt8} (h : Written cs t)
    (rest : List UInt8) : ∀ c, (t ++ 0x22 :: rest)[0]? = some c → isContinuation c = false := by
  intro c hc
  cases h with
  | nil =>
    cases hc
    decide
  | @raw a _ _ _ _ _ _ =>
    obtain ⟨x, he, hx, -⟩ | ⟨x, tail, he, hx, -⟩ := encodeChar_shape a
    · rw [he] at hc
      cases hc
      exact not_continuation_of_ascii hx
    · rw [he] at hc
      cases hc
      exact not_continuation_of_lead hx
  | short | unicode =>
    cases hc
    decide

section Spelling

/-- Four hex digits spell each control character. -/
theorem hexText_control {n : Nat} (h : n < 0x20) : ∃ hex, HexText hex n ∧ hex.length = 4 := by
  have hzero : HexText [0x30, 0x30] 0 :=
    HexText.snoc (HexText.snoc HexText.nil (HexDigit.decimal (d := 0) (by decide)))
      (HexDigit.decimal (d := 0) (by decide))
  have hhigh := HexText.snoc hzero (HexDigit.decimal (d := n / 16) (by omega))
  by_cases hlow : n % 16 < 10
  · have htext := HexText.snoc hhigh (HexDigit.decimal hlow)
    rw [Nat.zero_mul, Nat.zero_add, Nat.div_add_mod'] at htext
    exact ⟨_, htext, rfl⟩
  · have htext := HexText.snoc hhigh (HexDigit.lower (d := n % 16 - 10) (by omega))
    rw [Nat.zero_mul, Nat.zero_add, show n / 16 * 16 + (10 + (n % 16 - 10)) = n by omega] at htext
    exact ⟨_, htext, rfl⟩

/-- Every string can be written between quotes. -/
theorem written_exists (cs : List Char) : ∃ t, Written cs t := by
  induction cs with
  | nil => exact ⟨[], Written.nil⟩
  | cons c cs ih =>
    obtain ⟨t, ht⟩ := ih
    by_cases hcontrol : c.toNat < 0x20
    · obtain ⟨hex, hhex, hlen⟩ := hexText_control hcontrol
      exact ⟨_, Written.unicode hhex hlen ht⟩
    · by_cases hquote : c.toNat = 0x22
      · have hc : c = Char.ofNat 0x22 := by rw [← hquote, Char.ofNat_toNat]
        exact ⟨_, Written.short (e := 0x22) (by rw [hc, shortEscapes]; exact List.mem_cons_self) ht⟩
      · by_cases hback : c.toNat = 0x5C
        · have hc : c = Char.ofNat 0x5C := by rw [← hback, Char.ofNat_toNat]
          exact ⟨_, Written.short (e := 0x5C) (by
            rw [hc, shortEscapes]
            exact List.mem_cons_of_mem _ List.mem_cons_self) ht⟩
        · exact ⟨_, Written.raw (by omega) hquote hback ht⟩

/-- A token that is not quoted is spelled with token bytes; a string may be any. -/
def Value.Spellable : Value → Prop
  | .text _ => True
  | .bare token => token ≠ [] ∧ ∀ c ∈ token, isTokenByte c = true

theorem memberText_exists {m : Member} (h : m.value.Spellable) : ∃ t, MemberText m t := by
  obtain ⟨k, hk⟩ := written_exists m.key
  have hnil : Gap [] := List.forall_mem_nil _
  obtain ⟨v, hv⟩ : ∃ v, ValueText m.value v := by
    cases hm : m.value with
    | text cs =>
      obtain ⟨t, ht⟩ := written_exists cs
      exact ⟨_, ValueText.text ht⟩
    | bare token =>
      rw [hm] at h
      exact ⟨token, ValueText.bare h.1 h.2⟩
  exact ⟨_, MemberText.mk hk hnil hnil hv⟩

/-- Every list of members can be written as an object. -/
theorem objectText_exists {ms : List Member} (h : ∀ m ∈ ms, m.value.Spellable) :
    ∃ t, ObjectText ms t := by
  have hnil : Gap [] := List.forall_mem_nil _
  have hmembers : ms ≠ [] → ∃ t, MembersText ms t := by
    intro hne
    induction ms with
    | nil => exact absurd rfl hne
    | cons m ms ih =>
      obtain ⟨hm, hrest⟩ := List.forall_mem_cons.mp h
      obtain ⟨t, ht⟩ := memberText_exists hm
      by_cases hms : ms = []
      · subst hms
        exact ⟨_, MembersText.one hnil ht hnil⟩
      · obtain ⟨ts, hts⟩ := ih hrest hms
        exact ⟨_, MembersText.cons hnil ht hnil hts⟩
  by_cases hne : ms = []
  · subst hne
    exact ⟨_, ObjectText.empty hnil hnil hnil⟩
  · obtain ⟨t, ht⟩ := hmembers hne
    exact ⟨_, ObjectText.members hnil ht hnil⟩

end Spelling

section Compact

/-- ASCII that stands for itself in a string. -/
def isPlain (c : UInt8) : Bool := 0x20 ≤ c && c < 0x80 && c ≠ 0x22 && c ≠ 0x5C

def compactMember (f : List UInt8 × List UInt8) : List UInt8 :=
  0x22 :: (f.1 ++ 0x22 :: 0x3A :: 0x22 :: (f.2 ++ [0x22]))

/-- The members with no space between, all values quoted. -/
def compactMembers : List (List UInt8 × List UInt8) → List UInt8
  | [] => []
  | [f] => compactMember f
  | f :: fs => compactMember f ++ 0x2C :: compactMembers fs

def compact (fields : List (List UInt8 × List UInt8)) : List UInt8 :=
  0x7B :: (compactMembers fields ++ [0x7D])

theorem encodeChar_plain {c : UInt8} (h : isPlain c = true) :
    String.utf8EncodeChar (Char.ofNat c.toNat) = [c] ∧ (Char.ofNat c.toNat).toNat = c.toNat := by
  have hall : ∀ n < 0x80, String.utf8EncodeChar (Char.ofNat n) = [UInt8.ofNat n] ∧
      (Char.ofNat n).toNat = n := by decide +kernel
  simp only [isPlain, Bool.and_eq_true, decide_eq_true_eq, UInt8.lt_iff_toNat_lt] at h
  have := hall c.toNat h.1.1.2
  rwa [UInt8.ofNat_toNat] at this

theorem written_plain {b : List UInt8} (h : ∀ c ∈ b, isPlain c = true) :
    ∃ cs, Written cs b ∧ utf8 cs = b := by
  induction b with
  | nil => exact ⟨[], Written.nil, rfl⟩
  | cons c b ih =>
    obtain ⟨hc, hb⟩ := List.forall_mem_cons.mp h
    obtain ⟨cs, hcs, hread⟩ := ih hb
    obtain ⟨henc, hnat⟩ := encodeChar_plain hc
    simp only [isPlain, Bool.and_eq_true, decide_eq_true_eq, UInt8.le_iff_toNat_le,
      ← UInt8.toNat_inj, ne_eq] at hc
    refine ⟨Char.ofNat c.toNat :: cs, ?_, by rw [utf8_cons, henc, hread]; rfl⟩
    have hraw := Written.raw (c := Char.ofNat c.toNat) (by rw [hnat]; exact hc.1.1.1)
      (by rw [hnat]; exact hc.1.2) (by rw [hnat]; exact hc.2) hcs
    rwa [henc] at hraw

theorem memberText_compact {f : List UInt8 × List UInt8} (hk : ∀ c ∈ f.1, isPlain c = true)
    (hv : ∀ c ∈ f.2, isPlain c = true) : ∃ m, MemberText m (compactMember f) ∧ m.read = f := by
  obtain ⟨k, hk, hkread⟩ := written_plain hk
  obtain ⟨v, hv, hvread⟩ := written_plain hv
  have hnil : Gap [] := List.forall_mem_nil _
  refine ⟨⟨k, .text v⟩, MemberText.mk hk hnil hnil (ValueText.text hv), ?_⟩
  rw [Member.read, hkread, Value.content, hvread]

theorem membersText_compact {fields : List (List UInt8 × List UInt8)} (hne : fields ≠ [])
    (h : ∀ f ∈ fields, (∀ c ∈ f.1, isPlain c = true) ∧ ∀ c ∈ f.2, isPlain c = true) :
    ∃ ms, MembersText ms (compactMembers fields) ∧ ms.map Member.read = fields := by
  have hnil : Gap [] := List.forall_mem_nil _
  induction fields using compactMembers.induct with
  | case1 => exact absurd rfl hne
  | case2 f =>
    have hf := h f List.mem_cons_self
    obtain ⟨m, hm, hread⟩ := memberText_compact hf.1 hf.2
    refine ⟨[m], ?_, by rw [List.map_singleton, hread]⟩
    have hone := MembersText.one hnil hm hnil
    rwa [List.nil_append, List.append_nil] at hone
  | case3 f fs hfs ih =>
    obtain ⟨hf, hrest⟩ := List.forall_mem_cons.mp h
    obtain ⟨m, hm, hread⟩ := memberText_compact hf.1 hf.2
    obtain ⟨ms, hms, hreads⟩ := ih (fun hn => hfs hn) hrest
    refine ⟨m :: ms, ?_, by rw [List.map_cons, hread, hreads]⟩
    rw [compactMembers]
    · exact MembersText.cons hnil hm hnil hms
    · exact hfs

/-- The compact text of plain fields is one of their spellings. -/
theorem objectText_compact {fields : List (List UInt8 × List UInt8)} (hne : fields ≠ [])
    (h : ∀ f ∈ fields, (∀ c ∈ f.1, isPlain c = true) ∧ ∀ c ∈ f.2, isPlain c = true) :
    ∃ ms, ObjectText ms (compact fields) ∧ ms.map Member.read = fields := by
  obtain ⟨ms, hms, hread⟩ := membersText_compact hne h
  have hnil : Gap [] := List.forall_mem_nil _
  exact ⟨ms, ObjectText.members hnil hms hnil, hread⟩

end Compact

end Temari.JsonText
