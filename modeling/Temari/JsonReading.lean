import Temari.FlatJson
import Temari.JsonText

/-! The flat JSON parser reads back what a document spells. -/
namespace Temari.JsonReading
open RoundMachine Utf8 FlatJson JsonText
variable {b : Bytes} {i : Nat} {c : UInt8}

section Hex

theorem hexDigit_of {d : Nat} (h : HexDigit c d) : hexDigit c = some d := by
  have hdecimal : ∀ d < 10, hexDigit (UInt8.ofNat (0x30 + d)) = some d := by decide
  have hupper : ∀ d < 6, hexDigit (UInt8.ofNat (0x41 + d)) = some (10 + d) := by decide
  have hlower : ∀ d < 6, hexDigit (UInt8.ofNat (0x61 + d)) = some (10 + d) := by decide
  cases h with
  | decimal h => exact hdecimal _ h
  | upper h => exact hupper _ h
  | lower h => exact hlower _ h

theorem pushDigit_ok {bits acc d : Nat} (hc : HexDigit c d) (hv : acc * 16 + d < 2 ^ bits) :
    pushDigit bits acc c = .ok (acc * 16 + d) := by
  rw [pushDigit, hexDigit_of hc]
  exact if_pos hv

theorem hexDigits_text {bits v : Nat} {hex : Bytes} (h : HexText hex v) (hv : v < 2 ^ bits) :
    hexDigits bits hex = .ok v := by
  induction h with
  | nil => rfl
  | snoc h hc ih =>
    have ih := ih (by omega)
    rw [hexDigits] at ih ⊢
    rw [List.foldlM_append, ih]
    exact (bind_pure _).trans (pushDigit_ok hc hv)

theorem HexText.digits {v : Nat} {hex : Bytes} (h : HexText hex v) :
    ∀ c ∈ hex, ∃ d, hexDigit c = some d := by
  induction h with
  | nil => exact List.forall_mem_nil _
  | snoc _ hc ih =>
    rw [List.forall_mem_append]
    exact ⟨ih, List.forall_mem_singleton.mpr ⟨_, hexDigit_of hc⟩⟩

theorem hexDigit_printable {d : Nat} (h : hexDigit c = some d) : 0x20 < c ∧ c < 0x80 := by
  have hrange : ∀ lo hi : UInt8, 0x20 < lo → hi < 0x80 → lo ≤ c ∧ c ≤ hi → 0x20 < c ∧ c < 0x80 :=
    fun lo hi hlo hhi hc => ⟨UInt8.lt_of_lt_of_le hlo hc.1, UInt8.lt_of_le_of_lt hc.2 hhi⟩
  unfold hexDigit at h
  split at h
  next hc => exact hrange _ _ (by decide) (by decide) hc
  next =>
    split at h
    next hc => exact hrange _ _ (by decide) (by decide) hc
    next =>
      split at h
      next hc => exact hrange _ _ (by decide) (by decide) hc
      next => cases h

/-- A number is read back from its hex digits. -/
theorem fromStrRadix16_text {bits v : Nat} {hex : Bytes} (h : HexText hex v) (hne : hex ≠ [])
    (hv : v < 2 ^ bits) : fromStrRadix16 bits hex = .ok v := by
  have hdigits := hexDigits_text h hv
  have hsign : ∀ c ∈ hex, c ≠ 0x2B ∧ c ≠ 0x2D := fun c hc => by
    obtain ⟨d, hd⟩ := HexText.digits h c hc
    constructor
    · rintro rfl
      cases hd
    · rintro rfl
      cases hd
  match hex with
  | [] => exact absurd rfl hne
  | [c] =>
    obtain ⟨hplus, hminus⟩ := hsign c List.mem_cons_self
    rw [fromStrRadix16, if_neg (not_or.mpr ⟨hplus, hminus⟩), hdigits]
  | c :: c' :: rest =>
    rw [fromStrRadix16, if_neg (hsign c List.mem_cons_self).1, hdigits]
    intro h
    cases h

theorem unicodeEscape_text {hex : Bytes} {a : Char} (h : HexText hex a.toNat)
    (hlen : hex.length = 4) : unicodeEscape hex = String.utf8EncodeChar a := by
  have hbound : a.toNat < 2 ^ 32 := a.val.toNat_lt
  have hne : hex ≠ [] := by
    rintro rfl
    cases hlen
  have hvalid : a.toNat.isValidChar := a.valid
  rw [unicodeEscape, fromStrRadix16_text h hne hbound]
  simp [charFromU32, hvalid]

end Hex

section Strings

/-- One turn of the string loop. -/
theorem readString_some {acc : Bytes} (h : b[i]? = some c) :
    readString b i acc = if c = quote then some (acc, i)
      else if c = backslash ∧ i + 1 < b.length then
        (escape b (i + 1)).bind fun r => readString b (i + 1 + r.2 + 1) (acc ++ r.1)
      else readString b (i + 1) (acc ++ [c]) := by
  rw [readString]
  split
  next hn => cases h.symm.trans hn
  next c hc =>
    cases h.symm.trans hc
    cases escape b (i + 1) <;> rfl

theorem readString_quote {acc : Bytes} (h : b[i]? = some quote) :
    readString b i acc = some (acc, i) := by
  rw [readString_some h, if_pos rfl]

theorem readString_plain {acc : Bytes} (h : b[i]? = some c) (hq : c ≠ quote) (hb : c ≠ backslash) :
    readString b i acc = readString b (i + 1) (acc ++ [c]) := by
  rw [readString_some h, if_neg hq, if_neg fun hback => hb hback.1]

theorem readString_escape {acc pushed : Bytes} {skip : Nat} (h : b[i]? = some backslash)
    (hlt : i + 1 < b.length) (he : escape b (i + 1) = some (pushed, skip)) :
    readString b i acc = readString b (i + 1 + skip + 1) (acc ++ pushed) := by
  rw [readString_some h, if_neg (by decide), if_pos ⟨rfl, hlt⟩, he, Option.bind_some]

/-- Bytes that are neither quotes nor backslashes are taken over. -/
theorem readString_run {p : Bytes} (hp : ∀ c ∈ p, c ≠ quote ∧ c ≠ backslash) (t acc : Bytes)
    (h : b.drop i = p ++ t) : readString b i acc = readString b (i + p.length) (acc ++ p) := by
  induction p generalizing i acc with
  | nil => simp
  | cons c p ih =>
    have hc := List.forall_mem_cons.mp hp
    have hnext : b.drop (i + 1) = p ++ t := drop_next h
    rw [readString_plain (getElem?_of_drop h) hc.1.1 hc.1.2, ih hc.2 _ hnext]
    simp only [List.length_cons, List.append_assoc, List.singleton_append]
    congr 1
    omega

theorem encodeChar_plain {a : Char} (hquote : a.toNat ≠ 0x22) (hback : a.toNat ≠ 0x5C) :
    ∀ c ∈ String.utf8EncodeChar a, c ≠ quote ∧ c ≠ backslash := by
  obtain ⟨x, he, -, hx⟩ | ⟨x, rest, he, hx, hrest⟩ := encodeChar_shape a
  · rw [he, List.forall_mem_singleton]
    constructor
    · rintro rfl
      exact hquote hx.symm
    · rintro rfl
      exact hback hx.symm
  · -- quotes and backslashes are ASCII, these bytes are not
    rw [he, List.forall_mem_cons]
    refine ⟨⟨?_, ?_⟩, fun c hc => ⟨?_, ?_⟩⟩
    · rintro rfl
      exact absurd hx (by decide)
    · rintro rfl
      exact absurd hx (by decide)
    · rintro rfl
      cases hrest _ hc
    · rintro rfl
      cases hrest _ hc

theorem escape_short {a : Char} {e : UInt8} (he : (a, e) ∈ shortEscapes) (h : b[i]? = some e) :
    escape b i = some (String.utf8EncodeChar a, 0) := by
  rw [escape, h]
  simp only [shortEscapes, List.mem_cons, Prod.mk.injEq, List.not_mem_nil, or_false] at he
  obtain ⟨rfl, rfl⟩ | ⟨rfl, rfl⟩ | ⟨rfl, rfl⟩ | ⟨rfl, rfl⟩ | ⟨rfl, rfl⟩ := he <;> rfl

theorem escape_unicode {hex t : Bytes} {a : Char} (hhex : HexText hex a.toNat)
    (hlen : hex.length = 4) (h : b.drop i = 0x75 :: (hex ++ t))
    (ht : ∀ c, t[0]? = some c → isContinuation c = false) (hne : t ≠ []) :
    escape b i = some (String.utf8EncodeChar a, 4) := by
  have hget := getElem?_of_drop h
  have hdrop : b.drop (i + 1) = hex ++ t := drop_next h
  have hend : b.drop (i + 1 + 4) = t := hlen ▸ drop_after hdrop
  have hroom : i + 4 < b.length := by
    have hlen' := congrArg List.length hend
    have hpos := List.length_pos_iff.mpr hne
    rw [List.length_drop] at hlen'
    omega
  have hslice : sliceStr b (i + 1) (i + 5) = some hex := by
    have hfirst : isCharBoundary b (i + 1) = true :=
      (boundary_iff (by omega) (by omega)).mpr fun c hc => by
        have hmem : c ∈ hex := by
          have hc0 := (@List.getElem?_drop _ b (i + 1) 0).trans hc
          rw [hdrop, List.getElem?_append_left (by omega)] at hc0
          exact List.mem_of_getElem? hc0
        obtain ⟨d, hd⟩ := HexText.digits hhex c hmem
        exact not_continuation_of_ascii (hexDigit_printable hd).2
    have hlast : isCharBoundary b (i + 5) = true :=
      (boundary_iff (by omega) (by omega)).mpr fun c hc => ht c (by
        rw [← hend, List.getElem?_drop]
        exact hc)
    have hcut := take_between hdrop
    rw [hlen] at hcut
    rw [sliceStr, if_pos ⟨by omega, hfirst, hlast⟩, hcut]
  rw [escape, hget]
  simp [quote, backslash, hroom, hslice, unicodeEscape_text hhex hlen]

/-- A string body is read up to its closing quote. -/
theorem readString_written {cs : List Char} {t : Bytes} (h : Written cs t) (rest acc : Bytes)
    (hdrop : b.drop i = t ++ quote :: rest) :
    readString b i acc = some (acc ++ utf8 cs, i + t.length) := by
  induction h generalizing i acc with
  | nil =>
    rw [readString_quote (getElem?_of_drop hdrop)]
    simp [utf8]
  | raw _ hquote hback _ ih =>
    rw [List.append_assoc] at hdrop
    rw [readString_run (encodeChar_plain hquote hback) _ _ hdrop, ih _ (drop_after hdrop)]
    simp [utf8_cons, Nat.add_assoc]
  | short he _ ih =>
    rw [List.cons_append, List.cons_append] at hdrop
    have hnext := drop_next hdrop
    have hlt : i + 1 < b.length := (List.getElem?_eq_some_iff.mp (getElem?_of_drop hnext)).1
    rw [readString_escape (getElem?_of_drop hdrop) hlt (escape_short he (getElem?_of_drop hnext)),
      ih _ (drop_next hnext), utf8_cons, List.append_assoc]
    simp only [List.length_cons, Option.some.injEq, Prod.mk.injEq, true_and]
    omega
  | @unicode c hex _ t hhex hlen h ih =>
    rw [List.cons_append, List.cons_append, List.append_assoc] at hdrop
    have hnext := drop_next hdrop
    have hlt : i + 1 < b.length := (List.getElem?_eq_some_iff.mp (getElem?_of_drop hnext)).1
    have hafter := drop_after (drop_next hnext)
    rw [hlen] at hafter
    rw [readString_escape (getElem?_of_drop hdrop) hlt (escape_unicode hhex hlen hnext
      (h.head_not_continuation rest) (by simp)), ih _ hafter, utf8_cons, List.append_assoc]
    simp only [List.length_cons, List.length_append, hlen, Option.some.injEq, Prod.mk.injEq,
      true_and]
    omega

end Strings

section Values
variable {g t rest : Bytes}

/-- What holds of the four kinds of space holds through a gap. -/
theorem gap_all {p : UInt8 → Bool} (hg : Gap g) (h20 : p 0x20 = true) (h09 : p 0x09 = true)
    (h0A : p 0x0A = true) (h0D : p 0x0D = true) : ∀ c ∈ g, p c = true := by
  intro c hc
  obtain rfl | rfl | rfl | rfl := hg c hc
  · exact h20
  · exact h09
  · exact h0A
  · exact h0D

theorem isWhitespace_of_gap (hg : Gap g) : ∀ c ∈ g, isWhitespace c = true :=
  gap_all hg rfl rfl rfl rfl

theorem isSeparator_of_gap (hg : Gap g) : ∀ c ∈ g, isSeparator c = true := by
  intro c hc
  rw [isSeparator, isWhitespace_of_gap hg c hc]
  rfl

/-- After a value comes a byte that ends a bare one. -/
theorem gap_stops (hg : Gap g) {s : UInt8} (hs : isBare s = false) (t : Bytes) :
    ∀ c, (g ++ s :: t).head? = some c → isBare c = false := by
  intro c hc
  cases g with
  | nil =>
    cases hc
    exact hs
  | cons a g =>
    cases hc
    rw [isBare, isWhitespace_of_gap hg c List.mem_cons_self]
    rfl

theorem token_bare (h : isTokenByte c = true) : isBare c = true ∧ c ≠ quote ∧ c < 0x80 := by
  simp only [isTokenByte, Bool.or_eq_true, Bool.and_eq_true, decide_eq_true_eq,
    UInt8.le_iff_toNat_le, ← UInt8.toNat_inj] at h
  simp only [isBare, isWhitespace, Bool.and_eq_true, Bool.not_eq_true', Bool.or_eq_false_iff,
    decide_eq_false_iff_not, decide_eq_true_eq, ne_eq, ← UInt8.toNat_inj, UInt8.lt_iff_toNat_lt]
  simp [quote] at h ⊢
  omega

/-- Text that ends before a stop is a slice of its own. -/
theorem sliceStr_token (hne : t ≠ []) (htok : ∀ c ∈ t, isTokenByte c = true)
    (hdrop : b.drop i = t ++ rest) (hrest : ∀ c, rest.head? = some c → isBare c = false) :
    sliceStr b i (i + t.length) = some t := by
  have hstart : isCharBoundary b i = true := by
    cases t with
    | nil => exact absurd rfl hne
    | cons c t =>
      exact boundary_ascii (getElem?_of_drop hdrop) (token_bare (htok c List.mem_cons_self)).2.2
  have hend : isCharBoundary b (i + t.length) = true := by
    cases rest with
    | nil =>
      have hlen := congrArg List.length hdrop
      rw [List.length_drop, List.append_nil] at hlen
      have hpos := List.length_pos_iff.mpr hne
      rw [show i + t.length = b.length by omega]
      exact boundary_length b
    | cons c rest =>
      exact boundary_ascii (getElem?_of_drop (drop_after hdrop)) (ascii_of_not_isBare (hrest c rfl))
  rw [sliceStr, if_pos ⟨Nat.le_add_right _ _, hstart, hend⟩, take_between hdrop]

theorem readValue_text {v : Value} (h : ValueText v t) (hdrop : b.drop i = t ++ rest)
    (hrest : ∀ c, rest.head? = some c → isBare c = false) :
    readValue b i = some (v.content, i + t.length) := by
  cases h with
  | text h =>
    rw [List.cons_append, List.append_assoc] at hdrop
    rw [readValue, if_pos (getElem?_of_drop hdrop), readString_written h rest [] (drop_next hdrop)]
    simp only [List.nil_append, fromUtf8Lossy_utf8, Value.content, List.length_cons,
      List.length_append, List.length_nil]
    congr 2
    omega
  | bare hne htok =>
    have hquote : b[i]? ≠ some quote := by
      cases t with
      | nil => exact absurd rfl hne
      | cons c t =>
        rw [getElem?_of_drop hdrop, ne_eq, Option.some.injEq]
        exact (token_bare (htok c List.mem_cons_self)).2.1
    have hskip := skipWhile_eq hdrop (fun c hc => (token_bare (htok c hc)).1) hrest
    rw [readValue, if_neg hquote]
    simp only [hskip, sliceStr_token hne htok hdrop hrest, Value.content]

theorem value_head {v : Value} (h : ValueText v t) (rest : Bytes) :
    ∀ c, (t ++ rest).head? = some c → isWhitespace c = false := by
  intro c hc
  cases h with
  | text h =>
    cases hc
    rfl
  | bare hne htok =>
    cases t with
    | nil => exact absurd rfl hne
    | cons a t =>
      cases hc
      have := (token_bare (htok c List.mem_cons_self)).1
      simp only [isBare, Bool.and_eq_true, Bool.not_eq_true'] at this
      exact this.1.1

end Values

section Members
variable {t rest sep : Bytes} {m : Member} {ms : List Member} {out : List (Bytes × Bytes)}

/-- One turn of the member loop. -/
theorem readMembers_step {key val : Bytes} {start keyEnd next : Nat}
    (hstart : skipWhile isSeparator b i = start) (hq : b[start]? = some quote)
    (hk : readString b (start + 1) [] = some (key, keyEnd))
    (hv : readValue b (skipWhile isWhitespace b (skipWhile (· ≠ colon) b (keyEnd + 1) + 1)) =
      some (val, next)) :
    readMembers b i out = readMembers b next (out ++ [(fromUtf8Lossy key, val)]) := by
  subst hstart
  have hlt := (List.getElem?_eq_some_iff.mp hq).1
  have hle := le_skipWhile isSeparator b i
  rw [readMembers, if_pos (by omega), if_neg (by omega), if_neg (not_not.mpr hq)]
  split
  next hn => cases hk.symm.trans hn
  next hs =>
    cases hk.symm.trans hs
    dsimp only
    split
    next hn => cases hv.symm.trans hn
    next hs =>
      cases hv.symm.trans hs
      rfl

theorem readMembers_member (h : MemberText m t) (hsep : ∀ c ∈ sep, isSeparator c = true)
    (hdrop : b.drop i = sep ++ (t ++ rest)) (hrest : ∀ c, rest.head? = some c → isBare c = false) :
    readMembers b i out = readMembers b (i + sep.length + t.length) (out ++ [m.read]) := by
  obtain ⟨hk, hg, hg', hv⟩ := h
  rename_i k g g' v
  have hstart : skipWhile isSeparator b i = i + sep.length :=
    skipWhile_eq hdrop hsep fun c hc => by
      cases hc
      rfl
  have hmember := drop_after hdrop
  simp only [List.cons_append, List.append_assoc] at hmember
  have hkey := readString_written hk _ [] (drop_next hmember)
  have hgap := drop_next (drop_after (drop_next hmember))
  have hcolon : skipWhile (· ≠ colon) b (i + sep.length + 1 + k.length + 1) =
      i + sep.length + 1 + k.length + 1 + g.length :=
    skipWhile_eq hgap (gap_all hg rfl rfl rfl rfl) (by
      intro c hc
      cases hc
      rfl)
  have hafter := drop_next (drop_after hgap)
  have hspace : skipWhile isWhitespace b (i + sep.length + 1 + k.length + 1 + g.length + 1) =
      i + sep.length + 1 + k.length + 1 + g.length + 1 + g'.length :=
    skipWhile_eq hafter (isWhitespace_of_gap hg') (value_head hv rest)
  have hvalue := readValue_text hv (drop_after hafter) hrest
  rw [readMembers_step hstart (getElem?_of_drop hmember) hkey
    (by rw [hcolon, hspace]; exact hvalue), List.nil_append, fromUtf8Lossy_utf8, Member.read]
  congr 1
  simp only [List.length_cons, List.length_append]
  omega

/-- Nothing but separators is left. -/
theorem readMembers_end (hsep : ∀ c ∈ sep, isSeparator c = true) (hdrop : b.drop i = sep) :
    readMembers b i out = some out := by
  rw [readMembers]
  split
  · next hi =>
    have hskip := skipWhile_eq (t := []) (by rw [hdrop, List.append_nil]) hsep (by simp)
    have hlen := congrArg List.length hdrop
    rw [List.length_drop] at hlen
    rw [if_pos]
    omega
  · rfl

theorem readMembers_members (h : MembersText ms t) (hsep : ∀ c ∈ sep, isSeparator c = true)
    {stop : Bytes} (hstop : ∀ c ∈ stop, isSeparator c = true)
    (hdrop : b.drop i = sep ++ (t ++ 0x7D :: stop)) :
    readMembers b i out = some (out ++ ms.map Member.read) := by
  induction h generalizing i sep out with
  | one hg h hg' =>
    simp only [List.append_assoc] at hdrop
    rw [← List.append_assoc] at hdrop
    have hsep' := List.forall_mem_append.mpr ⟨hsep, isSeparator_of_gap hg⟩
    rw [readMembers_member h hsep' hdrop (gap_stops hg' rfl _)]
    refine readMembers_end (List.forall_mem_append.mpr ⟨isSeparator_of_gap hg', ?_⟩)
      (drop_after (drop_after hdrop))
    exact List.forall_mem_cons.mpr ⟨rfl, hstop⟩
  | @cons m _ _ _ _ ms hg h hg' hms ih =>
    simp only [List.append_assoc, List.cons_append] at hdrop
    rw [← List.append_assoc] at hdrop
    have hsep' := List.forall_mem_append.mpr ⟨hsep, isSeparator_of_gap hg⟩
    have hnext := drop_after (drop_after hdrop)
    rw [readMembers_member h hsep' hdrop (gap_stops hg' rfl _), List.map_cons,
      List.append_cons out m.read (List.map _ ms)]
    refine @ih _ (_ ++ [0x2C]) _ (List.forall_mem_append.mpr ⟨isSeparator_of_gap hg', ?_⟩) ?_
    · exact List.forall_mem_singleton.mpr rfl
    · rw [hnext, List.append_assoc]
      rfl

/-- Every spelling of an object is read back as its members, in order. -/
theorem parseFlatJson_object {text : Bytes} (h : ObjectText ms text) :
    parseFlatJson text = some (ms.map Member.read) := by
  have hopen {g t : Bytes} (hg : Gap g) : skipWhile (· ≠ 0x7B) (g ++ 0x7B :: t) 0 = g.length := by
    rw [skipWhile_eq rfl (gap_all hg rfl rfl rfl rfl) (by
      intro c hc
      cases hc
      rfl), Nat.zero_add]
  cases h with
  | @empty g g' g'' hg hg' hg'' =>
    rw [parseFlatJson, hopen hg]
    have hsep : ∀ c ∈ g' ++ 0x7D :: g'', isSeparator c = true :=
      List.forall_mem_append.mpr ⟨isSeparator_of_gap hg',
        List.forall_mem_cons.mpr ⟨rfl, isSeparator_of_gap hg''⟩⟩
    exact readMembers_end hsep (drop_next List.drop_left)
  | members hg h hg' =>
    rw [parseFlatJson, hopen hg]
    have hnone : ∀ c ∈ ([] : Bytes), isSeparator c = true := List.forall_mem_nil _
    exact readMembers_members h hnone (isSeparator_of_gap hg') (drop_next List.drop_left)

/-- Every list of members can be written, and whatever escapes and whitespace it is written
with, the parser gives it back in order, strings unescaped and bare tokens as they are. -/
theorem members_recovered (ms : List Member) :
    ((∀ m ∈ ms, m.value.Spellable) → ∃ text, ObjectText ms text) ∧
      ∀ text, ObjectText ms text →
        parseFlatJson text = some (ms.map fun m => (utf8 m.key, m.value.content)) :=
  ⟨objectText_exists, fun _ h => parseFlatJson_object h⟩

theorem members_recovered_escaped :
    parseFlatJson [0x7B, 0x22, 0x5C, 0x75, 0x30, 0x30, 0x34, 0x31, 0x22, 0x3A, 0x20, 0x31, 0x7D] =
      some [([0x41], [0x31])] := by
  have hnil : Gap [] := List.forall_mem_nil _
  have hspace : Gap [0x20] := List.forall_mem_singleton.mpr (Or.inl rfl)
  have hhex : HexText [0x30, 0x30, 0x34, 0x31] 0x41 :=
    HexText.snoc (HexText.snoc (HexText.snoc (HexText.snoc HexText.nil
      (HexDigit.decimal (d := 0) (by decide))) (HexDigit.decimal (d := 0) (by decide)))
      (HexDigit.decimal (d := 4) (by decide))) (HexDigit.decimal (d := 1) (by decide))
  have hkey := Written.unicode (c := Char.ofNat 0x41) hhex rfl Written.nil
  have hmember : MemberText ⟨[Char.ofNat 0x41], .bare [0x31]⟩ _ :=
    MemberText.mk hkey hnil hspace (ValueText.bare (List.cons_ne_nil _ _)
      (List.forall_mem_singleton.mpr rfl))
  exact (members_recovered _).2 _
    (ObjectText.members hnil (MembersText.one hnil hmember hnil) hnil)

end Members

end Temari.JsonReading
