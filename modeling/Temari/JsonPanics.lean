import Temari.FlatJson
import Temari.TemplateLoader

/-! Where the JSON parser panics. Two kinds of places in the text decide it: a key that no
colon follows, and a \u escape whose four bytes end inside a character. -/
namespace Temari.JsonPanics
open RoundMachine Utf8 FlatJson TemplateLoader
variable {b : Bytes} {i j : Nat} {c : UInt8}

/-- A place the parser passes: the text after a key, or after a \u that at least four bytes
follow. -/
inductive Place where
  | key (after : Bytes)
  | escape (after : Bytes)

/-- A colon comes after the key; the four bytes of the escape end at a boundary. -/
def Place.Whole : Place → Prop
  | .key after => colon ∈ after
  | .escape after => ∀ c, after[4]? = some c → isContinuation c = false

/-- The escapes in the body of a quoted string, and the text after its closing quote. -/
def bodyPlaces : Bytes → List Place × Bytes
  | [] => ([], [])
  | c :: rest =>
    if c = quote then ([], rest)
    else if c = backslash then
      match rest with
      | [] => ([], [])
      | e :: rest =>
        if e = 0x75 ∧ 4 ≤ rest.length then
          (.escape rest :: (bodyPlaces (rest.drop 4)).1, (bodyPlaces (rest.drop 4)).2)
        else bodyPlaces rest
    else bodyPlaces rest
termination_by b => b.length
decreasing_by
  all_goals
    simp only [List.length_cons, List.length_drop]
    omega

theorem bodyPlaces_nil : bodyPlaces [] = ([], []) := by rw [bodyPlaces]

theorem bodyPlaces_quote (rest : Bytes) : bodyPlaces (quote :: rest) = ([], rest) := by
  rw [bodyPlaces.eq_def]
  rfl

theorem bodyPlaces_plain (hq : c ≠ quote) (hb : c ≠ backslash) (rest : Bytes) :
    bodyPlaces (c :: rest) = bodyPlaces rest := by
  rw [bodyPlaces.eq_def]
  exact (if_neg hq).trans (if_neg hb)

theorem bodyPlaces_last : bodyPlaces [backslash] = ([], []) := by
  rw [bodyPlaces.eq_def]
  rfl

theorem bodyPlaces_unicode (rest : Bytes) (h : 4 ≤ rest.length) :
    bodyPlaces (backslash :: 0x75 :: rest) =
      (.escape rest :: (bodyPlaces (rest.drop 4)).1, (bodyPlaces (rest.drop 4)).2) := by
  rw [bodyPlaces.eq_def]
  exact (if_neg (by decide)).trans ((if_pos rfl).trans (if_pos ⟨rfl, h⟩))

theorem bodyPlaces_escape {rest : Bytes} (h : ¬ (c = 0x75 ∧ 4 ≤ rest.length)) :
    bodyPlaces (backslash :: c :: rest) = bodyPlaces rest := by
  rw [bodyPlaces.eq_def]
  exact (if_neg (by decide)).trans ((if_pos rfl).trans (if_neg h))

theorem bodyPlaces_length (b : Bytes) : (bodyPlaces b).2.length ≤ b.length := by
  fun_induction bodyPlaces b with
  | case1 | case2 | case3 => simp
  | case4 _ _ _ _ ih =>
    simp only [List.length_cons, List.length_drop] at ih ⊢
    omega
  | case5 _ _ _ _ ih =>
    simp only [List.length_cons]
    omega
  | case6 _ _ _ _ ih =>
    simp only [List.length_cons]
    omega

/-- The escapes in a value, and the text after it. -/
def valuePlaces (b : Bytes) : List Place × Bytes :=
  if b.head? = some quote then bodyPlaces b.tail else ([], b.dropWhile isBare)

theorem dropWhile_length_le (p : UInt8 → Bool) (b : Bytes) : (b.dropWhile p).length ≤ b.length :=
  (List.dropWhile_sublist p).length_le

theorem valuePlaces_length (b : Bytes) : (valuePlaces b).2.length ≤ b.length := by
  unfold valuePlaces
  split
  · have := bodyPlaces_length b.tail
    rw [List.length_tail] at this
    omega
  · exact dropWhile_length_le _ _

/-- The text from the value on, which comes after the next colon. -/
def valueText (after : Bytes) : Bytes :=
  (after.dropWhile (· ≠ colon)).tail.dropWhile isWhitespace

theorem valueText_length (b : Bytes) : (valueText b).length ≤ b.length := by
  have h1 := dropWhile_length_le (· ≠ colon) b
  have h2 := dropWhile_length_le isWhitespace (b.dropWhile (· ≠ colon)).tail
  rw [List.length_tail] at h2
  rw [valueText]
  omega

/-- The places in the members of an object. -/
def memberPlaces (b : Bytes) : List Place :=
  match _h : b.dropWhile isSeparator with
  | [] => []
  | c :: rest =>
    if c = quote then
      let key := bodyPlaces rest
      let value := valuePlaces (valueText key.2)
      key.1 ++ .key key.2 :: value.1 ++ memberPlaces value.2
    else []
termination_by b.length
decreasing_by
  have h1 := dropWhile_length_le isSeparator b
  have h2 := bodyPlaces_length rest
  have h3 := valueText_length (bodyPlaces rest).2
  have h4 := valuePlaces_length (valueText (bodyPlaces rest).2)
  rw [_h, List.length_cons] at h1
  omega

theorem memberPlaces_nil (h : b.dropWhile isSeparator = []) : memberPlaces b = [] := by
  rw [memberPlaces.eq_def]
  split
  next => rfl
  next hc => cases h.symm.trans hc

theorem memberPlaces_other {rest : Bytes} (h : b.dropWhile isSeparator = c :: rest)
    (hq : c ≠ quote) : memberPlaces b = [] := by
  rw [memberPlaces.eq_def]
  split
  next => rfl
  next hc =>
    cases h.symm.trans hc
    exact if_neg hq

theorem memberPlaces_quote {rest : Bytes} (h : b.dropWhile isSeparator = quote :: rest) :
    memberPlaces b = (bodyPlaces rest).1 ++ .key (bodyPlaces rest).2 ::
      (valuePlaces (valueText (bodyPlaces rest).2)).1 ++
      memberPlaces (valuePlaces (valueText (bodyPlaces rest).2)).2 := by
  rw [memberPlaces.eq_def]
  split
  next hn => cases h.symm.trans hn
  next hc =>
    cases h.symm.trans hc
    exact if_pos rfl

/-- The keys and escapes of a text. -/
def placesOf (text : Bytes) : List Place := memberPlaces (text.dropWhile (· ≠ 0x7B)).tail

section Body

/-- All places are whole. -/
def AllWhole (ps : List Place) : Prop := ∀ p ∈ ps, p.Whole

theorem escape_other (h : b[i]? = some c) (hu : c ≠ 0x75) :
    ∃ pushed, escape b i = some (pushed, 0) := by
  rw [escape, h]
  dsimp only
  repeat
    split
    · exact ⟨_, rfl⟩
  exact ⟨_, rfl⟩

theorem escape_short (h : b[i]? = some 0x75) (hs : ¬ i + 4 < b.length) :
    escape b i = some ([], 0) := by
  rw [escape, h]
  simp [quote, backslash, hs]

theorem escape_unicode (hb : Aligned b) (h : b[i]? = some 0x75) (hs : i + 4 < b.length) :
    escape b i = none ∧ ¬ (Place.escape (b.drop (i + 1))).Whole ∨
      ∃ pushed, escape b i = some (pushed, 4) ∧ (Place.escape (b.drop (i + 1))).Whole := by
  have hstart := boundary_after hb h (by decide)
  have hget : (b.drop (i + 1))[4]? = b[i + 5]? := by rw [List.getElem?_drop]
  have hwhole : (Place.escape (b.drop (i + 1))).Whole ↔ isCharBoundary b (i + 5) = true := by
    rw [boundary_iff (by omega) (by omega), Place.Whole, hget]
  rw [hwhole]
  cases hend : isCharBoundary b (i + 5) with
  | true =>
    have hslice : sliceStr b (i + 1) (i + 5) = some ((b.take (i + 5)).drop (i + 1)) := by
      rw [sliceStr, if_pos ⟨by omega, hstart, hend⟩]
    exact Or.inr ⟨unicodeEscape ((b.take (i + 5)).drop (i + 1)),
      by simp [escape, h, quote, backslash, hs, hslice], rfl⟩
  | false =>
    have hslice : sliceStr b (i + 1) (i + 5) = none := by
      rw [sliceStr, if_neg (by simp [hend])]
    exact Or.inl ⟨by simp [escape, h, quote, backslash, hs, hslice], by decide⟩

/-- An escape fails just when it is a \u whose window is cut; else the cursor goes on. -/
theorem escape_places (hb : Aligned b) (h : b[i]? = some c) :
    escape b i = none ∧ ¬ AllWhole (bodyPlaces (backslash :: b.drop i)).1 ∨
      ∃ pushed skip ps, escape b i = some (pushed, skip) ∧ AllWhole ps ∧
        bodyPlaces (backslash :: b.drop i) =
          (ps ++ (bodyPlaces (b.drop (i + skip + 1))).1,
          (bodyPlaces (b.drop (i + skip + 1))).2) := by
  have hlen : (b.drop (i + 1)).length = b.length - (i + 1) := List.length_drop
  rw [drop_eq_cons h]
  by_cases hu : c = 0x75
  · subst hu
    by_cases hs : i + 4 < b.length
    · have hp := bodyPlaces_unicode (b.drop (i + 1)) (by omega)
      rw [List.drop_drop] at hp
      obtain ⟨hnone, hcut⟩ | ⟨pushed, hsome, hwhole⟩ := escape_unicode hb h hs
      · refine Or.inl ⟨hnone, fun hall => hcut (hall _ ?_)⟩
        rw [hp]
        exact List.mem_cons_self
      · refine Or.inr ⟨pushed, 4, [.escape (b.drop (i + 1))], hsome, ?_, hp⟩
        exact List.forall_mem_singleton.mpr hwhole
    · exact Or.inr ⟨[], 0, [], escape_short h hs, List.forall_mem_nil _,
        bodyPlaces_escape (by omega)⟩
  · obtain ⟨pushed, hsome⟩ := escape_other h hu
    exact Or.inr ⟨pushed, 0, [], hsome, List.forall_mem_nil _,
      bodyPlaces_escape fun hc => hu hc.1⟩

/-- A string body is read through just when its escapes are whole. -/
theorem readString_places (hb : Aligned b) (i : Nat) (acc : Bytes) :
    readString b i acc = none ∧ ¬ AllWhole (bodyPlaces (b.drop i)).1 ∨
      ∃ v j, readString b i acc = some (v, j) ∧ AllWhole (bodyPlaces (b.drop i)).1 ∧
        b.drop (j + 1) = (bodyPlaces (b.drop i)).2 := by
  fun_induction readString b i acc with
  | case1 i acc hi =>
    refine Or.inr ⟨acc, i, rfl, ?_⟩
    rw [← List.drop_drop, drop_eq_nil hi, bodyPlaces_nil]
    exact ⟨List.forall_mem_nil _, rfl⟩
  | case2 i acc hi =>
    refine Or.inr ⟨acc, i, rfl, ?_⟩
    rw [drop_eq_cons hi, bodyPlaces_quote]
    exact ⟨List.forall_mem_nil _, rfl⟩
  | case3 i acc c hi hq hback hesc =>
    obtain ⟨rfl, hlt⟩ := hback
    rw [drop_eq_cons hi]
    obtain ⟨-, hcut⟩ | ⟨_, _, _, hsome, -⟩ := escape_places hb (List.getElem?_eq_getElem hlt)
    · exact Or.inl ⟨rfl, hcut⟩
    · cases hesc.symm.trans hsome
  | case4 i acc c hi hq hback pushed skip hesc ih =>
    obtain ⟨rfl, hlt⟩ := hback
    rw [drop_eq_cons hi]
    obtain ⟨hnone, -⟩ | ⟨_, _, ps, hsome, hps, hp⟩ :=
      escape_places hb (List.getElem?_eq_getElem hlt)
    · cases hesc.symm.trans hnone
    · cases hesc.symm.trans hsome
      rw [hp]
      have hall : AllWhole (ps ++ (bodyPlaces (b.drop (i + 1 + skip + 1))).1) ↔
          AllWhole (bodyPlaces (b.drop (i + 1 + skip + 1))).1 := by
        rw [AllWhole, List.forall_mem_append]
        exact and_iff_right hps
      simpa only [hall] using ih
  | case5 i acc c hi hq hback ih =>
    by_cases hc : c = backslash
    · -- a backslash at the very end is an ordinary byte
      have hend : b.drop (i + 1) = [] := List.drop_eq_nil_of_le (by
        have := not_and.mp hback hc
        omega)
      rw [hend, bodyPlaces_nil] at ih
      rw [drop_eq_cons hi, hend]
      subst hc
      rw [bodyPlaces_last]
      exact ih
    · rw [drop_eq_cons hi, bodyPlaces_plain hq hc]
      exact ih

end Body

section Members

/-- Skipping ASCII bytes from a boundary leads to a boundary. -/
theorem boundary_skipWhile {p : UInt8 → Bool} (hb : Aligned b) (hp : ∀ c, p c = true → c < 0x80)
    (hi : isCharBoundary b i = true) : isCharBoundary b (skipWhile p b i) = true := by
  obtain heq | hlt := (le_skipWhile p b i).eq_or_lt
  · rwa [← heq]
  · obtain ⟨r, hr⟩ := Nat.exists_eq_add_one.mpr (Nat.zero_lt_of_lt hlt)
    obtain ⟨c, hget, hc⟩ := skipWhile_before hr (by omega)
    rw [hr]
    exact boundary_after hb hget (hp c hc)

/-- A value is read just when its escapes are whole. -/
theorem readValue_places (hb : Aligned b) (hi : i ≤ b.length) (hstart : isCharBoundary b i = true) :
    readValue b i = none ∧ ¬ AllWhole (valuePlaces (b.drop i)).1 ∨
      ∃ v j, readValue b i = some (v, j) ∧ AllWhole (valuePlaces (b.drop i)).1 ∧
        b.drop j = (valuePlaces (b.drop i)).2 := by
  rw [readValue, valuePlaces, List.head?_drop, List.tail_drop]
  by_cases hq : b[i]? = some quote
  · rw [if_pos hq, if_pos hq]
    obtain ⟨hnone, hcut⟩ | ⟨v, j, hsome, hall, hj⟩ := readString_places hb (i + 1) []
    · exact Or.inl ⟨by rw [hnone], hcut⟩
    · exact Or.inr ⟨fromUtf8Lossy v, j + 1, by rw [hsome], hall, hj⟩
  · rw [if_neg hq, if_neg hq]
    have hend : isCharBoundary b (skipWhile isBare b i) = true := by
      cases hget : b[skipWhile isBare b i]? with
      | none =>
        have hle := List.getElem?_eq_none_iff.mp hget
        rw [Nat.le_antisymm (skipWhile_le isBare hi) hle]
        exact boundary_length b
      | some c => exact boundary_ascii hget (ascii_of_not_isBare (skipWhile_stop hget))
    refine Or.inr ⟨(b.take (skipWhile isBare b i)).drop i, skipWhile isBare b i, ?_,
      List.forall_mem_nil _, drop_skipWhile isBare b i⟩
    simp [sliceStr, hstart, hend, le_skipWhile]

/-- With no colon left the value starts past the end. -/
theorem readValue_past (hi : b.length < i) : readValue b i = none := by
  have hget : b[i]? = none := List.getElem?_eq_none (Nat.le_of_lt hi)
  rw [readValue, if_neg (by simp [hget])]
  simp [sliceStr, not_boundary_past hi]

/-- From a key on, the value is read just when a colon comes and the escapes are whole. -/
theorem readValue_key (hb : Aligned b) (k : Nat) :
    let valueAt := skipWhile isWhitespace b (skipWhile (· ≠ colon) b k + 1)
    let value := valuePlaces (valueText (b.drop k))
    readValue b valueAt = none ∧ ¬ AllWhole (.key (b.drop k) :: value.1) ∨
      ∃ v j, readValue b valueAt = some (v, j) ∧ AllWhole (.key (b.drop k) :: value.1) ∧
        b.drop j = value.2 := by
  intro valueAt value
  have hcolon : b.drop (skipWhile (· ≠ colon) b k) = (b.drop k).dropWhile (· ≠ colon) :=
    drop_skipWhile _ b k
  cases hget : b[skipWhile (· ≠ colon) b k]? with
  | none =>
    rw [drop_eq_nil hget] at hcolon
    have hno : colon ∉ b.drop k := fun hmem => by
      have := List.dropWhile_eq_nil_iff.mp hcolon.symm colon hmem
      simp at this
    have hle := List.getElem?_eq_none_iff.mp hget
    have hpast : b.length < valueAt :=
      (Nat.lt_succ_of_le hle).trans_le (le_skipWhile isWhitespace b _)
    exact Or.inl ⟨readValue_past hpast, fun hall => hno (hall _ List.mem_cons_self)⟩
  | some c =>
    rw [drop_eq_cons hget] at hcolon
    have hc : c = colon := by simpa using skipWhile_stop hget
    subst hc
    have hmem : colon ∈ b.drop k :=
      (List.dropWhile_sublist _).subset (hcolon ▸ List.mem_cons_self)
    have htext : b.drop valueAt = valueText (b.drop k) := by
      rw [valueText, ← hcolon]
      exact drop_skipWhile isWhitespace b _
    have hlt := (List.getElem?_eq_some_iff.mp hget).1
    have hcons : AllWhole (.key (b.drop k) :: value.1) ↔ AllWhole value.1 := by
      rw [AllWhole, List.forall_mem_cons]
      exact and_iff_right hmem
    rw [hcons]
    have hv := readValue_places (i := valueAt) hb (skipWhile_le _ hlt)
      (boundary_skipWhile hb (fun _ => ascii_of_isWhitespace) (boundary_after hb hget (by decide)))
    rwa [htext] at hv

/-- The members are read through just when all keys and escapes are whole. -/
theorem readMembers_places (hb : Aligned b) (i : Nat) (out : List (Bytes × Bytes)) :
    (readMembers b i out).isSome = true ↔ AllWhole (memberPlaces (b.drop i)) := by
  have hdrop := drop_skipWhile isSeparator b i
  fun_induction readMembers b i out with
  | case1 i out hi start hstart =>
    rw [List.drop_eq_nil_of_le hstart] at hdrop
    rw [memberPlaces_nil hdrop.symm]
    exact iff_of_true rfl (List.forall_mem_nil _)
  | case2 i out hi start hstart hq =>
    have hget : b[start]? = some b[start] := List.getElem?_eq_getElem (by omega)
    rw [drop_eq_cons hget] at hdrop
    rw [memberPlaces_other hdrop.symm fun hc => hq (hc ▸ hget)]
    exact iff_of_true rfl (List.forall_mem_nil _)
  | case3 i out hi start hstart hq hk =>
    rw [drop_eq_cons (not_not.mp hq)] at hdrop
    rw [memberPlaces_quote hdrop.symm]
    obtain ⟨-, hcut⟩ | ⟨_, _, hsome, -⟩ := readString_places hb (start + 1) []
    · refine iff_of_false (by simp) fun hall => hcut fun p hp => hall p ?_
      rw [List.append_assoc]
      exact List.mem_append_left _ hp
    · cases hk.symm.trans hsome
  | case4 i out hi start hstart hq key keyEnd hk colonAt valueAt hv =>
    rw [drop_eq_cons (not_not.mp hq)] at hdrop
    rw [memberPlaces_quote hdrop.symm]
    obtain ⟨hnone, -⟩ | ⟨_, _, hsome, hall, hafter⟩ := readString_places hb (start + 1) []
    · cases hk.symm.trans hnone
    · cases hk.symm.trans hsome
      rw [← hafter]
      obtain ⟨-, hcut⟩ | ⟨_, _, hsome, -⟩ := readValue_key hb (keyEnd + 1)
      · refine iff_of_false (by simp) fun hw => hcut fun p hp => hw p ?_
        exact List.mem_append_left _ (List.mem_append_right _ hp)
      · cases hv.symm.trans hsome
  | case5 i out hi start hstart hq key keyEnd hk colonAt valueAt val next hv ih =>
    rw [drop_eq_cons (not_not.mp hq)] at hdrop
    rw [memberPlaces_quote hdrop.symm]
    refine (ih (drop_skipWhile _ _ _)).trans ?_
    obtain ⟨hnone, -⟩ | ⟨_, _, hsome, hall, hafter⟩ := readString_places hb (start + 1) []
    · cases hk.symm.trans hnone
    · cases hk.symm.trans hsome
      rw [← hafter]
      obtain ⟨hnone, -⟩ | ⟨_, _, hsome, hwhole, hnext⟩ := readValue_key hb (keyEnd + 1)
      · cases hv.symm.trans hnone
      · cases hv.symm.trans hsome
        rw [← hnext, AllWhole, AllWhole, List.forall_mem_append, List.forall_mem_append]
        exact (and_iff_right ⟨hall, hwhole⟩).symm
  | case6 i out hi =>
    have hd : b.drop i = [] := List.drop_eq_nil_of_le (by omega)
    rw [hd, memberPlaces_nil rfl]
    exact iff_of_true rfl (List.forall_mem_nil _)

end Members

theorem parseFlatJson_places (hb : Aligned b) :
    (parseFlatJson b).isSome = true ↔ AllWhole (placesOf b) := by
  rw [parseFlatJson, readMembers_places hb, ← List.drop_drop, drop_skipWhile, List.drop_zero,
    List.drop_one]
  rfl

theorem templateFromJson_isSome (json : Bytes) :
    (templateFromJson json).isSome = (parseFlatJson json).isSome := by
  rw [templateFromJson]
  cases parseFlatJson json <;> rfl

theorem key_without_colon : templateFromJson (str "\x7b\"a\"") = none := by
  have htext : str "\x7b\"a\"" = [0x7B, 0x22, 0x61, 0x22] := by decide
  have hplaces : .key [] ∈ placesOf [0x7B, 0x22, 0x61, 0x22] := by
    have hbody : bodyPlaces [0x61, 0x22] = ([], []) := by
      rw [bodyPlaces_plain (by decide) (by decide), bodyPlaces_quote]
    have hquote : memberPlaces [0x22, 0x61, 0x22] = _ := memberPlaces_quote rfl
    rw [show placesOf [0x7B, 0x22, 0x61, 0x22] = memberPlaces [0x22, 0x61, 0x22] from rfl, hquote,
      hbody]
    exact List.mem_append_left _ List.mem_cons_self
  rw [← Option.not_isSome_iff_eq_none, templateFromJson_isSome]
  intro hsome
  have hall := (parseFlatJson_places (aligned_utf8 _)).mp hsome
  cases hall (.key []) (by rwa [← htext] at hplaces)

/-- On a valid string the loader returns, with a template or an error, just when a colon
follows every key it comes to and every \u escape ends at a character boundary. -/
theorem templateFromJson_returns_iff (s : String) :
    (templateFromJson (str s)).isSome = true ↔ ∀ p ∈ placesOf (str s), p.Whole := by
  rw [templateFromJson_isSome]
  exact parseFlatJson_places (aligned_utf8 s.toList)

end Temari.JsonPanics
