import Temari.RoundMachine

/-! What two runs of round code know about the state, and the rules that step both
runs past a table lookup or a slot access. -/
namespace Temari.RoundRules
open RoundMachine Relational
variable {γ δ : Type} {P : St → St → Prop} {Q : γ → δ → St → St → Prop}

/-- Both tables are long enough and agree on the part the rounds address. -/
structure SameTable (ctx ctx' : Bytes) : Prop where
  length : 0x8000 ≤ ctx.length
  length' : 0x8000 ≤ ctx'.length
  agree : ∀ i < 0x8000, ctx[i]? = ctx'[i]?

theorem SameTable.refl {ctx : Bytes} (h : 0x8000 ≤ ctx.length) : SameTable ctx ctx :=
  ⟨h, h, fun _ _ => rfl⟩

theorem SameTable.byte {ctx ctx' : Bytes} (h : SameTable ctx ctx') {i : Nat} (hi : i < 0x8000) :
    ∃ b, ctx[i]? = some b ∧ ctx'[i]? = some b := by
  have hlt : i < ctx.length := Nat.lt_of_lt_of_le hi h.length
  exact ⟨ctx[i], List.getElem?_eq_getElem hlt, h.agree i hi ▸ List.getElem?_eq_getElem hlt⟩

theorem and_byte_lt (x : Word) : (x &&& 0xFF).toNat < 256 := by
  rw [BitVec.toNat_and]
  exact Nat.lt_of_le_of_lt Nat.and_le_right (by decide)

theorem ctxb_same {ctx ctx' : Bytes} (h : SameTable ctx ctx') {off : Nat} (ho : off < 0x8000) :
    ∃ v, ctxb ctx off = pure v ∧ ctxb ctx' off = pure v := by
  obtain ⟨b, hb, hb'⟩ := h.byte ho
  refine ⟨byteWord b, ?_, ?_⟩
  · simp only [ctxb, hb]
    rfl
  · simp only [ctxb, hb']
    rfl

theorem t4_same {ctx ctx' : Bytes} (h : SameTable ctx ctx') {off : Nat} {idx : Word}
    (hoff : off + 1024 ≤ 0x8000) : ∃ v, t4 ctx off idx = pure v ∧ t4 ctx' off idx = pure v := by
  have hx := and_byte_lt idx
  have hi : (idx &&& 0xFF).toNat <<< 2 = (idx &&& 0xFF).toNat * 4 := Nat.shiftLeft_eq _ _
  obtain ⟨b0, h0, h0'⟩ := h.byte (i := off + (idx &&& 0xFF).toNat <<< 2) (by omega)
  obtain ⟨b1, h1, h1'⟩ := h.byte (i := off + (idx &&& 0xFF).toNat <<< 2 + 1) (by omega)
  obtain ⟨b2, h2, h2'⟩ := h.byte (i := off + (idx &&& 0xFF).toNat <<< 2 + 2) (by omega)
  obtain ⟨b3, h3, h3'⟩ := h.byte (i := off + (idx &&& 0xFF).toNat <<< 2 + 3) (by omega)
  refine ⟨fromLeBytes b0 b1 b2 b3, ?_, ?_⟩
  · simp only [t4, h0, h1, h2, h3]
    rfl
  · simp only [t4, h0', h1', h2', h3']
    rfl

/-- One lookup in two tables, in the part that the rounds address. -/
inductive Lookup (ctx ctx' : Bytes) : Round Word → Round Word → Prop
  | byte {base : Nat} {x : Word} (h : base + 256 ≤ 0x8000) :
    Lookup ctx ctx' (ctxb ctx (base + (x &&& 0xFF).toNat)) (ctxb ctx' (base + (x &&& 0xFF).toNat))
  | word {base x : Word} (h : base.toNat + 256 ≤ 0x8000) :
    Lookup ctx ctx' (ctxb ctx (base + (x &&& 255)).toNat) (ctxb ctx' (base + (x &&& 255)).toNat)
  | four {off : Nat} {idx : Word} (h : off + 1024 ≤ 0x8000) :
    Lookup ctx ctx' (t4 ctx off idx) (t4 ctx' off idx)
  | fixed {off : Nat} (h : off < 0x8000) : Lookup ctx ctx' (ctxb ctx off) (ctxb ctx' off)

theorem Lookup.same {ctx ctx' : Bytes} {m m' : Round Word} (hctx : SameTable ctx ctx')
    (h : Lookup ctx ctx' m m') : ∃ v, m = pure v ∧ m' = pure v := by
  cases h with
  | @byte base x h =>
    have hx := and_byte_lt x
    exact ctxb_same hctx (by omega)
  | @word base x h =>
    have hx := and_byte_lt x
    exact ctxb_same hctx (by rw [BitVec.toNat_add]; omega)
  | four h => exact t4_same hctx h
  | fixed h => exact ctxb_same hctx h

theorem Sim.lookup {ctx ctx' : Bytes} (hctx : SameTable ctx ctx') {m m' : Round Word}
    {f : Word → Round γ} {g : Word → Round δ} (hk : ∀ v, Sim P (f v) (g v) Q)
    (h : Lookup ctx ctx' m m' := by with_reducible constructor; decide) :
    Sim P (m >>= f) (m' >>= g) Q := by
  obtain ⟨v, rfl, rfl⟩ := h.same hctx
  exact hk v

theorem Sim.ctxb_low {ctx ctx' : Bytes} (h : SameTable ctx ctx') {base : Nat} {x y : Word}
    {f : Word → Round γ} {g : Word → Round δ} (hxy : x &&& 0xFF = y &&& 0xFF)
    (hbase : base + 256 ≤ 0x8000) (hk : ∀ v, Sim P (f v) (g v) Q) :
    Sim P (RoundMachine.ctxb ctx (base + (x &&& 0xFF).toNat) >>= f)
      (RoundMachine.ctxb ctx' (base + (y &&& 0xFF).toNat) >>= g) Q := by
  rw [hxy]
  exact Sim.lookup h hk (.byte hbase)

/-- A lookup under an index that is only the same in both runs if p. -/
theorem Sim.ctxb_when {ctx ctx' : Bytes} (h : SameTable ctx ctx') (p : Prop) {base : Nat}
    {x y : Word} {f : Word → Round γ} {g : Word → Round δ} (hxy : p → x = y)
    (hbase : base + 256 ≤ 0x8000) (hk : ∀ v w, (p → v = w) → Sim P (f v) (g w) Q) :
    Sim P (RoundMachine.ctxb ctx (base + (x &&& 0xFF).toNat) >>= f)
      (RoundMachine.ctxb ctx' (base + (y &&& 0xFF).toNat) >>= g) Q := by
  have hx := and_byte_lt x
  have hy := and_byte_lt y
  obtain ⟨b, hb, -⟩ := h.byte (i := base + (x &&& 0xFF).toNat) (by omega)
  obtain ⟨b', -, hb'⟩ := h.byte (i := base + (y &&& 0xFF).toNat) (by omega)
  have hbb : p → byteWord b = byteWord b' := by
    intro hp
    have ha := h.agree (base + (x &&& 0xFF).toNat) (by omega)
    rw [hb, hxy hp, hb', Option.some.injEq] at ha
    rw [ha]
  have he : RoundMachine.ctxb ctx (base + (x &&& 0xFF).toNat) = pure (byteWord b) := by
    simp only [RoundMachine.ctxb, hb]; rfl
  have he' : RoundMachine.ctxb ctx' (base + (y &&& 0xFF).toNat) = pure (byteWord b') := by
    simp only [RoundMachine.ctxb, hb']; rfl
  rw [he, he']
  exact hk _ _ hbb

/-- Slots that hold the output offsets, with the offset; the counter slot 544 has 8. -/
def offsetSlots : List (Nat × Word) :=
  [(120, 0), (560, 1), (152, 2), (528, 3), (408, 4), (176, 5), (432, 6), (608, 7), (344, 9),
    (424, 10), (416, 11), (448, 12), (440, 13), (696, 14), (736, 15)]

def offsetOf (k : Nat) : Word := (offsetSlots.lookup k).getD 0

/-- The mask slot 176 is under when it is first stored. -/
abbrev slotMask : Word := 396575921

/-- What the two runs agree on in one slot. -/
inductive SlotFact where
  | eq | const | low | chain | counter | advanced | off | masked
  deriving DecidableEq

/-- The values the facts speak about: the constants, the counter and the block position
in each run, and whether the two runs were chained from the same ciphertext. -/
structure Runs where
  const : Nat → Word
  chained : Prop
  counter : Word
  counter' : Word
  pos : Word
  pos' : Word

def SlotFact.den (r : Runs) : SlotFact → Nat → Word → Word → Prop
  | .eq, _, a, b => a = b
  | .const, k, a, b => a = r.const k ∧ b = r.const k
  | .low, _, a, b => a &&& 0xFF = b &&& 0xFF
  | .chain, _, a, b => r.chained → a &&& 0xFF = b &&& 0xFF
  | .counter, _, a, b => a = r.counter ∧ b = r.counter'
  | .advanced, _, a, b => a = r.counter + 0x10 ∧ b = r.counter' + 0x10
  | .off, k, a, b => a = r.pos + offsetOf k ∧ b = r.pos' + offsetOf k
  | .masked, k, a, b =>
    a = (r.pos + offsetOf k) ^^^ slotMask ∧ b = (r.pos' + offsetOf k) ^^^ slotMask

/-- Slots that are read in every block and never written. -/
def constSlots : List Nat :=
  [64, 200, 216, 688, 704, 744, 760, 768, 776, 784, 800, 808, 832, 840, 848, 856, 864, 880, 888,
    896, 904, 920, 968, 976, 1000, 1016, 1024, 1048, 1056, 1064, 1072, 1096, 1104, 1120, 1128, 1136,
    1144, 1152, 1160, 1168, 1240, 1248, 1256, 1264, 1272, 1280, 1288, 1296, 1304, 1312, 1320, 1328,
    1336, 1344, 1352, 1360, 1368, 1376, 1384, 1392, 1400, 1408, 1416, 1424, 1432, 1440, 1448, 1456,
    1464, 1472, 1480, 1496, 1512, 1520, 1528, 1536, 1544, 1552, 1560, 1568, 1576, 1592, 1600, 1624,
    1632, 1640, 1648, 1656, 1664, 1672, 1680, 1688, 1704, 1712, 1720, 1728, 1736, 1752, 1760, 1768,
    1776, 1784, 1792, 1800, 1856, 1888, 1896, 1904, 1912, 1920]

/-- Slots that carry the previous ciphertext block. -/
def chainSlots : List Nat :=
  [192, 208, 224, 232, 240, 248, 256, 264, 280, 288, 352, 376, 392, 400, 992, 1040]

def same (ks : List Nat) : Facts SlotFact := ks.map fun k => (k, .eq)

/-- At the start of a block: the constants, the chaining bytes and the counter. -/
def entryFacts : Facts SlotFact :=
  constSlots.map (fun k => (k, .const)) ++ (chainSlots.map fun k => (k, .chain)) ++
    [(544, .counter)]

/-- After round1_mid: this block's bytes, the output offsets, and the entry facts. -/
def midFacts : Facts SlotFact :=
  same [72, 80, 88, 96, 104, 112, 144, 304, 336, 360, 368, 384, 512, 536, 552, 576, 584, 592, 600,
    1088] ++ [(568, .low), (672, .low)] ++ (offsetSlots.map fun e => (e.1, .off)) ++ entryFacts

def tailFacts : Facts SlotFact := same [616] ++ midFacts

def round2Facts : Facts SlotFact :=
  same [72, 80, 144, 536, 592, 600, 616, 624, 640, 648, 656, 664, 680, 720, 728, 752, 816, 912,
    952, 960] ++ tailFacts

/-- After round3_sub8000. -/
def round3Facts : Facts SlotFact :=
  constSlots.map (fun k => (k, .const)) ++
    ((chainSlots.filter (· ≠ 264)).map fun k => (k, .low)) ++ [(384, .eq), (544, .counter)]

/-- At the end of a block every chaining slot holds a byte of this block's ciphertext. -/
def exitFacts : Facts SlotFact :=
  constSlots.map (fun k => (k, .const)) ++
    ((chainSlots.filter (· ≠ 264)).map fun k => (k, .low)) ++ [(264, .eq), (544, .advanced)]

/-- What a fact at the end of a block says at the start of the next one. -/
def SlotFact.becomes : SlotFact → SlotFact → Bool
  | .const, .const | .low, .chain | .eq, .chain | .advanced, .counter => true
  | _, _ => false

theorem SlotFact.becomes_den {r r' : Runs} (hc : r'.const = r.const)
    (hn : r'.counter = r.counter + 0x10) (hn' : r'.counter' = r.counter' + 0x10)
    (e e' : SlotFact) (k : Nat) (a b : Word) (h : e.becomes e' = true) (hd : e.den r k a b) :
    e'.den r' k a b := by
  cases e <;> cases e' <;> simp only [SlotFact.becomes, Bool.false_eq_true] at h
  · intro _
    rw [show a = b from hd]
  · simpa only [SlotFact.den, hc] using hd
  · exact fun _ => hd
  · simpa only [SlotFact.den, hn, hn'] using hd

/-- The end of one block is the start of the next, whether or not that one is chained. -/
theorem Holds.next_block {r r' : Runs} {s t : St} (h : Holds (SlotFact.den r) exitFacts s t)
    (hc : r'.const = r.const) (hn : r'.counter = r.counter + 0x10)
    (hn' : r'.counter' = r.counter' + 0x10) : Holds (SlotFact.den r') entryFacts s t :=
  Holds.transfer SlotFact.becomes (SlotFact.becomes_den hc hn hn') h (by decide +kernel)

section Slots
variable {r : Runs} {K : Facts SlotFact}

def SlotFact.isSame : SlotFact → Bool
  | .eq | .const => true
  | _ => false

/-- A slot that holds the same word in both runs. -/
theorem Sim.load_same {k : Nat} {f : Word → Round γ} {g : Word → Round δ}
    (h : ∀ a, Sim (Holds (SlotFact.den r) K) (f a) (g a) Q) (hk : k < stSize := by decide)
    (he : (K.lookup k).any SlotFact.isSame = true := by decide +kernel) :
    Sim (Holds (SlotFact.den r) K) (load k >>= f) (load k >>= g) Q := by
  obtain ⟨e, he, hsame⟩ := (Option.any_eq_true _ _).mp he
  refine Sim.read_tag e hk he fun a b hab => ?_
  obtain rfl : a = b := by
    cases e with
    | eq => exact hab
    | const => exact hab.1.trans hab.2.symm
    | _ => cases hsame
  exact h a

theorem Sim.store_eq {k : Nat} {v : Word} {f : Unit → Round γ} {g : Unit → Round δ}
    (h : Sim (Holds (SlotFact.den r) ((k, .eq) :: K)) (f ()) (g ()) Q)
    (hk : k < stSize := by decide) :
    Sim (Holds (SlotFact.den r) K) (store k v >>= f) (store k v >>= g) Q :=
  Sim.write SlotFact.eq hk (show SlotFact.den r .eq k v v from rfl) h

theorem Sim.load_off {k : Nat} {f : Word → Round γ} {g : Word → Round δ}
    (h : Sim (Holds (SlotFact.den r) K) (f (r.pos + offsetOf k)) (g (r.pos' + offsetOf k)) Q)
    (hk : k < stSize := by decide) (he : K.lookup k = some .off := by decide +kernel) :
    Sim (Holds (SlotFact.den r) K) (load k >>= f) (load k >>= g) Q := by
  refine Sim.read_tag .off hk he fun a b hab => ?_
  rw [hab.1, hab.2]
  exact h

theorem Sim.load_masked {k : Nat} {f : Word → Round γ} {g : Word → Round δ}
    (h : Sim (Holds (SlotFact.den r) K) (f ((r.pos + offsetOf k) ^^^ slotMask))
      (g ((r.pos' + offsetOf k) ^^^ slotMask)) Q)
    (hk : k < stSize := by decide) (he : K.lookup k = some .masked := by decide +kernel) :
    Sim (Holds (SlotFact.den r) K) (load k >>= f) (load k >>= g) Q := by
  refine Sim.read_tag .masked hk he fun a b hab => ?_
  rw [hab.1, hab.2]
  exact h

theorem Sim.load_counter {k : Nat} {f : Word → Round γ} {g : Word → Round δ}
    (h : Sim (Holds (SlotFact.den r) K) (f r.counter) (g r.counter') Q)
    (hk : k < stSize := by decide) (he : K.lookup k = some .counter := by decide +kernel) :
    Sim (Holds (SlotFact.den r) K) (load k >>= f) (load k >>= g) Q := by
  refine Sim.read_tag .counter hk he fun a b hab => ?_
  rw [hab.1, hab.2]
  exact h

theorem Sim.load_chain {k : Nat} {f : Word → Round γ} {g : Word → Round δ}
    (h : ∀ a b, (r.chained → a &&& 0xFF = b &&& 0xFF) →
      Sim (Holds (SlotFact.den r) K) (f a) (g b) Q)
    (hk : k < stSize := by decide) (he : K.lookup k = some .chain := by decide +kernel) :
    Sim (Holds (SlotFact.den r) K) (load k >>= f) (load k >>= g) Q := by
  refine Sim.read_tag .chain hk he fun a b hab => ?_
  exact h a b hab

theorem Sim.store_advanced {k : Nat} {f : Unit → Round γ} {g : Unit → Round δ}
    (h : Sim (Holds (SlotFact.den r) ((k, .advanced) :: K)) (f ()) (g ()) Q)
    (hk : k < stSize := by decide) :
    Sim (Holds (SlotFact.den r) K) (store k (r.counter + 0x10) >>= f)
      (store k (r.counter' + 0x10) >>= g) Q :=
  Sim.write .advanced hk (show SlotFact.den r .advanced k _ _ from ⟨rfl, rfl⟩) h

theorem merge_low (a x : Word) :
    (a &&& 0xFFFFFF00 ||| x &&& 0xFF) &&& 0xFF = x &&& 0xFF := by
  rw [BitVec.and_comm, BitVec.and_or_distrib_left, BitVec.and_comm a, ← BitVec.and_assoc,
    BitVec.and_comm x, ← BitVec.and_assoc]
  simp

/-- Replacing the low byte of a slot makes it known, whatever the rest of the slot is. -/
theorem Sim.store_low {k : Nat} {a b x y : Word} {f : Unit → Round γ} {g : Unit → Round δ}
    (hxy : x &&& 0xFF = y &&& 0xFF)
    (h : Sim (Holds (SlotFact.den r) ((k, .low) :: K)) (f ()) (g ()) Q)
    (hk : k < stSize := by decide) :
    Sim (Holds (SlotFact.den r) K) (store k (a &&& 0xFFFFFF00 ||| x &&& 0xFF) >>= f)
      (store k (b &&& 0xFFFFFF00 ||| y &&& 0xFF) >>= g) Q :=
  Sim.write .low hk (show SlotFact.den r .low k _ _ by
    simp only [SlotFact.den, merge_low, hxy]) h

end Slots
end Temari.RoundRules
