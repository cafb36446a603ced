import Temari.StoreTriples
import Temari.RoundWindow
import Temari.Round1
import Temari.Round2
import Temari.Round3

/-! The sixteen lanes of the chaining: which slots carry byte k of the previous block, and that
no round writes them before round 3 has read them. Lookups are written on words in the rounds and
on bytes here. -/
set_option maxRecDepth 4000
namespace Temari.Lanes
open RoundMachine Relational InputReads RoundRules RoundWindow StoreTriples Round1 Round2 Round3

/-- The chaining slots by the byte of the block they are for, in the order of the pairs. -/
def chainOrder : List Nat :=
  [376, 400, 280, 992, 352, 392, 224, 288, 256, 208, 248, 264, 240, 232, 1040, 192]

/-- Where round1_mid leaves the bytes of the block. -/
def byteOrder : List Nat :=
  [88, 104, 112, 336, 568, 512, 552, 96, 304, 360, 368, 384, 1088, 584, 576, 672]

def laneOf (k : Nat) : Nat := ((chainOrder.zipIdx ++ byteOrder.zipIdx).lookup k).getD 0

/-- The lookup every ciphertext byte goes through in round1_mid. -/
def inTable (ctx : Bytes) (b : UInt8) : UInt8 := ctx.getD (0x4180 + b.toNat) 0 ^^^ ctx.getD 0x38ED 0

/-- The lookup every plaintext byte comes from in round3_sub8000. -/
def outTable (ctx : Bytes) (b : UInt8) : UInt8 := ctx.getD (0x5300 + b.toNat) 0 ^^^ 118

def tableWord (ctx : Bytes) (off : Nat) : Word := byteWord (ctx.getD off 0)

section Bytes
variable {ctx : Bytes} {a x y : Word} {b : UInt8}

theorem wordByte_byteWord (b : UInt8) : wordByte (byteWord b) = b := by
  obtain ⟨b⟩ := b
  simp [wordByte, byteWord]

theorem toNat_byteWord (b : UInt8) : (byteWord b).toNat = b.toNat := by
  have h := b.toNat_lt
  simp only [byteWord, BitVec.toNat_setWidth]
  refine Nat.mod_eq_of_lt ?_
  show b.toNat < _
  omega

theorem low_eq_byteWord (x : Word) : x &&& 0xFF = byteWord (wordByte x) := by
  apply BitVec.eq_of_toNat_eq
  have h : (x &&& 0xFF).toNat = x.toNat % 256 := toNat_and_mask x 8 (by decide)
  rw [toNat_byteWord, h]
  show _ = (x.setWidth 8).toNat
  rw [BitVec.toNat_setWidth]

theorem wordByte_low (x : Word) : wordByte (x &&& 0xFF) = wordByte x := by
  rw [low_eq_byteWord, wordByte_byteWord]

theorem wordByte_xor (x y : Word) : wordByte (x ^^^ y) = wordByte x ^^^ wordByte y := by
  apply UInt8.toBitVec_inj.mp
  rw [UInt8.toBitVec_xor]
  exact BitVec.setWidth_xor (x := x) (y := y) (k := 8)

theorem wordByte_of_low (h : a &&& 0xFF = byteWord b) : wordByte a = b := by
  rw [← wordByte_low, h, wordByte_byteWord]

theorem low_of_wordByte (h : wordByte a = b) : a &&& 0xFF = byteWord b := by
  rw [low_eq_byteWord, h]

/-- The word that round1_mid makes of a ciphertext byte. -/
theorem inTable_word : wordByte (tableWord ctx (16768 + (byteWord b &&& 255)).toNat ^^^
    tableWord ctx 14573) = inTable ctx b := by
  have hoff : ((16768 : Word) + (byteWord b &&& 255)).toNat = 0x4180 + b.toNat := by
    have h := b.toNat_lt
    rw [BitVec.toNat_add, low_eq_byteWord, wordByte_byteWord, toNat_byteWord]
    show (16768 + b.toNat) % 2 ^ 32 = _
    omega
  rw [wordByte_xor, hoff, tableWord, tableWord, wordByte_byteWord, wordByte_byteWord]
  rfl

/-- The byte of a pair, with the index still a word. -/
theorem outTable_word : wordByte ((tableWord ctx (0x5300 + (x &&& 0xFF).toNat) ^^^ 118) &&& 0xFF) =
    outTable ctx (wordByte x) := by
  rw [wordByte_low, wordByte_xor, tableWord, wordByte_byteWord, low_eq_byteWord, toNat_byteWord]
  rfl

end Bytes

section Lookups
variable {ctx : Bytes} {off : Nat} {idx : Word}

theorem ctxb_some {s t : St} {v : Word} (h : ctxb ctx off s = some (v, t)) :
    v = tableWord ctx off ∧ t = s := by
  cases hb : ctx[off]? with
  | none =>
    simp only [ctxb, hb] at h
    cases h
  | some b =>
    simp only [ctxb, hb] at h
    cases h
    exact ⟨by rw [tableWord, List.getD_eq_getElem?_getD, hb]; rfl, rfl⟩

theorem ctxb_run (h : off < ctx.length) (s : St) :
    ctxb ctx off s = some (tableWord ctx off, s) := by
  have heq : ctxb ctx off = pure (tableWord ctx off) := by
    rw [tableWord, List.getD_eq_getElem?_getD]
    simp only [ctxb, List.getElem?_eq_getElem h]
    rfl
  rw [heq]
  rfl

theorem t4_quiet : Quiet (t4 ctx off idx) := by
  intro s v t h
  simp only [t4] at h
  obtain ⟨b0, s0, h0, h⟩ := bind_some h
  obtain ⟨b1, s1, h1, h⟩ := bind_some h
  obtain ⟨b2, s2, h2, h⟩ := bind_some h
  obtain ⟨b3, s3, h3, h⟩ := bind_some h
  cases h
  rw [lift_quiet _ _ _ h3, lift_quiet _ _ _ h2, lift_quiet _ _ _ h1, lift_quiet _ _ _ h0]

end Lookups

/-- What one run knows of a slot. -/
inductive LaneFact where
  | other | lane | byte | off | masked
  deriving DecidableEq

/-- A run over one block: its table, where it stands, the bytes of the block and the bytes it is
chained with, by slot. -/
structure LaneRun where
  ctx : Bytes
  pos : Word
  window : Nat → UInt8
  lane : Nat → UInt8

def LaneFact.den (r : LaneRun) : LaneFact → Nat → Word → Word → Prop
  | .other, _, _, _ => True
  | .lane, k, a, _ => a &&& 0xFF = byteWord (r.lane k)
  | .byte, k, a, _ => a &&& 0xFF = byteWord (inTable r.ctx (r.window (laneOf k)))
  | .off, k, a, _ => a = r.pos + offsetOf k
  | .masked, k, a, _ => a = (r.pos + offsetOf k) ^^^ slotMask

def laneFacts : Facts LaneFact := chainOrder.map fun k => (k, .lane)

/-- From round1_mid to round 3: the bytes of the block, and still those it is chained with. -/
def byteFacts : Facts LaneFact := (byteOrder.map fun k => (k, .byte)) ++ laneFacts

/-- After the copies of round 3; slot 264 is copied by process_block itself. -/
def copiedFacts : Facts LaneFact :=
    (384, .byte) :: (chainOrder.filter (· ≠ 264)).map fun k => (k, .byte)

/-- At the end of a block. -/
def chainedFacts : Facts LaneFact := chainOrder.map fun k => (k, .byte)

/-- The steps that leave the slots as they are. -/
inductive Still : Round Word → Prop
  | four {ctx : Bytes} {off : Nat} {idx : Word} : Still (t4 ctx off idx)
  | byte {ctx : Bytes} {off : Nat} : Still (ctxb ctx off)
  | slot {k : Nat} : Still (load k)

theorem Still.quiet {m : Round Word} (h : Still m) : Quiet m := by
  cases h with
  | four => exact t4_quiet
  | byte => exact fun _ _ _ hm => (ctxb_some hm).2
  | slot => exact fun _ _ _ hm => (readCell_some hm).2.2

section Rules
variable {γ : Type} {r : LaneRun} {K : Facts LaneFact} {k : Nat} {P : St → Prop} {Q : γ → St → Prop}
  {f : Word → Round γ} {g : Unit → Round γ} {ctx : Bytes}

/-- What holds of the slots in one run. -/
abbrev Seen (r : LaneRun) (K : Facts LaneFact) (s : St) : Prop := Known (LaneFact.den r) K s

theorem Triple.still {m : Round Word} (h : ∀ v, Triple P (f v) Q)
    (hm : Still m := by with_reducible constructor) : Triple P (m >>= f) Q :=
  Triple.quiet hm.quiet h

theorem Triple.ctxb_at {off : Nat} (h : Triple P (f (tableWord ctx off)) Q) :
    Triple P (ctxb ctx off >>= f) Q :=
  Triple.value (fun _ _ _ hm => ctxb_some hm) h

/-- The sixteen bytes of the window of a run. -/
def Window (r : LaneRun) (ct : Bytes) : Prop := ∀ k < 16, ct[r.pos.toNat + k]? = some (r.window k)

theorem Triple.ctPage {ct : Bytes} (hw : Window r ct) (hp : r.pos &&& 15 = 0) {k x : Word}
    (h : Triple P (f (byteWord (r.window k.toNat))) Q)
    (hx : Unmasked r.pos x k := by with_reducible constructor <;> decide)
    (hk : k &&& 15 = k := by decide) : Triple P (ctPage ct (8 + r.pos) x >>= f) Q := by
  obtain rfl := hx.eq hp
  have heq : RoundMachine.ctPage ct (8 + r.pos) (r.pos + k) =
      pure (byteWord (r.window k.toNat)) := by
    rw [ctPage_eq hp hk, hw k.toNat (offset_bounds hp hk).2]
    rfl
  rw [heq]
  exact h

theorem Triple.load_off (h : Triple (Seen r K) (f (r.pos + offsetOf k)) Q)
    (he : K.lookup k = some .off := by decide +kernel) : Triple (Seen r K) (load k >>= f) Q := by
  refine Triple.read_tag .off he fun a ha => ?_
  rw [show a = r.pos + offsetOf k from ha]
  exact h

theorem Triple.load_masked (h : Triple (Seen r K) (f ((r.pos + offsetOf k) ^^^ slotMask)) Q)
    (he : K.lookup k = some .masked := by decide +kernel) :
    Triple (Seen r K) (load k >>= f) Q := by
  refine Triple.read_tag .masked he fun a ha => ?_
  rw [show a = (r.pos + offsetOf k) ^^^ slotMask from ha]
  exact h

theorem Triple.store_other {v : Word} (h : Triple (Seen r ((k, .other) :: K)) (g ()) Q) :
    Triple (Seen r K) (store k v >>= g) Q :=
  Triple.write LaneFact.other trivial h

theorem Triple.store_off {o v : Word} (hp : r.pos &&& 15 = 0)
    (h : Triple (Seen r ((k, .off) :: K)) (g ()) Q)
    (hv : Unmasked r.pos v o := by with_reducible constructor <;> decide)
    (ho : offsetOf k = o := by decide) : Triple (Seen r K) (store k v >>= g) Q := by
  subst ho
  exact Triple.write LaneFact.off (hv.eq hp) h

theorem Triple.store_masked {o m v : Word} (hp : r.pos &&& 15 = 0)
    (h : Triple (Seen r ((k, .masked) :: K)) (g ()) Q)
    (hv : Masked r.pos v o m := by with_reducible constructor <;> decide)
    (ho : offsetOf k = o := by decide) (hm : slotMask = m := by decide) :
    Triple (Seen r K) (store k v >>= g) Q := by
  subst ho hm
  exact Triple.write LaneFact.masked (hv.eq hp) h

/-- The ways round1_mid writes the lookup of a ciphertext byte. -/
inductive InWord (ctx : Bytes) : Word → UInt8 → Prop
  | plain {b : UInt8} :
    InWord ctx (tableWord ctx (16768 + (byteWord b &&& 255)).toNat ^^^ tableWord ctx 14573) b
  | swapped {b : UInt8} :
    InWord ctx (tableWord ctx 14573 ^^^ tableWord ctx (16768 + (byteWord b &&& 255)).toNat) b
  | low {v : Word} {b : UInt8} (h : InWord ctx v b) : InWord ctx (v &&& 0xFF) b

theorem InWord.byte {v : Word} {b : UInt8} (h : InWord ctx v b) : wordByte v = inTable ctx b := by
  induction h with
  | plain => exact inTable_word
  | swapped => rw [BitVec.xor_comm, inTable_word]
  | low _ ih => rw [wordByte_low, ih]

theorem Triple.store_byte {j : Nat} {v : Word} (h : Triple (Seen r ((k, .byte) :: K)) (g ()) Q)
    (hv : InWord r.ctx v (r.window j) := by with_reducible constructor <;> constructor)
    (hj : laneOf k = j := by decide) : Triple (Seen r K) (store k v >>= g) Q := by
  subst hj
  exact Triple.write LaneFact.byte (low_of_wordByte hv.byte) h

/-- Only the low byte of the slot is replaced. -/
theorem Triple.merge_byte {a v : Word} (hv : wordByte v = inTable r.ctx (r.window (laneOf k)))
    (h : Triple (Seen r ((k, .byte) :: K)) (g ()) Q) :
    Triple (Seen r K) (store k (a &&& 0xFFFFFF00 ||| v &&& 0xFF) >>= g) Q := by
  refine Triple.write LaneFact.byte ?_ h
  show _ &&& 0xFF = _
  rw [merge_low]
  exact low_of_wordByte hv

theorem Triple.store_low {j : Nat} {a v : Word} (h : Triple (Seen r ((k, .byte) :: K)) (g ()) Q)
    (hv : InWord r.ctx v (r.window j) := by with_reducible constructor <;> constructor)
    (hj : laneOf k = j := by decide) :
    Triple (Seen r K) (store k (a &&& 0xFFFFFF00 ||| v &&& 0xFF) >>= g) Q := by
  subst hj
  exact Triple.merge_byte hv.byte h

end Rules

end Temari.Lanes
