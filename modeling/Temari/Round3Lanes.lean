import Temari.Lanes

/-! A family of runs of round 3 that differ in the chaining bytes only: each byte of the plaintext
block is one lookup of its own chaining byte, mixed with a byte that all runs have in common. -/
set_option maxRecDepth 8000
namespace Temari.Round3Lanes
open RoundMachine Relational RoundRules StoreTriples Lanes Round3
variable {ι γ : Type}

/-- What the runs have in common of a slot. -/
inductive RunFact where
  | eq | lane
  deriving DecidableEq

/-- In each run a slot of a lane has its own byte l i k. -/
def RunFact.den (l : ι → Nat → UInt8) : RunFact → Nat → (ι → Word) → Prop
  | .eq, _, x => ∃ v, ∀ i, x i = v
  | .lane, k, x => ∀ i, x i &&& 0xFF = byteWord (l i k)

/-- At the start of round 3. -/
def startFacts : Facts RunFact :=
  (round2Facts.filter fun f => f.2 = .eq ∨ f.2 = .const).map (fun f => (f.1, .eq)) ++
    chainOrder.map fun k => (k, .lane)

section Rules
variable {P : (ι → St) → Prop} {Q : (ι → γ) → Prop} {f : ι → Word → Round γ}
  {g : ι → Unit → Round γ} {ctx : Bytes} {l : ι → Nat → UInt8} {K : Facts RunFact} {k : Nat}

theorem Family.lookup (hctx : 0x8000 ≤ ctx.length) {m : Round Word}
    (h : ∀ v, Family P (fun i => f i v) Q)
    (hm : Lookup ctx ctx m m := by with_reducible constructor; decide) :
    Family P (fun i => m >>= f i) Q := by
  obtain ⟨v, rfl, -⟩ := hm.same (SameTable.refl hctx)
  exact h v

/-- A lookup under an index of each run's own. -/
theorem Family.ctxb_each (hctx : 0x8000 ≤ ctx.length) {base : Nat} {x : ι → Word}
    (h : Family P (fun i => f i (tableWord ctx (base + (x i &&& 0xFF).toNat))) Q)
    (hbase : base + 256 ≤ 0x8000 := by decide) :
    Family P (fun i => ctxb ctx (base + (x i &&& 0xFF).toNat) >>= f i) Q := by
  refine Family.values (fun i => ctxb_run ?_) h
  have hx := and_byte_lt (x i)
  omega

theorem Family.load_eq (h : ∀ v, Family (HoldsAll (RunFact.den l) K) (fun i => f i v) Q)
    (hk : k < stSize := by decide) (he : K.lookup k = some .eq := by decide +kernel) :
    Family (HoldsAll (RunFact.den l) K) (fun i => load k >>= f i) Q := by
  refine Family.read_tag .eq hk he fun a ha => ?_
  obtain ⟨v, hv⟩ := ha
  obtain rfl : a = fun _ => v := funext hv
  exact h v

theorem Family.load_lane (h : ∀ a : ι → Word, (∀ i, a i &&& 0xFF = byteWord (l i k)) →
      Family (HoldsAll (RunFact.den l) K) (fun i => f i (a i)) Q)
    (hk : k < stSize := by decide) (he : K.lookup k = some .lane := by decide +kernel) :
    Family (HoldsAll (RunFact.den l) K) (fun i => load k >>= f i) Q :=
  Family.read_tag .lane hk he h

theorem Family.store_eq {v : Word}
    (h : Family (HoldsAll (RunFact.den l) ((k, .eq) :: K)) (fun i => g i ()) Q)
    (hk : k < stSize := by decide) :
    Family (HoldsAll (RunFact.den l) K) (fun i => store k v >>= g i) Q :=
  Family.write .eq hk (show RunFact.den l .eq k fun _ => v from ⟨v, fun _ => rfl⟩) h

end Rules

section Mixes
variable {ctx : Bytes} {l : ι → Nat → UInt8} {k : Nat} {z c : Word} {a : ι → Word}

/-- All runs mix the same byte into the lane. -/
def Mixes (ctx : Bytes) (l : ι → Nat → UInt8) (k : Nat) (x : ι → UInt8) : Prop :=
  ∃ g, ∀ i, x i = outTable ctx (l i k ^^^ g)

theorem mixes (h : ∀ i, a i &&& 0xFF = byteWord (l i k)) : Mixes ctx l k fun i => wordByte
    ((tableWord ctx (0x5300 + ((a i &&& 0xFF ^^^ z ^^^ c) &&& 0xFF).toNat) ^^^ 118) &&& 0xFF) := by
  refine ⟨wordByte z ^^^ wordByte c, fun i => ?_⟩
  beta_reduce
  rw [outTable_word, wordByte_xor, wordByte_xor, h i, wordByte_byteWord, UInt8.xor_assoc]

/-- The second byte of a block is mixed before it is cut down to a byte. -/
theorem mixes_early (h : ∀ i, a i &&& 0xFF = byteWord (l i k)) : Mixes ctx l k fun i => wordByte
    ((tableWord ctx (0x5300 + ((((a i ^^^ z) &&& 0xFF) &&& 0xFF ^^^ c) &&& 0xFF).toNat) ^^^ 118)
      &&& 0xFF) := by
  refine ⟨wordByte z ^^^ wordByte c, fun i => ?_⟩
  beta_reduce
  rw [outTable_word, wordByte_xor, wordByte_low, wordByte_low, wordByte_xor,
    wordByte_of_low (h i), UInt8.xor_assoc]

/-- The bytes of a list, each mixed into its own lane. -/
def MixesAll (ctx : Bytes) (l : ι → Nat → UInt8) (ks : List Nat) (xs : ι → Bytes) : Prop :=
  ∃ gs : Bytes, gs.length = ks.length ∧
    ∀ i, xs i = List.zipWith (fun k g => outTable ctx (l i k ^^^ g)) ks gs

theorem MixesAll.nil : MixesAll ctx l [] fun _ => [] := ⟨[], rfl, fun _ => rfl⟩

theorem MixesAll.cons {ks : List Nat} {x : ι → UInt8} {xs : ι → Bytes} (h : Mixes ctx l k x)
    (hs : MixesAll ctx l ks xs) : MixesAll ctx l (k :: ks) fun i => x i :: xs i := by
  obtain ⟨g, hg⟩ := h
  obtain ⟨gs, hlen, hgs⟩ := hs
  refine ⟨g :: gs, congrArg (· + 1) hlen, fun i => ?_⟩
  rw [List.zipWith_cons_cons, ← hg i, ← hgs i]

end Mixes

theorem copies_run (cs : List (Nat × Nat)) (h : ∀ c ∈ cs, c.1 < stSize ∧ c.2 < stSize) (s : St) :
    ∃ u t, (cs.forM fun (dst, src) => do
      store dst ((← load dst) &&& 0xFFFFFF00 ||| (← load src) &&& 0xFF) : Round PUnit) s =
        some (u, t) := by
  induction cs generalizing s with
  | nil => exact ⟨_, s, rfl⟩
  | cons c cs ih =>
    obtain ⟨hdst, hsrc⟩ := h c List.mem_cons_self
    have hread (k : Nat) (hk : k < stSize) : load k s = some (s[k], s) := dif_pos hk
    have hwrite (v : Word) : store c.1 v s = some ((), s.set c.1 v) := dif_pos hdst
    obtain ⟨u, t, ht⟩ := ih (fun d hd => h d (List.mem_cons_of_mem _ hd))
      (s.set c.1 (s[c.1] &&& 0xFFFFFF00 ||| s[c.2] &&& 0xFF))
    refine ⟨u, t, ?_⟩
    simp only [List.forM, bind_assoc]
    rw [bind_run (hread _ hdst), bind_run (hread _ hsrc), bind_run (hwrite _)]
    exact ht

theorem round3Sub8000_mixes {ctx : Bytes} (hctx : 0x8000 ≤ ctx.length) (l : ι → Nat → UInt8)
    (a2 a3 a4 a5 a6 v6 v8 v9 v10 v11 v12 : Word) :
    Family (HoldsAll (RunFact.den l) startFacts)
      (fun _ => round3Sub8000 ctx a2 a3 a4 a5 a6 v6 v8 v9 v10 v11 v12)
      fun r => MixesAll ctx l chainOrder fun i => (r i).pt.toList.map Prod.snd := by
  unfold round3Sub8000
  repeat
    (try extract_lets)
    first
    | with_reducible refine Family.lookup hctx fun _ => ?_
    | with_reducible refine Family.ctxb_each hctx ?_
    | with_reducible refine Family.load_eq fun _ => ?_
    | with_reducible refine Family.load_lane fun _ _ => ?_
    | with_reducible refine Family.store_eq ?_
    | with_reducible refine Family.read_any fun _ => ?_
  refine Family.last (copies_run chainCopies (by decide)) ?_
  simp only [Vector.toList_mk, List.map_cons, List.map_nil]
  rw [chainOrder]
  refine MixesAll.cons (mixes (by with_reducible assumption)) ?_
  refine MixesAll.cons (mixes_early (by with_reducible assumption)) ?_
  repeat refine MixesAll.cons (mixes (by with_reducible assumption)) ?_
  exact MixesAll.nil

end Temari.Round3Lanes
