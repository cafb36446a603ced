import Temari.InputReads

/-! Rules for one program over an indexed store: what a run that does not fail leaves behind, and
what a whole family of runs of one program has in common. Nothing in this file names a particular
program. -/
namespace Temari.StoreTriples
open Relational InputReads
variable {σ α β γ ι : Type}

/-- A run from P that does not fail ends with a result and a state in Q. -/
def Triple (P : σ → Prop) (m : StateT σ Option α) (Q : α → σ → Prop) : Prop :=
  ∀ s a t, P s → m s = some (a, t) → Q a t

/-- The program does not touch the state. -/
def Quiet (m : StateT σ Option α) : Prop := ∀ s a t, m s = some (a, t) → t = s

section Triples
variable {P : σ → Prop} {Q : β → σ → Prop} {m : StateT σ Option α} {f : α → StateT σ Option β}

theorem bind_some {s u : σ} {b : β} (h : (m >>= f) s = some (b, u)) :
    ∃ a t, m s = some (a, t) ∧ f a t = some (b, u) := by
  change (m s).bind _ = _ at h
  obtain ⟨⟨a, t⟩, hm, hf⟩ := Option.bind_eq_some_iff.mp h
  exact ⟨a, t, hm, hf⟩

theorem Triple.pure {b : β} (h : ∀ s, P s → Q b s) : Triple P (Pure.pure b) Q := by
  intro s a t hp hm
  cases hm
  exact h s hp

theorem Triple.bind {R : α → σ → Prop} (h : Triple P m R) (hk : ∀ a, Triple (R a) (f a) Q) :
    Triple P (m >>= f) Q := by
  intro s b u hp hm
  obtain ⟨a, t, ha, hb⟩ := bind_some hm
  exact hk a t b u (h s a t hp ha) hb

theorem Triple.mono {P' : σ → Prop} {Q' : α → σ → Prop} {R : α → σ → Prop} (h : Triple P m R)
    (hp : ∀ s, P' s → P s) (hq : ∀ a s, R a s → Q' a s) : Triple P' m Q' :=
  fun s a t hs hm => hq a t (h s a t (hp s hs) hm)

/-- A quiet step with one possible result. -/
theorem Triple.value {v : α} (hm : ∀ s a t, m s = some (a, t) → a = v ∧ t = s)
    (h : Triple P (f v) Q) : Triple P (m >>= f) Q := by
  intro s b u hp hrun
  obtain ⟨a, t, ha, hb⟩ := bind_some hrun
  obtain ⟨rfl, rfl⟩ := hm s a t ha
  exact h t b u hp hb

theorem Triple.quiet (hm : Quiet m) (h : ∀ a, Triple P (f a) Q) : Triple P (m >>= f) Q := by
  intro s b u hp hrun
  obtain ⟨a, t, ha, hb⟩ := bind_some hrun
  obtain rfl := hm s a t ha
  exact h a t b u hp hb

theorem lift_quiet {o : Option α} : Quiet (liftM o : StateT σ Option α) := by
  intro s a t h
  cases o with
  | none => cases h
  | some b =>
    cases h
    rfl

theorem Triple.lift {o : Option α} {a : α} (ho : o = some a) (h : Triple P (f a) Q) :
    Triple P ((liftM o : StateT σ Option α) >>= f) Q := by
  subst ho
  exact h

end Triples

section Cells
variable {n k : Nat} {T : Type} {den : T → Nat → α → α → Prop} {K : Facts T}
  {Q : β → Vector α n → Prop} {f : α → StateT (Vector α n) Option β}
  {g : Unit → StateT (Vector α n) Option β}

theorem readCell_some {s t : Vector α n} {a : α} (h : readCell k s = some (a, t)) :
    ∃ hk : k < n, a = s[k] ∧ t = s := by
  rw [readCell] at h
  split at h
  · cases h
    exact ⟨‹_›, rfl, rfl⟩
  · cases h

theorem Triple.read_any (h : ∀ a, Triple (Known den K) (f a) Q) :
    Triple (Known den K) (readCell k >>= f) Q :=
  Triple.quiet (fun _ _ _ hm => (readCell_some hm).2.2) h

theorem Triple.read_tag (e : T) (he : K.lookup k = some e)
    (h : ∀ a, den e k a a → Triple (Known den K) (f a) Q) :
    Triple (Known den K) (readCell k >>= f) Q := by
  intro s b u hs hrun
  obtain ⟨a, t, ha, hb⟩ := bind_some hrun
  obtain ⟨hk, rfl, rfl⟩ := readCell_some ha
  exact h _ (hs k e he hk) t b u hs hb

theorem Triple.write (e : T) {v : α} (hv : den e k v v)
    (h : Triple (Known den ((k, e) :: K)) (g ()) Q) :
    Triple (Known den K) (writeCell k v >>= g) Q := by
  intro s b u hs hrun
  obtain ⟨a, t, ha, hb⟩ := bind_some hrun
  rw [writeCell] at ha
  split at ha
  · next hk =>
    cases ha
    exact h _ b u (hs.set hk hv) hb
  · cases ha

end Cells

/-- From states in P all runs of the family succeed, with results in Q. -/
def Family (P : (ι → σ) → Prop) (m : ι → StateT σ Option α) (Q : (ι → α) → Prop) : Prop :=
  ∀ s, P s → ∃ (a : ι → α) (t : ι → σ), (∀ i, m i (s i) = some (a i, t i)) ∧ Q a

section Families
variable {P : (ι → σ) → Prop} {Q : (ι → β) → Prop} {f : ι → α → StateT σ Option β}

/-- A step that every run takes without touching the state. -/
theorem Family.values {m : ι → StateT σ Option α} {v : ι → α} (hm : ∀ i s, m i s = some (v i, s))
    (h : Family P (fun i => f i (v i)) Q) : Family P (fun i => m i >>= f i) Q := by
  intro s hs
  obtain ⟨b, t, hrun, hq⟩ := h s hs
  exact ⟨b, t, fun i => (bind_run (hm i (s i))).trans (hrun i), hq⟩

/-- A last step that cannot fail, with the results settled before it. -/
theorem Family.last {m : StateT σ Option α} {b : ι → β} (hm : ∀ s, ∃ a t, m s = some (a, t))
    (h : Q b) : Family P (fun i => m >>= fun _ => Pure.pure (b i)) Q := by
  intro s _
  have hrun (i : ι) : ∃ t, (m >>= fun _ => (Pure.pure (b i) : StateT σ Option β)) (s i) =
      some (b i, t) := by
    obtain ⟨a, t, ha⟩ := hm (s i)
    exact ⟨t, bind_run ha⟩
  choose t ht using hrun
  exact ⟨b, t, ht, h⟩

end Families

section FamilyCells
variable {n k : Nat} {T : Type} {den : T → Nat → (ι → α) → Prop} {K : Facts T}
  {Q : (ι → β) → Prop} {f : ι → α → StateT (Vector α n) Option β}
  {g : ι → Unit → StateT (Vector α n) Option β}

/-- The cells of the stores of a family are as their tags say. -/
def HoldsAll (den : T → Nat → (ι → α) → Prop) (K : Facts T) (s : ι → Vector α n) : Prop :=
  ∀ k e, K.lookup k = some e → ∀ h : k < n, den e k fun i => (s i)[k]

theorem HoldsAll.set {s : ι → Vector α n} (h : HoldsAll den K s) (hk : k < n) {e : T} {v : ι → α}
    (hv : den e k v) : HoldsAll den ((k, e) :: K) fun i => (s i).set k (v i) := by
  intro j e' hj hlt
  by_cases hjk : j = k
  · subst j
    simp only [List.lookup_cons, beq_self_eq_true] at hj
    cases hj
    simpa using hv
  · have hb : (j == k) = false := by simpa using hjk
    simp only [List.lookup_cons, hb] at hj
    have hne : k ≠ j := fun e => hjk e.symm
    simpa [Vector.getElem_set_ne hk hlt hne] using h j e' hj hlt

theorem Family.read_tag (e : T) (hk : k < n) (he : K.lookup k = some e)
    (h : ∀ a, den e k a → Family (HoldsAll den K) (fun i => f i (a i)) Q) :
    Family (HoldsAll den K) (fun i => readCell k >>= f i) Q := by
  intro s hs
  obtain ⟨b, t, hrun, hq⟩ := h (fun i => (s i)[k]) (hs k e he hk) s hs
  refine ⟨b, t, fun i => (bind_run ?_).trans (hrun i), hq⟩
  rw [readCell, dif_pos hk]

theorem Family.read_any (h : ∀ a : ι → α, Family (HoldsAll den K) (fun i => f i (a i)) Q)
    (hk : k < n := by decide) :
    Family (HoldsAll den K) (fun i => readCell k >>= f i) Q := by
  intro s hs
  obtain ⟨b, t, hrun, hq⟩ := h (fun i => (s i)[k]) s hs
  refine ⟨b, t, fun i => (bind_run ?_).trans (hrun i), hq⟩
  rw [readCell, dif_pos hk]

theorem Family.write (e : T) (hk : k < n) {v : ι → α} (hv : den e k v)
    (h : Family (HoldsAll den ((k, e) :: K)) (fun i => g i ()) Q) :
    Family (HoldsAll den K) (fun i => writeCell k (v i) >>= g i) Q := by
  intro s hs
  obtain ⟨b, t, hrun, hq⟩ := h _ (hs.set hk hv)
  refine ⟨b, t, fun i => (bind_run ?_).trans (hrun i), hq⟩
  rw [writeCell, dif_pos hk]

end FamilyCells
end Temari.StoreTriples
