import Mathlib.Data.List.Basic
import Mathlib.Data.Vector.Basic

/-! Relational reasoning about two runs of fallible programs over an indexed
store. A run that fails has no result, so a relation here also says that both
runs succeed. Nothing in this file names a particular program. -/
namespace Temari.Relational
variable {σ τ α β γ δ : Type}

/-- From related states both programs succeed, with related results and states. -/
def Sim (P : σ → τ → Prop) (m : StateT σ Option α) (n : StateT τ Option β)
    (Q : α → β → σ → τ → Prop) : Prop :=
  ∀ s t, P s t → ∃ a s' b t', m s = some (a, s') ∧ n t = some (b, t') ∧ Q a b s' t'

theorem bind_run {m : StateT σ Option α} {f : α → StateT σ Option γ} {s t : σ} {a : α}
    (h : m s = some (a, t)) : (m >>= f) s = f a t := by
  change (m s).bind _ = _
  rw [h]
  rfl

theorem Sim.pure {P : σ → τ → Prop} {Q : α → β → σ → τ → Prop} {a : α} {b : β}
    (h : ∀ s t, P s t → Q a b s t) :
    Sim P (Pure.pure a : StateT σ Option α) (Pure.pure b : StateT τ Option β) Q :=
  fun s t hp => ⟨a, s, b, t, rfl, rfl, h s t hp⟩

theorem Sim.bind {P : σ → τ → Prop} {R : α → β → σ → τ → Prop} {Q : γ → δ → σ → τ → Prop}
    {m : StateT σ Option α} {n : StateT τ Option β}
    {f : α → StateT σ Option γ} {g : β → StateT τ Option δ}
    (h : Sim P m n R) (hk : ∀ a b, Sim (R a b) (f a) (g b) Q) :
    Sim P (m >>= f) (n >>= g) Q := by
  intro s t hp
  obtain ⟨a, s', b, t', hm, hn, hr⟩ := h s t hp
  obtain ⟨c, s'', d, t'', hf, hg, hq⟩ := hk a b s' t' hr
  exact ⟨c, s'', d, t'', (bind_run hm).trans hf, (bind_run hn).trans hg, hq⟩

theorem Sim.mono {P P' : σ → τ → Prop} {Q Q' : α → β → σ → τ → Prop}
    {m : StateT σ Option α} {n : StateT τ Option β} (h : Sim P m n Q)
    (hp : ∀ s t, P' s t → P s t) (hq : ∀ a b s t, Q a b s t → Q' a b s t) : Sim P' m n Q' := by
  intro s t hs
  obtain ⟨a, s', b, t', hm, hn, hr⟩ := h s t (hp s t hs)
  exact ⟨a, s', b, t', hm, hn, hq a b s' t' hr⟩

/-- A fact about the results is available to the rest of both programs. -/
theorem Sim.assume {φ : Prop} {P : σ → τ → Prop} {Q : α → β → σ → τ → Prop}
    {m : StateT σ Option α} {n : StateT τ Option β} (h : φ → Sim P m n Q) :
    Sim (fun s t => φ ∧ P s t) m n Q :=
  fun s t hp => h hp.1 s t hp.2

theorem Sim.lift {P : σ → τ → Prop} {Q : γ → δ → σ → τ → Prop} {m : Option α} {n : Option β}
    {a : α} {b : β} {f : α → StateT σ Option γ} {g : β → StateT τ Option δ} (hm : m = some a)
    (hn : n = some b) (h : Sim P (f a) (g b) Q) :
    Sim P ((liftM m : StateT σ Option α) >>= f) ((liftM n : StateT τ Option β) >>= g) Q := by
  subst hm hn
  exact h

section Store
variable {n : Nat}

/-- Read one cell; an index past the end fails. -/
def readCell (k : Nat) : StateT (Vector α n) Option α := fun s =>
  if h : k < n then some (s[k], s) else none

/-- Write one cell; an index past the end fails. -/
def writeCell (k : Nat) (v : α) : StateT (Vector α n) Option Unit := fun s =>
  if h : k < n then some ((), s.set k v) else none

variable {T : Type}

/-- What is known about each cell in the two runs, by tag; the first entry for a cell counts. -/
abbrev Facts (T : Type) := List (Nat × T)

/-- The cells of the two stores are related as their tags say. -/
def Holds (den : T → Nat → α → α → Prop) (K : Facts T) (s t : Vector α n) : Prop :=
  ∀ k e, K.lookup k = some e → ∀ h : k < n, den e k s[k] t[k]

variable {den : T → Nat → α → α → Prop} {K : Facts T}

theorem Holds.set {s t : Vector α n} (h : Holds den K s t) {k : Nat} (hk : k < n) {e : T}
    {v w : α} (hv : den e k v w) : Holds den ((k, e) :: K) (s.set k v) (t.set k w) := by
  intro j e' hj hlt
  by_cases hjk : j = k
  · subst j
    simp only [List.lookup_cons, beq_self_eq_true] at hj
    cases hj
    simpa using hv
  · have hb : (j == k) = false := by simpa using hjk
    simp only [List.lookup_cons, hb] at hj
    have hne : k ≠ j := fun e => hjk e.symm
    simpa [Vector.getElem_set_ne hk hlt hne] using h j e' hj hlt

/-- Each wanted fact is implied by what is known about its cell. -/
theorem Holds.transfer {den' : T → Nat → α → α → Prop} (imp : T → T → Bool) {K' : Facts T}
    {s t : Vector α n} (himp : ∀ e e' k a b, imp e e' = true → den e k a b → den' e' k a b)
    (h : Holds den K s t)
    (hK : (K'.all fun f => (K.lookup f.1).any fun e => imp e f.2) = true) :
    Holds den' K' s t := by
  intro k e' hk hlt
  have hmem : (k, e') ∈ K' := by
    obtain ⟨l, l', rfl, -⟩ := List.lookup_eq_some_iff.mp hk
    simp
  have hany := List.all_eq_true.mp hK _ hmem
  obtain ⟨e, he, hi⟩ := (Option.any_eq_true _ _).mp hany
  exact himp e e' k _ _ hi (h k e he hlt)

theorem Holds.restrict [DecidableEq T] {K' : Facts T} {s t : Vector α n} (h : Holds den K s t)
    (hK : (K'.all fun f => (K.lookup f.1).any fun e => decide (e = f.2)) = true) :
    Holds den K' s t := by
  refine Holds.transfer (fun e e' => decide (e = e')) ?_ h hK
  intro e e' k a b he hd
  rwa [← of_decide_eq_true he]

variable {Q : γ → δ → Vector α n → Vector α n → Prop}

/-- A read yields two values, related by whatever is known about the cell. -/
theorem Sim.read {R : α → α → Prop} {k : Nat} {f : α → StateT (Vector α n) Option γ}
    {g : α → StateT (Vector α n) Option δ} (hk : k < n)
    (hR : ∀ s t : Vector α n, Holds den K s t → R s[k] t[k])
    (h : ∀ a b, R a b → Sim (Holds den K) (f a) (g b) Q) :
    Sim (Holds den K) (readCell k >>= f) (readCell k >>= g) Q := by
  intro s t hs
  obtain ⟨c, s', d, t', hf, hg, hq⟩ := h s[k] t[k] (hR s t hs) s t hs
  refine ⟨c, s', d, t', ?_, ?_, hq⟩
  · change (readCell k s).bind _ = _
    rw [readCell, dif_pos hk]
    exact hf
  · change (readCell k t).bind _ = _
    rw [readCell, dif_pos hk]
    exact hg

theorem Sim.read_tag (e : T) {k : Nat} {f : α → StateT (Vector α n) Option γ}
    {g : α → StateT (Vector α n) Option δ} (hk : k < n) (he : K.lookup k = some e)
    (h : ∀ a b, den e k a b → Sim (Holds den K) (f a) (g b) Q) :
    Sim (Holds den K) (readCell k >>= f) (readCell k >>= g) Q :=
  Sim.read hk (fun _ _ hs => hs k e he hk) h

/-- A cell about which nothing is known still reads without failing. -/
theorem Sim.read_any {k : Nat} {f : α → StateT (Vector α n) Option γ}
    {g : α → StateT (Vector α n) Option δ} (h : ∀ a b, Sim (Holds den K) (f a) (g b) Q)
    (hk : k < n := by decide) :
    Sim (Holds den K) (readCell k >>= f) (readCell k >>= g) Q :=
  Sim.read (R := fun _ _ => True) hk (fun _ _ _ => trivial) fun a b _ => h a b

theorem Sim.write (e : T) {k : Nat} {v w : α} {f : Unit → StateT (Vector α n) Option γ}
    {g : Unit → StateT (Vector α n) Option δ} (hk : k < n) (hv : den e k v w)
    (h : Sim (Holds den ((k, e) :: K)) (f ()) (g ()) Q) :
    Sim (Holds den K) (writeCell k v >>= f) (writeCell k w >>= g) Q := by
  intro s t hs
  obtain ⟨c, s', d, t', hf, hg, hq⟩ := h _ _ (hs.set hk hv)
  refine ⟨c, s', d, t', ?_, ?_, hq⟩
  · change (writeCell k v s).bind _ = _
    rw [writeCell, dif_pos hk]
    exact hf
  · change (writeCell k w t).bind _ = _
    rw [writeCell, dif_pos hk]
    exact hg

end Store
end Temari.Relational
