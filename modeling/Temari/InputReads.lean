import Temari.Relational

/-! What a program reads of its input. The program is a family over the input, so it can look
at the input through its reads only; a run has the list of the places it looked at. Nothing in
this file names a particular program. -/
namespace Temari.InputReads
open Relational
variable {ι κ β σ α γ : Type} {read : ι → κ → Option β} {x y : ι}

/-- On input x the program runs from s to t with result a and reads these places, in order. -/
inductive Reads (read : ι → κ → Option β) (x : ι) :
    {α : Type} → (ι → StateT σ Option α) → σ → List κ → α → σ → Prop
  | quiet {α : Type} {m : StateT σ Option α} {s t : σ} {a : α} (h : m s = some (a, t)) :
    Reads read x (fun _ => m) s [] a t
  | look {s : σ} {k : κ} {b : β} (h : read x k = some b) :
    Reads read x (fun z => liftM (read z k)) s [k] b s
  | bind {α γ : Type} {F : ι → StateT σ Option α} {G : ι → α → StateT σ Option γ} {s t u : σ}
    {l l' : List κ} {a : α} {c : γ} (h : Reads read x F s l a t)
    (hk : Reads read x (fun z => G z a) t l' c u) :
    Reads read x (fun z => F z >>= G z) s (l ++ l') c u

section Meaning
variable {F : ι → StateT σ Option α} {s t : σ} {l : List κ} {a : α}

/-- Another input that has the same in the places read gives the same run. -/
theorem Reads.agree (h : Reads read x F s l a t) (hl : ∀ k ∈ l, read y k = read x k) :
    F y s = some (a, t) := by
  induction h with
  | quiet h => exact h
  | look h =>
    have hy := (hl _ (List.mem_singleton.mpr rfl)).trans h
    simp only [hy]
    rfl
  | @bind α γ F G s t u l l' a c _ _ ihF ihG =>
    change (F y s).bind _ = _
    rw [ihF fun k hk => hl k (List.mem_append_left _ hk)]
    exact ihG fun k hk => hl k (List.mem_append_right _ hk)

theorem Reads.result (h : Reads read x F s l a t) : F x s = some (a, t) := h.agree fun _ _ => rfl

/-- Every place in the list is looked at: where one of them is missing the run fails. -/
theorem Reads.need (h : Reads read x F s l a t)
    (hl : ∀ k ∈ l, read y k = none ∨ read y k = read x k) (hmiss : ∃ k ∈ l, read y k = none) :
    F y s = none := by
  induction h with
  | quiet => simp at hmiss
  | look h =>
    obtain ⟨k, hk, hnone⟩ := hmiss
    rw [List.mem_singleton] at hk
    subst hk
    simp only [hnone]
    rfl
  | @bind α γ F G s t u l l' a c hF hG ihF ihG =>
    change (F y s).bind _ = _
    by_cases hin : ∃ k ∈ l, read y k = none
    · rw [ihF (fun k hk => hl k (List.mem_append_left _ hk)) hin]
      rfl
    · have hsame (k : κ) (hk : k ∈ l) : read y k = read x k :=
        (hl k (List.mem_append_left _ hk)).resolve_left fun hnone => hin ⟨k, hk, hnone⟩
      obtain ⟨k, hk, hnone⟩ := hmiss
      have hk' : k ∈ l' := (List.mem_append.mp hk).resolve_left fun hkl => hin ⟨k, hkl, hnone⟩
      rw [hF.agree hsame]
      exact ihG (fun k hk => hl k (List.mem_append_right _ hk)) ⟨k, hk', hnone⟩

end Meaning

/-- From every state in P the program runs and reads these places. -/
def Traced (read : ι → κ → Option β) (x : ι) (P : σ → Prop) (F : ι → StateT σ Option α)
    (l : List κ) : Prop := ∀ s, P s → ∃ a t, Reads read x F s l a t

section Rules
variable {P : σ → Prop} {l : List κ}

theorem Traced.pure {a : α} : Traced read x P (fun _ => Pure.pure a) [] :=
  fun s _ => ⟨a, s, .quiet rfl⟩

theorem Traced.look {G : ι → β → StateT σ Option α} {k : κ} {b : β} (h : read x k = some b)
    (hk : Traced read x P (fun z => G z b) l) :
    Traced read x P (fun z => liftM (read z k) >>= G z) (k :: l) := by
  intro s hs
  obtain ⟨a, u, hG⟩ := hk s hs
  exact ⟨a, u, .bind (.look h) hG⟩

end Rules

section Store
variable {n : Nat} {T : Type} {den : T → Nat → α → α → Prop} {K : Facts T}
  {G : ι → α → StateT (Vector α n) Option γ} {H : ι → Unit → StateT (Vector α n) Option γ}
  {l : List κ} {k : Nat}

/-- What is known about the cells of one store. -/
abbrev Known (den : T → Nat → α → α → Prop) (K : Facts T) (s : Vector α n) : Prop := Holds den K s s

theorem Traced.read_tag (e : T) (hk : k < n) (he : K.lookup k = some e)
    (h : ∀ a, den e k a a → Traced read x (Known den K) (fun z => G z a) l) :
    Traced read x (Known den K) (fun z => readCell k >>= G z) l := by
  intro s hs
  obtain ⟨c, t, hG⟩ := h s[k] (hs k e he hk) s hs
  exact ⟨c, t, .bind (.quiet (by rw [readCell, dif_pos hk])) hG⟩

theorem Traced.read_any (h : ∀ a, Traced read x (Known den K) (fun z => G z a) l)
    (hk : k < n := by decide) :
    Traced read x (Known den K) (fun z => readCell k >>= G z) l := by
  intro s hs
  obtain ⟨c, t, hG⟩ := h s[k] s hs
  exact ⟨c, t, .bind (.quiet (by rw [readCell, dif_pos hk])) hG⟩

theorem Traced.write (e : T) {v : α} (hk : k < n) (hv : den e k v v)
    (h : Traced read x (Known den ((k, e) :: K)) (fun z => H z ()) l) :
    Traced read x (Known den K) (fun z => writeCell k v >>= H z) l := by
  intro s hs
  obtain ⟨c, t, hH⟩ := h _ (hs.set hk hv)
  exact ⟨c, t, .bind (.quiet (by rw [writeCell, dif_pos hk])) hH⟩

end Store
end Temari.InputReads
