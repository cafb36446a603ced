import Mathlib.Logic.Function.Basic
import Mathlib.Data.Fintype.Card
import Mathlib.Data.Finset.Card
import Mathlib.Data.List.Perm.Subperm
import Mathlib.Data.List.Nodup
import Mathlib.Data.Finset.Lattice.Basic

/-! Work shared by an atomic counter. Threads claim items 0 .. n-1 by counting up, process
them, and count a second counter down; the thread that brings it to zero raises the
finished flag. Any number of threads, any interleaving. -/
namespace Temari.SharedWork
variable {κ : Type*} [DecidableEq κ]

structure Work (κ : Type*) where
  next : Nat
  pending : Nat
  finished : Bool
  /-- The item a thread has claimed and not yet counted down, and whether it is processed. -/
  own : κ → Option (Nat × Bool)
  /-- The thread has brought the count to zero and has yet to raise the flag. -/
  last : κ → Bool
  /-- The items in the order in which they were processed. -/
  done : List Nat

def Work.start (n : Nat) : Work κ where
  next := 0
  pending := n
  finished := false
  own := fun _ => none
  last := fun _ => false
  done := []

namespace Work
variable (w : Work κ)

def claim (k : κ) : Work κ :=
  { w with next := w.next + 1, own := Function.update w.own k (some (w.next, false)) }

def skip : Work κ := { w with next := w.next + 1 }

def process (k : κ) (i : Nat) : Work κ :=
  { w with own := Function.update w.own k (some (i, true)), done := w.done ++ [i] }

def retire (k : κ) : Work κ :=
  { w with
    pending := w.pending - 1
    own := Function.update w.own k none
    last := Function.update w.last k (decide (w.pending = 1)) }

def raise (k : κ) : Work κ :=
  { w with finished := true, last := Function.update w.last k false }

end Work

inductive Step (n : Nat) (w : Work κ) : Work κ → Prop
  | claim (k : κ) (hk : w.own k = none) (hn : w.next < n) : Step n w (w.claim k)
  | skip (hn : n ≤ w.next) : Step n w w.skip
  | process (k : κ) (i : Nat) (hk : w.own k = some (i, false)) : Step n w (w.process k i)
  | retire (k : κ) (i : Nat) (hk : w.own k = some (i, true)) : Step n w (w.retire k)
  | raise (k : κ) (hk : w.last k = true) : Step n w (w.raise k)

variable [Fintype κ]

/-- The threads that hold an item. -/
def Work.holders (w : Work κ) : Finset κ := Finset.univ.filter fun k => (w.own k).isSome

structure Inv (n : Nat) (w : Work κ) : Prop where
  owned : ∀ k i b, w.own k = some (i, b) → i < w.next ∧ i < n
  unique : ∀ k l i b c, w.own k = some (i, b) → w.own l = some (i, c) → k = l
  count : w.pending = (n - w.next) + w.holders.card
  last : ∀ k, w.last k = true → w.pending = 0
  finished : w.finished = true → w.pending = 0
  nodup : w.done.Nodup
  mem_done : ∀ i, i ∈ w.done ↔ i < w.next ∧ i < n ∧ ∀ k, w.own k ≠ some (i, false)

variable {n : Nat} {w w' : Work κ}

omit [DecidableEq κ] in
theorem inv_start : Inv n (Work.start n : Work κ) where
  owned := by simp [Work.start]
  unique := by simp [Work.start]
  count := by simp [Work.start, Work.holders]
  last := by simp [Work.start]
  finished := by simp [Work.start]
  nodup := by simp [Work.start]
  mem_done := by simp [Work.start]

section Holders
variable {own : κ → Option (Nat × Bool)} {k : κ}

theorem card_claim {x : Nat × Bool} (hk : own k = none) :
    (Finset.univ.filter fun l => (Function.update own k (some x) l).isSome).card =
      (Finset.univ.filter fun l => (own l).isSome).card + 1 := by
  have hset : (Finset.univ.filter fun l => (Function.update own k (some x) l).isSome) =
      insert k (Finset.univ.filter fun l => (own l).isSome) := by
    ext l
    by_cases hl : l = k <;> simp [hl]
  rw [hset, Finset.card_insert_of_notMem (by simp [hk])]

theorem card_process {x y : Nat × Bool} (hk : own k = some x) :
    (Finset.univ.filter fun l => (Function.update own k (some y) l).isSome).card =
      (Finset.univ.filter fun l => (own l).isSome).card := by
  congr 1
  ext l
  by_cases hl : l = k <;> simp [hl, hk]

theorem card_retire {x : Nat × Bool} (hk : own k = some x) :
    (Finset.univ.filter fun l => (Function.update own k none l).isSome).card + 1 =
      (Finset.univ.filter fun l => (own l).isSome).card := by
  have hset : (Finset.univ.filter fun l => (Function.update own k none l).isSome) =
      (Finset.univ.filter fun l => (own l).isSome).erase k := by
    ext l
    by_cases hl : l = k <;> simp [hl]
  rw [hset, Finset.card_erase_add_one (by simp [hk])]

end Holders

section Owners
variable {own : κ → Option (Nat × Bool)} {k : κ} {x : Option (Nat × Bool)}

omit [Fintype κ] in
theorem owned_update {P : Nat → Prop} (h : ∀ l i b, own l = some (i, b) → P i)
    (hx : ∀ i b, x = some (i, b) → P i) :
    ∀ l i b, Function.update own k x l = some (i, b) → P i :=
  (Function.forall_update_iff own fun _ y => ∀ i b, y = some (i, b) → P i).mpr
    ⟨hx, fun l _ => h l⟩

omit [Fintype κ] in
/-- A thread changes its item; what it has now, no other thread has. -/
theorem unique_update (h : ∀ l m i b c, own l = some (i, b) → own m = some (i, c) → l = m)
    (hx : ∀ l i b c, x = some (i, b) → own l = some (i, c) → l = k) (l m : κ) (i : Nat)
    (b c : Bool) (hl : Function.update own k x l = some (i, b))
    (hm : Function.update own k x m = some (i, c)) : l = m := by
  by_cases hlk : l = k <;> by_cases hmk : m = k
  · rw [hlk, hmk]
  · rw [hlk, Function.update_self] at hl
    rw [Function.update_of_ne hmk] at hm
    exact hlk.trans (hx m i b c hl hm).symm
  · rw [Function.update_of_ne hlk] at hl
    rw [hmk, Function.update_self] at hm
    exact (hx l i c b hm hl).trans hmk.symm
  · rw [Function.update_of_ne hlk] at hl
    rw [Function.update_of_ne hmk] at hm
    exact h l m i b c hl hm

omit [Fintype κ] in
/-- Nobody has an item in work: not this thread, and not the others. -/
theorem free_update {i : Nat} : (∀ l, Function.update own k x l ≠ some (i, false)) ↔
    x ≠ some (i, false) ∧ ∀ l, l ≠ k → own l ≠ some (i, false) :=
  Function.forall_update_iff own fun _ y => y ≠ some (i, false)

omit [DecidableEq κ] [Fintype κ] in
theorem free_iff (k : κ) {i : Nat} : (∀ l, own l ≠ some (i, false)) ↔
    own k ≠ some (i, false) ∧ ∀ l, l ≠ k → own l ≠ some (i, false) :=
  (and_forall_ne k).symm

end Owners

omit [DecidableEq κ] in
theorem Inv.pending_pos (h : Inv n w) {k : κ} {x : Nat × Bool} (hk : w.own k = some x) :
    0 < w.pending := by
  have hc : 0 < w.holders.card := Finset.card_pos.mpr ⟨k, by simp [Work.holders, hk]⟩
  have := h.count
  omega

theorem Inv.claim (h : Inv n w) {k : κ} (hk : w.own k = none) (hn : w.next < n) :
    Inv n (w.claim k) := by
  unfold Work.claim
  refine ⟨owned_update (fun l i b hl => ?_) fun i b hi => ?_,
    unique_update h.unique fun l i b c hi hl => ?_, ?_, h.last, h.finished, h.nodup, fun i => ?_⟩
  · exact ⟨Nat.lt_succ_of_lt (h.owned l i b hl).1, (h.owned l i b hl).2⟩
  · cases hi
    exact ⟨Nat.lt_succ_self _, hn⟩
  · cases hi
    exact absurd (h.owned l _ c hl).1 (Nat.lt_irrefl _)
  · have hc := h.count
    simp only [Work.holders, card_claim hk] at hc ⊢
    omega
  · rw [h.mem_done i, free_iff k, free_update, hk]
    simp only [ne_eq, reduceCtorEq, not_false_eq_true, true_and, Option.some.injEq,
      Prod.mk.injEq, and_true]
    constructor
    · exact fun ⟨hi, hin, hothers⟩ => ⟨by omega, hin, by omega, hothers⟩
    · exact fun ⟨hi, hin, hne, hothers⟩ => ⟨by omega, hin, hothers⟩

omit [DecidableEq κ] in
theorem Inv.skip (h : Inv n w) (hn : n ≤ w.next) : Inv n w.skip := by
  unfold Work.skip
  refine ⟨?_, h.unique, ?_, h.last, h.finished, h.nodup, ?_⟩
  · intro k i b hk
    have := h.owned k i b hk
    exact ⟨Nat.lt_succ_of_lt this.1, this.2⟩
  · have hc := h.count
    simp only [Work.holders] at hc ⊢
    omega
  · intro i
    rw [h.mem_done i]
    dsimp only
    constructor
    · exact fun ⟨hi, hin, hown⟩ => ⟨by omega, hin, hown⟩
    · exact fun ⟨hi, hin, hown⟩ => ⟨by omega, hin, hown⟩

theorem Inv.process (h : Inv n w) {k : κ} {i : Nat} (hk : w.own k = some (i, false)) :
    Inv n (w.process k i) := by
  unfold Work.process
  have hnew : i ∉ w.done := fun hi => ((h.mem_done i).mp hi).2.2 k hk
  refine ⟨owned_update h.owned fun j b hj => ?_, unique_update h.unique fun l j b c hj hl => ?_, ?_,
    h.last, h.finished, ?_, fun j => ?_⟩
  · cases hj
    exact h.owned k i false hk
  · cases hj
    exact h.unique l k i c false hl hk
  · have hc := h.count
    simp only [Work.holders, card_process hk] at hc ⊢
    exact hc
  · refine List.nodup_append.mpr ⟨h.nodup, List.nodup_singleton i, fun a ha b hb hab => ?_⟩
    rw [List.mem_singleton.mp hb] at hab
    exact hnew (hab ▸ ha)
  · rw [List.mem_append, List.mem_singleton, h.mem_done j, free_iff k, free_update, hk]
    by_cases hji : j = i
    · obtain ⟨hlt, hin⟩ := h.owned k i false hk
      have hothers : ∀ l, l ≠ k → w.own l ≠ some (i, false) := fun l hlk hl =>
        hlk (h.unique l k i false false hl hk)
      subst hji
      exact iff_of_true (.inr rfl) ⟨hlt, hin, by simp, hothers⟩
    · simp [hji, Ne.symm hji]

theorem Inv.retire (h : Inv n w) {k : κ} {i : Nat} (hk : w.own k = some (i, true)) :
    Inv n (w.retire k) := by
  unfold Work.retire
  have hpos := h.pending_pos hk
  refine ⟨owned_update h.owned nofun, unique_update h.unique nofun, ?_,
    fun l hl => ?_, fun hf => ?_, h.nodup, fun j => ?_⟩
  · have hc := h.count
    have hr := card_retire hk
    simp only [Work.holders] at hc ⊢
    omega
  · by_cases hlk : l = k
    · simp only [hlk, Function.update_self, decide_eq_true_eq] at hl
      dsimp only
      omega
    · simp only [Function.update_of_ne hlk] at hl
      have := h.last l hl
      omega
  · have := h.finished hf
    omega
  · rw [h.mem_done j, free_iff k, free_update, hk]
    simp

theorem Inv.raise (h : Inv n w) {k : κ} (hk : w.last k = true) : Inv n (w.raise k) := by
  unfold Work.raise
  refine ⟨h.owned, h.unique, h.count, ?_, fun _ => h.last k hk, h.nodup, h.mem_done⟩
  intro l hl
  by_cases hlk : l = k
  · simp [hlk] at hl
  · simp only [Function.update_of_ne hlk] at hl
    exact h.last l hl

theorem Inv.step (h : Inv n w) (hs : Step n w w') : Inv n w' := by
  cases hs with
  | claim k hk hn => exact h.claim hk hn
  | skip hn => exact h.skip hn
  | process k i hk => exact h.process hk
  | retire k i hk => exact h.retire hk
  | raise k hk => exact h.raise hk

omit [DecidableEq κ] in
/-- Once the flag is up nobody holds an item, and none is left to claim. -/
theorem Inv.no_owner (h : Inv n w) (hf : w.finished = true) (k : κ) : w.own k = none := by
  cases hk : w.own k with
  | none => rfl
  | some x =>
    have := h.pending_pos hk
    have := h.finished hf
    omega

omit [DecidableEq κ] in
theorem Inv.all_claimed (h : Inv n w) (hf : w.finished = true) : n ≤ w.next := by
  have := h.finished hf
  have := h.count
  omega

omit [DecidableEq κ] in
/-- Once the flag is up every item has been processed exactly once. -/
theorem Inv.done_perm (h : Inv n w) (hf : w.finished = true) : w.done.Perm (List.range n) := by
  refine (List.perm_ext_iff_of_nodup h.nodup List.nodup_range).mpr fun i => ?_
  have hall := h.all_claimed hf
  rw [h.mem_done i, List.mem_range]
  constructor
  · exact fun hi => hi.2.1
  · intro hi
    refine ⟨by omega, hi, fun k hk => ?_⟩
    rw [h.no_owner hf k] at hk
    cases hk

/-- A count that is down to zero has been noticed: the flag is up, or a thread has yet to raise
it. -/
def Noticed (w : Work κ) : Prop := w.pending = 0 → w.finished = true ∨ ∃ k, w.last k = true

omit [DecidableEq κ] [Fintype κ] in
theorem noticed_start (hn : 0 < n) : Noticed (Work.start n : Work κ) := fun hz =>
  absurd hz (Nat.ne_of_gt hn)

theorem Noticed.step (h : Noticed w) (hi : Inv n w) (hs : Step n w w') : Noticed w' := by
  cases hs with
  | claim k hk hn => exact h
  | skip hn => exact h
  | process k i hk => exact h
  | retire k i hk =>
    -- the thread that counts the last item down is the one to raise the flag
    intro hz
    have hpos := hi.pending_pos hk
    have hone : w.pending = 1 := by
      change w.pending - 1 = 0 at hz
      omega
    exact Or.inr ⟨k, by simp [Work.retire, hone]⟩
  | raise k hk => exact fun _ => Or.inl rfl

omit [DecidableEq κ] in
/-- With all items claimed and none in hand, the flag is up or about to be. -/
theorem Inv.noticed (h : Inv n w) (hnoticed : Noticed w) (hall : n ≤ w.next)
    (hnone : ∀ k, w.own k = none) : w.finished = true ∨ ∃ k, w.last k = true := by
  have hcount := h.count
  have hempty : w.holders = ∅ := Finset.filter_eq_empty_iff.mpr fun k _ => by simp [hnone k]
  rw [hempty, Finset.card_empty] at hcount
  exact hnoticed (by omega)

end Temari.SharedWork
