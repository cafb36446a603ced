import Temari.StreamOrder
import Temari.Ffi

/-! The loop around stream_next in both bindings: a buffer that was filled to its end is taken for
too small, and the call is made again with twice the capacity. The first capacity is a parameter,
and so is what is done with the plaintexts. -/
namespace Temari.RetryLoop
open RoundMachine Rounds Ffi Transition
variable {κ : Type} [DecidableEq κ] {tmpl : Template} {batchSize first : Nat}
  {u v : Stream.State κ}

/-- What a call of stream_next means to the loop: the end, a plaintext, or too small a buffer. -/
inductive Turn where
  | ended | got (plain : Bytes) | again

/-- The turn with this capacity, of what stream_next returned and copied. -/
def turn (cap n : Nat) (out : Bytes) : Turn :=
  if n = 0 then .ended else if n < cap then .got out else .again

/-- Only the loop reads the stream, and nobody drops it meanwhile. -/
def ofOthers : Stream.Action κ → Bool
  | .call _ _ | .client _ | .coord _ => true
  | _ => false

def nonempty (p : Bytes) : Bool := !p.isEmpty

theorem nonempty_iff {p : Bytes} : nonempty p = true ↔ p ≠ [] := by simp [nonempty]

/-- Every plaintext taken out of the stream fits the first capacity. -/
def Short (first : Nat) (u : Stream.State κ) : Prop := ∀ p ∈ u.delivered, p.length < first

/-- Samples whose plaintexts the loop can hand on. -/
def Fits (first : Nat) (samples : List Bytes) : Prop := ∀ sample ∈ samples, sample.length < first

section Turns

theorem next_cases (h : Stream.step tmpl batchSize u .next = some v) :
    (∃ p rest, u.outQueue = p :: rest ∧
      v = { u with outQueue := rest }.answer (.next (some p))) ∨
    u.outQueue = [] ∧ u.coord.ended = true ∧ v = u.answer (.next none) := by
  simp only [Stream.step, Stream.nextStep] at h
  split at h
  · split at h
    next p rest hq =>
      cases h
      exact .inl ⟨p, rest, hq, rfl⟩
    next hq =>
      split at h
      next hend =>
        cases h
        exact .inr ⟨hq, hend, rfl⟩
      next => cases h
  · cases h

/-- What a turn does to the stream. -/
inductive Taken (tmpl : Template) (batchSize : Nat) (u v : Stream.State κ) (cap : Nat) : Turn → Prop
  | got (p : Bytes) (rest : List Bytes) (hq : u.outQueue = p :: rest) (hp : p ≠ [])
    (hlt : p.length < cap) (hv : v = { u with outQueue := rest }.answer (.next (some p))) :
    Taken tmpl batchSize u v cap (.got p)
  | again (p : Bytes) (rest : List Bytes) (hq : u.outQueue = p :: rest) (hcap : 0 < cap)
    (hle : cap ≤ p.length) (hv : v = { u with outQueue := rest }.answer (.next (some p))) :
    Taken tmpl batchSize u v cap .again
  | ended (hzero : (streamNext u.outQueue.head? cap).1 = 0)
    (hu : Stream.step tmpl batchSize u .next = some v) : Taken tmpl batchSize u v cap .ended

theorem taken_of_next (hu : Stream.step tmpl batchSize u .next = some v) (cap : Nat) :
    Taken tmpl batchSize u v cap (turn cap (streamNext u.outQueue.head? cap).1
      (streamNext u.outQueue.head? cap).2) := by
  by_cases hzero : (streamNext u.outQueue.head? cap).1 = 0
  · rw [turn, if_pos hzero]
    exact .ended hzero hu
  · obtain ⟨p, rest, hq, hv⟩ | ⟨hq, -, -⟩ := next_cases hu
    · rw [hq] at hzero ⊢
      simp only [List.head?_cons, streamNext] at hzero ⊢
      rw [turn, if_neg hzero]
      obtain hlt | hle := Nat.lt_or_ge p.length cap
      · rw [Nat.min_eq_left (Nat.le_of_lt hlt)] at hzero ⊢
        rw [List.take_length, if_pos hlt]
        exact .got p rest hq (List.ne_nil_of_length_pos (Nat.pos_of_ne_zero hzero)) hlt hv
      · rw [Nat.min_eq_right hle] at hzero ⊢
        rw [if_neg (Nat.lt_irrefl _)]
        exact .again p rest hq (Nat.pos_of_ne_zero hzero) hle hv
    · rw [hq] at hzero
      exact absurd rfl hzero

/-- The loop is told of the end by an ended stream, or by a plaintext without bytes. -/
theorem ended_cases {cap : Nat} (hcap : 0 < cap)
    (hzero : (streamNext u.outQueue.head? cap).1 = 0)
    (hu : Stream.step tmpl batchSize u .next = some v) :
    (∃ rest, v = { u with outQueue := rest }.answer (.next (some []))) ∨
      v = u.answer (.next none) := by
  obtain ⟨p, rest, hq, hv⟩ | ⟨-, -, hv⟩ := next_cases hu
  · rw [hq] at hzero
    have hmin : min p.length cap = 0 := hzero
    obtain rfl : p = [] := List.length_eq_zero_iff.mp (by omega)
    exact .inl ⟨rest, hv⟩
  · exact .inr hv

omit [DecidableEq κ] in
/-- One more plaintext is taken. -/
theorem short_take (first : Nat) {p : Bytes} {r : List Bytes}
    (hv : v = { u with outQueue := r }.answer (.next (some p))) :
    v.delivered = u.delivered ++ [p] ∧ (Short first v ↔ Short first u ∧ p.length < first) := by
  have hdel : v.delivered = u.delivered ++ [p] := by
    rw [hv, StreamOrder.delivered_answer]
    rfl
  refine ⟨hdel, ?_⟩
  rw [Short, hdel]
  simp [Short, or_imp, forall_and]

omit [DecidableEq κ] in
/-- The end of the stream is taken. -/
theorem delivered_end (u : Stream.State κ) : (u.answer (.next none)).delivered = u.delivered ∧
    (u.answer (.next none)).sawEnd = true := by
  refine ⟨(StreamOrder.delivered_answer u (.next none)).trans (List.append_nil _), ?_⟩
  rw [StreamOrder.sawEnd_answer]
  exact Bool.or_true _

end Turns

section Others
variable {a : Stream.Action κ}

/-- The other threads of the stream give no answers. -/
theorem answers_ofOthers (ha : ofOthers a = true) (hu : Stream.step tmpl batchSize u a = some v) :
    v.answers = u.answers := by
  cases a with
  | call k op =>
    simp only [Stream.step] at hu
    split at hu <;> cases hu
    rfl
  | client k => cases StreamMoves.clientStep_move hu <;> rfl
  | coord timeout => cases StreamMoves.coordStep_move hu <;> rfl
  | _ => cases ha

theorem delivered_ofOthers (ha : ofOthers a = true) (hu : Stream.step tmpl batchSize u a = some v) :
    v.delivered = u.delivered := by
  rw [Stream.State.delivered, answers_ofOthers ha hu]
  rfl

theorem sawEnd_ofOthers (ha : ofOthers a = true) (hu : Stream.step tmpl batchSize u a = some v) :
    v.sawEnd = u.sawEnd := by
  rw [Stream.State.sawEnd, answers_ofOthers ha hu]
  rfl

theorem dropper_step (ha : a ≠ .drop) (hu : Stream.step tmpl batchSize u a = some v) :
    v.dropper = u.dropper := by
  cases StreamMoves.step_move hu with
  | client k v hm => cases hm <;> rfl
  | coord timeout v hm => cases hm <;> rfl
  | dropClose hd => exact absurd rfl ha
  | dropJoin hd hend => exact absurd rfl ha
  | _ => rfl

/-- In a system that does no more to its stream than such steps, it runs as a stream does. -/
theorem stream_reached {σ α : Type} {sys : σ → α → Option σ} {view : σ → Stream.State κ} {s₀ s : σ}
    (h : Reaches sys s₀ s) (hinit : view s₀ = Stream.initial)
    (hstep : ∀ s a t, sys s a = some t → view t = view s ∨
      ∃ b, b ≠ .drop ∧ Stream.step tmpl batchSize (view s) b = some (view t)) :
    Reaches (Stream.step tmpl batchSize) Stream.initial (view s) ∧ (view s).dropper = .idle := by
  refine h.invariant (I := fun s => Reaches (Stream.step tmpl batchSize) Stream.initial (view s) ∧
    (view s).dropper = .idle) ?_ ?_
  · rw [hinit]
    exact ⟨.refl, rfl⟩
  · rintro t a s' _ ⟨ht, hd⟩ _ hu
    obtain heq | ⟨b, hb, hb'⟩ := hstep t a s' hu
    · rw [heq]
      exact ⟨ht, hd⟩
    · exact ⟨.tail ht trivial hb', (dropper_step hb hb').trans hd⟩

end Others

section Results

theorem plains_lt {n : Nat} {samples : List Bytes} (hctx : 0x8000 ≤ tmpl.ctx.length)
    (h : ∀ sample ∈ samples, sample.length < n) {p : Bytes}
    (hp : p ∈ samples.map (StreamOrder.plainOf tmpl)) : p.length < n := by
  obtain ⟨sample, hsample, rfl⟩ := List.mem_map.mp hp
  rw [StreamOrder.plainOf_length hctx]
  exact h sample hsample

theorem plains_nonempty {samples : List Bytes} (hctx : 0x8000 ≤ tmpl.ctx.length)
    (h : [] ∉ samples) {p : Bytes} (hp : p ∈ samples.map (StreamOrder.plainOf tmpl)) :
    nonempty p = true := by
  obtain ⟨sample, hsample, rfl⟩ := List.mem_map.mp hp
  refine nonempty_iff.mpr (List.length_pos_iff.mp ?_)
  rw [StreamOrder.plainOf_length hctx]
  exact List.length_pos_iff.mpr fun hempty => h (hempty ▸ hsample)

theorem short_of_fits (hctx : 0x8000 ≤ tmpl.ctx.length)
    (h : Reaches (Stream.step tmpl batchSize) Stream.initial u) (hfits : Fits first u.accepted) :
    Short first u := by
  obtain ⟨-, hline⟩ := StreamOrder.reached_inv (StreamOrder.returns_of_ctx hctx) h
  exact fun p hp => plains_lt hctx hfits (hline.front.subset hp)

/-- Where all samples have bytes, a loop that has met the end has taken all plaintexts. -/
theorem all_of_ended (hctx : 0x8000 ≤ tmpl.ctx.length)
    (h : Reaches (Stream.step tmpl batchSize) Stream.initial u) (hbytes : [] ∉ u.accepted)
    (hended : u.sawEnd = true ∨ [] ∈ u.delivered) : u.txOpen = false ∧
      u.accepted.mapM (decrypt tmpl) = some (u.delivered.filter nonempty) := by
  have hret := StreamOrder.returns_of_ctx hctx
  obtain ⟨-, hline⟩ := StreamOrder.reached_inv hret h
  have hall : ∀ p ∈ u.accepted.map (StreamOrder.plainOf tmpl), nonempty p = true :=
    fun p hp => plains_nonempty hctx hbytes hp
  have hend : u.sawEnd = true := by
    refine hended.resolve_right fun hmem => ?_
    cases hall [] (hline.front.subset hmem)
  obtain ⟨hopen, hdel⟩ : u.txOpen = false ∧
      u.delivered = u.accepted.map (StreamOrder.plainOf tmpl) := hline.complete hend
  refine ⟨hopen, ?_⟩
  rw [hdel, List.filter_eq_self.mpr hall]
  exact StreamOrder.decryptBatch_eq hret _

end Results

end Temari.RetryLoop
