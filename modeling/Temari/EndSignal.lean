import Temari.StreamRuns
import Temari.Ffi

/-! The end signal of stream_next. The value 0 also stands for an empty plaintext, so a
consumer that stops at the first 0 may stop early. -/
namespace Temari.EndSignal
open RoundMachine Rounds Temari.Stream StreamOrder StreamRuns Ffi Transition Conveyor
variable {κ : Type} [DecidableEq κ] {tmpl : Template} {batchSize cap : Nat} {s : State κ}
  {c : Consumer}

/-- When stream_next returns 0 the stream is closed, all plaintexts have been delivered, and
the consumer has those that carry bytes. -/
def EndHolds (tmpl : Template) (cap : Nat) (s : State κ) : Prop :=
  ∀ rs r, s.answers = (rs ++ [r]).map .next → (drain cap rs).ended = false →
    (drain cap (rs ++ [r])).ended = true →
    s.txOpen = false ∧ s.accepted.mapM (decrypt tmpl) = some s.delivered ∧
      (drain cap (rs ++ [r])).got = s.delivered.filter (· ≠ [])

section Loop

theorem drain_concat (cap : Nat) (rs : List (Option Bytes)) (r : Option Bytes) :
    drain cap (rs ++ [r]) = drainTurn (drain cap rs) r := by
  simp [drain]

theorem turn_some (hc : c.ended = false) {p : Bytes} (hp : p ≠ []) (hle : p.length ≤ c.cap) :
    drainTurn c (some p) = { c with got := c.got ++ [p] } := by
  simp [drainTurn, streamNext, hc, Nat.min_eq_left hle, hp]

theorem turn_zero (hc : c.ended = false) : drainTurn c (some []) = { c with ended := true } := by
  simp [drainTurn, streamNext, hc]

theorem turn_none (hc : c.ended = false) : drainTurn c none = { c with ended := true } := by
  simp [drainTurn, streamNext, hc]

theorem turn_ended (hc : c.ended = true) (r : Option Bytes) : drainTurn c r = c := by
  rw [drainTurn, if_pos hc]

/-- Plaintexts that carry bytes and fit are collected one by one. -/
theorem turns_some (hc : c.ended = false) (ps : List Bytes)
    (hps : ∀ p ∈ ps, p ≠ [] ∧ p.length ≤ c.cap) :
    (ps.map some).foldl drainTurn c = { c with got := c.got ++ ps } := by
  induction ps generalizing c with
  | nil => simp
  | cons p ps ih =>
    obtain ⟨hne, hle⟩ := hps p List.mem_cons_self
    rw [List.map_cons, List.foldl_cons, turn_some hc hne hle,
      ih (c := { c with got := c.got ++ [p] }) hc fun q hq => hps q (List.mem_cons_of_mem p hq)]
    simp

/-- A consumer that has not stopped has only been given plaintexts. -/
theorem turns_open {rs : List (Option Bytes)} (h : (rs.foldl drainTurn c).ended = false) :
    ∃ ps : List Bytes, rs = ps.map some := by
  induction rs generalizing c with
  | nil => exact ⟨[], rfl⟩
  | cons r rs ih =>
    rw [List.foldl_cons] at h
    obtain ⟨ps, rfl⟩ := ih h
    cases r with
    | some p => exact ⟨p :: ps, rfl⟩
    | none =>
      cases hc : c.ended with
      | true =>
        rw [turn_ended hc, List.foldl_fixed' (turn_ended hc), hc] at h
        cases h
      | false =>
        rw [turn_none hc, List.foldl_fixed' (turn_ended rfl)] at h
        cases h

end Loop

/-- Where every sample carries bytes, 0 means the end. -/
theorem reached_end (hctx : 0x8000 ≤ tmpl.ctx.length)
    (h : Reaches (step tmpl batchSize) (initial : State κ) s)
    (hne : ∀ sample ∈ s.accepted, sample ≠ []) (hcap : ∀ sample ∈ s.accepted, sample.length ≤ cap) :
    EndHolds tmpl cap s := by
  intro rs r hans hopen hend
  obtain ⟨-, hline⟩ := reached_inv (returns_of_ctx hctx) h
  have hdel : s.delivered = (rs ++ [r]).filterMap id := by
    rw [State.delivered, hans, List.filterMap_map]
    rfl
  have hfit : ∀ p ∈ s.delivered, p ≠ [] ∧ p.length ≤ cap := by
    intro p hp
    obtain ⟨sample, hs, rfl⟩ := List.mem_map.mp (hline.front.subset hp)
    rw [← List.length_pos_iff, plainOf_length hctx, List.length_pos_iff]
    exact ⟨hne sample hs, hcap sample hs⟩
  obtain ⟨ps, rfl⟩ := turns_open hopen
  have hps : ∀ p ∈ ps, p ≠ [] ∧ p.length ≤ cap := fun p hp => hfit p (by simp [hdel, hp])
  have hgot : drain cap (ps.map some) = { Consumer.start cap with got := ps } :=
    turns_some rfl ps hps
  rw [drain_concat, hgot] at hend ⊢
  cases r with
  | some p =>
    obtain ⟨hpne, hple⟩ := hfit p (by simp [hdel])
    rw [turn_some rfl hpne hple] at hend
    cases hend
  | none =>
    have hsaw : s.sawEnd = true := by simp [State.sawEnd, hans, Answer.isEnd]
    obtain ⟨hclosed, hall⟩ := hline.complete hsaw
    refine ⟨hclosed, ?_, ?_⟩
    · rw [← decryptBatch, decryptBatch_eq (returns_of_ctx hctx)]
      exact congrArg some hall.symm
    · have hid : s.delivered = ps := by simp [hdel]
      rw [turn_none rfl, hid, List.filter_eq_self.mpr fun p hp => by simpa using (hps p hp).1]

/-- An empty sample makes stream_next return 0 on a stream that is still open. -/
theorem empty_breaks (hctx : 0x8000 ≤ tmpl.ctx.length) (batchSize : Nat) (k : κ)
    {samples : List Bytes} (hcap : ∀ sample ∈ samples, sample.length ≤ cap) (hmem : [] ∈ samples) :
    ∃ s : State κ, Reaches (step tmpl batchSize) initial s ∧ s.accepted <+: samples ∧
      ¬ EndHolds tmpl cap s := by
  obtain ⟨before, after, rfl, hnot⟩ := List.eq_append_cons_of_mem hmem
  have hrun := run_through_all (returns_of_ctx hctx) batchSize k (before ++ [[]]) [] []
  refine ⟨_, reaches_of_run hrun, ⟨after, by simp [atRest]⟩, fun hholds => ?_⟩
  have hempty : plainOf tmpl [] = [] := List.length_eq_zero_iff.mp (plainOf_length hctx [])
  have hps : ∀ p ∈ before.map (plainOf tmpl), p ≠ [] ∧ p.length ≤ cap := by
    intro p hp
    obtain ⟨sample, hs, rfl⟩ := List.mem_map.mp hp
    rw [← List.length_pos_iff, plainOf_length hctx, List.length_pos_iff]
    exact ⟨fun h0 => hnot (h0 ▸ hs), hcap sample (List.mem_append_left _ hs)⟩
  have hgot : drain cap ((before.map (plainOf tmpl)).map some) =
      { Consumer.start cap with got := before.map (plainOf tmpl) } := turns_some rfl _ hps
  have hopen := (hholds ((before.map (plainOf tmpl)).map some) (some [])
    (by simp [atRest, hempty]) (by rw [hgot]; rfl)
    (by rw [drain_concat, hgot, turn_zero rfl])).1
  cases hopen

theorem empty_then_seven : ∃ s : State Unit, Reaches (step eightTemplate 2) initial s ∧
    s.accepted = [[], [7]] ∧ s.txOpen = false ∧ s.answers = [.next (some [])] ∧
    (drain 16 [some []]).ended = true ∧ s.outQueue = [[7]] := by
  obtain ⟨s, hrun, hs⟩ : ∃ s, run (step eightTemplate 2) (initial : State Unit)
      ([.call () (.submit []), .client (), .client (), .call () (.submit [7]), .client (),
        .client (), .call () .finish, .client (), .client (), .client ()] ++
        .replicate 13 (.coord false) ++ [.next]) = some s ∧ s.accepted = [[], [7]] ∧
        s.txOpen = false ∧ s.answers = [.next (some [])] ∧
        (drain 16 [some []]).ended = true ∧ s.outQueue = [[7]] :=
    ⟨_, rfl, rfl, rfl, rfl, rfl, rfl⟩
  exact ⟨s, reaches_of_run hrun, hs⟩

/-- For a sequence of samples, the value 0 of stream_next means the end in every run just
when no sample is empty. -/
theorem zero_is_end_iff [Nonempty κ] (tmpl : Template) (batchSize cap : Nat)
    (samples : List Bytes) (hctx : 0x8000 ≤ tmpl.ctx.length)
    (hcap : ∀ sample ∈ samples, sample.length ≤ cap) :
    (∀ s : State κ, Reaches (step tmpl batchSize) initial s → s.accepted <+: samples →
      EndHolds tmpl cap s) ↔ ∀ sample ∈ samples, sample ≠ [] := by
  constructor
  · intro hall sample hs hempty
    obtain ⟨k⟩ := ‹Nonempty κ›
    obtain ⟨s, hreach, hpre, hnot⟩ := empty_breaks hctx batchSize k hcap (hempty ▸ hs)
    exact hnot (hall s hreach hpre)
  · intro hne s hreach hpre
    exact reached_end hctx hreach (fun x hx => hne x (hpre.subset hx))
      fun x hx => hcap x (hpre.subset hx)

theorem zero_is_end_two : (∀ s : State Unit, Reaches (step eightTemplate 2) initial s →
    s.accepted <+: [[7], .replicate 17 1] → EndHolds eightTemplate 32 s) ↔
      ∀ sample ∈ [[(7 : UInt8)], .replicate 17 1], sample ≠ [] :=
  zero_is_end_iff eightTemplate 2 32 [[7], .replicate 17 1] List.length_replicate.ge (by decide)

end Temari.EndSignal
