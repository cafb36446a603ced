import Temari.StreamRuns
import Temari.Ffi

/-! The retry loops of the bindings. An item that fills the buffer has already left the
stream when the loop asks again, so it is lost. -/
namespace Temari.Wrappers
open RoundMachine Rounds Temari.Stream StreamOrder StreamRuns Ffi Transition Conveyor
variable {κ : Type} [DecidableEq κ] {tmpl : Template} {batchSize first : Nat} {s : State κ}
  {c : Consumer}

def dataOf : StreamNext Bytes → Option Bytes
  | .data p => some p
  | _ => none

/-- An answer as try_next would give it. -/
def asTry : Answer → StreamNext Bytes
  | .next (some p) => .data p
  | .next none => .closed
  | .tryNext r => r

section Answers

theorem dataOf_asTry (a : Answer) : dataOf (asTry a) = a.plain := by
  obtain (_ | p) | (p | _ | _) := a <;> rfl

theorem asTry_closed {a : Answer} : asTry a = .closed ↔ a.isEnd = true := by
  obtain (_ | p) | (p | _ | _) := a <;> simp [asTry, Answer.isEnd]

theorem filterMap_asTry (answers : List Answer) :
    (answers.map asTry).filterMap dataOf = answers.filterMap Answer.plain := by
  rw [List.filterMap_map]
  exact List.filterMap_congr fun a _ => dataOf_asTry a

end Answers

section Loop
variable {r : StreamNext Bytes} {rs : List (StreamNext Bytes)}

@[simp] theorem filterMap_data (p : Bytes) (rs : List (StreamNext Bytes)) :
    (.data p :: rs).filterMap dataOf = p :: rs.filterMap dataOf := rfl

@[simp] theorem filterMap_empty (rs : List (StreamNext Bytes)) :
    (.empty :: rs).filterMap dataOf = rs.filterMap dataOf := rfl

@[simp] theorem filterMap_closed (rs : List (StreamNext Bytes)) :
    (.closed :: rs).filterMap dataOf = rs.filterMap dataOf := rfl

theorem turn_ended (h : c.ended = true) (r : StreamNext Bytes) : tryNextTurn first c r = c := by
  simp [tryNextTurn, h]

theorem turn_data (h : c.ended = false) (p : Bytes) : tryNextTurn first c (.data p) =
    if p.length < c.cap then { c with cap := first, got := c.got ++ [p] }
    else { c with cap := c.cap * 2 } := by
  by_cases hp : p.length < c.cap
  · rw [tryNextTurn, if_neg (by simp [h]), if_pos hp]
    simp [streamTryNext, Nat.min_eq_left (Nat.le_of_lt hp), hp]
  · rw [tryNextTurn, if_neg (by simp [h]), if_neg hp]
    simp [streamTryNext, Nat.le_of_not_lt hp]

theorem turn_empty (h : c.ended = false) :
    tryNextTurn first c .empty = { c with cap := first } := by
  simp [tryNextTurn, streamTryNext, h]

theorem turn_closed (h : c.ended = false) :
    tryNextTurn first c .closed = { c with ended := true } := by
  simp [tryNextTurn, streamTryNext, h]

/-- The loop hands on at most what it is given. -/
theorem turns_length_le (rs : List (StreamNext Bytes)) (c : Consumer) :
    (rs.foldl (tryNextTurn first) c).got.length ≤ c.got.length + (rs.filterMap dataOf).length := by
  induction rs generalizing c with
  | nil => exact Nat.le_refl _
  | cons r rs ih =>
    rw [List.foldl_cons]
    cases hc : c.ended with
    | true =>
      rw [turn_ended hc, List.foldl_fixed' (turn_ended hc)]
      omega
    | false =>
      refine (ih _).trans ?_
      cases r with
      | data p =>
        rw [turn_data hc]
        by_cases hp : p.length < c.cap
        · simp [hp]
          omega
        · simp [hp]
      | empty => simp [turn_empty hc]
      | closed => simp [turn_closed hc]

/-- An item that fills the first buffer is dropped for good. -/
theorem turns_long (hc : c.ended = false) (hcap : c.cap = first)
    (hlong : ∃ p ∈ rs.filterMap dataOf, first ≤ p.length) :
    (rs.foldl (tryNextTurn first) c).got.length < c.got.length + (rs.filterMap dataOf).length := by
  induction rs generalizing c with
  | nil => simp at hlong
  | cons r rs ih =>
    rw [List.foldl_cons]
    cases r with
    | data p =>
      rw [turn_data hc, hcap]
      by_cases hp : p.length < first
      · obtain ⟨q, hq, hqlen⟩ := hlong
        rw [filterMap_data, List.mem_cons] at hq
        have hmem : q ∈ rs.filterMap dataOf := by
          obtain rfl | hq := hq
          · omega
          · exact hq
        have hrest := ih (c := { c with cap := first, got := c.got ++ [p] }) hc rfl ⟨q, hmem, hqlen⟩
        rw [if_pos hp, filterMap_data]
        simp only [List.length_append, List.length_cons, List.length_nil] at hrest ⊢
        omega
      · have hle : (rs.foldl (tryNextTurn first) { c with cap := first * 2 }).got.length ≤
          c.got.length + (rs.filterMap dataOf).length := turns_length_le rs _
        rw [if_neg hp, filterMap_data, List.length_cons]
        omega
    | empty =>
      rw [turn_empty hc]
      exact ih (c := { c with cap := first }) hc rfl hlong
    | closed =>
      rw [turn_closed hc, List.foldl_fixed' (turn_ended rfl)]
      obtain ⟨q, hq, -⟩ := hlong
      have hpos := List.length_pos_of_mem hq
      simp only
      omega

/-- Items shorter than the first buffer are all handed on. -/
theorem turns_short (hc : c.ended = false) (hcap : c.cap = first)
    (hfinal : ∀ before after, rs = before ++ .closed :: after → after.filterMap dataOf = [])
    (hshort : ∀ p ∈ rs.filterMap dataOf, p.length < first) :
    (rs.foldl (tryNextTurn first) c).got = c.got ++ rs.filterMap dataOf := by
  induction rs generalizing c with
  | nil => simp
  | cons r rs ih =>
    have hfinal' : ∀ before after, rs = before ++ .closed :: after →
        after.filterMap dataOf = [] := fun before after h =>
      hfinal (r :: before) after (by rw [h, List.cons_append])
    rw [List.foldl_cons]
    cases r with
    | data p =>
      rw [filterMap_data] at hshort ⊢
      have hp := hshort p List.mem_cons_self
      rw [turn_data hc, hcap, if_pos hp,
        ih (c := { c with cap := first, got := c.got ++ [p] }) hc rfl hfinal' fun q hq => hshort q
        (List.mem_cons_of_mem p hq)]
      simp
    | empty =>
      rw [turn_empty hc]
      exact ih (c := { c with cap := first }) hc rfl hfinal' hshort
    | closed =>
      rw [turn_closed hc, List.foldl_fixed' (turn_ended rfl), filterMap_closed, hfinal [] rs rfl]
      simp

theorem turns_end (hc : c.ended = false) (h : (rs.foldl (tryNextTurn first) c).ended = true) :
    .closed ∈ rs := by
  induction rs generalizing c with
  | nil => exact absurd (hc.symm.trans h) (by decide)
  | cons r rs ih =>
    rw [List.foldl_cons] at h
    cases r with
    | data p =>
      refine List.mem_cons_of_mem _ (ih ?_ h)
      rw [turn_data hc]
      split <;> exact hc
    | empty => exact List.mem_cons_of_mem _ (ih (by rw [turn_empty hc]; exact hc) h)
    | closed => exact List.mem_cons_self

/-- Where no item is empty, Next does what TryNext does. -/
theorem nextTurn_eq (hcap : 0 < c.cap) {r : Option Bytes} (hr : r ≠ some []) :
    nextTurn first c r = tryNextTurn first c (asTry (.next r)) := by
  cases hc : c.ended with
  | true => simp [nextTurn, tryNextTurn, hc]
  | false =>
    cases r with
    | none => simp [nextTurn, hc, streamNext, asTry, turn_closed hc]
    | some p =>
      have hp : p ≠ [] := fun hp => hr (by rw [hp])
      have hpos := List.length_pos_iff.mpr hp
      rw [asTry, turn_data hc]
      by_cases hlt : p.length < c.cap
      · simp [nextTurn, hc, streamNext, Nat.min_eq_left (Nat.le_of_lt hlt), hp, hlt]
      · simp [nextTurn, hc, streamNext, Nat.min_eq_right (Nat.le_of_not_lt hlt), hlt,
          Nat.pos_iff_ne_zero.mp hcap]

theorem cap_pos (hfirst : 0 < first) (hcap : 0 < c.cap) (r : StreamNext Bytes) :
    0 < (tryNextTurn first c r).cap := by
  cases hc : c.ended with
  | true =>
    rw [turn_ended hc]
    exact hcap
  | false =>
    cases r with
    | data p =>
      rw [turn_data hc]
      split
      · exact hfirst
      · simp only
        omega
    | empty =>
      rw [turn_empty hc]
      exact hfirst
    | closed =>
      rw [turn_closed hc]
      exact hcap

theorem nextTurns_eq (hfirst : 0 < first) (hcap : 0 < c.cap) {rs : List (Option Bytes)}
    (hrs : some [] ∉ rs) : rs.foldl (nextTurn first) c =
      ((rs.map Answer.next).map asTry).foldl (tryNextTurn first) c := by
  induction rs generalizing c with
  | nil => rfl
  | cons r rs ih =>
    rw [List.mem_cons, not_or] at hrs
    rw [List.foldl_cons, List.map_cons, List.map_cons, List.foldl_cons,
      nextTurn_eq hcap (Ne.symm hrs.1)]
    exact ih (cap_pos hfirst hcap _) hrs.2

end Loop

/-- A consumer that has been told of the end has everything just when nothing was long
enough to fill its first buffer. -/
theorem collect_iff (hctx : 0x8000 ≤ tmpl.ctx.length)
    (h : Reaches (step tmpl batchSize) (initial : State κ) s)
    (hend : ((s.answers.map asTry).foldl (tryNextTurn first) (.start first)).ended = true) :
    s.accepted.mapM (decrypt tmpl) =
        some ((s.answers.map asTry).foldl (tryNextTurn first) (.start first)).got ↔
      ∀ sample ∈ s.accepted, sample.length < first := by
  obtain ⟨-, hline⟩ := reached_inv (returns_of_ctx hctx) h
  have hsaw : s.sawEnd = true := by
    obtain ⟨a, ha, hclosed⟩ := List.mem_map.mp (turns_end rfl hend)
    exact List.any_eq_true.mpr ⟨a, ha, asTry_closed.mp hclosed⟩
  have hdata : (s.answers.map asTry).filterMap dataOf = s.accepted.map (plainOf tmpl) :=
    (filterMap_asTry s.answers).trans (hline.complete hsaw).2
  have hlen : (∀ p ∈ (s.answers.map asTry).filterMap dataOf, p.length < first) ↔
      ∀ sample ∈ s.accepted, sample.length < first := by
    rw [hdata]
    simp only [List.forall_mem_map, plainOf_length hctx]
  rw [← decryptBatch, decryptBatch_eq (returns_of_ctx hctx), Option.some.injEq, ← hlen]
  constructor
  · intro hgot
    by_contra hnot
    simp only [not_forall, not_lt] at hnot
    obtain ⟨p, hp, hple⟩ := hnot
    have hlt := turns_long rfl (show (Consumer.start first).cap = first from rfl) ⟨p, hp, hple⟩
    rw [← hgot, hdata] at hlt
    simp [Consumer.start] at hlt
  · intro hshort
    rw [turns_short rfl (show (Consumer.start first).cap = first from rfl)
      (fun before after heq => ?_) hshort, hdata]
    · rfl
    · obtain ⟨l, m, hl, -, hm⟩ := List.map_eq_append_iff.mp heq
      obtain ⟨a, rest, rfl, ha, rfl⟩ := List.map_eq_cons_iff.mp hm
      rw [filterMap_asTry, List.filterMap_eq_nil_iff]
      exact reached_final (returns_of_ctx hctx) h l a rest hl (asTry_closed.mp ha)

theorem firstCapacity_pos (b : Binding) : 0 < b.firstCapacity := by
  cases b <;> decide

/-- Where no sample is empty, no answer carries an empty plaintext. -/
theorem answers_nonempty (hctx : 0x8000 ≤ tmpl.ctx.length)
    (h : Reaches (step tmpl batchSize) (initial : State κ) s) {p : Bytes}
    (hne : ∀ sample ∈ s.accepted, sample ≠ []) (hp : p ∈ s.delivered) : p ≠ [] := by
  obtain ⟨sample, hs, rfl⟩ :=
    List.mem_map.mp ((reached_inv (returns_of_ctx hctx) h).2.front.subset hp)
  rw [← List.length_pos_iff, plainOf_length hctx, List.length_pos_iff]
  exact hne sample hs

theorem go_loses_4096 : ∃ (s : State Unit) (rs : List (Option Bytes)),
    Reaches (step eightTemplate 256) initial s ∧ s.accepted = [List.replicate 4096 0] ∧
      s.answers = rs.map .next ∧ (Binding.go.collectNext rs).ended = true ∧
      (Binding.go.collectNext rs).got = [] := by
  have hctx : 0x8000 ≤ eightTemplate.ctx.length := List.length_replicate.ge
  have hrun := (run_append
    (run_through (returns_of_ctx hctx) 256 () (List.replicate 4096 0) [] [])).trans
    (run_finishing eightTemplate 256 () _ _)
  have hlost (p : Bytes) (hp : p.length = 4096) :
      Binding.go.collectNext [some p, none] = { cap := 8192, got := [], ended := true } := by
    simp [Binding.collectNext, Binding.firstCapacity, Consumer.start, nextTurn, streamNext, hp]
  have hlen : (plainOf eightTemplate (List.replicate 4096 0)).length = 4096 := by
    rw [plainOf_length hctx, List.length_replicate]
  refine ⟨_, [some (plainOf eightTemplate (List.replicate 4096 0)), none], reaches_of_run hrun, rfl,
    rfl, ?_, ?_⟩ <;> rw [hlost _ hlen]

/-- A binding returns every plaintext whole, in order, just when every sample is shorter
than the capacity its calls start with. -/
theorem bindings_whole_iff (b : Binding) (tmpl : Template) (batchSize : Nat) (s : State κ)
    (hctx : 0x8000 ≤ tmpl.ctx.length) (h : Reaches (step tmpl batchSize) initial s)
    (hne : ∀ sample ∈ s.accepted, sample ≠ []) :
    (∀ rs, s.answers = rs.map .next → (b.collectNext rs).ended = true →
      (s.accepted.mapM (decrypt tmpl) = some (b.collectNext rs).got ↔
        ∀ sample ∈ s.accepted, sample.length < b.firstCapacity)) ∧
    ∀ rs, s.answers = rs.map .tryNext → (b.collectTryNext rs).ended = true →
      (s.accepted.mapM (decrypt tmpl) = some (b.collectTryNext rs).got ↔
        ∀ sample ∈ s.accepted, sample.length < b.firstCapacity) := by
  refine ⟨fun rs hrs hend => ?_, fun rs hrs hend => ?_⟩
  · have hnone : some [] ∉ rs := fun hmem => by
      refine answers_nonempty hctx h hne (p := []) ?_ rfl
      rw [State.delivered, hrs, List.mem_filterMap]
      exact ⟨.next (some []), List.mem_map_of_mem hmem, rfl⟩
    have hfold : b.collectNext rs =
        (s.answers.map asTry).foldl (tryNextTurn b.firstCapacity) (.start b.firstCapacity) := by
      rw [hrs]
      exact nextTurns_eq (firstCapacity_pos b) (firstCapacity_pos b) hnone
    rw [hfold] at hend ⊢
    exact collect_iff hctx h hend
  · have hfold : b.collectTryNext rs =
        (s.answers.map asTry).foldl (tryNextTurn b.firstCapacity) (.start b.firstCapacity) := by
      rw [hrs, List.map_map]
      exact congrArg _ (List.map_id rs).symm
    rw [hfold] at hend ⊢
    exact collect_iff hctx h hend

theorem bindings_whole_two : ∃ (s : State Unit) (rs : List (Option Bytes)),
    s.accepted = [[7], .replicate 17 1] ∧ s.answers = rs.map .next ∧
      (Binding.go.collectNext rs).ended = true ∧
      s.accepted.mapM (decrypt eightTemplate) = some (Binding.go.collectNext rs).got := by
  have hctx : 0x8000 ≤ eightTemplate.ctx.length := List.length_replicate.ge
  have hrun := (run_append (run_through_all (returns_of_ctx hctx) 256 () [[7], .replicate 17 1] []
    [])).trans (run_finishing eightTemplate 256 () _ _)
  have hshort (p q : Bytes) (hp : p.length = 1) (hq : q.length = 17) :
      (Binding.go.collectNext [some p, some q, none]).ended = true := by
    simp [Binding.collectNext, Binding.firstCapacity, Consumer.start, nextTurn, streamNext, hp, hq]
  have hended := hshort _ _ (plainOf_length hctx [7]) (plainOf_length hctx (.replicate 17 1))
  have h := bindings_whole_iff .go eightTemplate 256 _ hctx (reaches_of_run hrun) (by simp [atRest])
  exact ⟨_, _, rfl, rfl, hended, (h.1 _ rfl hended).mpr (by simp [atRest, Binding.firstCapacity])⟩

end Temari.Wrappers
