import Temari.StreamBound
import Mathlib.Data.Finset.Card

/-! Who is where in the stream: who holds tx_in, which calls are inside, and what the
coordinator knows of its input. -/
namespace Temari.StreamSeats
open RoundMachine Rounds Temari.Stream StreamMoves Transition
variable {κ : Type} [DecidableEq κ] {tmpl : Template} {batchSize batch : Nat} {s s' : State κ}
  {k : κ} {clients : κ → ClientPc} {pc : ClientPc} {n : Nat}

/-- n clients are in a call. -/
def Inside (clients : κ → ClientPc) (n : Nat) : Prop :=
  ∃ F : Finset κ, (∀ k, k ∈ F ↔ clients k ≠ .idle) ∧ F.card = n

section Inside

theorem Inside.enter (h : Inside clients n) (hk : clients k = .idle) (hpc : pc ≠ .idle) :
    Inside (Function.update clients k pc) (n + 1) := by
  obtain ⟨F, hF, hcard⟩ := h
  have hnot : k ∉ F := fun hmem => (hF k).mp hmem hk
  refine ⟨insert k F, fun j => ?_, by rw [Finset.card_insert_of_notMem hnot, hcard]⟩
  rw [Finset.mem_insert]
  obtain rfl | hj := eq_or_ne j k
  · simp [hpc]
  · simp [hj, hF]

theorem Inside.move (h : Inside clients n) (hk : clients k ≠ .idle) (hpc : pc ≠ .idle) :
    Inside (Function.update clients k pc) n := by
  obtain ⟨F, hF, hcard⟩ := h
  refine ⟨F, fun j => ?_, hcard⟩
  obtain rfl | hj := eq_or_ne j k
  · simp [hpc, hF, hk]
  · simp [hj, hF]

theorem Inside.leave (h : Inside clients n) (hk : clients k ≠ .idle) :
    Inside (Function.update clients k .idle) (n - 1) := by
  obtain ⟨F, hF, hcard⟩ := h
  refine ⟨F.erase k, fun j => ?_, by rw [Finset.card_erase_of_mem ((hF k).mpr hk), hcard]⟩
  rw [Finset.mem_erase]
  obtain rfl | hj := eq_or_ne j k
  · simp
  · simp [hj, hF]

omit [DecidableEq κ] in
theorem Inside.zero (h : Inside clients n) (hidle : ∀ k, clients k = .idle) : n = 0 := by
  obtain ⟨F, hF, rfl⟩ := h
  rw [Finset.card_eq_zero]
  exact Finset.eq_empty_of_forall_notMem fun k hk => (hF k).mp hk (hidle k)

end Inside

/-- The positions of the threads in a state that the stream can reach. -/
structure Seated (s : State κ) : Prop where
  holder : ∀ k, s.txLock = some k → ∃ op, s.client k = .locked op
  inside : Inside s.client s.borrows
  storing : ∀ k, s.client k = .mustStore → s.txOpen = false
  dropped : s.dropper ≠ .idle → s.txOpen = false
  drained : s.inputOpen = false → s.txOpen = false ∧ s.queue = []
  first : s.coord = .first → s.buffer = [] ∧ s.inputOpen = true
  exited : s.coord = .exited → s.inputOpen = false ∧ s.buffer = []

omit [DecidableEq κ] in
theorem seated_initial : Seated (initial : State κ) := by
  constructor <;> simp [initial, Inside]

section Clients

/-- A client other than the holder of tx_in has moved. -/
theorem holder_update (h : ∀ j, s.txLock = some j → ∃ op, s.client j = .locked op)
    (hk : ∀ op, s.client k ≠ .locked op) (j : κ) (hj : s.txLock = some j) :
    ∃ op, Function.update s.client k pc j = .locked op := by
  obtain ⟨op, hop⟩ := h j hj
  have hne : j ≠ k := by
    rintro rfl
    exact hk op hop
  exact ⟨op, by rw [Function.update_of_ne hne]; exact hop⟩

theorem storing_update (h : ∀ j, s.client j = .mustStore → s.txOpen = false)
    (hpc : pc ≠ .mustStore) (j : κ) (hj : Function.update s.client k pc j = .mustStore) :
    s.txOpen = false := by
  obtain rfl | hne := eq_or_ne j k
  · rw [Function.update_self] at hj
    exact absurd hj hpc
  · rw [Function.update_of_ne hne] at hj
    exact h j hj

theorem Seated.client (h : Seated s) (hm : ClientMove batch s k s') : Seated s' := by
  have hin := hm.inside
  cases hm with
  | lock op hpc hfree =>
    refine { h with
      holder := fun j hj => ?_
      inside := h.inside.move hin nofun
      storing := storing_update h.storing nofun }
    cases hj
    exact ⟨op, Function.update_self ..⟩
  | accept sample hpc hopen hlive hroom =>
    refine { h with
      holder := nofun
      inside := h.inside.leave hin
      storing := storing_update h.storing nofun
      drained := fun hclosed => ?_ }
    cases hopen.symm.trans (h.drained hclosed).1
  | refuse sample hpc hwhy =>
    exact { h with
      holder := nofun
      inside := h.inside.leave hin
      storing := storing_update h.storing nofun }
  | finish hpc =>
    exact { h with
      holder := nofun
      inside := h.inside.move hin nofun
      storing := fun _ _ => rfl
      dropped := fun _ => rfl
      drained := fun hclosed => ⟨rfl, (h.drained hclosed).2⟩ }
  | store hpc =>
    exact { h with
      holder := holder_update h.holder (by rw [hpc]; nofun)
      inside := h.inside.leave hin
      storing := storing_update h.storing nofun }

end Clients

omit [DecidableEq κ] in
/-- The coordinator goes to its first receive only while its input is open. -/
theorem open_of_first {timeout : Bool}
    (h : coordStep tmpl batch s timeout = some { s with coord := .first })
    (hpc : s.coord = .test) (hb : s.buffer = []) : s.inputOpen = true := by
  by_contra hin
  simp only [coordStep, hpc, hb, hin, ne_eq, not_true_eq_false, or_false, if_false,
    Option.some.injEq] at h
  have hcoord := congrArg (fun t => t.coord) h
  cases hcoord

omit [DecidableEq κ] in
theorem Seated.coord (h : Seated s) {timeout : Bool}
    (hu : coordStep tmpl batch s timeout = some s') : Seated s' := by
  cases coordStep_move hu with
  | enter pc hpc hnext =>
    obtain ⟨rfl, hb⟩ | ⟨rfl, -⟩ := hnext
    · have hin := open_of_first hu hpc hb
      exact { h with first := fun _ => ⟨hb, hin⟩, exited := nofun }
    · exact { h with first := nofun, exited := nofun }
  | exit hpc hin hb => exact { h with first := nofun, exited := fun _ => ⟨hin, hb⟩ }
  | receive sample rest hpc hq =>
    refine { h with drained := fun hin => ?_, first := nofun, exited := nofun }
    cases hq.symm.trans (h.drained hin).2
  | hangUp hpc hopen hq =>
    exact { h with drained := fun _ => ⟨hopen, hq⟩, first := nofun, exited := nofun }
  | _ => exact { h with first := nofun, exited := nofun }

theorem Seated.step {a : Action κ} (h : Seated s) (hu : Stream.step tmpl batchSize s a = some s') :
    Seated s' := by
  cases step_move hu with
  | call k op hpc =>
    exact { h with
      holder := holder_update h.holder (by rw [hpc]; nofun)
      inside := h.inside.enter hpc nofun
      storing := storing_update h.storing nofun }
  | client k s' hm => exact h.client hm
  | coord timeout s' hm => exact h.coord hu
  | dropClose hd =>
    exact { h with
      storing := fun _ _ => rfl
      dropped := fun _ => rfl
      drained := fun hin => ⟨rfl, (h.drained hin).2⟩ }
  | dropJoin hd hend => exact { h with dropped := fun _ => h.dropped (by rw [hd]; nofun) }
  | _ => exact { h with }

theorem reached_seated (h : Reaches (Stream.step tmpl batchSize) (initial : State κ) s) :
    Seated s :=
  h.invariant (I := Seated) seated_initial fun _ _ _ _ hi _ hu => hi.step hu

end Temari.StreamSeats
