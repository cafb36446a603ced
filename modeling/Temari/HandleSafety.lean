import Temari.Handles
import Temari.Transition

/-! Where Close is exclusive, a native function always works on the value of the object it was
called for. Where it is not, the value can go away under a call. -/
namespace Temari.HandleSafety
open Rounds Ffi Temari.Handles Transition
variable {ι τ : Type} [DecidableEq ι] [DecidableEq τ] {b : Binding} {s s' : State ι τ}
  {a : Action ι τ} {u : τ} {o : ι} {n : Native} {addr : Nat} {pc : Pc ι}

section Moves

/-- What a step can do. -/
inductive Move (b : Binding) (s : State ι τ) : Action ι τ → State ι τ → Prop
  | fromJson (u : τ) (o : ι) (addr : Nat) (T : Template) (hpc : s.pc u = .idle)
    (hfresh : s.fresh o addr = true) :
    Move b s (.fromJson u o addr T) (s.build o addr (.template T))
  | refused (u : τ) (o : ι) (hpc : s.pc u = .idle) : Move b s (.check u o) s
  | check (u : τ) (o : ι) (hpc : s.pc u = .idle) (hopen : s.handle o ≠ 0) :
    Move b s (.check u o) (s.setPc u (.checked o))
  | call (u : τ) (o : ι) (hpc : s.pc u = .checked o) :
    Move b s (.call u) (s.setPc u (.inside o (s.handle o)))
  | again (u : τ) (o : ι) (h : Nat) (hpc : s.pc u = .inside o h) :
    Move b s (.again u) (s.setPc u (.checked o))
  | ret (u : τ) (o : ι) (h : Nat) (hpc : s.pc u = .inside o h) : Move b s (.ret u) (s.setPc u .idle)
  | newStream (u : τ) (p o : ι) (addr h : Nat) (T : Template) (hpc : s.pc u = .inside o h)
    (hvalue : s.valueAt h = some (.template T)) (hfresh : s.fresh p addr = true) :
    Move b s (.newStream u p addr) ((s.build p addr (.stream T)).setPc u .idle)
  | closed (u : τ) (o : ι) (hpc : s.pc u = .idle) : Move b s (.close u o) s
  | closeGo (u : τ) (o : ι) (hb : b = .go) (hpc : s.pc u = .idle) (hopen : s.handle o ≠ 0) :
    Move b s (.close u o) (s.setPc u (.closing o))
  | closePython (u : τ) (o : ι) (hb : b = .python) (hpc : s.pc u = .idle)
    (hmade : s.made o ≠ none) : Move b s (.close u o) (s.setPc u (.taken o (s.handle o)))
  | destroy (u : τ) (o : ι) (hpc : s.pc u = .closing o) :
    Move b s (.destroy u) (s.setPc u (.freeing o (s.handle o)))
  | free (u : τ) (o : ι) (h : Nat) (hpc : s.pc u = .freeing o h) :
    Move b s (.free u) ({ s with heap := Function.update s.heap h none }.setPc u
      (match b with | .go => .freed o | .python => .idle))
  | clearGo (u : τ) (o : ι) (hpc : s.pc u = .freed o) :
    Move b s (.clear u) ({ s with handle := Function.update s.handle o 0 }.setPc u .idle)
  | clearPython (u : τ) (o : ι) (h : Nat) (hpc : s.pc u = .taken o h) :
    Move b s (.clear u) ({ s with handle := Function.update s.handle o 0 }.setPc u
      (if h = 0 then .idle else .freeing o h))

theorem step_move (h : step b s a = some s') : Move b s a s' := by
  cases a with
  | fromJson u o addr T =>
    simp only [step] at h
    split at h
    next hpc =>
      split at h
      next hfresh =>
        cases h
        exact .fromJson u o addr T hpc hfresh
      next => cases h
    next => cases h
  | check u o =>
    simp only [step] at h
    split at h
    next hpc =>
      split at h
      next hzero =>
        cases h
        exact .refused u o hpc
      next hopen =>
        cases h
        exact .check u o hpc hopen
    next => cases h
  | call u =>
    simp only [step] at h
    split at h
    next o hpc =>
      cases h
      exact .call u o hpc
    next => cases h
  | again u =>
    simp only [step] at h
    split at h
    next o h0 hpc =>
      cases h
      exact .again u o h0 hpc
    next => cases h
  | ret u =>
    simp only [step] at h
    split at h
    next o h0 hpc =>
      cases h
      exact .ret u o h0 hpc
    next => cases h
  | newStream u p addr =>
    simp only [step] at h
    split at h
    next o h0 hpc =>
      split at h
      next T hvalue =>
        split at h
        next hfresh =>
          cases h
          exact .newStream u p o addr h0 T hpc hvalue hfresh
        next => cases h
      next => cases h
    next => cases h
  | close u o =>
    simp only [step] at h
    split at h
    next hpc =>
      split at h
      next hzero =>
        cases h
        exact .closed u o hpc
      next hopen =>
        cases h
        exact .closeGo u o rfl hpc hopen
    next hpc =>
      split at h
      next hmade =>
        cases h
        exact .closePython u o rfl hpc (Option.isSome_iff_ne_none.mp hmade)
      next => cases h
    next => cases h
  | destroy u =>
    simp only [step] at h
    split at h
    next o hpc =>
      cases h
      exact .destroy u o hpc
    next => cases h
  | free u =>
    simp only [step] at h
    split at h
    next o h0 hpc =>
      cases h
      exact .free u o h0 hpc
    next => cases h
  | clear u =>
    simp only [step] at h
    split at h
    next o hpc =>
      cases h
      exact .clearGo u o hpc
    next o h0 hpc =>
      cases h
      exact .clearPython u o h0 hpc
    next => cases h

end Moves

section Invariant

/-- What a thread can rely on of its own object. -/
def Ok (b : Binding) (s : State ι τ) : Pc ι → Prop
  | .idle => True
  | .checked o => s.heap (s.handle o) = some o
  | .inside o h => s.heap h = some o ∧ s.handle o = h
  | .closing o => b = .go ∧ s.heap (s.handle o) = some o
  | .taken o h => b = .python ∧ s.handle o = h ∧ (h ≠ 0 → s.heap h = some o)
  | .freeing o h => s.heap h = some o ∧ s.handle o = (match b with | .go => h | .python => 0)
  | .freed o => ∀ a, s.heap a ≠ some o

/-- Every value belongs to one object, which has its address until the value is freed. -/
structure Sound (b : Binding) (s : State ι τ) : Prop where
  null : s.heap 0 = none
  owned : ∀ a o, s.heap a = some o → s.handle o = a ∨ ∃ u, s.pc u = .freeing o a
  live : ∀ o, s.handle o ≠ 0 → s.heap (s.handle o) = some o ∨ ∃ u, s.pc u = .freed o
  unmade : ∀ o, s.made o = none → s.handle o = 0
  born : ∀ u o, (s.pc u).object = some o → s.made o ≠ none
  apart : ∀ u v o, (s.pc u).closes = some o → (s.pc v).object = some o → v = u
  threads : ∀ u, Ok b s (s.pc u)

omit [DecidableEq ι] [DecidableEq τ] in
/-- What happens to other objects is nothing to a thread. -/
theorem Ok.frame {t : State ι τ} (h : Ok b s pc) (hsame : ∀ o, pc.object = some o →
    t.handle o = s.handle o ∧ ∀ a, t.heap a = some o ↔ s.heap a = some o) : Ok b t pc := by
  cases pc with
  | idle => trivial
  | checked o | closing o | inside o a | taken o a =>
    obtain ⟨hh, hheap⟩ := hsame o rfl
    rw [Ok, hh, hheap]
    exact h
  | freeing o a =>
    obtain ⟨hh, hheap⟩ := hsame o rfl
    exact ⟨(hheap a).mpr h.1, hh.trans h.2⟩
  | freed o =>
    obtain ⟨-, hheap⟩ := hsame o rfl
    exact fun a ha => h a ((hheap a).mp ha)

omit [DecidableEq ι] [DecidableEq τ] in
theorem sound_initial : Sound b (initial : State ι τ) where
  null := rfl
  owned := fun _ _ h => by cases h
  live := fun _ h => absurd rfl h
  unmade := fun _ _ => rfl
  born := fun _ _ h => by cases h
  apart := fun _ _ _ h => by cases h
  threads := fun _ => trivial

omit [DecidableEq ι] in
/-- A thread goes on in its method, and no value or handle changes. -/
theorem Sound.setPc (h : Sound b s) (hok : Ok b s pc)
    (hborn : ∀ o, pc.object = some o → s.made o ≠ none)
    (hold : ∀ o, (∀ a, s.pc u ≠ .freeing o a) ∧ s.pc u ≠ .freed o)
    (hapart : ∀ v o, v ≠ u → (pc.closes = some o → (s.pc v).object ≠ some o) ∧
      (pc.object = some o → (s.pc v).closes ≠ some o)) : Sound b (s.setPc u pc) := by
  have hpc (v : τ) : (s.setPc u pc).pc v = if v = u then pc else s.pc v :=
    Function.update_apply s.pc u pc v
  have hstays {v : τ} {p : Pc ι} (hv : s.pc v = p) (hne : s.pc u ≠ p) :
    (s.setPc u pc).pc v = p := by
    have hvu : v ≠ u := fun hvu => hne (hvu ▸ hv)
    rw [hpc, if_neg hvu, hv]
  refine ⟨h.null, fun a o ha => (h.owned a o ha).imp_right ?_,
    fun o ho => (h.live o ho).imp_right ?_, h.unmade, fun v o hv => ?_,
    fun v w o hv hw => ?_, fun v => ?_⟩
  · rintro ⟨v, hv⟩
    exact ⟨v, hstays hv ((hold o).1 a)⟩
  · rintro ⟨v, hv⟩
    exact ⟨v, hstays hv (hold o).2⟩
  · rw [hpc] at hv
    split at hv
    · exact hborn o hv
    · exact h.born v o hv
  · rw [hpc] at hv hw
    by_cases hvu : v = u <;> by_cases hwu : w = u
    · exact hwu.trans hvu.symm
    · rw [if_pos hvu] at hv
      rw [if_neg hwu] at hw
      exact absurd hw ((hapart w o hwu).1 hv)
    · rw [if_neg hvu] at hv
      rw [if_pos hwu] at hw
      exact absurd hv ((hapart v o hvu).2 hw)
    · rw [if_neg hvu] at hv
      rw [if_neg hwu] at hw
      exact h.apart v w o hv hw
  · rw [hpc]
    split
    · exact hok.frame fun _ _ => ⟨rfl, fun _ => Iff.rfl⟩
    · exact (h.threads v).frame fun _ _ => ⟨rfl, fun _ => Iff.rfl⟩

/-- A thread that is alone with an object changes its value or its handle. -/
theorem Sound.alone {t : State ι τ} (h : Sound b s) (hpc : t.pc = Function.update s.pc u pc)
    (hothers : ∀ v, v ≠ u → (s.pc v).object ≠ some o)
    (hold : ∀ p, p ≠ o → (∀ a, s.pc u ≠ .freeing p a) ∧ s.pc u ≠ .freed p)
    (hnew : ∀ p, pc.object = some p → p = o)
    (hframe : ∀ p, p ≠ o → t.handle p = s.handle p ∧ t.made p = s.made p ∧
      ∀ a, t.heap a = some p ↔ s.heap a = some p)
    (hnull : t.heap 0 = none) (howned : ∀ a, t.heap a = some o → t.handle o = a ∨ pc = .freeing o a)
    (hlive : t.handle o ≠ 0 → t.heap (t.handle o) = some o ∨ pc = .freed o)
    (hmade : t.made o ≠ none) (hok : Ok b t pc) : Sound b t := by
  have hself : t.pc u = pc := by rw [hpc, Function.update_self]
  have hother {v : τ} (hv : v ≠ u) : t.pc v = s.pc v := by rw [hpc, Function.update_of_ne hv]
  have hstays {v : τ} {p : Pc ι} (hv : s.pc v = p) (hne : s.pc u ≠ p) : t.pc v = p := by
    have hvu : v ≠ u := fun hvu => hne (hvu ▸ hv)
    rw [hother hvu, hv]
  refine ⟨hnull, fun a p ha => ?_, fun p hp => ?_, fun p hp => ?_, fun v p hv => ?_,
    fun v w p hv hw => ?_, fun v => ?_⟩
  · by_cases hpo : p = o
    · subst hpo
      exact (howned a ha).imp_right fun hfree => ⟨u, hself.trans hfree⟩
    · obtain ⟨hh, -, hheap⟩ := hframe p hpo
      refine (h.owned a p ((hheap a).mp ha)).imp hh.trans ?_
      rintro ⟨v, hv⟩
      exact ⟨v, hstays hv ((hold p hpo).1 a)⟩
  · by_cases hpo : p = o
    · subst hpo
      exact (hlive hp).imp_right fun hfreed => ⟨u, hself.trans hfreed⟩
    · obtain ⟨hh, -, hheap⟩ := hframe p hpo
      rw [hh] at hp ⊢
      refine (h.live p hp).imp (hheap _).mpr ?_
      rintro ⟨v, hv⟩
      exact ⟨v, hstays hv (hold p hpo).2⟩
  · by_cases hpo : p = o
    · exact absurd hp (hpo ▸ hmade)
    · obtain ⟨hh, hm, -⟩ := hframe p hpo
      exact hh.trans (h.unmade p (hm ▸ hp))
  · by_cases hvu : v = u
    · subst hvu
      rw [hself] at hv
      exact hnew p hv ▸ hmade
    · rw [hother hvu] at hv
      have hpo : p ≠ o := fun hpo => hothers v hvu (hpo ▸ hv)
      rw [(hframe p hpo).2.1]
      exact h.born v p hv
  · by_cases hvu : v = u <;> by_cases hwu : w = u
    · exact hwu.trans hvu.symm
    · subst hvu
      rw [hself] at hv
      rw [hother hwu] at hw
      exact absurd (hnew p (Pc.object_of_closes hv) ▸ hw) (hothers w hwu)
    · subst hwu
      rw [hself] at hw
      rw [hother hvu] at hv
      exact absurd (hnew p hw ▸ Pc.object_of_closes hv) (hothers v hvu)
    · rw [hother hvu] at hv
      rw [hother hwu] at hw
      exact h.apart v w p hv hw
  · by_cases hvu : v = u
    · subst hvu
      rw [hself]
      exact hok
    · rw [hother hvu]
      refine (h.threads v).frame fun p hp => ?_
      obtain ⟨hh, -, hheap⟩ := hframe p fun hpo => hothers v hvu (hpo ▸ hp)
      exact ⟨hh, hheap⟩

section Own
omit [DecidableEq ι] [DecidableEq τ]

theorem Sound.ok (h : Sound b s) (hpc : s.pc u = pc) : Ok b s pc := hpc ▸ h.threads u

theorem Sound.made_of_open (h : Sound b s) (hopen : s.handle o ≠ 0) : s.made o ≠ none :=
  fun hmade => hopen (h.unmade o hmade)

/-- Whoever closes an object is alone with it. -/
theorem Sound.others (h : Sound b s) (hpc : s.pc u = pc) (hcloses : pc.closes = some o) (v : τ)
    (hvu : v ≠ u) : (s.pc v).object ≠ some o :=
  fun hv => hvu (h.apart u v o (hpc ▸ hcloses) hv)

/-- An open object that is not being closed has its value. -/
theorem Sound.value (h : Sound b s) (hopen : s.handle o ≠ 0) (hno : ∀ v, (s.pc v).closes ≠ some o) :
    s.heap (s.handle o) = some o := by
  refine (h.live o hopen).resolve_right ?_
  rintro ⟨v, hv⟩
  exact hno v (by rw [hv]; rfl)

/-- The value that is being freed is the only one of its object. -/
theorem Sound.unique (h : Sound b s) (hpc : s.pc u = .freeing o addr) {a : Nat}
    (ha : s.heap a = some o) : a = addr := by
  have hok := h.ok hpc
  obtain hhandle | ⟨v, hv⟩ := h.owned a o ha
  · cases b with
    | go => exact hhandle.symm.trans hok.2
    | python =>
      -- the handle is zero already, where no value stands
      rw [← hhandle, hok.2, h.null] at ha
      cases ha
  · have hvu : v = u := h.apart u v o (by rw [hpc]; rfl) (by rw [hv]; rfl)
    rw [hvu, hpc] at hv
    cases hv
    rfl

end Own

theorem Sound.build (h : Sound b s) (hfresh : s.fresh o addr = true)
    (hpc : ∀ p, (∀ a, s.pc u ≠ .freeing p a) ∧ s.pc u ≠ .freed p) :
    Sound b ((s.build o addr n).setPc u .idle) := by
  simp only [State.fresh, Bool.and_eq_true, decide_eq_true_eq, Option.isNone_iff_eq_none] at hfresh
  obtain ⟨⟨haddr, hheap⟩, hmade⟩ := hfresh
  have hown (a : Nat) : s.heap a ≠ some o := fun ha => by
    obtain hhandle | ⟨v, hv⟩ := h.owned a o ha
    · rw [← hhandle, h.unmade o hmade, h.null] at ha
      cases ha
    · exact h.born v o (by rw [hv]; rfl) hmade
  have hupd (a : Nat) (p : ι) (hp : p ≠ o) : Function.update s.heap addr (some o) a = some p ↔
      s.heap a = some p := by
    by_cases haa : a = addr
    · rw [haa, Function.update_self, hheap, Option.some.injEq]
      exact ⟨fun h => absurd h.symm hp, fun h => (by cases h)⟩
    · rw [Function.update_of_ne haa]
  refine h.alone (o := o) rfl (fun v _ hv => h.born v o hv hmade) (fun p _ => hpc p)
    (fun _ hp => by cases hp) (fun p hp => ⟨Function.update_of_ne hp _ _,
      Function.update_of_ne hp _ _, fun a => hupd a p hp⟩) ?_ (fun a ha => ?_)
      (fun _ => ?_) ?_ trivial
  · exact (Function.update_of_ne (Ne.symm haddr) _ _).trans h.null
  · rw [State.setPc_handle, State.build_handle]
    by_cases haa : a = addr
    · exact Or.inl haa.symm
    · exact absurd ((Function.update_of_ne haa _ _).symm.trans ha) (hown a)
  · rw [State.setPc_handle, State.build_handle, State.setPc_heap, State.build_heap]
    exact Or.inl rfl
  · rw [State.setPc_made, State.build_made]
    exact Option.some_ne_none n

omit [DecidableEq ι] in
/-- A thread goes on in the method it is in, or leaves it. -/
theorem Sound.onward (h : Sound b s) (hok : Ok b s pc)
    (hobject : ∀ p, pc.object = some p → (s.pc u).object = some p)
    (hcloses : ∀ p, pc.closes = some p → (s.pc u).closes = some p)
    (hold : ∀ p, (∀ a, s.pc u ≠ .freeing p a) ∧ s.pc u ≠ .freed p) : Sound b (s.setPc u pc) := by
  refine h.setPc hok (fun p hp => h.born u p (hobject p hp)) hold fun v p hvu => ⟨fun hp hv => ?_,
    fun hp hv => ?_⟩
  · exact hvu (h.apart u v p (hcloses p hp) hv)
  · exact hvu (h.apart v u p hv (hobject p hp)).symm

omit [DecidableEq ι] in
/-- A thread enters a method of an object that nobody closes, alone if it is Close itself. -/
theorem Sound.enter (h : Sound b s) (hpc : s.pc u = .idle) (hobject : pc.object = some o)
    (hok : Ok b s pc) (hmade : s.made o ≠ none) (hno : ∀ v, (s.pc v).closes ≠ some o)
    (hshut : pc.closes ≠ none → ∀ v, (s.pc v).object ≠ some o) : Sound b (s.setPc u pc) := by
  have hown {p : ι} (hp : pc.object = some p) : p = o := Option.some.inj (hp.symm.trans hobject)
  refine h.setPc hok (fun p hp => hown hp ▸ hmade) (fun p => by simp [hpc]) fun v p _ =>
    ⟨fun hp hv => ?_, fun hp hv => ?_⟩
  · exact hshut (by rw [hp]; exact Option.some_ne_none p) v (hown (Pc.object_of_closes hp) ▸ hv)
  · exact hno v (hown hp ▸ hv)

/-- A step keeps the invariant when Close is exclusive. -/
theorem Sound.step (h : Sound b s) (hx : Exclusive s a) (hm : Move b s a s') : Sound b s' := by
  cases hm with
  | fromJson u o addr T hpc hfresh =>
    have hsame : s.build o addr (.template T) = (s.build o addr (.template T)).setPc u .idle := by
      rw [State.setPc, ← hpc]
      exact congrArg _ (Function.update_eq_self u s.pc).symm
    rw [hsame]
    exact h.build hfresh fun p => by simp [hpc]
  | refused | closed => exact h
  | check u o hpc hopen =>
    exact h.enter hpc rfl (h.value hopen hx) (h.made_of_open hopen) hx fun hshut => absurd rfl hshut
  | call u o hpc =>
    exact h.onward ⟨h.ok hpc, rfl⟩ (fun p hp => by rw [hpc]; exact hp)
      (fun p hp => by cases hp) fun p => by
      simp [hpc]
  | again u o a hpc =>
    have hok := h.ok hpc
    have hlive : s.heap (s.handle o) = some o := by rw [hok.2, hok.1]
    exact h.onward hlive (fun p hp => by rw [hpc]; exact hp) (fun p hp => by cases hp) fun p => by
      simp [hpc]
  | ret u o a hpc =>
    exact h.onward trivial (fun p hp => by cases hp) (fun p hp => by cases hp)
      fun p => by simp [hpc]
  | newStream u p o addr a T hpc hvalue hfresh => exact h.build hfresh fun p => by simp [hpc]
  | closeGo u o hb hpc hopen =>
    have hno (v : τ) : (s.pc v).closes ≠ some o := fun hv => hx v (Pc.object_of_closes hv)
    exact h.enter hpc rfl ⟨hb, h.value hopen hno⟩ (h.made_of_open hopen) hno fun _ => hx
  | closePython u o hb hpc hmade =>
    have hno (v : τ) : (s.pc v).closes ≠ some o := fun hv => hx v (Pc.object_of_closes hv)
    exact h.enter hpc rfl ⟨hb, rfl, fun hopen => h.value hopen hno⟩ hmade hno fun _ => hx
  | destroy u o hpc =>
    obtain ⟨rfl, hlive⟩ := h.ok hpc
    exact h.onward ⟨hlive, rfl⟩ (fun p hp => by rw [hpc]; exact hp)
      (fun p hp => by rw [hpc]; exact hp) fun p => by simp [hpc]
  | free u o a hpc =>
    have hok := h.ok hpc
    have hgone (x : Nat) : Function.update s.heap a none x ≠ some o := fun hx => by
      by_cases hxa : x = a
      · rw [hxa, Function.update_self] at hx
        cases hx
      · rw [Function.update_of_ne hxa] at hx
        exact hxa (h.unique hpc hx)
    have hother (x : Nat) (p : ι) (hp : p ≠ o) : Function.update s.heap a none x = some p ↔
        s.heap x = some p := by
      by_cases hxa : x = a
      · rw [hxa, Function.update_self, hok.1, Option.some.injEq]
        exact ⟨fun h => (by cases h), fun h => absurd h.symm hp⟩
      · rw [Function.update_of_ne hxa]
    have hnull : a ≠ 0 := fun ha => by
      have hnone := hok.1
      rw [ha, h.null] at hnone
      cases hnone
    refine h.alone (o := o) rfl (h.others hpc rfl) (fun p hp => ?_)
      (fun p hp => ?_) (fun p hp => ⟨rfl, rfl, fun x => hother x p hp⟩)
      ((Function.update_of_ne (Ne.symm hnull) _ _).trans h.null) (fun x hx => absurd hx (hgone x))
      (fun hopen => ?_) (h.born u o (by rw [hpc]; rfl)) ?_
    · rw [hpc]
      exact ⟨fun x hx => hp (by cases hx; rfl), fun hx => by cases hx⟩
    · cases b with
      | go => exact (Option.some.inj hp).symm
      | python => cases hp
    · cases b with
      | go => exact Or.inr rfl
      | python => exact absurd hok.2 hopen
    · cases b with
      | go => exact hgone
      | python => trivial
  | clearGo u o hpc =>
    have hok := h.ok hpc
    refine h.alone (o := o) rfl (h.others hpc rfl) (fun p hp => ?_)
      (fun p hp => by cases hp)
      (fun p hp => ⟨Function.update_of_ne hp _ _, rfl, fun _ => Iff.rfl⟩) h.null
      (fun x hx => absurd hx (hok x))
      (fun hopen => absurd (Function.update_self o 0 s.handle) hopen)
      (h.born u o (by rw [hpc]; rfl)) trivial
    rw [hpc]
    exact ⟨fun x hx => (by cases hx), fun hx => hp (by cases hx; rfl)⟩
  | clearPython u o a hpc =>
    obtain ⟨rfl, rfl, hlive⟩ := h.ok hpc
    refine h.alone (o := o) rfl (h.others hpc rfl) (fun p hp => ?_)
      (fun p hp => ?_) (fun p hp => ⟨Function.update_of_ne hp _ _, rfl, fun _ => Iff.rfl⟩) h.null
      (fun x hx => ?_) (fun hopen => absurd (Function.update_self o 0 s.handle) hopen)
      (h.born u o (by rw [hpc]; rfl)) ?_
    · rw [hpc]
      exact ⟨fun x hx => (by cases hx), fun hx => (by cases hx)⟩
    · split at hp
      · cases hp
      · exact (Option.some.inj hp).symm
    · obtain hhandle | ⟨v, hv⟩ := h.owned x o hx
      · subst hhandle
        have hopen : s.handle o ≠ 0 := fun hzero => by
          have hvalue : s.heap (s.handle o) = some o := hx
          rw [hzero, h.null] at hvalue
          cases hvalue
        rw [if_neg hopen]
        exact Or.inr rfl
      · have hvu : v = u := h.apart u v o (by rw [hpc]; rfl) (by rw [hv]; rfl)
        rw [hvu, hpc] at hv
        cases hv
    · split
      · trivial
      next hopen => exact ⟨hlive hopen, Function.update_self o 0 s.handle⟩

theorem reached_sound (h : Steps (Handles.step b) Exclusive (initial : State ι τ) s) : Sound b s :=
  h.invariant sound_initial fun _ _ _ _ hs hx hu => hs.step hx (step_move hu)

end Invariant

section OneThread

/-- In a program of one thread Close is exclusive. -/
theorem exclusive_of_single [Subsingleton τ] (h : step b s a = some s') : Exclusive s a := by
  have hidle {u : τ} (hu : s.pc u = .idle) (v : τ) : (s.pc v).object = none := by
    rw [Subsingleton.elim v u, hu]
    rfl
  cases step_move h with
  | refused u o hpc | check u o hpc _ =>
    intro v hv
    cases (hidle hpc v).symm.trans (Pc.object_of_closes hv)
  | closed u o hpc | closeGo u o _ hpc _ | closePython u o _ hpc _ =>
    intro v hv
    cases (hidle hpc v).symm.trans hv
  | _ => trivial

theorem steps_of_single [Subsingleton τ] {t : State ι τ} (h : Reaches (step b) s t) :
    Steps (step b) Exclusive s t := by
  induction h with
  | refl => exact .refl
  | tail _ _ hu ih => exact ih.tail (exclusive_of_single hu) hu

end OneThread

section Made

omit [DecidableEq τ] in
theorem made_of_build {p : ι} {addr : Nat} {n n' : Native} (hfresh : s.fresh p addr = true)
    (hmade : s.made o = some n) : (s.build p addr n').made o = some n := by
  have hne : o ≠ p := by
    rintro rfl
    simp [State.fresh, hmade] at hfresh
  exact (Function.update_of_ne hne _ _).trans hmade

/-- What was made for an object is never changed. -/
theorem made_stays (hstep : step b s a = some s') (hmade : s.made o = some n) :
    s'.made o = some n := by
  cases step_move hstep with
  | fromJson u p addr T hpc hfresh => exact made_of_build hfresh hmade
  | newStream u p q addr h T hpc hvalue hfresh => exact made_of_build hfresh hmade
  | _ => exact hmade

theorem made_reached {t : State ι τ} (h : Reaches (step b) s t) (hmade : s.made o = some n) :
    t.made o = some n :=
  h.invariant (I := fun t => t.made o = some n) hmade fun _ _ _ _ ht _ hu => made_stays hu ht

end Made

/-- Where Close is exclusive, a native function is at work on the live value of its own object,
every value has its object, no two open objects share one, and a stream has its object's template,
for good. -/
theorem handles_sound (b : Binding) (s : State ι τ) (h : Steps (step b) Exclusive initial s) :
    (∀ u o a, (s.pc u).held = some (o, a) → ∃ n, s.made o = some n ∧ s.valueAt a = some n) ∧
    (∀ a o, s.heap a = some o → s.handle o = a ∨ ∃ u, s.pc u = .freeing o a) ∧
    (∀ o p, (∀ u, (s.pc u).closes ≠ some o ∧ (s.pc u).closes ≠ some p) → s.handle o ≠ 0 →
      s.handle o = s.handle p → o = p) ∧
    (∀ u p addr t, step b s (.newStream u p addr) = some t → ∃ o T, (s.pc u).object = some o ∧
      s.made o = some (.template T) ∧ t.made p = some (.stream T)) ∧
    ∀ o n, s.made o = some n → ∀ t, Reaches (step b) s t → t.made o = some n := by
  have hs := reached_sound h
  have hheld (u : τ) (o : ι) (a : Nat) (hu : (s.pc u).held = some (o, a)) : s.heap a = some o := by
    have hok := hs.threads u
    cases hpc : s.pc u with
    | inside p x =>
      rw [hpc] at hu hok
      cases hu
      exact hok.1
    | freeing p x =>
      rw [hpc] at hu hok
      cases hu
      exact hok.1
    | _ =>
      rw [hpc] at hu
      cases hu
  refine ⟨fun u o a hu => ?_, hs.owned, fun o p hno hopen hsame => ?_, fun u p addr t hu => ?_,
    fun o n hn t ht => made_reached ht hn⟩
  · obtain ⟨n, hn⟩ := Option.ne_none_iff_exists'.mp (hs.born u o (Pc.object_of_held hu))
    exact ⟨n, hn, by rw [State.valueAt, hheld u o a hu, Option.bind_some, hn]⟩
  · have ho := hs.value hopen fun u => (hno u).1
    have hp := hs.value (hsame ▸ hopen) fun u => (hno u).2
    rw [hsame, hp] at ho
    exact (Option.some.inj ho).symm
  · cases step_move hu with
    | newStream _ _ o addr a T hpc hvalue hfresh =>
      have hheap := hheld u o a (by rw [hpc]; rfl)
      rw [State.valueAt, hheap, Option.bind_some] at hvalue
      exact ⟨o, T, by rw [hpc]; rfl, hvalue, by rw [State.setPc_made, State.build_made]⟩

/-- Alone with a template and a stream of it, in Next after the template has been closed. -/
theorem handles_sound_single : ∃ s : State Bool Unit, (s.pc ()).held = some (true, 16) ∧
    s.handle false = 0 ∧ ∃ n, s.made true = some n ∧ s.valueAt 16 = some n := by
  obtain ⟨s, hrun, hheld, hzero⟩ : ∃ s : State Bool Unit, run (step .go) initial
      [.fromJson () false 8 eightTemplate, .check () false, .call (), .newStream () true 16,
        .close () false, .destroy (), .free (), .clear (), .check () true, .call ()] = some s ∧
      (s.pc ()).held = some (true, 16) ∧ s.handle false = 0 := ⟨_, rfl, rfl, rfl⟩
  have h := handles_sound .go s (steps_of_single (reaches_of_run hrun))
  exact ⟨s, hheld, hzero, h.1 () true 16 hheld⟩

end Temari.HandleSafety
