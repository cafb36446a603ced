import Temari.PoolResults
import Temari.StreamOrder
import Temari.LoaderAgreement

/-! A template that either loader returns never makes decryption fail: no lookup, index or
slice is out of range and no checked sum overflows, alone, in the pool or in a stream. -/
namespace Temari.NoFaults
open RoundMachine Rounds BlockLoop RegionPaths TemplateLoader TemplateFormat LoaderAgreement
  JsonText Utf8 Transition

/-- What the two loaders can return. -/
def Loaded (T : Template) : Prop :=
  (∃ json, templateFromJson json = some (.ok T)) ∨ ∃ data, loadBinaryTemplate data = some T

/-- No path of decryption fails on the template, whatever the bytes and the buffers. -/
structure Faultless (T : Template) : Prop where
  blocks : ∀ ct out : Bytes, ct.length / 16 * 16 ≤ out.length →
    ∃ o, decryptBlocksInto T ct out = some o ∧ o.length = out.length
  blocksPair : ∀ ct1 ct2 out1 out2 : Bytes, ct1.length / 16 * 16 ≤ out1.length →
    ct2.length / 16 * 16 ≤ out2.length → ∃ o1 o2,
      decryptBlocksPairInto T ct1 ct2 out1 out2 = some (o1, o2) ∧ o1.length = out1.length ∧
        o2.length = out2.length
  into : ∀ sample out : Bytes, ∃ o, decryptInto T sample out = some o ∧ o.length = sample.length
  region : ∀ sample out : Bytes, out.length = sample.length →
    ∃ o, decryptRegionInto T sample out = some o ∧ o.length = sample.length
  regionPair : ∀ s1 s2 out1 out2 : Bytes, out1.length = s1.length → out2.length = s2.length →
    ∃ o1 o2, decryptRegionPairInto T s1 s2 out1 out2 = some (o1, o2) ∧ o1.length = s1.length ∧
      o2.length = s2.length

section Alone
variable {T : Template}

theorem Loaded.ctx_size (h : Loaded T) : 0x8000 ≤ T.ctx.length := by
  obtain ⟨json, hjson⟩ | ⟨data, hdata⟩ := h
  · obtain ⟨_, _, hmade⟩ := templateFromJson_ok hjson
    exact hmade.ctx_size
  · by_cases hlen : ctxSize + 8192 * 4 + 20 ≤ data.length
    · obtain ⟨T', hload, hctx, -⟩ := loadBinaryTemplate_file hlen
      cases hdata.symm.trans hload
      rw [hctx, List.length_take]
      exact Nat.le_min.mpr ⟨Nat.le_refl _, Nat.le_trans (by decide) hlen⟩
    · rw [loadBinaryTemplate, if_pos (Nat.not_le.mp hlen)] at hdata
      cases hdata

theorem faultless (h : 0x8000 ≤ T.ctx.length) : Faultless T where
  blocks ct out ho := by
    obtain ⟨_, o, -, hrun, hlen⟩ := decryptBlocksInto_isSome h ct out ho
    exact ⟨o, hrun, hlen⟩
  blocksPair ct1 ct2 out1 out2 ho1 ho2 := by
    obtain ⟨_, o1, -, hrun1, hlen1⟩ := decryptBlocksInto_isSome h ct1 out1 ho1
    obtain ⟨_, o2, -, hrun2, hlen2⟩ := decryptBlocksInto_isSome h ct2 out2 ho2
    refine ⟨o1, o2, ?_, hlen1, hlen2⟩
    rw [decryptBlocksPairInto_eq, hrun1, hrun2]
    rfl
  into sample _ := decrypt_isSome h sample
  region sample out ho := decryptRegionInto_isSome h ho
  regionPair s1 s2 out1 out2 ho1 ho2 := by
    obtain ⟨o1, hrun1, hlen1⟩ := decryptRegionInto_isSome h ho1
    obtain ⟨o2, hrun2, hlen2⟩ := decryptRegionInto_isSome h ho2
    refine ⟨o1, o2, ?_, hlen1, hlen2⟩
    rw [decryptRegionPairInto_eq, hrun1, hrun2]
    rfl

end Alone

section InPool
open Pool PoolMoves PoolWork PoolRegions PoolResults
variable {ι : Type} [DecidableEq ι] {W : Nat} {calls : ι → Call} {s s' : State ι W} {c : ι}
  {w : Fin W}

/-- No thread of the pool has panicked. -/
def Unpanicked (s : State ι W) : Prop :=
  (∀ w j p, (s.worker w).pc ≠ .panicked j p) ∧ ∀ c, s.caller c ≠ .panicked

/-- The only step in which a caller panics is the decryption of a sample on its own. -/
theorem callerStep_panicked (h : callerStep calls s c = some s') (hc : s'.caller c = .panicked) :
    s.caller c = .idle ∧ (calls c).n = 1 ∧ decryptPair (calls c) (s.out c) 0 = none := by
  have hpc' (t : State ι W) (pc : CallerPc) (ht : some (t.setCaller c pc) = some s') :
      pc = .panicked := by
    cases ht
    rwa [State.setCaller_self] at hc
  have hidle : s.caller c = .idle := by
    cases callerStep_move h with
    | empty hpc _ | alone _ hpc _ _ | panic hpc | enter hpc _ => exact hpc
    | _ => cases hpc' _ _ rfl
  simp only [callerStep, hidle] at h
  split at h
  · cases h
  · split at h
    · cases hpc' _ _ h
    · split at h
      next hone =>
        split at h
        · cases hpc' _ _ h
        next hnone => exact ⟨hidle, hone.1, hnone⟩
      · cases hpc' _ _ h

omit [DecidableEq ι] in
theorem unpanicked_setPc (h : Unpanicked s) {pc : WorkerPc ι} (hpc : ∀ j p, pc ≠ .panicked j p) :
    Unpanicked (s.setPc w pc) := by
  refine ⟨?_, h.2⟩
  exact all_updated (P := fun pc => ∀ j p, pc ≠ .panicked j p) hpc h.1

theorem unpanicked_notifyJob (h : Unpanicked s) : Unpanicked s.notifyJob := by
  refine ⟨fun v j p hv => ?_, h.2⟩
  obtain ⟨-, hp⟩ | ⟨-, hp⟩ := s.notifyJob_pc v
  · cases hp.symm.trans hv
  · exact h.1 v j p (hp.symm.trans hv)

theorem unpanicked_setCaller (h : Unpanicked s) {pc : CallerPc} (hpc : pc ≠ .panicked) :
    Unpanicked (s.setCaller c pc) := by
  refine ⟨h.1, fun d hd => ?_⟩
  by_cases hdc : d = c
  · subst hdc
    rw [State.setCaller_self] at hd
    exact hpc hd
  · rw [State.setCaller_ne _ _ hdc] at hd
    exact h.2 d hd

omit [DecidableEq ι] in
theorem unpanicked_notifyDone (h : Unpanicked s) : Unpanicked s.notifyDone := by
  refine ⟨h.1, fun d hd => ?_⟩
  obtain ⟨-, hp⟩ | ⟨-, hp⟩ := s.notifyDone_caller d
  · cases hp.symm.trans hd
  · exact h.2 d (hp.symm.trans hd)

theorem unpanicked_step {a : Action ι W} (ht : Reaches (step calls) (initial calls) s)
    (hctx : ∀ c, 0x8000 ≤ (calls c).tmpl.ctx.length) (h : Unpanicked s)
    (hu : step calls s a = some s') : Unpanicked s' := by
  cases step_move hu with
  | caller c s' hm =>
    -- a single sample is decrypted over the output as it came, which never fails
    have hsome : s'.caller c ≠ .panicked := fun hc => by
      obtain ⟨hidle, hone, hnone⟩ := callerStep_panicked hu hc
      rw [reached_untouched ht (hctx c) hidle] at hnone
      obtain ⟨ws, hws, -⟩ := decryptPair_right (p := 0) (hctx c) (calls c).sized
        (by rw [Call.pairs, hone]; decide)
      cases hws.symm.trans hnone
    cases hm with
    | notify hpc => exact unpanicked_setCaller (unpanicked_notifyJob h) fun hp => by cases hp
    | panic hpc => exact absurd (State.setCaller_self _ _) hsome
    | _ => exact unpanicked_setCaller h fun hp => by cases hp
  | worker w s' hm =>
    cases hm with
    | panic j p hpc hws =>
      -- the pair in hand is one of the job's, and its output has kept its size
      have hown : (workOf s j).own w = some (p, false) := by simp [workOf, hpc, ownOf]
      have hp := (((reached_inv ht).2 j).owned w p false hown).2
      have hcreated := (reached_inv ht).1.refs w j (by rw [hpc]; rfl)
      have hlive : s.caller j ≠ .bypassed := fun hb => by rw [hb] at hcreated; cases hcreated
      obtain ⟨ws, hsome, -⟩ :=
        decryptPair_right (hctx j) (reached_progress ht (hctx j) hlive).out_length hp
      cases hsome.symm.trans hws
    | pick j e hpc hslot hne =>
      refine ⟨all_updated (P := fun pc => ∀ j p, pc ≠ .panicked j p) (fun _ _ hp => ?_) h.1, h.2⟩
      cases hp
    | notify j hpc => exact unpanicked_setPc (unpanicked_notifyDone h) fun _ _ hp => by cases hp
    | _ => exact unpanicked_setPc h fun _ _ hp => by cases hp
  | drop s' hm =>
    cases hm with
    | notify _ => exact unpanicked_notifyJob h
    | _ => exact h
  | wakeCaller c hpc => exact unpanicked_setCaller h fun hp => by cases hp
  | wakeWorker w hpc => exact unpanicked_setPc h fun _ _ hp => by cases hp

/-- With long enough tables no thread of the pool ever panics. -/
theorem reached_unpanicked (h : Reaches (step calls) (initial calls : State ι W) s)
    (hctx : ∀ c, 0x8000 ≤ (calls c).tmpl.ctx.length) : Unpanicked s :=
  h.invariant (I := Unpanicked) ⟨nofun, nofun⟩ fun _ _ _ ht hi _ hu => unpanicked_step ht hctx hi hu

end InPool

/-- On the templates of the two loaders no path of decryption fails, no worker or caller of the
pool ever panics, and no coordinator of a stream does. -/
theorem loaded_never_faults :
    (∀ T, Loaded T → Faultless T) ∧
    (∀ (ι : Type) [DecidableEq ι] (W : Nat) (calls : ι → Pool.Call),
      (∀ c, Loaded (calls c).tmpl) → ∀ s : Pool.State ι W,
        Reaches (Pool.step calls) (Pool.initial calls) s → Unpanicked s) ∧
    (∀ (κ : Type) [DecidableEq κ] (T : Template) (batchSize : Nat), Loaded T →
      ∀ s : Stream.State κ, Reaches (Stream.step T batchSize) Stream.initial s →
        s.coord ≠ .panicked) := by
  refine ⟨fun T h => faultless h.ctx_size, fun ι _ W calls hload s h => ?_,
    fun κ _ T batchSize hload s h => ?_⟩
  · exact reached_unpanicked h fun c => (hload c).ctx_size
  · exact (StreamOrder.reached_inv (StreamOrder.returns_of_ctx hload.ctx_size) h).1.alive

theorem zero_loaded : Loaded zeroData.template := by
  obtain ⟨ms, h⟩ := document_write (D := zeroData) registerText_upper registerText_lower
    registerText_zero registerText_zero registerText_zero
  exact Or.inl ⟨_, templateFromJson_document h⟩

/-- The two bytes, decrypted with the template of a document. -/
def zeroCall : Pool.Call := { Pool.twoBytes with tmpl := zeroData.template }

theorem loaded_never_faults_zero : Faultless zeroData.template ∧
    (∃ s : Pool.State Unit 1, (s.worker 0).pc = .loaded () 0 ∧ Unpanicked s) ∧
    (Stream.initial : Stream.State Unit).coord ≠ .panicked := by
  obtain ⟨s, hrun, hpc⟩ : ∃ s, run (Pool.step fun _ => zeroCall)
      (Pool.initial fun _ => zeroCall : Pool.State Unit 1)
      (.replicate 6 (.caller ()) ++ .replicate 4 (.worker 0)) = some s ∧
        (s.worker 0).pc = .loaded () 0 := ⟨_, rfl, rfl⟩
  exact ⟨loaded_never_faults.1 _ zero_loaded, ⟨s, hpc, loaded_never_faults.2.1 Unit 1
    (fun _ => zeroCall) (fun _ => zero_loaded) s (reaches_of_run hrun)⟩,
    loaded_never_faults.2.2 Unit _ 0 zero_loaded _ .refl⟩

end Temari.NoFaults
