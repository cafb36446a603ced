import Temari.StreamProgress

/-! What the stream completes, from every state it can reach: the calls inside, any number of
submits without a read, and drop. -/
namespace Temari.StreamCompletion
open RoundMachine Rounds Temari.Stream StreamMoves StreamOrder StreamSeats StreamTurns
open StreamProgress Transition Conveyor
variable {κ : Type} [DecidableEq κ] {tmpl : Template} {batchSize batch : Nat} {s t : State κ}
  {k : κ}

/-- The actions of a consumer. -/
def reads : Action κ → Bool
  | .next | .tryNext => true
  | _ => false

omit [DecidableEq κ] in
theorem grant_of_work {a : Action κ} (h : 0 < work a) :
    grant a = 0 ∧ started a = none ∧ reads a = false := by
  cases a with
  | client k => exact ⟨rfl, rfl, rfl⟩
  | coord timeout =>
    cases timeout with
    | false => exact ⟨rfl, rfl, rfl⟩
    | true => cases h
  | _ => cases h

/-- The stream left to itself comes to a state in which no work is left, with what its clients
inside and its coordinator keep. -/
theorem settle (h : Reaches (step tmpl batchSize) initial s) {J : State κ → Prop} (hJ : J s)
    (hclient : ∀ t k u, J t → ClientMove (batchOf batchSize) t k u → J u)
    (hcoord : ∀ t u, J t → CoordMove tmpl (batchOf batchSize) t u → J u) :
    ∃ as t, (∀ a ∈ as, 0 < work a) ∧ run (step tmpl batchSize) s as = some t ∧
      Reaches (step tmpl batchSize) initial t ∧ J t ∧ Stalled tmpl batchSize t := by
  have hstep : ∀ t a u, J t → 0 < work a → step tmpl batchSize t a = some u → J u := by
    intro t a u hj hwork hu
    cases a with
    | client k => exact hclient t k u hj (clientStep_move hu)
    | coord timeout => exact hcoord t u hj (coordStep_move hu)
    | _ => cases hwork
  obtain ⟨F, hF, -⟩ := (reached_seated h).inside
  have hwithin : Within F s := fun k hk => (hF k).mpr hk
  have hrank : ∀ t a u, Reaches (step tmpl batchSize) initial t ∧ Within F t ∧ J t →
      0 < work a → step tmpl batchSize t a = some u →
      (Reaches (step tmpl batchSize) initial u ∧ Within F u ∧ J u) ∧
        workLeft F u < workLeft F t := by
    rintro t a u ⟨ht, hw, hj⟩ hwork hu
    obtain ⟨hgrant, hstarted, -⟩ := grant_of_work hwork
    have hcall : ∀ k op, a = .call k op → k ∈ F := by
      rintro k op rfl
      cases hstarted
    obtain ⟨hin, hle⟩ := workLeft_step (reached_seated ht) hw hcall hu
    exact ⟨⟨.tail ht trivial hu, hin, hstep t a u hj hwork hu⟩, by omega⟩
  obtain ⟨as, t, has, hrun, ⟨ht, -, hj⟩, hrest⟩ := exists_rest hrank ⟨h, hwithin, hJ⟩
  exact ⟨as, t, has, hrun, ht, hj, hrest⟩

/-- When the coordinator has ended, all accepted samples have been decrypted. -/
theorem decrypted_of_ended (hret : Returns tmpl) (h : Reaches (step tmpl batchSize) initial s)
    (hend : s.coord.ended = true) : Decrypted tmpl s := by
  obtain ⟨hco, hline⟩ := reached_inv hret h
  obtain ⟨-, hq, hhand⟩ := hco.dry tmpl hend
  have horder := hline.order
  simp only [lineOf, hq, hhand, List.append_nil, List.map_nil] at horder
  rw [Decrypted, ← decryptBatch, decryptBatch_eq hret, horder]

section Finish

/-- The call of finish by client k is under way, or the input is closed and the flag is stored or
about to be. -/
def Finishing (k : κ) (s : State κ) : Prop :=
  s.client k = .wantLock .finish ∨ s.client k = .locked .finish ∨
    s.txOpen = false ∧ (s.client k = .mustStore ∨ s.closed = true)

omit [DecidableEq κ] in
theorem Finishing.frame (h : Finishing k s) (hclient : t.client k = s.client k)
    (hopen : s.txOpen = false → t.txOpen = false) (hclosed : s.closed = true → t.closed = true) :
    Finishing k t := by
  unfold Finishing
  rw [hclient]
  exact h.imp_right (Or.imp_right (And.imp hopen (Or.imp_right hclosed)))

omit [DecidableEq κ] in
theorem Finishing.over {sample : Bytes} (h : Finishing k s)
    (hpc : s.client k = .locked (.submit sample) ∨ s.client k = .locked (.trySubmit sample)) :
    s.txOpen = false ∧ s.closed = true := by
  obtain hk | hk | ⟨hopen, hk | hclosed⟩ := h
  · rw [hk] at hpc
    obtain hpc | hpc := hpc <;> cases hpc
  · rw [hk] at hpc
    obtain hpc | hpc := hpc <;> cases hpc
  · rw [hk] at hpc
    obtain hpc | hpc := hpc <;> cases hpc
  · exact ⟨hopen, hclosed⟩

theorem Finishing.client {j : κ} (h : Finishing k s) (hm : ClientMove batch s j t) :
    Finishing k t := by
  obtain rfl | hne := eq_or_ne k j
  · cases hm with
    | lock op hpc hfree =>
      obtain hk | hk | ⟨hopen, hk | hclosed⟩ := h
      · cases hpc.symm.trans hk
        exact .inr (.inl (Function.update_self ..))
      · cases hpc.symm.trans hk
      · cases hpc.symm.trans hk
      · exact .inr (.inr ⟨hopen, .inr hclosed⟩)
    | accept sample hpc hopen hlive hroom =>
      exact .inr (.inr ⟨(h.over hpc).1, .inr (h.over hpc).2⟩)
    | refuse sample hpc hwhy => exact .inr (.inr ⟨(h.over hpc).1, .inr (h.over hpc).2⟩)
    | finish hpc => exact .inr (.inr ⟨rfl, .inl (Function.update_self ..)⟩)
    | store hpc =>
      obtain hk | hk | ⟨hopen, -⟩ := h
      · cases hpc.symm.trans hk
      · cases hpc.symm.trans hk
      · exact .inr (.inr ⟨hopen, .inr rfl⟩)
  · cases hm with
    | finish hpc => exact h.frame (Function.update_of_ne hne ..) (fun _ => rfl) id
    | store hpc => exact h.frame (Function.update_of_ne hne ..) id fun _ => rfl
    | _ => exact h.frame (Function.update_of_ne hne ..) id id

/-- A finish completes, with all accepted samples decrypted. -/
theorem finish_completes (hret : Returns tmpl) (h : Reaches (step tmpl batchSize) initial s)
    (hk : s.client k = .wantLock .finish) :
    ∃ as t, (∀ a ∈ as, 0 < work a) ∧ run (step tmpl batchSize) s as = some t ∧
      t.client k = .idle ∧ t.txOpen = false ∧ t.closed = true ∧ Decrypted tmpl t := by
  obtain ⟨as, t, has, hrun, ht, hfin, hst⟩ := settle h (J := Finishing k) (.inl hk)
    (fun _ _ _ hfin hm => hfin.client hm) fun _ _ hfin hm => by cases hm <;> exact hfin
  have hidle : t.client k = .idle := hst.idle (reached_seated ht)
  obtain hk | hk | ⟨hopen, hk | hclosed⟩ := hfin
  · cases hidle.symm.trans hk
  · cases hidle.symm.trans hk
  · cases hidle.symm.trans hk
  · exact ⟨as, t, has, hrun, hidle, hopen, hclosed, decrypted_of_ended hret ht (hst.ended hopen)⟩

end Finish

section Drop

theorem accepted_client (hm : ClientMove batch s k t) :
    s.accepted <+: t.accepted ∧ t.dropper = s.dropper := by
  cases hm with
  | accept sample hpc hopen hlive hroom => exact ⟨List.prefix_append _ _, rfl⟩
  | _ => exact ⟨List.prefix_rfl, rfl⟩

/-- Left to itself, the stream keeps what it has accepted. -/
theorem settle_kept (h : Reaches (step tmpl batchSize) initial s) :
    ∃ as t, (∀ a ∈ as, 0 < work a) ∧ run (step tmpl batchSize) s as = some t ∧
      Reaches (step tmpl batchSize) initial t ∧
      (s.accepted <+: t.accepted ∧ t.dropper = s.dropper) ∧ Stalled tmpl batchSize t := by
  refine settle h ⟨List.prefix_rfl, rfl⟩ ?_ ?_
  · rintro t k u ⟨hacc, hd⟩ hm
    obtain ⟨hmore, hsame⟩ := accepted_client hm
    exact ⟨hacc.trans hmore, hsame.trans hd⟩
  · rintro t u ⟨hacc, hd⟩ hm
    cases hm <;> exact ⟨hacc, hd⟩

/-- The steps of drop and those it waits for. -/
def dropping : Action κ → Bool
  | .drop => true
  | a => decide (0 < work a)

omit [DecidableEq κ] in
theorem dropping_of_work {a : Action κ} (h : 0 < work a) : dropping a = true := by
  cases a <;> first | rfl | exact decide_eq_true h

/-- A drop that has closed the input completes. -/
theorem join_completes (hret : Returns tmpl) (h : Reaches (step tmpl batchSize) initial s)
    (hd : s.dropper ≠ .idle) : ∃ as t, (∀ a ∈ as, dropping a = true) ∧
      run (step tmpl batchSize) s as = some t ∧ t.dropper = .joined ∧
      s.accepted <+: t.accepted ∧ Decrypted tmpl t := by
  obtain ⟨as, t, has, hrun, ht, ⟨hacc, hsame⟩, hst⟩ := settle_kept h
  have hclosed := (reached_seated ht).dropped (hsame ▸ hd)
  have hend := hst.ended hclosed
  have hdec := decrypted_of_ended hret ht hend
  have hdropping : ∀ a ∈ as, dropping a = true := fun a ha => dropping_of_work (has a ha)
  cases hdrop : t.dropper with
  | idle => exact absurd (hsame.symm.trans hdrop) hd
  | closed =>
    have hjoin : run (step tmpl batchSize) t [.drop] = some { t with dropper := .joined } := by
      simp [run, step, dropStep, hdrop, hend]
    refine ⟨as ++ [.drop], { t with dropper := .joined }, ?_, (run_append hrun).trans hjoin, rfl,
      hacc, hdec⟩
    simp only [List.mem_append, List.mem_singleton]
    rintro a (ha | rfl)
    · exact hdropping a ha
    · rfl
  | joined => exact ⟨as, t, hdropping, hrun, hdrop, hacc, hdec⟩

/-- From every state reached, drop completes, with all accepted samples decrypted. -/
theorem drop_completes (hret : Returns tmpl) (h : Reaches (step tmpl batchSize) initial s) :
    ∃ as t, (∀ a ∈ as, dropping a = true) ∧ run (step tmpl batchSize) s as = some t ∧
      t.dropper = .joined ∧ s.accepted <+: t.accepted ∧ Decrypted tmpl t := by
  by_cases hd : s.dropper = .idle
  · obtain ⟨as, t, has, hrun, ht, ⟨hacc, hsame⟩, hst⟩ := settle_kept h
    have hborrows : t.borrows = 0 :=
      (reached_seated ht).inside.zero fun k => hst.idle (reached_seated ht)
    have hdrop : step tmpl batchSize t .drop =
        some { t with txOpen := false, dropper := .closed } := by
      simp [step, dropStep, hsame.trans hd, hborrows]
    obtain ⟨bs, u, hbs, hrun', hjoined, hacc', hdec⟩ :=
      join_completes hret (.tail ht trivial hdrop) fun hd => by cases hd
    have hall : run (step tmpl batchSize) s (as ++ .drop :: bs) = some u :=
      (run_append hrun).trans (run_cons_eq_some.mpr ⟨_, hdrop, hrun'⟩)
    refine ⟨as ++ .drop :: bs, u, ?_, hall, hjoined, hacc.trans hacc', hdec⟩
    simp only [List.mem_append, List.mem_cons]
    rintro a (ha | rfl | ha)
    · exact dropping_of_work (has a ha)
    · rfl
    · exact hbs a ha
  · exact join_completes hret h hd

end Drop

section Submit

/-- What the coordinator leaves alone. -/
structure Outside (s t : State κ) : Prop where
  txLock : t.txLock = s.txLock
  txOpen : t.txOpen = s.txOpen
  client : t.client = s.client
  dropper : t.dropper = s.dropper
  accepted : t.accepted = s.accepted

omit [DecidableEq κ] in
theorem Outside.coord {u : State κ} (h : Outside s t) (hm : CoordMove tmpl batch t u) :
    Outside s u := by
  cases hm <;> exact ⟨h.txLock, h.txOpen, h.client, h.dropper, h.accepted⟩

theorem live_of_open (hret : Returns tmpl) (h : Reaches (step tmpl batchSize) initial s)
    (hopen : s.txOpen = true) : s.coord.ended = false := by
  by_contra hend
  have hdry := (reached_inv hret h).1.dry tmpl (Bool.not_eq_false _ ▸ hend)
  cases hopen.symm.trans hdry.1

/-- The coordinator alone empties the input channel. -/
theorem coord_drains (hret : Returns tmpl) (h : Reaches (step tmpl batchSize) initial s)
    (hopen : s.txOpen = true) :
    ∃ as t, (∀ a ∈ as, a = .coord false) ∧ run (step tmpl batchSize) s as = some t ∧
      Reaches (step tmpl batchSize) initial t ∧ Outside s t ∧ t.queue = [] := by
  have hrank : ∀ t a u, Reaches (step tmpl batchSize) initial t ∧ Outside s t → a = .coord false →
      step tmpl batchSize t a = some u →
      (Reaches (step tmpl batchSize) initial u ∧ Outside s u) ∧ turns u < turns t := by
    rintro t a u ⟨ht, hout⟩ rfl hu
    exact ⟨⟨.tail ht trivial hu, hout.coord (coordStep_move hu)⟩,
      turns_coord_lt (reached_seated ht) hu⟩
  obtain ⟨as, t, has, hrun, ⟨ht, hout⟩, hrest⟩ :=
    exists_rest hrank ⟨h, ⟨rfl, rfl, rfl, rfl, rfl⟩⟩
  refine ⟨as, t, has, hrun, ht, hout, ?_⟩
  by_contra hq
  have hlive := live_of_open hret ht (hout.txOpen.trans hopen)
  have hsome : (step tmpl batchSize t (.coord false)).isSome = true :=
    coordStep_isSome hlive (.inl hq) false
  rw [hrest _ rfl] at hsome
  cases hsome

/-- The input is open and nobody is about to close it. -/
structure Accepting (s : State κ) : Prop where
  isOpen : s.txOpen = true
  undropped : s.dropper = .idle
  noFinish : ∀ k, s.client k ≠ .wantLock .finish ∧ s.client k ≠ .locked .finish

/-- Nobody is inside either. -/
structure Ready (s : State κ) : Prop where
  isOpen : s.txOpen = true
  undropped : s.dropper = .idle
  idle : ∀ k, s.client k = .idle

theorem noFinish_update {pc : ClientPc}
    (h : ∀ j, s.client j ≠ .wantLock .finish ∧ s.client j ≠ .locked .finish)
    (hpc : pc ≠ .wantLock .finish ∧ pc ≠ .locked .finish) (j : κ) :
    Function.update s.client k pc j ≠ .wantLock .finish ∧
      Function.update s.client k pc j ≠ .locked .finish := by
  obtain rfl | hne := eq_or_ne j k
  · rwa [Function.update_self]
  · rw [Function.update_of_ne hne]
    exact h j

theorem Accepting.client (h : Accepting s) (hm : ClientMove batch s k t) : Accepting t := by
  cases hm with
  | lock op hpc hfree =>
    refine ⟨h.isOpen, h.undropped, noFinish_update h.noFinish ⟨nofun, ?_⟩⟩
    rintro ⟨⟩
    exact (h.noFinish k).1 hpc
  | finish hpc => exact absurd hpc (h.noFinish k).2
  | _ => exact ⟨h.isOpen, h.undropped, noFinish_update h.noFinish ⟨nofun, nofun⟩⟩

/-- The calls inside return and leave the input open. -/
theorem ready_of_accepting (h : Reaches (step tmpl batchSize) initial s) (hacc : Accepting s) :
    ∃ as t, (∀ a ∈ as, 0 < work a) ∧ run (step tmpl batchSize) s as = some t ∧
      Reaches (step tmpl batchSize) initial t ∧ Ready t ∧ s.accepted <+: t.accepted := by
  have hclient : ∀ (t : State κ) k u, Accepting t ∧ s.accepted <+: t.accepted →
      ClientMove (batchOf batchSize) t k u → Accepting u ∧ s.accepted <+: u.accepted := by
    rintro t k u ⟨ht, hpre⟩ hm
    exact ⟨ht.client hm, hpre.trans (accepted_client hm).1⟩
  have hcoord : ∀ t u : State κ, Accepting t ∧ s.accepted <+: t.accepted →
      CoordMove tmpl (batchOf batchSize) t u → Accepting u ∧ s.accepted <+: u.accepted := by
    rintro t u ⟨ht, hpre⟩ hm
    cases hm <;> exact ⟨⟨ht.isOpen, ht.undropped, ht.noFinish⟩, hpre⟩
  obtain ⟨as, t, has, hrun, ht, ⟨ha, hpre⟩, hst⟩ :=
    settle h ⟨hacc, List.prefix_rfl⟩ hclient hcoord
  exact ⟨as, t, has, hrun, ht,
    ⟨ha.isOpen, ha.undropped, fun k => hst.idle (reached_seated ht)⟩, hpre⟩

/-- The run submits these samples from client k and does not read. -/
def Submits (k : κ) (samples : List Bytes) (as : List (Action κ)) : Prop :=
  (∀ a ∈ as, reads a = false) ∧ as.filterMap started = samples.map fun x => (k, .submit x)

omit [DecidableEq κ] in
theorem Submits.append {xs ys : List Bytes} {as bs : List (Action κ)} (h : Submits k xs as)
    (h' : Submits k ys bs) : Submits k (xs ++ ys) (as ++ bs) :=
  ⟨List.forall_mem_append.mpr ⟨h.1, h'.1⟩,
    by rw [List.filterMap_append, h.2, h'.2, List.map_append]⟩

omit [DecidableEq κ] in
theorem submits_nil {as : List (Action κ)} (h : ∀ a ∈ as, 0 < work a) : Submits k [] as :=
  ⟨fun a ha => (grant_of_work (h a ha)).2.2,
    List.filterMap_eq_nil_iff.mpr fun a ha => (grant_of_work (h a ha)).2.1⟩

/-- With nobody inside, one more sample is accepted. -/
theorem submit_one (hret : Returns tmpl) (h : Reaches (step tmpl batchSize) initial s)
    (hready : Ready s) (k : κ) (sample : Bytes) :
    ∃ as t, Submits k [sample] as ∧ run (step tmpl batchSize) s as = some t ∧
      Ready t ∧ t.accepted = s.accepted ++ [sample] := by
  have hlock : s.txLock = none := by
    cases hl : s.txLock with
    | none => rfl
    | some j =>
      obtain ⟨op, hop⟩ := (reached_seated h).holder j hl
      cases (hready.idle j).symm.trans hop
  let u : State κ :=
    { s with txLock := some k, borrows := s.borrows + 1 }.setClient k (.locked (.submit sample))
  have hcall : run (step tmpl batchSize) s [.call k (.submit sample), .client k] = some u := by
    simp [run, step, clientStep, hready.undropped, hready.idle, hlock, State.setClient, u]
  have hu : Reaches (step tmpl batchSize) initial u := h.trans (reaches_of_run hcall)
  obtain ⟨as, t, has, hrun, ht, hout, hq⟩ := coord_drains hret hu hready.isOpen
  have hopen : t.txOpen = true := hout.txOpen.trans hready.isOpen
  have hpc : t.client k = .locked (.submit sample) := by
    rw [hout.client]
    exact Function.update_self ..
  have haccept : step tmpl batchSize t (.client k) = some ((t.accept sample).release k) := by
    have hroom : 0 < batchOf batchSize * 2 := Nat.mul_pos (batchOf_pos batchSize) (by decide)
    simp [step, clientStep, hpc, hopen, live_of_open hret ht hopen, hq, hroom]
  have hwork : ∀ a ∈ as ++ [.client k], 0 < work a := by
    simp only [List.mem_append, List.mem_singleton]
    rintro a (ha | rfl)
    · rw [has a ha]
      exact Nat.zero_lt_one
    · exact Nat.zero_lt_one
  have hstart : Submits k [sample] [.call k (.submit sample), .client k] := ⟨by simp [reads], rfl⟩
  have hall : Submits k [sample] ([.call k (.submit sample), .client k] ++ (as ++ [.client k])) :=
    hstart.append (submits_nil hwork)
  have hundropped : t.dropper = .idle := hout.dropper.trans hready.undropped
  refine ⟨_, (t.accept sample).release k, hall, ?_, ⟨hopen, hundropped, fun j => ?_⟩,
    congrArg (· ++ [sample]) hout.accepted⟩
  · rw [run_append hcall, run_append hrun]
    exact run_cons_eq_some.mpr ⟨_, haccept, rfl⟩
  · change Function.update t.client k .idle j = .idle
    rw [hout.client]
    obtain rfl | hne := eq_or_ne j k
    · exact Function.update_self ..
    · rw [Function.update_of_ne hne]
      exact (Function.update_of_ne hne ..).trans (hready.idle j)

theorem submit_ready (hret : Returns tmpl) (h : Reaches (step tmpl batchSize) initial s)
    (hready : Ready s) (k : κ) (samples : List Bytes) :
    ∃ as t, Submits k samples as ∧ run (step tmpl batchSize) s as = some t ∧
      Ready t ∧ t.accepted = s.accepted ++ samples := by
  induction samples generalizing s with
  | nil => exact ⟨[], s, submits_nil (by simp), rfl, hready, (List.append_nil _).symm⟩
  | cons sample samples ih =>
    obtain ⟨as, t, has, hrun, ht, hacc⟩ := submit_one hret h hready k sample
    obtain ⟨bs, u, hbs, hrun', hu, hacc'⟩ := ih (h.trans (reaches_of_run hrun)) ht
    refine ⟨as ++ bs, u, has.append hbs, (run_append hrun).trans hrun', hu, ?_⟩
    rw [hacc', hacc, List.append_assoc, List.singleton_append]

/-- While nobody closes the input, any number of samples is accepted before the first read. -/
theorem submit_completes (hret : Returns tmpl) (h : Reaches (step tmpl batchSize) initial s)
    (hacc : Accepting s) (k : κ) (samples : List Bytes) :
    ∃ as t before, Submits k samples as ∧ run (step tmpl batchSize) s as = some t ∧
      Ready t ∧ t.accepted = s.accepted ++ before ++ samples := by
  obtain ⟨as, t, has, hrun, ht, hready, before, hbefore⟩ := ready_of_accepting h hacc
  obtain ⟨bs, u, hbs, hrun', hu, hacc'⟩ := submit_ready hret ht hready k samples
  exact ⟨as ++ bs, u, before, (submits_nil has).append hbs, (run_append hrun).trans hrun', hu,
    hbefore ▸ hacc'⟩

end Submit

/-- The stream cannot deadlock, as long as batch decryptions return. In every state reached,
whatever waits leaves the coordinator with a step; a run does no more than a bounded amount of
work beyond what its calls and time-outs add; where no work is left nothing waits, every call
has returned and a closed stream has been decrypted to its end. So any number of samples can
be submitted before the first read, and finish and drop complete. -/
theorem stream_completes (tmpl : Template) (batchSize : Nat) (s : State κ) (hret : Returns tmpl)
    (h : Reaches (step tmpl batchSize) initial s) :
    (∀ a, Waiting tmpl batchSize s a → CoordRuns tmpl batchSize s) ∧
    (∃ n, ∀ as t, run (step tmpl batchSize) s as = some t →
      (as.map work).sum ≤ n + (as.map grant).sum) ∧
    (Stalled tmpl batchSize s → (∀ a, ¬ Waiting tmpl batchSize s a) ∧
      (∀ k, s.client k = .idle) ∧ (s.txOpen = false → s.coord.ended = true ∧ Decrypted tmpl s)) ∧
    (Accepting s → ∀ k samples, ∃ as t before, Submits k samples as ∧
      run (step tmpl batchSize) s as = some t ∧ Ready t ∧
      t.accepted = s.accepted ++ before ++ samples) ∧
    (∀ k, s.client k = .wantLock .finish → ∃ as t, (∀ a ∈ as, 0 < work a) ∧
      run (step tmpl batchSize) s as = some t ∧ t.client k = .idle ∧ t.txOpen = false ∧
      t.closed = true ∧ Decrypted tmpl t) ∧
    ∃ as t, (∀ a ∈ as, dropping a = true) ∧ run (step tmpl batchSize) s as = some t ∧
      t.dropper = .joined ∧ s.accepted <+: t.accepted ∧ Decrypted tmpl t := by
  have hseated := reached_seated h
  have hwaits : ∀ a, Waiting tmpl batchSize s a → CoordRuns tmpl batchSize s :=
    fun a hw => hw.runs hseated
  refine ⟨hwaits, work_bounded hseated, fun hst => ?_, fun hacc => submit_completes hret h hacc,
    fun k => finish_completes hret h, drop_completes hret h⟩
  refine ⟨fun a hw => hst.not_runs (hwaits a hw), fun k => hst.idle hseated, fun hclosed => ?_⟩
  have hend := hst.ended hclosed
  exact ⟨hend, decrypted_of_ended hret h hend⟩

theorem stream_completes_full : ∃ s : State Unit, s.queue = [[7], [8]] ∧
    step eightTemplate 1 s (.client ()) = none ∧ CoordRuns eightTemplate 1 s ∧
    ∃ as t, run (step eightTemplate 1) s as = some t ∧ t.dropper = .joined ∧
      [[7], [8]] <+: t.accepted := by
  obtain ⟨s, hrun, hq, hacc, hpc, hblocked⟩ : ∃ s, run (step eightTemplate 1) (initial : State Unit)
      [.call () (.submit [7]), .client (), .client (), .call () (.submit [8]), .client (),
        .client (), .call () (.submit [9]), .client ()] = some s ∧ s.queue = [[7], [8]] ∧
      s.accepted = [[7], [8]] ∧ s.client () = .locked (.submit [9]) ∧
      step eightTemplate 1 s (.client ()) = none := ⟨_, rfl, rfl, rfl, rfl, rfl⟩
  obtain ⟨hruns, -, -, -, -, as, t, -, hdrop, hjoined, hpre, -⟩ :=
    stream_completes eightTemplate 1 s (returns_of_ctx List.length_replicate.ge)
      (reaches_of_run hrun)
  exact ⟨s, hq, hblocked, hruns _ (.submit () [9] hpc hblocked), as, t, hdrop, hjoined, hacc ▸ hpre⟩

end Temari.StreamCompletion
