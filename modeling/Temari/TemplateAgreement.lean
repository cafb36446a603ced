import Temari.BlockLoop

/-! Two templates that agree on the table and on the slots the rounds read decrypt alike. -/
namespace Temari.TemplateAgreement
open RoundMachine Relational RoundRules RoundWindow Rounds BlockSim BlockLoop Round3Sim
variable {T T' : Template}

/-- The templates agree on all that decryption reads of them. -/
structure Agree (T T' : Template) : Prop extends SameKeys T T' where
  slots : ∀ k ∈ exposedSlots, T.stInit[k]? = T'.stInit[k]?

/-- In the same place chained pairs are the same. -/
theorem PtRel.eq {r : Runs} {p q : Vector (Word × UInt8) 16} (h : PtRel r p q) (hc : r.chained)
    (hpos : r.pos = r.pos') (hcounter : r.counter = r.counter') : p = q := by
  have hfst : p.toList.map Prod.fst = q.toList.map Prod.fst := by
    rw [h.fst, h.fst', hpos, hcounter]
  have hsnd : p.toList.map Prod.snd = q.toList.map Prod.snd := by
    rw [← List.forall₂_eq_eq_eq, List.forall₂_map_left_iff, List.forall₂_map_right_iff]
    exact h.snd.imp fun x y hxy => hxy hc
  rw [← Vector.toList_inj]
  exact List.ext_getElem? fun i => by
    have h1 := congrArg (fun l => l[i]?) hfst
    have h2 := congrArg (fun l => l[i]?) hsnd
    simp only [List.getElem?_map] at h1 h2
    cases hp : p.toList[i]? <;> cases hq : q.toList[i]? <;> simp_all [Prod.ext_iff]

theorem BlockRel.eq {r : Runs} {blk a b : Bytes} (h : BlockRel r blk blk a b) (hc : r.chained)
    (hpos : r.pos = r.pos') (hcounter : r.counter = r.counter') : a = b := by
  obtain ⟨p, q, hpq, ha, hb⟩ := h
  rw [PtRel.eq hpq hc hpos hcounter, hb, Option.some.injEq] at ha
  exact ha.symm

/-- Block by block the two runs write the same and stay side by side. -/
theorem blocksUpTo_agree (h : Agree T T') (ct out : Bytes) {n : Nat} (hn : n ≤ ct.length / 16)
    (ho : n * 16 ≤ out.length) :
    ∃ st st' o, blocksUpTo T ct out n = some (st, o) ∧ blocksUpTo T' ct out n = some (st', o) ∧
      o.length = out.length ∧ Entry T True n n st st' := by
  induction n with
  | zero => exact ⟨T.stInit, T'.stInit, out, rfl, rfl, rfl, Entry.start h.slots True⟩
  | succ n ih =>
    obtain ⟨st, st', o, hrun, hrun', hlen, hentry⟩ := ih (by omega) (by omega)
    obtain ⟨s', a, t', b, ha, hb, hrel, hnext⟩ := blockStep_sim h.toSameKeys (sameWindow_self hn)
      (by omega : n * 16 + 16 ≤ o.length) (by omega : n * 16 + 16 ≤ o.length) hentry
    have hab : a = b := BlockRel.eq hrel trivial rfl rfl
    have halen := (blockRel_length hrel (block_length (by omega)) (block_length (by omega))).1
    refine ⟨s', t', splice o (n * 16) a, ?_, ?_, ?_, hnext True⟩
    · rw [blocksUpTo_succ, hrun]
      exact ha
    · rw [blocksUpTo_succ, hrun', hab]
      exact hb
    · rw [splice_length (by omega), hlen]

theorem Agree.decrypt_agree (h : Agree T T') (sample : Bytes) :
    ∃ out, decrypt T sample = some out ∧ decrypt T' sample = some out := by
  obtain ⟨st, st', o, hrun, hrun', -, -⟩ := blocksUpTo_agree h (headOf sample)
    (List.replicate (sample.length / 16 * 16) 0)
    (Nat.le_of_eq (headOf_blocks sample).symm) (by simp)
  rw [BlockLoop.decrypt_eq, BlockLoop.decrypt_eq, hrun, hrun']
  exact ⟨_, rfl, rfl⟩

end Temari.TemplateAgreement
