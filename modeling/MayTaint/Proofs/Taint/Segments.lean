import MayTaint.Proofs.Taint.Linear

/-!
Replaying a segment of a block: the instructions from one index up to another, where the terminator
counts as the last one. A segment can be replayed in one go or with a stop on the way. The may-taint
analysis carries the members of a set through the instructions of the segment, so that its replay
distributes over joins, makes nothing out of nothing, and leaves alone every local that no rule of
the segment has as its target. It returns exactly if the machine can carry out the instructions.
-/

namespace MayTaint

def Block.segment (b : Block) (start stop : Nat) : List Instruction :=
  (b.instructions.drop start).take (stop - start)

/-- A local that is not the target of a rule is tainted afterwards exactly if it was before. -/
theorem Instruction.mem_foldl_carry_of_not_target {is : List Instruction} {d : Datum}
    {T : Set Datum} (h : ∀ i ∈ is, ∀ sources, i.flow? ≠ some (d, sources)) :
    d ∈ is.foldl carry T ↔ d ∈ T := by
  induction is generalizing T with
  | nil => exact Iff.rfl
  | cons i is ih =>
    obtain ⟨hi, his⟩ := List.forall_mem_cons.1 h
    rw [List.foldl_cons, ih his]
    cases hflow : i.flow? with
    | none => rw [carry_of_none hflow]
    | some f =>
      obtain ⟨target, sources⟩ := f
      have hd : d ≠ target := fun hd => hi sources (hd ▸ hflow)
      rw [carry_of_flow hflow]
      simp [hd]

namespace Analysis

variable [Machine] {σ : Type} {a : Analysis σ} {body : Body} {bb : BlockId} {b : Block}

theorem replay_some (hb : body.block bb = .ok b) (start stop : Nat) :
    a.replay body bb start (some stop) = a.replayFrom body bb (stop - start) start := by
  rw [replay_of_block hb, Option.getD_some, Int.toNat_sub]

theorem replay_append (hb : body.block bb = .ok b) {start mid stop : Nat} (hstart : start ≤ mid)
    (hmid : mid ≤ stop) :
    (a.replay body bb start (some mid) >>= fun _ => a.replay body bb mid (some stop)) =
      a.replay body bb start (some stop) := by
  have hcount : stop - start = (mid - start) + (stop - mid) := by omega
  have hindex : (start : Int) + ((mid - start : Nat) : Int) = mid := by omega
  rw [replay_some hb, replay_some hb, replay_some hb, hcount, replayFrom_add, hindex]

end Analysis

namespace Taint

variable [Machine] {η : Type} {t : Taint η} {body : Body} {bb : BlockId} {b : Block} {n : Int}
  {S T : LocalSet} {s s' : Session (Memory η)}

section

variable {start stop : Nat} (hb : body.block bb = .ok b)
  (hwf : ∀ i ∈ b.instructions, i.isWellFormed n = true) (hstart : start ≤ stop)
  (hstop : stop ≤ b.instructions.length)

include hb hwf hstart hstop

theorem members_of_segment
    (h : t.analysis.replay body bb start (some stop) (S, s) = .ok () (T, s')) :
    T.members = (b.segment start stop).foldl Instruction.carry S.members := by
  rw [Analysis.replay_some hb] at h
  exact members_of_replayFrom hb hwf (by omega) h

theorem exists_segment_iff (hstrict : t.settings.isStrict = false) (hsize : S.size = n) :
    (∃ T s', t.analysis.replay body bb start (some stop) (S, s) = .ok () (T, s')) ↔
      ∀ i ∈ b.segment start stop, i.Feasible := by
  rw [Analysis.replay_some hb]
  constructor
  · rintro ⟨T, s', h⟩
    exact feasible_of_replayFrom hb (fun i hi => i.isTyped_of_isWellFormed (hwf i hi))
      (by omega) h
  · intro hfeasible
    obtain ⟨T, hT⟩ := exists_replayFrom s hstrict hb hwf hfeasible (by omega) hsize
    exact ⟨T, hT s⟩

theorem exists_turns_segment (s : Session (Memory η)) (hstrict : t.settings.isStrict = false)
    (hfeasible : ∀ i ∈ b.segment start stop, i.Feasible) (hsize : S.size = n) :
    ∃ T, Turns (t.analysis.replay body bb start (some stop)) S T ∧ T.size = S.size ∧
      T.members = (b.segment start stop).foldl Instruction.carry S.members := by
  obtain ⟨T, hT⟩ := exists_replayFrom s hstrict hb hwf hfeasible (by omega) hsize
  rw [← Analysis.replay_some hb] at hT
  obtain ⟨s', hs'⟩ := hT s
  exact ⟨T, hT, Analysis.size_replay hs', members_of_segment hb hwf hstart hstop hs'⟩

end

/-- Replaying a segment of a block of well-formed instructions without strictness. With a stop on
the way it is the same computation. It returns exactly if the instructions of the segment are
feasible; then it turns a join into the join and nothing into nothing, and a local that is the
target of no rule in the segment is a member afterwards exactly if it was before. -/
theorem replay_homomorphism (s : Session (Memory η)) (hstrict : t.settings.isStrict = false)
    (hb : body.block bb = .ok b)
    (hwf : b.instructions.all (·.isWellFormed body.localCount) = true) {start mid stop : Nat}
    (hstart : start ≤ mid) (hmid : mid ≤ stop) (hstop : stop ≤ b.statements.length + 1)
    {A B : LocalSet} (hA : A.size = body.localCount) (hB : B.size = body.localCount) :
    (t.analysis.replay body bb start (some mid) >>= fun _ =>
        t.analysis.replay body bb mid (some stop)) = t.analysis.replay body bb start (some stop) ∧
    ((∃ A' s', t.analysis.replay body bb start (some stop) (A, s) = .ok () (A', s')) ↔
      ∀ i ∈ b.segment start stop, i.Feasible) ∧
    ((∀ i ∈ b.segment start stop, i.Feasible) → ∃ A' B' C C',
      Turns (t.analysis.replay body bb start (some stop)) A A' ∧
      Turns (t.analysis.replay body bb start (some stop)) B B' ∧
      Turns (t.analysis.replay body bb start (some stop)) C C' ∧
      A.join B = .ok C ∧ A'.join B' = .ok C' ∧
      Turns (t.analysis.replay body bb start (some stop)) (.empty A.size) (.empty A.size) ∧
      ∀ i : Nat, (∀ x ∈ b.segment start stop, ∀ sources, x.flow? ≠ some (.int i, sources)) →
        A'.has i = A.has i) := by
  replace hwf := List.all_eq_true.1 hwf
  have hrange : start ≤ stop := hstart.trans hmid
  rw [← b.length_instructions] at hstop
  refine ⟨Analysis.replay_append hb hstart hmid,
    exists_segment_iff hb hwf hrange hstop hstrict hA, fun hfeasible => ?_⟩
  have hturns : ∀ {S : LocalSet}, S.size = body.localCount →
      ∃ T, Turns (t.analysis.replay body bb start (some stop)) S T ∧ T.size = S.size ∧
        T.members = (b.segment start stop).foldl Instruction.carry S.members :=
    exists_turns_segment hb hwf hrange hstop s hstrict hfeasible
  have hBA : B.size = A.size := by omega
  obtain ⟨C, hC⟩ : ∃ C, A.join B = .ok C := LocalSet.exists_combine _ hBA
  have hCA : C.size = A.size := (LocalSet.size_join hC).1
  obtain ⟨A', hA', hA'size, hA'members⟩ := hturns hA
  obtain ⟨B', hB', hB'size, hB'members⟩ := hturns hB
  obtain ⟨C', hC', hC'size, hC'members⟩ := hturns (S := C) (by omega)
  obtain ⟨Z, hZ, hZsize, hZmembers⟩ := hturns (S := .empty A.size) hA
  refine ⟨A', B', C, C', hA', hB', hC', hC, ?_, ?_, fun i hi => ?_⟩
  · apply LocalSet.join_of_members (by omega) (by omega)
    rw [hC'members, hA'members, hB'members, LocalSet.members_join hC,
      Instruction.foldl_carry_union]
  · rw [LocalSet.members_empty, Instruction.foldl_carry_empty] at hZmembers
    have hempty : Z = .empty A.size := hZsize ▸ LocalSet.eq_empty_of_members hZmembers
    exact hempty ▸ hZ
  · rw [Bool.eq_iff_iff, ← LocalSet.int_mem_members, ← LocalSet.int_mem_members, hA'members]
    exact Instruction.mem_foldl_carry_of_not_target hi

end Taint

namespace Taint

attribute [local instance] Machine.ample in
/-- Local 1 taints local 2, which reads itself too, and is cleaned afterwards; nothing happens to
local 0. -/
theorem replay_homomorphism_relay :
    ((⟨[], {}⟩ : Taint Unit).analysis.replay relay 1 0 (some 1) >>= fun _ =>
      (⟨[], {}⟩ : Taint Unit).analysis.replay relay 1 1 (some 3)) =
        (⟨[], {}⟩ : Taint Unit).analysis.replay relay 1 0 (some 3) ∧
    ∃ A' B' C C',
      Turns ((⟨[], {}⟩ : Taint Unit).analysis.replay relay 1 0 (some 3))
        ((LocalSet.empty 3).add ⟨1, by decide⟩) A' ∧
      Turns ((⟨[], {}⟩ : Taint Unit).analysis.replay relay 1 0 (some 3))
        ((LocalSet.empty 3).add ⟨2, by decide⟩) B' ∧
      Turns ((⟨[], {}⟩ : Taint Unit).analysis.replay relay 1 0 (some 3)) C C' ∧
      A'.join B' = .ok C' ∧ A'.has 0 = false := by
  have hb : relay.block 1 = .ok (relay.blocks.get ⟨1, by decide⟩) := rfl
  have hwf : (relay.blocks.get ⟨1, by decide⟩).instructions.all (·.isWellFormed 3) = true := by
    decide
  have hbody : relay.WellFormed := ⟨by cbv, by decide⟩
  have hsets : ∀ i < 3, Machine.sets i = true := by decide
  have hrun : relay.Feasible [] :=
    hbody.feasible (by simp) (fun i hi => hsets i (Int.ofNat_lt.1 hi)) rfl
  have hreach : relay.Reachable 1 :=
    ⟨[0], Body.Walk.entry.step ⟨_, _, _, rfl, rfl, List.mem_cons_self⟩⟩
  have hfeasible : ∀ i ∈ (relay.blocks.get ⟨1, by decide⟩).segment 0 3, i.Feasible := fun i hi =>
    hrun.instruction hreach hi
  obtain ⟨happend, _, hsets⟩ :=
    replay_homomorphism (t := ⟨[], {}⟩) ⟨⟨{}, ()⟩, []⟩ rfl hb hwf (Nat.zero_le 1)
      (show 1 ≤ 3 by decide) (by decide) (A := (LocalSet.empty 3).add ⟨1, by decide⟩)
      (B := (LocalSet.empty 3).add ⟨2, by decide⟩) rfl rfl
  obtain ⟨A', B', C, C', hA, hB, hC, _, hjoin, _, hframe⟩ := hsets hfeasible
  refine ⟨happend, A', B', C, C', hA, hB, hC, hjoin, ?_⟩
  refine (hframe 0 fun x hx sources hflow => ?_).trans rfl
  have htargets : (((relay.blocks.get ⟨1, by decide⟩).segment 0 3).filterMap
      Instruction.flow?).map Prod.fst = [.int 2, .int 1] := rfl
  have hzero := List.mem_map_of_mem (f := Prod.fst) (List.mem_filterMap.2 ⟨x, hx, hflow⟩)
  rw [htargets] at hzero
  simp at hzero

def outlying : Body :=
  ⟨2361183241434822606848,
    [⟨[], .ret⟩, ⟨[.assign (.int 1180591620717411303424) (.use (.constant (.int 0)))], .ret⟩],
    "<body>"⟩

/-- A block that changes a local which no machine addresses cannot be replayed, not even from the
empty set. -/
theorem replay_fails_outlying :
    outlying.WellFormed ∧ ∀ [Machine], ∃ f s',
      (⟨[], {}⟩ : Taint Unit).analysis.replay outlying 1 0 (some 2)
        (.empty 2361183241434822606848, ⟨⟨{}, ()⟩, []⟩) = .error f s' := by
  have hbody : outlying.WellFormed := ⟨by cbv, by decide⟩
  refine ⟨hbody, ?_⟩
  intro _
  have hb : outlying.block 1 = .ok (outlying.blocks.get ⟨1, by decide⟩) := rfl
  have hwf := hbody.instructions _ (List.get_mem outlying.blocks ⟨1, by decide⟩)
  have hiff := exists_segment_iff (t := ⟨[], {}⟩) (s := ⟨⟨{}, ()⟩, []⟩)
    (S := .empty 2361183241434822606848) hb (List.all_eq_true.1 hwf) (Nat.zero_le 2) (by decide)
    rfl rfl
  have hunset : Machine.sets 1180591620717411303424 = false :=
    Machine.sets_of_not_addresses (by decide)
  have hinfeasible :
      ¬∀ i ∈ (outlying.blocks.get ⟨1, by decide⟩).segment 0 2, i.Feasible := by
    intro h
    have hsets := (h _ List.mem_cons_self).sets 1180591620717411303424 [] rfl
    rw [hunset] at hsets
    cases hsets
  cases hrun : (⟨[], {}⟩ : Taint Unit).analysis.replay outlying 1 0 (some 2)
      (.empty 2361183241434822606848, ⟨⟨{}, ()⟩, []⟩) with
  | ok _ p => exact absurd (hiff.1 ⟨p.1, p.2, hrun⟩) hinfeasible
  | error f p => exact ⟨f, p, rfl⟩

end Taint

end MayTaint
