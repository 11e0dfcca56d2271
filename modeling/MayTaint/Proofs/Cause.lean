import MayTaint.Proofs.Bound
import MayTaint.Proofs.Failure

/-!
What stops a run of a stateless and monotone analysis whose effects may give up. The search itself
never does: all sets are over the domain of the least state, no exit state shrinks, and the limit
that is derived from the body is not reached. A run over a valid body fails only where an effect
fails that stands in a block that can be reached, and it fails with the fault of that effect.
-/

namespace MayTaint

namespace Fault

def nature? (f : Fault) : Option Report.Kind :=
  f.wording.getRight?.map (·.kind)

variable [Machine] {f : Fault}

def kind? (f : Fault) : Option Report.Kind :=
  f.report?.map (·.kind)

theorem kind?_of_writes (h : f.numerals.all Machine.writes = true) : f.kind? = f.nature? := by
  rw [kind?, report?, told_of_writes h, nature?]

theorem kind?_of_not_writes (h : f.numerals.all Machine.writes = false) : f.kind? = none := by
  rw [kind?, report?, told_of_not_writes h]
  rfl

end Fault

variable [Machine] {σ : Type}

namespace Analysis

/-- An effect of the analysis raises the fault, where it stands in a reachable block of the body and
on a set over `n` locals. -/
inductive RaisesAt (a : Analysis σ) (body : Body) (n : Nat) (f : Fault) : Prop
  | instruction {bb b} {j : Nat} {i} {S : LocalSet} {s : Session σ} {t}
    (reachable : body.Reachable bb) (block : body.block bb = .ok b)
    (at_index : b.instructions[j]? = some i) (size : S.size = n)
    (h : (a.instruction i ⟨bb, j⟩).run (S, s) = .error f t)
  | callReturn {bb succ b c} {S : LocalSet} {s : Session σ} {t}
    (reachable : body.Reachable bb) (block : body.block bb = .ok b)
    (call : ReturnsTo b succ c) (size : S.size = n)
    (h : (a.callReturn bb c ⟨bb, b.terminatorIndex⟩).run (S, s) = .error f t)

variable {a : Analysis σ} {body : Body} {bb succ : BlockId} {b : Block} {n count j : Nat}
  {S : LocalSet} {s s' : Session σ} {f : Fault}

theorem raisesAt_of_replayFrom (hbb : body.Reachable bb) (hb : body.block bb = .ok b)
    (hj : j + count ≤ b.instructions.length) (hsize : S.size = n)
    (h : Run.onto S (a.replayFrom body bb count j) s = .error f s') : a.RaisesAt body n f := by
  induction count generalizing j S s with
  | zero => cases h
  | succ count ih =>
    have hat : b.instructions[j]? = some b.instructions[j] := List.getElem?_eq_getElem (by omega)
    have hnext : (j : Int) + 1 = ((j + 1 : Nat) : Int) := by omega
    rw [replayFrom_succ (Body.instructionAt_eq hb hat), hnext, Run.onto_bind] at h
    rcases estate_bind_eq_error.1 h with hi | ⟨⟨⟨⟩, T⟩, s₁, hT, hrest⟩
    · exact .instruction hbb hb hat hsize (Run.onto_eq_error.1 hi).choose_spec
    · have hTsize : T.size = S.size := Effect.size_run (Run.onto_eq_ok.1 hT)
      exact ih (by omega) (hTsize.trans hsize) hrest

theorem raisesAt_of_replay (hbb : body.Reachable bb) (hb : body.block bb = .ok b)
    (hsize : S.size = n) (h : Run.onto S (a.replay body bb 0 none) s = .error f s') :
    a.RaisesAt body n f := by
  rw [replay_zero_none hb] at h
  exact raisesAt_of_replayFrom hbb hb (Nat.zero_add _).le hsize h

theorem raisesAt_of_edgeState (hbb : body.Reachable bb) (hb : body.block bb = .ok b)
    (hsize : S.size = n) (h : a.edgeState body bb succ S s = .error f s') :
    a.RaisesAt body n f := by
  by_cases hc : ∃ c, ReturnsTo b succ c
  · obtain ⟨c, hc⟩ := hc
    rw [edgeState_of_returnsTo hb hc] at h
    rcases estate_bind_eq_error.1 h with hr | ⟨_, _, _, hr⟩
    · exact .callReturn hbb hb hc hsize (Run.onto_eq_error.1 hr).choose_spec
    · cases hr
  · rw [edgeState_of_not_returnsTo hb (not_exists.1 hc)] at h
    cases h

end Analysis

namespace Solver

variable {v : Solver σ} {bb : BlockId} {preds : List BlockId} {exits : Table LocalSet}
  {base : LocalSet} {p : Progress} {s s' : Session σ} {f : Fault} {n : Nat}

/-- Sets over one domain can be joined, so that only an edge can stop the join of what flows in. -/
theorem edge_fails_of_joinFlows (hbase : base.size = n)
    (hsize : ∀ {pred exit}, exits.get? pred = some exit → exit.size = n)
    (h : v.joinFlows exits bb preds base s = .error f s') :
    ∃ pred exit s₁, exits.get? pred = some exit ∧
      v.analysis.edgeState v.body pred bb exit s₁ = .error f s' := by
  induction preds generalizing base s with
  | nil => cases h
  | cons pred preds ih =>
    cases hexit : exits.get? pred with
    | none =>
      rw [joinFlows_cons_none hexit] at h
      exact ih hbase h
    | some exit =>
      rw [joinFlows_cons_some hexit] at h
      rcases estate_bind_eq_error.1 h with hedge | ⟨flow, s₁, hflow, hrest⟩
      · exact ⟨pred, exit, s, hexit, hedge⟩
      rcases estate_bind_eq_error.1 hrest with hjoin | ⟨joined, s₂, hjoin, hrest⟩
      · exfalso
        have hflowsize : flow.size = base.size := by
          rw [Analysis.size_edgeState hflow, hsize hexit, hbase]
        obtain ⟨joined, hok⟩ : ∃ joined, base.join flow = .ok joined :=
          LocalSet.exists_combine _ hflowsize
        rw [hok] at hjoin
        cases hjoin
      · have hjoined := (LocalSet.size_join (Run.ofExcept_eq_ok.1 hjoin).1).1
        exact ih (hjoined.trans hbase) hrest

section

variable (hv : v.Ready) (ha : v.analysis.Stateless) (hm : v.analysis.Monotone)
  (hok : ∀ bb, ∃ base, v.base bb = .ok base ∧ base.size = n)

include hv ha hm hok

/-- A visit is stopped by an effect only. -/
theorem Stop.raisesAt (hp : v.Sound n p) (hbb : v.body.Reachable bb)
    (h : v.Stop bb p.exits s f s') : v.analysis.RaisesAt v.body n f := by
  have hblock := hv.valid.hasBlock_of_reachable hbb
  obtain ⟨b, hb⟩ := hv.valid.exists_block hblock
  obtain ⟨preds, hpreds, _⟩ := Body.exists_predecessorsIn hv.table hblock
  obtain ⟨base, hbase, hbasesize⟩ := hok bb
  have hentry : ∀ {entry s₁}, v.joinIncoming p.exits bb s = .ok entry s₁ → entry.size = n := by
    intro entry s₁ hjoin
    obtain ⟨base', hbase', hflows⟩ := (joinIncoming_eq_ok hpreds).1 hjoin
    cases hbase.symm.trans hbase'
    exact (size_joinFlows hflows).trans hbasesize
  cases h with
  | join hjoin =>
    rw [joinIncoming_eq hpreds, hbase] at hjoin
    obtain ⟨pred, exit, s₁, hexit, hedge⟩ :=
      edge_fails_of_joinFlows (s := s) hbasesize hp.charged.size hjoin
    have hpred : v.body.Reachable pred := hp.explored.reachable_of_visited (by rw [hexit]; rfl)
    obtain ⟨b', hb'⟩ := hv.valid.exists_block (hv.valid.hasBlock_of_reachable hpred)
    exact Analysis.raisesAt_of_edgeState hpred hb' (hp.charged.size hexit) hedge
  | replay hjoin hreplay => exact Analysis.raisesAt_of_replay hbb hb (hentry hjoin) hreplay
  | @check entry exit s₁ hjoin hreplay hcheck =>
    -- the exit state is over the domain of the one before and above it
    exfalso
    cases hold : p.exits.get? bb with
    | none =>
      rw [hold] at hcheck
      cases hcheck
    | some old =>
      have hgrows : old ≤ exit := hp.rising.le_exit hp.consistent ha hm hold hjoin hreplay
      have haccept : v.accept bb (some old) exit = .ok () := by
        refine accept_eq_ok.2 fun _ x hx => ?_
        cases hx
        exact hgrows
      rw [hold, haccept] at hcheck
      cases hcheck

/-- A run of visits that may go on for long enough is stopped by an effect only. -/
theorem raisesAt_of_iterate {limit : Datum} {allowed : Nat}
    (hallowed : (v.body.blockIds.map v.body.degree).sum * (n + 1) < allowed)
    (h : v.iterate limit allowed { waiting := [Body.entry] } s = .error f s') :
    v.analysis.RaisesAt v.body n f := by
  have hbase : ∀ bb base, v.base bb = .ok base → base.size = n := by
    intro bb base hb
    obtain ⟨base', hb', hsize⟩ := hok bb
    cases hb.symm.trans hb'
    exact hsize
  obtain ⟨bb, rest, p, s₁, hp, hw, hend⟩ := iterate_eq_error (fun p _ => v.Sound n p)
    (fun hs hp => hp.step hv ha hm hbase hs) h (sound_init v n)
  have hreach : v.body.Reachable bb := hp.explored.reachable_of_waiting (by simp [hw])
  rcases hend with hvisit | ⟨_, _, hcount⟩
  · have hblock := hv.valid.hasBlock_of_reachable hreach
    exact (stop_of_visit hv hblock hvisit).raisesAt hv ha hm hok hp hreach
  · exfalso
    have hvisits := hp.charged.iterations_le (by simp [hw])
    simp only [Nat.zero_add] at hcount
    omega

end

end Solver

namespace Analysis

variable {a : Analysis σ} {limits : Limits} {body : Body} {bottom : LocalSet} {s s' : Session σ}
  {f : Fault} {n : Nat}

/-- What a run over a valid body consists of: its start, the visits and the account of them. -/
theorem solve_eq {table : List (List BlockId)} (hvalid : body.validate = .ok ())
    (hbottom : a.bottom body = .ok bottom) (htable : body.predecessorTable = .ok table) :
    a.solve limits body = (do
      let ((), start) ← Run.onto bottom (a.start body).run
      let p ← (a.solver limits body start table).iterate
        (limits.bound body.size (body.blockIds.map body.degree).sum body.localCount)
        (limits.allowance body.size (body.blockIds.map body.degree).sum body.localCount)
        { waiting := [Body.entry] }
      Run.tell (.settled body.name a.name p.iterations p.exits.size body.size)
      let session ← get
      return {
        body, analysis := a, entries := p.entries, exits := p.exits, iterations := p.iterations
        unsupported := a.unsupported session.memory }) := by
  rw [solve, hvalid, hbottom, (Body.valid_of_validate hvalid).edgeCount, htable]
  rfl

/-- A stateless and monotone analysis fails on a valid body only where one of its effects does. -/
theorem raisesAt_of_solve (ha : a.Stateless) (hm : a.Monotone) (hvalid : body.validate = .ok ())
    (hn : body.localCount = n) (hbottom : a.bottom body = .ok bottom) (hsize : bottom.size = n)
    (hlimit : limits.maxIterations = .null) (h : a.solve limits body s = .error f s') :
    (∃ t, (a.start body).run (bottom, s) = .error f t) ∨ a.RaisesAt body n f := by
  have hv := Body.valid_of_validate hvalid
  obtain ⟨table, htable⟩ := hv.exists_predecessorTable
  rw [solve_eq hvalid hbottom htable] at h
  rcases estate_bind_eq_error.1 h with hstart | ⟨⟨⟨⟩, start⟩, s₁, hstart, h⟩
  · obtain ⟨T, hT⟩ := Run.onto_eq_error.1 hstart
    exact .inl ⟨(T, s'), hT⟩
  rcases estate_bind_eq_error.1 h with hiterate | ⟨p, s₂, _, h⟩
  · right
    refine Solver.raisesAt_of_iterate (v := a.solver limits body start table) ⟨hv, htable⟩ ha hm
      (fun bb => ⟨_, Solver.base_eq hbottom bb, ?_⟩) ?_ hiterate
    · exact size_base hbottom hsize (Run.onto_eq_ok.1 hstart) (Solver.base_eq hbottom bb)
    · rw [hn, allowance_of_null hlimit]
      show (body.blockIds.map body.degree).sum * (n + 1) < _
      omega
  · cases h

end Analysis

end MayTaint
