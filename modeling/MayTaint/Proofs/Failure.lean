import MayTaint.Proofs.Contract

/-!
How a run fails. A visit of a reachable block of a valid body can be stopped at three places: while
the states that flow in are joined, while the block is replayed, and by the check that its exit
state has not shrunk. A run fails because a visit does, or because the limit is reached while a
block waits; in either case whatever every visit preserves holds up to there
(`Solver.iterate_eq_error`).

Two faults are verdicts of the search itself: that it went on for too long, and that a state shrank.
Apart from these, and from sets over different domains, a run over a valid body gives up only with
what the analysis raises.
-/

namespace MayTaint

variable {σ : Type}

namespace Solver

variable {v : Solver σ} {bb : BlockId} {rest : List BlockId} {p : Progress} {s s' : Session σ}
  {f : Fault} {old new : LocalSet}

theorem checkGrowth_eq_error (h : v.checkGrowth bb old new = .error f) :
    (∃ m n, f = .domainMismatch m n) ∨ (∃ lost, f = .shrank v.body.name bb lost) ∧ ¬old ≤ new := by
  rcases except_bind_eq_error.1 h with hsub | ⟨b, hsub, h⟩
  · left
    rcases except_bind_eq_error.1 hsub with hdiff | ⟨d, _, hd⟩
    · unfold LocalSet.difference LocalSet.combine at hdiff
      split at hdiff
      · cases hdiff
      · cases hdiff
        exact ⟨_, _, rfl⟩
    · cases hd
  · cases b with
    | true => cases h
    | false =>
      right
      have hnot : ¬old ≤ new := by
        rw [← LocalSet.isSubset_eq_true_iff, hsub]
        simp
      rcases except_bind_eq_error.1 h with hdiff | ⟨d, _, hd⟩
      · -- the test of inclusion has computed the difference already
        obtain ⟨d, hd, _⟩ := except_bind_eq_ok.1 hsub
        rw [hd] at hdiff
        cases hdiff
      · cases hd
        exact ⟨⟨_, rfl⟩, hnot⟩

theorem accept_eq_error {old : Option LocalSet} (h : v.accept bb old new = .error f) :
    (∃ m n, f = .domainMismatch m n) ∨
      (∃ lost, f = .shrank v.body.name bb lost) ∧ ∃ x, old = some x ∧ ¬x ≤ new := by
  cases old with
  | none => cases h
  | some x =>
    simp only [accept] at h
    split at h
    · rcases checkGrowth_eq_error h with hdomain | ⟨hshrank, hnot⟩
      · exact .inl hdomain
      · exact .inr ⟨hshrank, x, rfl, hnot⟩
    · cases h

variable [Machine]

inductive Stop (v : Solver σ) (bb : BlockId) (exits : Table LocalSet) (s : Session σ) (f : Fault)
    (s' : Session σ) : Prop
  | join (hjoin : v.joinIncoming exits bb s = .error f s')
  | replay {entry : LocalSet} {s₁ : Session σ} (hjoin : v.joinIncoming exits bb s = .ok entry s₁)
    (hreplay : Run.onto entry (v.analysis.replay v.body bb 0 none) s₁ = .error f s')
  | check {entry exit : LocalSet} {s₁ : Session σ}
    (hjoin : v.joinIncoming exits bb s = .ok entry s₁)
    (hreplay : v.analysis.replay v.body bb 0 none (entry, s₁) = .ok () (exit, s'))
    (hcheck : v.accept bb (exits.get? bb) exit = .error f)

theorem stop_of_visit (hv : v.Ready) (hbb : v.body.hasBlock bb = true)
    (h : v.visit bb p s = .error f s') : v.Stop bb p.exits s f s' := by
  rcases estate_bind_eq_error.1 h with hjoin | ⟨entry, s₁, hjoin, h₁⟩
  · exact .join hjoin
  rcases estate_bind_eq_error.1 h₁ with hreplay | ⟨⟨⟨⟩, exit⟩, s₂, hreplay, h₂⟩
  · exact .replay hjoin hreplay
  have hexit := Run.onto_eq_ok.1 hreplay
  rcases estate_bind_eq_error.1 h₂ with hcheck | ⟨⟨⟩, s₃, _, h₃⟩
  · obtain ⟨haccept, rfl⟩ := Run.ofExcept_eq_error.1 hcheck
    exact .check hjoin hexit haccept
  -- what is left is to queue the successors, and a valid body has them
  exfalso
  rcases estate_bind_eq_error.1 h₃ with htell | ⟨⟨⟩, s₄, _, h₄⟩
  · cases htell
  obtain ⟨hsettle, _⟩ := Run.ofExcept_eq_error.1 h₄
  obtain ⟨succs, hsuccs⟩ := hv.valid.exists_successors hbb
  unfold settle at hsettle
  split at hsettle
  · cases hsettle
  · rw [hsuccs] at hsettle
    cases hsettle

/-- What every visit preserves holds where a run fails: before the visit that is stopped, or when
the limit is reached. -/
theorem iterate_eq_error {limit : Datum} (I : Progress → Session σ → Prop)
    (hstep : ∀ {bb rest entry exit p s p' s'}, v.Step bb rest entry exit p s p' s' →
      I p s → I p' s')
    {allowed : Nat} (h : v.iterate limit allowed p s = .error f s') (hI : I p s) :
    ∃ bb rest p₁ s₁, I p₁ s₁ ∧ p₁.waiting = bb :: rest ∧
      (v.visit bb { p₁ with waiting := rest } s₁ = .error f s' ∨
        f = .diverged v.body.name limit ∧ s' = s₁ ∧ p₁.iterations = p.iterations + allowed) := by
  induction allowed generalizing p s with
  | zero =>
    cases hw : p.waiting with
    | nil =>
      rw [iterate_of_nil hw] at h
      cases h
    | cons bb rest =>
      rw [iterate_zero_of_cons hw] at h
      cases h
      exact ⟨bb, rest, p, s', hI, hw, .inr ⟨rfl, rfl, rfl⟩⟩
  | succ allowed ih =>
    cases hw : p.waiting with
    | nil =>
      rw [iterate_of_nil hw] at h
      cases h
    | cons bb rest =>
      rw [iterate_succ_of_cons hw] at h
      rcases estate_bind_eq_error.1 h with hvisit | ⟨p₁, s₁, hvisit, hrest⟩
      · exact ⟨bb, rest, p, s, hI, hw, .inl hvisit⟩
      · obtain ⟨entry, exit, hp₁⟩ := step_of_visit hw hvisit
        obtain ⟨bb', rest', p₂, s₂, hI₂, hw₂, hend⟩ := ih hrest (hstep hp₁ hI)
        have hcount := hp₁.iterations
        refine ⟨bb', rest', p₂, s₂, hI₂, hw₂, hend.imp_right fun ⟨hf, hs, hi⟩ => ⟨hf, hs, ?_⟩⟩
        omega

end Solver

variable [Machine]

/-! ### What effects raise -/

namespace Effect

variable {α β : Type} {P : Fault → Prop}

/-- The faults that the effect raises itself are of the given kind. What it asks of a set may still
be refused. -/
def RaisesOnly (P : Fault → Prop) : Effect σ α → Prop
  | done _ => True
  | raise f => P f
  | gen _ next => next.RaisesOnly P
  | kill _ next => next.RaisesOnly P
  | ask _ next => ∀ b, (next b).RaisesOnly P
  | read next => ∀ m, (next m).RaisesOnly P
  | write _ next => next.RaisesOnly P
  | report _ _ next => next.RaisesOnly P

omit [Machine] in
theorem RaisesOnly.bind {x : Effect σ α} {f : α → Effect σ β} (hx : x.RaisesOnly P)
    (hf : ∀ a, (f a).RaisesOnly P) : (x.bind f).RaisesOnly P := by
  induction x with
  | done a => exact hf a
  | raise => exact hx
  | gen d next ih => exact ih hx
  | kill d next ih => exact ih hx
  | ask d next ih => exact fun b => ih b (hx b)
  | read next ih => exact fun m => ih m (hx m)
  | write m next ih => exact ih hx
  | report body c next ih => exact ih hx

theorem place_eq_error_of_gen {S : LocalSet} {d : Datum} {f : Fault}
    (h : Accumulator.gen S d = .error f) : S.place d = .error f := by
  rcases except_bind_eq_error.1 h with hinsert | ⟨_, _, hr⟩
  · rcases except_bind_eq_error.1 hinsert with hplace | ⟨_, _, hr⟩
    · exact hplace
    · cases hr
  · cases hr

theorem place_eq_error_of_kill {S : LocalSet} {d : Datum} {f : Fault}
    (h : Accumulator.kill S d = .error f) : S.place d = .error f := by
  rcases except_bind_eq_error.1 h with hremove | ⟨_, _, hr⟩
  · rcases except_bind_eq_error.1 hremove with hplace | ⟨_, _, hr⟩
    · exact hplace
    · cases hr
  · cases hr

theorem place_eq_error_of_contains {S : LocalSet} {d : Datum} {f : Fault}
    (h : S.contains d = .error f) : S.place d = .error f := by
  rcases except_bind_eq_error.1 h with hindex | ⟨_, _, hr⟩
  · exact except_bind_eq_error.2 (.inl hindex)
  · cases hr

/-- An effect fails with what it raises itself, or because what it asks about is no place in the
set. -/
theorem RaisesOnly.of_run {x : Effect σ α} (hx : x.RaisesOnly P)
    (hplace : ∀ (S : LocalSet) d f, S.place d = .error f → P f) {S : LocalSet} {s : Session σ}
    {f : Fault} {t} (h : x.run (S, s) = .error f t) : P f := by
  induction x generalizing S s with
  | done => cases h
  | raise =>
    cases h
    exact hx
  | gen d next ih =>
    simp only [run] at h
    split at h
    · exact ih hx h
    · next hgen =>
      cases h
      exact hplace S d _ (place_eq_error_of_gen hgen)
  | kill d next ih =>
    simp only [run] at h
    split at h
    · exact ih hx h
    · next hkill =>
      cases h
      exact hplace S d _ (place_eq_error_of_kill hkill)
  | ask d next ih =>
    simp only [run] at h
    split at h
    · exact ih _ (hx _) h
    · next hask =>
      cases h
      exact hplace S d _ (place_eq_error_of_contains hask)
  | read next ih => exact ih _ (hx _) h
  | write m next ih => exact ih hx h
  | report body c next ih => exact ih hx h

end Effect

/-! ### What the analysis raises -/

namespace Analysis

variable {a : Analysis σ} {limits : Limits} {body : Body} {s s' : Session σ} {f : Fault}

/-- The analysis itself gives up with a fault: it has no least state, or one of its effects raises
the fault on some set in some session. -/
inductive Raises (a : Analysis σ) (body : Body) (f : Fault) : Prop
  | bottom (h : a.bottom body = .error f)
  | start {S : LocalSet} {s : Session σ} {t} (h : (a.start body).run (S, s) = .error f t)
  | instruction {i l} {S : LocalSet} {s : Session σ} {t}
    (h : (a.instruction i l).run (S, s) = .error f t)
  | callReturn {bb c l} {S : LocalSet} {s : Session σ} {t}
    (h : (a.callReturn bb c l).run (S, s) = .error f t)

def raising (a : Analysis σ) (body : Body) : Contract σ where
  moves _ _ := True
  faults f := a.Raises body f ∨ ∃ m n, f = .domainMismatch m n
  refl _ := trivial
  trans _ _ := trivial

theorem keeps_raising (a : Analysis σ) (body : Body) : a.Keeps body (a.raising body) where
  bottom h := .inl (.bottom h)
  join := .inr ⟨_, _, rfl⟩
  instruction _ _ _ _ := ⟨fun _ => trivial, fun h =>
    ⟨trivial, .inl (.instruction (Run.onto_eq_error.1 h).choose_spec)⟩⟩
  callReturn _ _ _ _ _ := ⟨fun _ => trivial, fun h =>
    ⟨trivial, .inl (.callReturn (Run.onto_eq_error.1 h).choose_spec)⟩⟩

end Analysis

namespace Solver

variable {v : Solver σ} {k : Contract σ} {bb : BlockId} {p : Progress} {s s' : Session σ}
  {f : Fault}

section

variable (hv : v.Ready) (hk : v.analysis.Keeps v.body k) (he : v.Explored p)
  (hbb : v.body.Reachable bb)

include hv hk he hbb

/-- A visit that is stopped keeps the contract of the effects up to there. -/
theorem Stop.moves (h : v.Stop bb p.exits s f s') : k.moves s s' := by
  obtain ⟨b, hb⟩ := hv.valid.exists_block (hv.valid.hasBlock_of_reachable hbb)
  have hjoin := keeps_joinIncoming hv hk he hbb
  cases h with
  | join h => exact (hjoin.error h).1
  | replay h₁ h₂ => exact k.trans (hjoin.ok h₁) ((hk.replay hbb hb _).error h₂).1
  | check h₁ h₂ _ => exact k.trans (hjoin.ok h₁) ((hk.replay hbb hb _).ok (Run.onto_eq_ok.2 h₂))

end

/-- A visit is stopped by the analysis, by sets over different domains or by a state that shrank. -/
theorem Stop.cause (hv : v.Ready) (he : v.Explored p) (hbb : v.body.Reachable bb)
    (h : v.Stop bb p.exits s f s') :
    v.analysis.Raises v.body f ∨ (∃ m n, f = .domainMismatch m n) ∨
      (∃ lost, f = .shrank v.body.name bb lost) ∧ ∃ entry exit old s₁,
        v.joinIncoming p.exits bb s = .ok entry s₁ ∧
        v.analysis.replay v.body bb 0 none (entry, s₁) = .ok () (exit, s') ∧
        p.exits.get? bb = some old ∧ ¬old ≤ exit := by
  have hk := v.analysis.keeps_raising v.body
  obtain ⟨b, hb⟩ := hv.valid.exists_block (hv.valid.hasBlock_of_reachable hbb)
  cases h with
  | join h => exact ((keeps_joinIncoming hv hk he hbb).error h).2.imp_right .inl
  | replay h₁ h₂ => exact ((hk.replay hbb hb _).error h₂).2.imp_right .inl
  | check h₁ h₂ h₃ =>
    rcases accept_eq_error h₃ with hdomain | ⟨hshrank, old, hold, hnot⟩
    · exact .inr (.inl hdomain)
    · exact .inr (.inr ⟨hshrank, _, _, old, _, h₁, h₂, hold, hnot⟩)

end Solver

namespace Analysis

variable {a : Analysis σ} {limits : Limits} {body : Body} {s s' : Session σ} {f : Fault}

/-- A run fails because the body is not valid, because the analysis gives up before the first visit,
or in the course of the visits. -/
theorem solve_eq_error (h : a.solve limits body s = .error f s') :
    (body.validate = .error f ∧ s' = s) ∨ (a.bottom body = .error f ∧ s' = s) ∨
    (∃ bottom : LocalSet, Run.onto bottom (a.start body).run s = .error f s') ∨
    ∃ bottom start s₁ table, body.Valid ∧ a.bottom body = .ok bottom ∧
      (a.start body).run (bottom, s) = .ok () (start, s₁) ∧ body.predecessorTable = .ok table ∧
      (a.solver limits body start table).iterate
        (limits.bound body.size (body.blockIds.map body.degree).sum body.localCount)
        (limits.allowance body.size (body.blockIds.map body.degree).sum body.localCount)
        { waiting := [Body.entry] } s₁ = .error f s' := by
  rcases estate_bind_eq_error.1 h with hvalidate | ⟨⟨⟩, _, hvalidated, h₁⟩
  · exact .inl (Run.ofExcept_eq_error.1 hvalidate)
  obtain ⟨hvalidate, rfl⟩ := Run.ofExcept_eq_ok.1 hvalidated
  have hv := Body.valid_of_validate hvalidate
  rcases estate_bind_eq_error.1 h₁ with hbottom | ⟨bottom, _, hgiven, h₂⟩
  · exact .inr (.inl (Run.ofExcept_eq_error.1 hbottom))
  obtain ⟨hbottom, rfl⟩ := Run.ofExcept_eq_ok.1 hgiven
  rcases estate_bind_eq_error.1 h₂ with hstart | ⟨⟨⟨⟩, start⟩, s₁, hstart, h₃⟩
  · exact .inr (.inr (.inl ⟨bottom, hstart⟩))
  right; right; right
  -- the edges of a valid body can be counted and turned round
  obtain ⟨table, htable⟩ := hv.exists_predecessorTable
  rw [hv.edgeCount, htable] at h₃
  rcases estate_bind_eq_error.1 h₃ with hedges | ⟨_, _, hedges, h₄⟩
  · cases hedges
  cases hedges
  rcases estate_bind_eq_error.1 h₄ with hlisted | ⟨_, _, hlisted, h₅⟩
  · cases hlisted
  cases hlisted
  rcases estate_bind_eq_error.1 h₅ with hiterate | ⟨p, s₂, _, h₆⟩
  · exact ⟨bottom, start, s₁, table, hv, hbottom, Run.onto_eq_ok.1 hstart, htable, hiterate⟩
  · cases h₆

end Analysis

end MayTaint
