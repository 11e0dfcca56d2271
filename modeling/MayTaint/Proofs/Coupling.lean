import MayTaint.Proofs.Cause

/-!
Runs side by side. Two analyses with memories of different types are compared step by step: whenever
their sessions are related, the next step gives both the same answer, or the same fault, and leaves
related sessions. If this holds for their effects it holds for replays, edges, joins, visits and
whole runs.
-/

namespace MayTaint

/-- How the sessions of two computations are related. What both tell keeps the relation. -/
structure Coupling (σ τ : Type) where
  rel : Session σ → Session τ → Prop
  tell : ∀ {s t} (e : Event), rel s t → rel (s.tell e) (t.tell e)

variable {σ τ υ α β : Type}

namespace Coupling

inductive Alike (k : Coupling σ τ) :
    EStateM.Result Fault (Session σ) α → EStateM.Result Fault (Session τ) α → Prop
  | ok {a : α} {s t} (h : k.rel s t) : Alike k (.ok a s) (.ok a t)
  | error {f : Fault} {s t} (h : k.rel s t) : Alike k (.error f s) (.error f t)

def Pairs (k : Coupling σ τ) (x : Run σ α) (y : Run τ α) : Prop :=
  ∀ ⦃s t⦄, k.rel s t → k.Alike (x s) (y t)

variable {k : Coupling σ τ}

theorem Alike.trans {k₁ : Coupling σ τ} {k₂ : Coupling τ υ} {k : Coupling σ υ}
    (hk : ∀ {s t u}, k₁.rel s t → k₂.rel t u → k.rel s u)
    {x : EStateM.Result Fault (Session σ) α} {y : EStateM.Result Fault (Session τ) α}
    {z : EStateM.Result Fault (Session υ) α} (hxy : k₁.Alike x y) (hyz : k₂.Alike y z) :
    k.Alike x z := by
  cases hxy with
  | ok hst =>
    cases hyz with
    | ok htu => exact .ok (hk hst htu)
  | error hst =>
    cases hyz with
    | error htu => exact .error (hk hst htu)

theorem Pairs.pure (a : α) : k.Pairs (Pure.pure a) (Pure.pure a) :=
  fun _ _ h => .ok h

theorem Pairs.ofExcept (o : Except Fault α) : k.Pairs (Run.ofExcept o) (Run.ofExcept o) := by
  intro s t h
  cases o with
  | ok a => exact .ok h
  | error f => exact .error h

theorem Pairs.tell (e : Event) : k.Pairs (Run.tell e) (Run.tell e) :=
  fun _ _ h => .ok (k.tell e h)

theorem Alike.bind {x : Run σ α} {y : Run τ α} {f : α → Run σ β} {g : α → Run τ β} {s t}
    (h : k.Alike (x s) (y t)) (hf : ∀ a, k.Pairs (f a) (g a)) :
    k.Alike ((x >>= f) s) ((y >>= g) t) := by
  generalize hx : x s = xs at h
  generalize hy : y t = yt at h
  cases h with
  | ok h =>
    rw [estate_bind_of_ok hx, estate_bind_of_ok hy]
    exact hf _ h
  | error h =>
    rw [estate_bind_of_error hx, estate_bind_of_error hy]
    exact .error h

theorem Pairs.bind {x : Run σ α} {y : Run τ α} {f : α → Run σ β} {g : α → Run τ β}
    (hx : k.Pairs x y) (hf : ∀ a, k.Pairs (f a) (g a)) : k.Pairs (x >>= f) (y >>= g) :=
  fun _ _ h => (hx h).bind hf

end Coupling

/-! ### Effects -/

/-- The second memory is a part of the first, of which the rest stays as it is in `base`. -/
def Coupling.part (set : σ → τ → τ) (base : τ) : Coupling τ σ where
  rel t s := t.memory = set s.memory base ∧ t.told = s.told
  tell e h := ⟨h.1, congrArg (e :: ·) h.2⟩

variable [Machine]

namespace Effect

/-- On a part of a larger memory an effect does what it does on its own, and nothing to the rest. -/
theorem pairs_within {get : τ → σ} {set : σ → τ → τ} (hget : ∀ m t, get (set m t) = m)
    (hset : ∀ m m' t, set m (set m' t) = set m t) (base : τ) (x : Effect σ α) (S : LocalSet) :
    (Coupling.part set base).Pairs (Run.onto S (x.within get set).run) (Run.onto S x.run) := by
  induction x generalizing S with
  | done a => exact Coupling.Pairs.pure (a, S)
  | raise f => exact Coupling.Pairs.ofExcept (.error f)
  | gen d next ih =>
    rw [within, onto_gen, onto_gen]
    exact (Coupling.Pairs.ofExcept _).bind ih
  | kill d next ih =>
    rw [within, onto_kill, onto_kill]
    exact (Coupling.Pairs.ofExcept _).bind ih
  | ask d next ih =>
    rw [within, onto_ask, onto_ask]
    exact (Coupling.Pairs.ofExcept _).bind fun b => ih b S
  | read next ih =>
    intro t s h
    have hmemory : get t.memory = s.memory := by rw [h.1, hget]
    show Coupling.Alike _ (Run.onto S ((next (get t.memory)).within get set).run t) _
    rw [hmemory]
    exact ih s.memory S h
  | write m next ih =>
    intro t s h
    refine ih S (s := ⟨set m t.memory, t.told⟩) (t := ⟨m, s.told⟩) ⟨?_, h.2⟩
    rw [h.1]
    exact hset m s.memory base
  | report body c next ih =>
    intro t s h
    exact ih S ((Coupling.part set base).tell (.unsupported body c) h)

/-- An effect that neither uses its memory nor tells the log ends alike wherever it runs. -/
theorem Plain.pairs {k : Coupling σ σ} {x : Effect σ α} (hx : x.Plain) (S : LocalSet) :
    k.Pairs (Run.onto S x.run) (Run.onto S x.run) := by
  induction x generalizing S with
  | done a => exact Coupling.Pairs.pure (a, S)
  | raise f => exact Coupling.Pairs.ofExcept (.error f)
  | gen d next ih =>
    rw [onto_gen]
    exact (Coupling.Pairs.ofExcept _).bind fun T => ih hx T
  | kill d next ih =>
    rw [onto_kill]
    exact (Coupling.Pairs.ofExcept _).bind fun T => ih hx T
  | ask d next ih =>
    rw [onto_ask]
    exact (Coupling.Pairs.ofExcept _).bind fun b => ih b (hx b) S
  | read => exact hx.elim
  | write => exact hx.elim
  | report => exact hx.elim

end Effect

/-! ### Blocks, visits and runs -/

structure Analysis.Pairs (k : Coupling σ τ) (a : Analysis σ) (b : Analysis τ) : Prop where
  name : a.name = b.name
  bottom : a.bottom = b.bottom
  instruction : ∀ i l (S : LocalSet),
    k.Pairs (Run.onto S (a.instruction i l).run) (Run.onto S (b.instruction i l).run)
  callReturn : ∀ bb c l (S : LocalSet),
    k.Pairs (Run.onto S (a.callReturn bb c l).run) (Run.onto S (b.callReturn bb c l).run)

namespace Analysis.Pairs

variable {k : Coupling σ τ} {a : Analysis σ} {b : Analysis τ} (h : Analysis.Pairs k a b)
  {limits : Limits} {body : Body} {start : LocalSet} {table : List (List BlockId)}

include h

theorem replayFrom (body : Body) (bb : BlockId) (count : Nat) (index : Int) (S : LocalSet) :
    k.Pairs (Run.onto S (a.replayFrom body bb count index))
      (Run.onto S (b.replayFrom body bb count index)) := by
  induction count generalizing index S with
  | zero => exact Coupling.Pairs.pure ((), S)
  | succ count ih =>
    cases hi : body.instructionAt ⟨bb, index⟩ with
    | ok i =>
      rw [replayFrom_succ hi, replayFrom_succ hi, Run.onto_bind, Run.onto_bind]
      exact (h.instruction i _ S).bind fun r => ih (index + 1) r.2
    | error f =>
      rw [replayFrom_succ_error hi, replayFrom_succ_error hi]
      exact Coupling.Pairs.ofExcept (.error f)

theorem replay (body : Body) (bb : BlockId) (start : Int) (stop : Option Int) (S : LocalSet) :
    k.Pairs (Run.onto S (a.replay body bb start stop))
      (Run.onto S (b.replay body bb start stop)) := by
  cases hb : body.block bb with
  | ok b =>
    rw [replay_of_block hb, replay_of_block hb]
    exact h.replayFrom body bb _ start S
  | error f =>
    rw [Analysis.replay, Analysis.replay, hb]
    exact Coupling.Pairs.ofExcept (.error f)

theorem edgeState (body : Body) (pred succ : BlockId) (exit : LocalSet) :
    k.Pairs (a.edgeState body pred succ exit) (b.edgeState body pred succ exit) := by
  cases hb : body.block pred with
  | ok b =>
    by_cases hc : ∃ c, ReturnsTo b succ c
    · obtain ⟨c, hc⟩ := hc
      rw [edgeState_of_returnsTo hb hc, edgeState_of_returnsTo hb hc]
      exact (h.callReturn pred c _ exit).bind fun r => Coupling.Pairs.pure r.2
    · rw [edgeState_of_not_returnsTo hb (not_exists.1 hc),
        edgeState_of_not_returnsTo hb (not_exists.1 hc)]
      exact Coupling.Pairs.pure exit
  | error f =>
    simp only [Analysis.edgeState, hb]
    exact Coupling.Pairs.ofExcept (.error f)

theorem joinFlows (exits : Table LocalSet) (bb : BlockId) (preds : List BlockId)
    (state : LocalSet) :
    k.Pairs ((a.solver limits body start table).joinFlows exits bb preds state)
      ((b.solver limits body start table).joinFlows exits bb preds state) := by
  induction preds generalizing state with
  | nil => exact Coupling.Pairs.pure state
  | cons pred preds ih =>
    cases hexit : exits.get? pred with
    | none =>
      rw [Solver.joinFlows_cons_none hexit, Solver.joinFlows_cons_none hexit]
      exact ih state
    | some exit =>
      rw [Solver.joinFlows_cons_some hexit, Solver.joinFlows_cons_some hexit]
      exact (h.edgeState body pred bb exit).bind fun flow =>
        (Coupling.Pairs.ofExcept _).bind ih

theorem visit (bb : BlockId) (p : Progress) :
    k.Pairs ((a.solver limits body start table).visit bb p)
      ((b.solver limits body start table).visit bb p) := by
  have hbase : (a.solver limits body start table).base bb =
      (b.solver limits body start table).base bb := by
    simp only [Solver.base, solver, h.bottom]
  have hjoin : k.Pairs ((a.solver limits body start table).joinIncoming p.exits bb)
      ((b.solver limits body start table).joinIncoming p.exits bb) := by
    unfold Solver.joinIncoming
    rw [hbase]
    exact (Coupling.Pairs.ofExcept _).bind fun base => (Coupling.Pairs.ofExcept _).bind fun preds =>
      h.joinFlows p.exits bb preds base
  exact hjoin.bind fun entry => (h.replay body bb 0 none entry).bind fun r =>
    (Coupling.Pairs.ofExcept _).bind fun _ => (Coupling.Pairs.tell _).bind fun _ =>
      Coupling.Pairs.ofExcept _

theorem iterate (limit : Datum) (allowed : Nat) (p : Progress) :
    k.Pairs ((a.solver limits body start table).iterate limit allowed p)
      ((b.solver limits body start table).iterate limit allowed p) := by
  induction allowed generalizing p with
  | zero =>
    cases hw : p.waiting with
    | nil =>
      rw [Solver.iterate_of_nil hw, Solver.iterate_of_nil hw]
      exact Coupling.Pairs.pure p
    | cons bb rest =>
      rw [Solver.iterate_zero_of_cons hw, Solver.iterate_zero_of_cons hw]
      exact Coupling.Pairs.ofExcept (.error _)
  | succ allowed ih =>
    cases hw : p.waiting with
    | nil =>
      rw [Solver.iterate_of_nil hw, Solver.iterate_of_nil hw]
      exact Coupling.Pairs.pure p
    | cons bb rest =>
      rw [Solver.iterate_succ_of_cons hw, Solver.iterate_succ_of_cons hw]
      exact (h.visit bb _).bind ih

/-- Two runs over a valid body that start alike fail alike, or both return with the same
progress. -/
theorem solve (hvalid : body.validate = .ok ()) {bottom : LocalSet}
    (hbottom : a.bottom body = .ok bottom) {s : Session σ} {t : Session τ}
    (hstart : k.Alike (Run.onto bottom (a.start body).run s)
      (Run.onto bottom (b.start body).run t)) (limits : Limits) :
    (∃ f s' t', a.solve limits body s = .error f s' ∧ b.solve limits body t = .error f t' ∧
      k.rel s' t') ∨
    ∃ (p : Progress) (s' : Session σ) (t' : Session τ),
      a.solve limits body s = .ok ⟨body, a, p.entries, p.exits, p.iterations,
        a.unsupported s'.memory⟩ s' ∧
      b.solve limits body t = .ok ⟨body, b, p.entries, p.exits, p.iterations,
        b.unsupported t'.memory⟩ t' ∧ k.rel s' t' := by
  obtain ⟨table, htable⟩ := (Body.valid_of_validate hvalid).exists_predecessorTable
  rw [Analysis.solve_eq hvalid hbottom htable,
    Analysis.solve_eq hvalid (h.bottom ▸ hbottom) htable]
  generalize limits.bound body.size (body.blockIds.map body.degree).sum body.localCount = limit
  generalize limits.allowance body.size (body.blockIds.map body.degree).sum body.localCount =
    allowed
  generalize hx : Run.onto bottom (a.start body).run s = x at hstart
  generalize hy : Run.onto bottom (b.start body).run t = y at hstart
  cases hstart with
  | error hrel => exact .inl ⟨_, _, _, estate_bind_of_error hx, estate_bind_of_error hy, hrel⟩
  | @ok r s₁ t₁ hrel =>
    obtain ⟨⟨⟩, start⟩ := r
    rw [estate_bind_of_ok hx, estate_bind_of_ok hy]
    have hvisits : k.Alike
        ((a.solver limits body start table).iterate limit allowed { waiting := [Body.entry] } s₁)
        ((b.solver limits body start table).iterate limit allowed { waiting := [Body.entry] } t₁) :=
      h.iterate limit allowed _ hrel
    generalize hx' : (a.solver limits body start table).iterate limit allowed
      { waiting := [Body.entry] } s₁ = x' at hvisits
    generalize hy' : (b.solver limits body start table).iterate limit allowed
      { waiting := [Body.entry] } t₁ = y' at hvisits
    cases hvisits with
    | error hrel =>
      exact .inl ⟨_, _, _, estate_bind_of_error hx', estate_bind_of_error hy', hrel⟩
    | @ok p s₂ t₂ hrel =>
      refine .inr ⟨p, _, _, estate_bind_eq_ok.2 ⟨p, s₂, hx', rfl⟩,
        estate_bind_eq_ok.2 ⟨p, t₂, hy', rfl⟩, ?_⟩
      rw [h.name]
      exact k.tell _ hrel

end Analysis.Pairs

end MayTaint
