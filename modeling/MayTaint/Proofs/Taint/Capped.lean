import MayTaint.Proofs.History
import MayTaint.Proofs.Taint.Reuse

/-!
What a limit on the visits does to a run. A run that returns makes a certain sequence of visits.
With a limit of at least as many visits it returns the same results, and with a lower one it stops
after exactly as many of these visits as the limit allows and says that it has diverged: the limit
is only looked at while a block waits, so that the last visit may use it up.

The two runs are compared in one session first, where all that differs is when they stop. Two runs
under the same limit are then compared in any two sessions: if the model of calls is stateless, they
record the same, make the same visits and end alike.
-/

namespace MayTaint

section

variable [Machine] {σ : Type}

namespace Analysis

variable {a : Analysis σ} {limits limits' : Limits} {body : Body} {start : LocalSet}
  {table : List (List BlockId)}

/-- Of the limits, a visit uses only whether states may shrink. -/
theorem visit_congr_limits (hgrowth : limits'.checkMonotonicity = limits.checkMonotonicity) :
    (a.solver limits' body start table).visit = (a.solver limits body start table).visit := by
  have haccept : (a.solver limits' body start table).accept =
      (a.solver limits body start table).accept := by
    funext bb old new
    simp only [Solver.accept, solver, Limits.guardsGrowth, hgrowth]
    rfl
  funext bb p
  unfold Solver.visit
  rw [haccept]
  rfl

theorem iterate_congr_limits (hgrowth : limits'.checkMonotonicity = limits.checkMonotonicity)
    (limit : Datum) (allowed : Nat) (p : Progress) :
    (a.solver limits' body start table).iterate limit allowed p =
      (a.solver limits body start table).iterate limit allowed p := by
  induction allowed generalizing p with
  | zero => rfl
  | succ allowed ih =>
    cases hw : p.waiting with
    | nil => rw [Solver.iterate_of_nil hw, Solver.iterate_of_nil hw]
    | cons bb rest =>
      rw [Solver.iterate_succ_of_cons hw, Solver.iterate_succ_of_cons hw,
        visit_congr_limits hgrowth, funext ih]

end Analysis

namespace Solver

variable {v : Solver σ} {limit : Datum} {allowed : Nat} {p p' : Progress} {s s' : Session σ}

/-- A visit is told of once, and nothing else that it tells is a visit. -/
theorem visits_of_step (hv : v.Ready) (he : v.Explored p) {bb : BlockId} {rest : List BlockId}
    {entry exit : LocalSet} (hs : v.Step bb rest entry exit p s p' s') :
    ∃ visit, Log.visits s'.log = Log.visits s.log ++ [visit] := by
  obtain ⟨s₂, hmoves, rfl⟩ := hs.moves hv (v.analysis.keeps_silent v.body) he
  have hsilent : Log.visits s₂.log = Log.visits s.log := hmoves
  rw [Log.visits_log_tell_visited, hsilent]
  exact ⟨_, rfl⟩

/-- The visits of a run that returns, and what other limits do to it: they leave the run as it is,
or stop it after as many of the visits as they allow. -/
theorem iterate_capped (hv : v.Ready) (he : v.Explored p)
    (h : v.iterate limit allowed p s = .ok p' s') :
    ∃ visits, Log.visits s'.log = Log.visits s.log ++ visits ∧
      p'.iterations = p.iterations + visits.length ∧
      (∀ limit' n, visits.length ≤ n → v.iterate limit' n p s = .ok p' s') ∧
      ∀ limit' n, n < visits.length →
        ∃ t, v.iterate limit' n p s = .error (.diverged v.body.name limit') t ∧
          Log.visits t.log = Log.visits s.log ++ visits.take n := by
  induction allowed generalizing p s with
  | zero =>
    cases hw : p.waiting with
    | nil =>
      rw [iterate_of_nil hw] at h
      cases h
      exact ⟨[], by simp, by simp, fun limit' n _ => by rw [iterate_of_nil hw]; rfl, by simp⟩
    | cons bb rest =>
      rw [iterate_zero_of_cons hw] at h
      cases h
  | succ allowed ih =>
    cases hw : p.waiting with
    | nil =>
      rw [iterate_of_nil hw] at h
      cases h
      exact ⟨[], by simp, by simp, fun limit' n _ => by rw [iterate_of_nil hw]; rfl, by simp⟩
    | cons bb rest =>
      rw [iterate_succ_of_cons hw] at h
      obtain ⟨p₁, s₁, hvisit, hrest⟩ := estate_bind_eq_ok.1 h
      obtain ⟨entry, exit, hs⟩ := step_of_visit hw hvisit
      obtain ⟨visit, hfirst⟩ := visits_of_step hv he hs
      obtain ⟨visits, hvisits, hcount, hreturns, hstops⟩ := ih (he.step hs) hrest
      refine ⟨visit :: visits, ?_, ?_, fun limit' n hn => ?_, fun limit' n hn => ?_⟩
      · rw [hvisits, hfirst, List.append_assoc, List.singleton_append]
      · rw [hcount, hs.iterations, List.length_cons]
        omega
      · rw [List.length_cons] at hn
        obtain ⟨n, rfl⟩ : ∃ m, n = m + 1 := ⟨n - 1, by omega⟩
        rw [iterate_succ_of_cons hw, estate_bind_of_ok hvisit]
        exact hreturns limit' n (by omega)
      · cases n with
        | zero =>
          rw [iterate_zero_of_cons hw]
          exact ⟨s, rfl, by simp⟩
        | succ n =>
          rw [List.length_cons] at hn
          obtain ⟨t, ht, hlog⟩ := hstops limit' n (by omega)
          refine ⟨t, ?_, ?_⟩
          · rw [iterate_succ_of_cons hw, estate_bind_of_ok hvisit, ht]
          · rw [hlog, hfirst, List.take_succ_cons, List.append_assoc, List.singleton_append]

end Solver

/-- Any analysis that returns makes a sequence of visits. Under a limit of at least as many visits
it does the same in the same session, and under a lower one it stops after as many of them. -/
theorem Analysis.solve_capped {a : Analysis σ} {limits : Limits} {body : Body} {s s' : Session σ}
    {r : Results σ} (h : a.solve limits body s = .ok r s') :
    ∃ visits, Log.visits s'.log = Log.visits s.log ++ visits ∧ visits.length = r.iterations ∧
      ∀ k : Int, (r.iterations ≤ k →
          a.solve { limits with maxIterations := .int k } body s = .ok r s') ∧
        (k < r.iterations → ∃ t,
          a.solve { limits with maxIterations := .int k } body s =
            .error (.diverged body.name (.int k)) t ∧
          Log.visits t.log = Log.visits s.log ++ visits.take k.toNat) := by
  obtain ⟨bottom, _, _, table, _, _, hrun, _⟩ := solved_of_solve h
  have hvalid := hrun.valid.validate
  rw [solve_eq hvalid hrun.bottom_eq hrun.table_eq] at h
  obtain ⟨⟨⟨⟩, start⟩, s₁, hstart, h₁⟩ := estate_bind_eq_ok.1 h
  obtain ⟨p, s₂, hiterate, h₂⟩ := estate_bind_eq_ok.1 h₁
  cases h₂
  have hsilent : Log.visits s₁.log = Log.visits s.log :=
    ((a.start body).keeps_silent _).ok hstart
  have hready : (a.solver limits body start table).Ready := ⟨hrun.valid, hrun.table_eq⟩
  obtain ⟨visits, hvisits, hcount, hreturns, hstops⟩ :=
    Solver.iterate_capped hready (Solver.explored_init _) hiterate
  have hlength : visits.length = p.iterations := by
    simpa using hcount.symm
  -- the entry waits, so that no run returns without a visit
  have hpos : 0 < visits.length := by
    by_contra hnone
    have hzero := hreturns .null 0 (by omega)
    rw [Solver.iterate_zero_of_cons rfl] at hzero
    cases hzero
  -- the limit of a solver has no part in its visits
  have hgrowth : ∀ k : Int, Limits.checkMonotonicity { limits with maxIterations := .int k } =
      limits.checkMonotonicity := fun _ => rfl
  have hcongr : ∀ (k : Int) (n : Nat),
      (a.solver { limits with maxIterations := .int k } body start table).iterate (.int k) n
          { waiting := [Body.entry] } s₁ =
        (a.solver limits body start table).iterate (.int k) n { waiting := [Body.entry] } s₁ :=
    fun k n => congrFun (iterate_congr_limits (hgrowth k) (.int k) n _) s₁
  refine ⟨visits, ?_, hlength, fun k => ⟨fun hk => ?_, fun hk => ?_⟩⟩
  · rw [← hsilent, ← hvisits]
    simp [Session.log_tell, Log.visits, Event.visit?]
  · rw [solve_eq hvalid hrun.bottom_eq hrun.table_eq, estate_bind_of_ok hstart]
    have hn : visits.length ≤ k.toNat := by
      have hk : (p.iterations : Int) ≤ k := hk
      omega
    exact estate_bind_of_ok ((hcongr k k.toNat).trans (hreturns (.int k) k.toNat hn))
  · have hn : k.toNat < visits.length := by
      have hk : k < (p.iterations : Int) := hk
      omega
    obtain ⟨t, ht, hlog⟩ := hstops (.int k) k.toNat hn
    refine ⟨t, ?_, hsilent ▸ hlog⟩
    rw [solve_eq hvalid hrun.bottom_eq hrun.table_eq, estate_bind_of_ok hstart]
    exact estate_bind_of_error ((hcongr k k.toNat).trans ht)

namespace Taint

variable {η : Type} {t : Taint η} {old old' : List Visit}

/-! ### Two sessions -/

omit [Machine] in
theorem visits_log_tell (s : Session σ) (e : Event) :
    Log.visits (s.tell e).log = Log.visits s.log ++ e.visit?.toList := by
  cases e <;> simp [Session.log_tell, Log.visits, Event.visit?]

/-- Two runs of one instance that record in equal logs, and have told of the same visits after those
that were told of before. -/
def apart (old old' : List Visit) : Coupling (Memory η) (Memory η) where
  rel s t := s.memory.audit = t.memory.audit ∧
    ∃ new, Log.visits s.log = old ++ new ∧ Log.visits t.log = old' ++ new
  tell := by
    rintro s t e ⟨haudit, new, hs, ht⟩
    refine ⟨haudit, new ++ e.visit?.toList, ?_, ?_⟩
    · rw [visits_log_tell, hs, List.append_assoc]
    · rw [visits_log_tell, ht, List.append_assoc]

omit [Machine] in
/-- An answer that is the same in both sessions, and what becomes of them. -/
theorem alike_of_answer {α : Type} {k : Coupling σ σ} {x : Run σ α} {s t : Session σ}
    (h : x.answer s = x.answer t)
    (hrel : ∀ s' t', Run.Leaves x s s' → Run.Leaves x t t' → k.rel s' t') :
    k.Alike (x s) (x t) := by
  cases hs : x s with
  | ok a s' =>
    obtain ⟨t', ht⟩ := Run.answer_eq_ok.1 (h ▸ Run.answer_eq_ok.2 ⟨s', hs⟩)
    rw [ht]
    exact .ok (hrel s' t' (.inl ⟨a, hs⟩) (.inl ⟨a, ht⟩))
  | error f s' =>
    obtain ⟨t', ht⟩ := Run.answer_eq_error.1 (h ▸ Run.answer_eq_error.2 ⟨s', hs⟩)
    rw [ht]
    exact .error (hrel s' t' (.inr ⟨f, hs⟩) (.inr ⟨f, ht⟩))

section

variable {x : Effect (Memory η) Unit} {S : LocalSet}

/-- A stateless effect ends alike in both sessions if it leaves equal logs. -/
theorem pairs_of_stateless (hx : x.Stateless)
    (haudit : ∀ {s t s' t' : Session (Memory η)}, s.memory.audit = t.memory.audit →
      Run.Leaves (Run.onto S x.run) s s' → Run.Leaves (Run.onto S x.run) t t' →
      s'.memory.audit = t'.memory.audit) :
    (apart old old').Pairs (Run.onto S x.run) (Run.onto S x.run) := by
  rintro s t ⟨hequal, new, hs, ht⟩
  refine alike_of_answer (hx S s t) fun s' t' hs' ht' => ⟨haudit hequal hs' ht', new, ?_, ?_⟩
  · have hsilent : Log.visits s'.log = Log.visits s.log := (x.keeps_silent S).leaves hs'
    rw [hsilent, hs]
  · have hsilent : Log.visits t'.log = Log.visits t.log := (x.keeps_silent S).leaves ht'
    rw [hsilent, ht]

end

theorem audit_of_record {c : Construct} {S : LocalSet} {s s' : Session (Memory η)}
    (h : Run.Leaves (Run.onto S (record c).run) s s') :
    s'.memory.audit = s.memory.audit.record c := by
  have hrun : Run.onto S (record c).run s = .ok ((), S) (note c s) :=
    Run.onto_eq_ok.2 (run_record c S s)
  rw [h.eq_of_ok hrun, audit_note]

/-- A model of calls has no hold of the audit log. -/
theorem audit_of_model {x : Effect η Unit} {S : LocalSet} {s s' : Session (Memory η)}
    (h : Run.Leaves (Run.onto S (x.within Memory.model fun h m => { m with model := h }).run)
      s s') :
    s'.memory.audit = s.memory.audit := by
  have hget : ∀ (h : η) (m : Memory η), Memory.model { m with model := h } = h := fun _ _ => rfl
  have hstart : (Coupling.part (fun h (m : Memory η) => { m with model := h }) s.memory).rel s
      ⟨s.memory.model, s.told⟩ := ⟨rfl, rfl⟩
  have halike := x.pairs_within hget (fun _ _ _ => rfl) s.memory S hstart
  generalize Run.onto S x.run ⟨s.memory.model, s.told⟩ = y at halike
  rcases h with ⟨a, h⟩ | ⟨f, h⟩
  · rw [h] at halike
    cases halike with
    | ok hrel => rw [hrel.1]
  · rw [h] at halike
    cases halike with
    | error hrel => rw [hrel.1]

theorem pairs_record_apart (c : Construct) (S : LocalSet) :
    (apart (η := η) old old').Pairs (Run.onto S (record c).run) (Run.onto S (record c).run) := by
  refine pairs_of_stateless (record_stateless c) fun hequal hs ht => ?_
  rw [audit_of_record hs, audit_of_record ht, hequal]

section

variable (hmodel : ∀ model, t.settings.callModel = some model → ∀ c l, (model c l).Stateless)

include hmodel

theorem pairs_apart : Analysis.Pairs (apart old old') t.analysis t.analysis where
  name := rfl
  bottom := rfl
  instruction i l S := pairs_instruction pairs_record_apart t i l S
  callReturn bb c l S := by
    show (apart old old').Pairs (Run.onto S (t.callReturn c l).run)
      (Run.onto S (t.callReturn c l).run)
    rcases t.callReturn_cases c l with ⟨model, hsome, hcall⟩ | ⟨f, hcall⟩ | hcall
    · have hget : ∀ (h : η) (m : Memory η), Memory.model { m with model := h } = h := fun _ _ => rfl
      rw [hcall]
      refine pairs_of_stateless ((hmodel model hsome c l).within hget) fun hequal hs ht => ?_
      rw [audit_of_model hs, audit_of_model ht, hequal]
    · rw [hcall]
      exact Coupling.Pairs.ofExcept (.error f)
    · rw [hcall]
      exact pairs_record_apart _ S

/-- Whatever the sessions, an analysis ends alike in both and makes the same visits. -/
theorem alike_analyze (body : Body) (s u : Session (Memory η)) :
    (apart (Log.visits s.log) (Log.visits u.log)).Alike (analyze body t.seed t.settings s)
      (analyze body t.seed t.settings u) := by
  have hrel : ∀ audit : AuditLog, (apart (Log.visits s.log) (Log.visits u.log)).rel
      ⟨{ s.memory with audit }, s.told⟩ ⟨{ u.memory with audit }, u.told⟩ := fun audit =>
    ⟨rfl, [], (List.append_nil _).symm, (List.append_nil _).symm⟩
  cases hvalid : body.validate with
  | error f =>
    have hfails : ∀ s : Session (Memory η), analyze body t.seed t.settings s =
        .error f ⟨{ s.memory with audit := {} }, s.told⟩ := fun s =>
      analyze_eq_error.2 (estate_bind_of_error (Run.ofExcept_eq_error.2 ⟨hvalid, rfl⟩))
    rw [hfails, hfails]
    exact .error (hrel {})
  | ok _ =>
    obtain ⟨n, hn⟩ := Int.eq_ofNat_of_zero_le (Body.valid_of_validate hvalid).localCount_nonneg
    -- both runs begin with a new log
    have hstart : (apart (Log.visits s.log) (Log.visits u.log)).Alike
        (Run.onto (LocalSet.empty n) (t.analysis.start body).run
          ⟨{ s.memory with audit := {} }, s.told⟩)
        (Run.onto (LocalSet.empty n) (t.analysis.start body).run
          ⟨{ u.memory with audit := {} }, u.told⟩) :=
      (plain_taintAll t.seed).pairs (LocalSet.empty n) (hrel { body := body.name })
    rcases (pairs_apart hmodel).solve hvalid (bottom_eq (t := t) hn) hstart t.settings.toLimits with
      ⟨f, s', u', hs, hu, hends⟩ | ⟨p, s', u', hs, hu, hends⟩
    · rw [analyze_eq_error.2 hs, analyze_eq_error.2 hu]
      exact .error hends
    · have haudit : t.analysis.unsupported s'.memory = t.analysis.unsupported u'.memory :=
        congrArg AuditLog.entries hends.1
      rw [analyze_eq_ok.2 ⟨_, hs, rfl⟩, analyze_eq_ok.2 ⟨_, hu, rfl⟩, haudit]
      exact .ok hends

end

end Taint

/-! ### The limit -/

section

variable {η : Type} {body : Body} {seed : List Datum} {settings : Settings η}
  {s s' : Session (Taint.Memory η)} {r : Results (Taint.Memory η)}

/-- The limit of the settings is exact, and shows in nothing else. If an analysis returns, with a
model of calls that is stateless if there is one, then under the limit `k` and in any session it
returns exactly if it has made at most `k` visits, and it returns the same results. Under a lower
limit it makes the first `k` of the visits and says that it has diverged. -/
theorem analyze_capped
    (hmodel : ∀ model, settings.callModel = some model → ∀ c l, (model c l).Stateless)
    (h : analyze body seed settings s = .ok r s') :
    ∃ visits, Log.visits s'.log = Log.visits s.log ++ visits ∧ visits.length = r.iterations ∧
      ∀ (k : Int) (u : Session (Taint.Memory η)),
        ((∃ r' u', analyze body seed { settings with maxIterations := .int k } u = .ok r' u') ↔
          r.iterations ≤ k) ∧
        (∀ r' u', analyze body seed { settings with maxIterations := .int k } u = .ok r' u' →
          r' = r ∧ Log.visits u'.log = Log.visits u.log ++ visits) ∧
        (k < r.iterations → ∃ u', analyze body seed { settings with maxIterations := .int k } u =
            .error (.diverged body.name (.int k)) u' ∧
          Log.visits u'.log = Log.visits u.log ++ visits.take k.toNat) := by
  obtain ⟨r₀, hr₀, hr⟩ := analyze_eq_ok.1 h
  obtain ⟨visits, hvisits, hcount, hlimit⟩ := Analysis.solve_capped hr₀
  have hiterations : r.iterations = r₀.iterations := by rw [hr]
  have hvisits : Log.visits s'.log = Log.visits s.log ++ visits := hvisits
  refine ⟨visits, hvisits, hcount.trans hiterations.symm, fun k u => ?_⟩
  have halike := Taint.alike_analyze (t := ⟨seed, { settings with maxIterations := .int k }⟩) hmodel
    body s u
  rw [hiterations]
  by_cases hk : (r₀.iterations : Int) ≤ k
  · have hcapped : analyze body seed { settings with maxIterations := .int k } s = .ok r s' :=
      analyze_eq_ok.2 ⟨r₀, (hlimit k).1 hk, hr⟩
    rw [hcapped] at halike
    generalize hu : analyze body seed { settings with maxIterations := .int k } u = y at halike
    cases halike with
    | @ok _ _ u' hrel =>
      obtain ⟨_, new, hs', hu'⟩ := hrel
      have hnew : new = visits := List.append_cancel_left (hs'.symm.trans hvisits)
      refine ⟨⟨fun _ => hk, fun _ => ⟨r, u', rfl⟩⟩, fun r' u'' hr' => ?_, fun hlt => ?_⟩
      · cases hr'
        exact ⟨rfl, hnew ▸ hu'⟩
      · omega
  · obtain ⟨s'', hs'', htaken⟩ := (hlimit k).2 (by omega)
    have htaken : Log.visits s''.log = Log.visits s.log ++ visits.take k.toNat := htaken
    have hcapped : analyze body seed { settings with maxIterations := .int k } s =
        .error (.diverged body.name (.int k)) s'' := analyze_eq_error.2 hs''
    rw [hcapped] at halike
    generalize hu : analyze body seed { settings with maxIterations := .int k } u = y at halike
    cases halike with
    | @error _ _ u' hrel =>
      obtain ⟨_, new, hs', hu'⟩ := hrel
      have hnew : new = visits.take k.toNat := List.append_cancel_left (hs'.symm.trans htaken)
      refine ⟨⟨fun ⟨_, _, hr'⟩ => ?_, fun hle => absurd hle hk⟩, fun r' u'' hr' => ?_,
        fun _ => ⟨u', rfl, hnew ▸ hu'⟩⟩
      · cases hr'
      · cases hr'

end

end

attribute [local instance] Machine.ample

/-- A call that cleans the source is made again and again. The analysis makes three visits: a
limit of three leaves it as it is, in whatever session, and a limit of two stops it before the
last visit. -/
theorem analyze_capped_callAgain :
    ∃ r s', analyze callAgain [.int 0] Taint.mopping.settings ⟨⟨{}, ()⟩, []⟩ = .ok r s' ∧
      r.iterations = 3 ∧ (Log.visits s'.log).map Visit.block = [0, 1, 0] ∧
      ∀ u : Session (Taint.Memory Unit),
        (∃ u', analyze callAgain [.int 0]
            { Taint.mopping.settings with maxIterations := .int 3 } u = .ok r u') ∧
        ∃ u', analyze callAgain [.int 0] { Taint.mopping.settings with maxIterations := .int 2 } u =
            .error (.diverged "callAgain" (.int 2)) u' ∧
          (Log.visits u'.log).map Visit.block = (Log.visits u.log).map Visit.block ++ [0, 1] := by
  obtain ⟨r, s', h, hcount, hblocks⟩ : ∃ r s',
      analyze callAgain [.int 0] Taint.mopping.settings ⟨⟨{}, ()⟩, []⟩ = .ok r s' ∧
      r.iterations = 3 ∧ (Log.visits s'.log).map Visit.block = [0, 1, 0] :=
    ⟨_, _, by cbv, by cbv, by cbv⟩
  have hmodel : ∀ model, Taint.mopping.settings.callModel = some model →
      ∀ c l, (model c l).Stateless := by
    intro model hm c l
    cases hm
    exact Effect.Plain.stateless trivial
  obtain ⟨visits, hvisits, _, hlimit⟩ := analyze_capped hmodel h
  have hvisits : Log.visits s'.log = visits := hvisits
  refine ⟨r, s', h, hcount, hblocks, fun u => ⟨?_, ?_⟩⟩
  · obtain ⟨hreturns, hsame, _⟩ := hlimit 3 u
    obtain ⟨r', u', hr'⟩ := hreturns.2 (by omega)
    cases (hsame r' u' hr').1
    exact ⟨u', hr'⟩
  · obtain ⟨u', hu', htaken⟩ := (hlimit 2 u).2.2 (by omega)
    refine ⟨u', hu', ?_⟩
    rw [htaken, List.map_append, List.map_take, ← hvisits, hblocks]
    rfl

end MayTaint
