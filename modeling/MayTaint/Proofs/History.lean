import MayTaint.Proofs.Growth
import MayTaint.Proofs.Taint.Faults

/-!
The history of a run, as the log tells it. Effects tell of unsupported constructs only, so what the
log says about visits is said by the search, and it is there also when a run fails in the middle.
The last visit of each block gives its states in the tables; from this and from the growth of states
it follows for every stage of a run that the states seen at the visits of a block only grow, and
that a visit is marked as a change exactly if it is the first of its block or its exit state has
grown. A run of the may-taint analysis is therefore never stopped because a state shrank.
-/

namespace MayTaint

section

variable {σ : Type}

namespace Log

def latest (visits : List Visit) (bb : BlockId) : Option Visit :=
  visits.reverse.find? fun v => v.block == bb

/-- At every visit the states of the block are above those of all its visits before, and the visit
is marked as a change exactly if the exit state is strictly above that of the last visit before, if
there was one. -/
def Rising (visits : List Visit) : Prop :=
  ∀ before v after, visits = before ++ v :: after →
    (∀ w ∈ before, w.block = v.block → w.entry ≤ v.entry ∧ w.exit ≤ v.exit) ∧
    (v.changed = true ↔ ∀ w, latest before v.block = some w → w.exit < v.exit)

theorem latest_append (visits : List Visit) (v : Visit) (bb : BlockId) :
    latest (visits ++ [v]) bb = if bb = v.block then some v else latest visits bb := by
  simp only [latest, List.reverse_append, List.reverse_singleton, List.singleton_append,
    List.find?_cons]
  by_cases h : bb = v.block
  · simp [h]
  · have hne : (v.block == bb) = false := beq_eq_false_iff_ne.2 (Ne.symm h)
    simp [h, hne]

theorem rising_nil : Rising [] := by
  intro before v after h
  simp at h

theorem Rising.append {visits : List Visit} {v : Visit} (h : Rising visits)
    (hgrows : ∀ w ∈ visits, w.block = v.block → w.entry ≤ v.entry ∧ w.exit ≤ v.exit)
    (hchanged : v.changed = true ↔ ∀ w, latest visits v.block = some w → w.exit < v.exit) :
    Rising (visits ++ [v]) := by
  intro before u after hsplit
  rcases List.eq_nil_or_concat after with rfl | ⟨after', last, rfl⟩
  · obtain ⟨rfl, hlast⟩ := List.append_inj' hsplit rfl
    cases hlast
    exact ⟨hgrows, hchanged⟩
  · have hsplit' : visits ++ [v] = (before ++ u :: after') ++ [last] := by
      simpa using hsplit
    exact h before u after' (List.append_inj' hsplit' rfl).1

theorem visits_log_tell_visited (s : Session σ) (name : String) (v : Visit) :
    visits (s.tell (.visited name v)).log = visits s.log ++ [v] := by
  rw [Session.log_tell, visits, List.filterMap_append]
  rfl

end Log

/-! ### What effects tell -/

def silent : Contract σ where
  moves s s' := Log.visits s'.log = Log.visits s.log
  faults _ := True
  refl _ := rfl
  trans h h' := h'.trans h

variable [Machine]

theorem Effect.keeps_silent {α : Type} (x : Effect σ α) (S : LocalSet) :
    Run.Keeps silent (Run.onto S x.run) := by
  apply Effect.keeps
  · intro f
    trivial
  · intro s m
    rfl
  · intro s body c
    show Log.visits (s.tell (.unsupported body c)).log = Log.visits s.log
    simp [Session.log_tell, Log.visits, Event.visit?]

theorem Analysis.keeps_silent (a : Analysis σ) (body : Body) : a.Keeps body silent where
  bottom _ := trivial
  join := trivial
  instruction _ _ _ := Effect.keeps_silent _
  callReturn _ _ _ _ := Effect.keeps_silent _

/-! ### Visits and tables -/

namespace Solver

/-- The tables hold the states of the last visit of every block, and the visits so far rise. -/
structure History (p : Progress) (visits : List Visit) : Prop where
  entry : ∀ bb, p.entries.get? bb = (Log.latest visits bb).map Visit.entry
  exit : ∀ bb, p.exits.get? bb = (Log.latest visits bb).map Visit.exit
  below : ∀ w ∈ visits, ∃ v, Log.latest visits w.block = some v ∧
    w.entry ≤ v.entry ∧ w.exit ≤ v.exit
  rising : Log.Rising visits

omit [Machine] in
theorem history_init : History { waiting := [Body.entry] } [] where
  entry _ := rfl
  exit _ := rfl
  below w hw := by simp at hw
  rising := Log.rising_nil

variable {v : Solver σ} {bb : BlockId} {rest : List BlockId} {entry exit : LocalSet}
  {p p' : Progress} {s s' : Session σ} {visits : List Visit}

theorem History.step (h : History p visits) (hs : v.Step bb rest entry exit p s p' s')
    (hentry : ∀ old, p.entries.get? bb = some old → old ≤ entry)
    (hexit : ∀ old, p.exits.get? bb = some old → old ≤ exit) :
    History p' (visits ++ [⟨bb, entry, exit, p.exits.get? bb != some exit⟩]) := by
  have hgrows : ∀ w ∈ visits, w.block = bb → w.entry ≤ entry ∧ w.exit ≤ exit := by
    intro w hw hbb
    obtain ⟨u, hu, hwentry, hwexit⟩ := h.below w hw
    rw [hbb] at hu
    constructor
    · apply hwentry.trans
      apply hentry
      rw [h.entry, hu]
      rfl
    · apply hwexit.trans
      apply hexit
      rw [h.exit, hu]
      rfl
  have hchanged : (p.exits.get? bb != some exit) = true ↔
      ∀ w, Log.latest visits bb = some w → w.exit < exit := by
    rw [bne_iff_ne, h.exit]
    cases hlatest : Log.latest visits bb with
    | none => simp
    | some w =>
      have hle : w.exit ≤ exit := by
        apply hexit
        rw [h.exit, hlatest]
        rfl
      simp [lt_iff_le_and_ne, hle]
  constructor
  · intro b
    rw [hs.entries, Log.latest_append, h.entry]
    by_cases hb : b = bb <;> simp [hb]
  · intro b
    rw [hs.exits, Log.latest_append, h.exit]
    by_cases hb : b = bb <;> simp [hb]
  · intro w hw
    rw [Log.latest_append]
    by_cases hb : w.block = bb
    · -- the visit is the last one of its block now
      refine ⟨_, if_pos hb, ?_⟩
      rcases List.mem_append.1 hw with hw | hw
      · exact hgrows w hw hb
      · rw [List.mem_singleton.1 hw]
        exact ⟨le_rfl, le_rfl⟩
    · have hbefore : w ∈ visits := by
        rcases List.mem_append.1 hw with hw | hw
        · exact hw
        · exact absurd (congrArg Visit.block (List.mem_singleton.1 hw)) hb
      rw [if_neg hb]
      exact h.below w hbefore
  · exact h.rising.append hgrows hchanged

structure Told (v : Solver σ) (s₀ : Session σ) (p : Progress) (s : Session σ) : Prop where
  explored : v.Explored p
  consistent : v.Consistent p
  rising : v.Rising p
  history : ∃ visits, Log.visits s.log = Log.visits s₀.log ++ visits ∧ History p visits

theorem told_init (v : Solver σ) (s₀ : Session σ) : v.Told s₀ { waiting := [Body.entry] } s₀ :=
  ⟨explored_init v, consistent_init v, rising_init v, [], by simp, history_init⟩

theorem Told.step {s₀ : Session σ} (hv : v.Ready) (ha : v.analysis.Stateless)
    (hm : v.analysis.Monotone) (hs : v.Step bb rest entry exit p s p' s') (h : v.Told s₀ p s) :
    v.Told s₀ p' s' := by
  have hexplored := h.explored.step hs
  obtain ⟨visits, hvisits, hhistory⟩ := h.history
  obtain ⟨s₁, _, hjoin, hreplay, _⟩ := hs.runs
  obtain ⟨s₂, hsilent, htold⟩ := hs.moves hv (v.analysis.keeps_silent v.body) h.explored
  refine ⟨hexplored, h.consistent.step hv ha hs hexplored, h.rising.step ha hm hs h.consistent,
    visits ++ [⟨bb, entry, exit, p.exits.get? bb != some exit⟩], ?_, hhistory.step hs ?_ ?_⟩
  · rw [htold, Log.visits_log_tell_visited, show Log.visits s₂.log = _ from hsilent, hvisits,
      List.append_assoc]
  · intro old hold
    exact h.rising.le_entry hold hjoin
  · intro old hold
    exact h.rising.le_exit h.consistent ha hm hold hjoin hreplay

end Solver

namespace Analysis

variable {a : Analysis σ} {limits : Limits} {body : Body} {s s' : Session σ}

section

variable (ha : a.Stateless) (hm : a.Monotone)

include ha hm

theorem rising_of_iterate {start : LocalSet} {table : List (List BlockId)}
    (hready : (a.solver limits body start table).Ready) {limit : Datum} {allowed : Nat}
    (h : Run.Leaves ((a.solver limits body start table).iterate limit allowed
      { waiting := [Body.entry] }) s s') :
    ∃ visits, Log.visits s'.log = Log.visits s.log ++ visits ∧ Log.Rising visits := by
  rcases h with ⟨p, h⟩ | ⟨f, h⟩
  · obtain ⟨htold, _⟩ := Solver.iterate_induct _ (fun hs h => h.step hready ha hm hs) h
      (Solver.told_init _ s)
    obtain ⟨visits, hvisits, hhistory⟩ := htold.history
    exact ⟨visits, hvisits, hhistory.rising⟩
  · obtain ⟨bb, rest, p, t, htold, hw, hend⟩ := Solver.iterate_eq_error _
      (fun hs h => h.step hready ha hm hs) h (Solver.told_init _ s)
    obtain ⟨visits, hvisits, hhistory⟩ := htold.history
    have hreach : body.Reachable bb := htold.explored.reachable_of_waiting (by simp [hw])
    -- the visit that is stopped tells nothing of itself
    have hsilent : Log.visits s'.log = Log.visits t.log := by
      rcases hend with hvisit | ⟨_, rfl, _⟩
      · have hbb := hready.valid.hasBlock_of_reachable hreach
        have hstop := Solver.stop_of_visit hready hbb hvisit
        exact hstop.moves hready (a.keeps_silent body) htold.explored hreach
      · rfl
    exact ⟨visits, hsilent.trans hvisits, hhistory.rising⟩

theorem raises_of_iterate_shrank {start : LocalSet} {table : List (List BlockId)}
    (hready : (a.solver limits body start table).Ready) {limit : Datum} {allowed : Nat}
    {name : String} {b : BlockId} {lost : List Nat}
    (h : (a.solver limits body start table).iterate limit allowed { waiting := [Body.entry] } s =
      .error (.shrank name b lost) s') : a.Raises body (.shrank name b lost) := by
  obtain ⟨bb, rest, p, t, htold, hw, hend⟩ := Solver.iterate_eq_error _
    (fun hs h => h.step hready ha hm hs) h (Solver.told_init _ s)
  have hreach : body.Reachable bb := htold.explored.reachable_of_waiting (by simp [hw])
  rcases hend with hvisit | ⟨hlimit, _⟩
  · have hbb := hready.valid.hasBlock_of_reachable hreach
    have hstop := Solver.stop_of_visit hready hbb hvisit
    rcases hstop.cause hready htold.explored hreach with hraises | ⟨_, _, hdomain⟩ |
      ⟨_, entry, exit, old, u, hjoin, hreplay, hold, hnot⟩
    · exact hraises
    · cases hdomain
    · -- the exit state that is said to have shrunk has grown
      exact absurd (htold.rising.le_exit htold.consistent ha hm hold hjoin hreplay) hnot
  · cases hlimit

/-- Whether or not a run returns, the visits that it tells of are rising. -/
theorem rising_of_solve (h : Run.Leaves (a.solve limits body) s s') :
    ∃ visits, Log.visits s'.log = Log.visits s.log ++ visits ∧ Log.Rising visits := by
  have hstart : ∀ {bottom : LocalSet} {t : Session σ},
      Run.Leaves (Run.onto bottom (a.start body).run) s t → Log.visits t.log = Log.visits s.log :=
    fun h => ((a.start body).keeps_silent _).leaves h
  rcases h with ⟨r, h⟩ | ⟨f, h⟩
  · obtain ⟨bottom, start, s₁, table, p, s₂, hrun, _, _, _, _, _, _, rfl⟩ := solved_of_solve h
    obtain ⟨limit, allowed, hiterate⟩ := hrun.iterate_eq
    obtain ⟨visits, hvisits, hrising⟩ := rising_of_iterate ha hm hrun.ready (.inl ⟨p, hiterate⟩)
    refine ⟨visits, ?_, hrising⟩
    rw [← hstart (.inl ⟨_, Run.onto_eq_ok.2 hrun.start_eq⟩), ← hvisits]
    simp [Session.log_tell, Log.visits, Event.visit?]
  · rcases solve_eq_error h with ⟨_, rfl⟩ | ⟨_, rfl⟩ | ⟨bottom, hfails⟩ |
      ⟨bottom, start, s₁, table, hvalid, _, hstarts, htable, hiterate⟩
    · exact ⟨[], by simp, Log.rising_nil⟩
    · exact ⟨[], by simp, Log.rising_nil⟩
    · refine ⟨[], ?_, Log.rising_nil⟩
      rw [hstart (.inr ⟨f, hfails⟩), List.append_nil]
    · obtain ⟨visits, hvisits, hrising⟩ :=
        rising_of_iterate ha hm ⟨hvalid, htable⟩ (.inr ⟨f, hiterate⟩)
      refine ⟨visits, ?_, hrising⟩
      rw [← hstart (.inl ⟨_, Run.onto_eq_ok.2 hstarts⟩), hvisits]

/-- No state shrinks: a run is told so only by the analysis itself. -/
theorem raises_of_solve_shrank {name : String} {b : BlockId} {lost : List Nat}
    (h : a.solve limits body s = .error (.shrank name b lost) s') :
    a.Raises body (.shrank name b lost) := by
  rcases solve_eq_error h with ⟨hinvalid, _⟩ | ⟨hbottom, _⟩ | ⟨bottom, hstart⟩ |
    ⟨bottom, start, s₁, table, hvalid, _, _, htable, hiterate⟩
  · rcases Body.validate_eq_error hinvalid with h | h | ⟨_, _, _, _, h⟩ | ⟨_, _, _, h⟩ <;> cases h
  · exact .bottom hbottom
  · obtain ⟨_, hraised⟩ := Run.onto_eq_error.1 hstart
    exact .start hraised
  · exact raises_of_iterate_shrank ha hm ⟨hvalid, htable⟩ hiterate

end

end Analysis

/-! ### The may-taint analysis -/

section

variable {η : Type} {body : Body} {seed : List Datum} {settings : Settings η}
  {s s' : Session (Taint.Memory η)}

/-- States only grow in the course of an analysis whose model of calls, if it has one, is stateless
and monotone. The visits told of are rising, also if the analysis fails, and it never fails because
a state shrank, unless the model itself says so. -/
theorem analyze_rising
    (hmodel : ∀ model, settings.callModel = some model →
      ∀ c l, (model c l).Stateless ∧ (model c l).Monotone)
    (h : Run.Leaves (analyze body seed settings) s s') :
    (∃ visits, Log.visits s'.log = Log.visits s.log ++ visits ∧ Log.Rising visits) ∧
    ∀ name bb lost, analyze body seed settings s = .error (.shrank name bb lost) s' →
      ∃ model c l, settings.callModel = some model ∧
        ∃ (S : LocalSet) (t : Session η) (u : LocalSet × Session η),
          (model c l).run (S, t) = .error (.shrank name bb lost) u := by
  have ha : (Taint.mk seed settings).analysis.Stateless :=
    Taint.analysis_stateless fun model hm c l => (hmodel model hm c l).1
  have hm : (Taint.mk seed settings).analysis.Monotone :=
    Taint.analysis_monotone fun model hm c l => (hmodel model hm c l).2
  constructor
  · have hsolve : Run.Leaves ((Taint.mk seed settings).analysis.solve settings.toLimits body)
        { s with memory := { s.memory with audit := {} } } s' := by
      rcases h with ⟨r, h⟩ | ⟨f, h⟩
      · obtain ⟨r₀, hr₀, _⟩ := analyze_eq_ok.1 h
        exact .inl ⟨r₀, hr₀⟩
      · exact .inr ⟨f, solve_eq_error_of_analyze h⟩
    -- what the audit log holds does not show in the visits
    have hrising := Analysis.rising_of_solve ha hm hsolve
    exact hrising
  · intro name bb lost hfails
    have hraises := Analysis.raises_of_solve_shrank ha hm (solve_eq_error_of_analyze hfails)
    rcases Taint.isOwn_or_model_of_raises hraises with hown | hraised
    · cases hown
    · exact hraised

def wary : Settings Unit :=
  { callModel := some fun _ _ =>
      .ask (.int 1) fun b => if b then .raise (.raised "tainted") else .skip }

def callAgain : Body :=
  ⟨2, [⟨[], .call ⟨.constant .null, [], none, some 1, none⟩⟩,
    ⟨[.assign (.int 1) (.use (.copy (.int 0)))], .goto 0⟩], "callAgain"⟩

end

end

attribute [local instance] Machine.ample

/-- The second return of the call is refused, after three visits. -/
theorem analyze_rising_wary :
    ∃ s', analyze callAgain [.int 0] wary ⟨⟨{}, ()⟩, []⟩ = .error (.raised "tainted") s' ∧
      (Log.visits s'.log).map Visit.block = [0, 1, 0] ∧ Log.Rising (Log.visits s'.log) := by
  have hmodel : ∀ model, wary.callModel = some model →
      ∀ c l, (model c l).Stateless ∧ (model c l).Monotone := by
    intro model hm c l
    cases hm
    constructor
    · apply Effect.Plain.stateless
      intro b
      cases b <;> trivial
    · intro S T S' T' s s₁ s₂ hle hS hT
      obtain ⟨b, _, hS⟩ := Effect.run_ask_eq_ok.1 hS
      obtain ⟨c, _, hT⟩ := Effect.run_ask_eq_ok.1 hT
      cases b <;> cases c <;> cases hS <;> cases hT
      exact hle
  obtain ⟨s', h, hblocks⟩ : ∃ s', analyze callAgain [.int 0] wary ⟨⟨{}, ()⟩, []⟩ =
      .error (.raised "tainted") s' ∧ (Log.visits s'.log).map Visit.block = [0, 1, 0] :=
    ⟨_, by cbv, by cbv⟩
  obtain ⟨⟨visits, hvisits, hrising⟩, _⟩ := analyze_rising hmodel (.inr ⟨_, h⟩)
  have hall : Log.visits s'.log = visits := hvisits
  exact ⟨s', h, hblocks, hall ▸ hrising⟩

end MayTaint
