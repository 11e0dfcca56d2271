import MayTaint.Proofs.FixedPoint
import MayTaint.Proofs.Taint.Rules

/-!
What a model of calls applies to. A call has a return edge to its continuation and may have an
unwind edge to a cleanup block, and a model of calls speaks about the former. The search knows
predecessors and no edges: for a block with a return edge to the one that is entered, it joins what
the model makes of the exit state, and nothing else. So along every edge flows what should, except
along an unwind edge that runs beside a return edge, whose state is lost unless it arrives by other
ways.
-/

namespace MayTaint

section

variable {η : Type}

/-! ### Edges beside a return edge -/

namespace Terminator

variable {t : Terminator} {out : List (BlockId × EdgeKind)} {bb : BlockId} {kind : EdgeKind}

theorem mem_edgeTo {kind' : EdgeKind} {target : Option BlockId} :
    (bb, kind) ∈ edges.edgeTo kind' target ↔ target = some bb ∧ kind = kind' := by
  cases target with
  | none => simp [edges.edgeTo]
  | some bb' => simp [edges.edgeTo, eq_comm]

/-- Return edges are those of calls, to their continuation. -/
theorem mem_callReturn_iff (h : t.edges = .ok out) :
    (bb, .callReturn) ∈ out ↔ ∃ c, t = .call c ∧ c.target = some bb := by
  cases t <;> cases h <;> simp [mem_edgeTo]

/-- Beside a return edge there can only be an unwind edge. -/
theorem eq_unwind_of_mem (h : t.edges = .ok out) (hreturn : (bb, .callReturn) ∈ out)
    (hkind : (bb, kind) ∈ out) (hne : kind ≠ .callReturn) : kind = .unwind := by
  obtain ⟨c, rfl, _⟩ := (mem_callReturn_iff h).1 hreturn
  cases h
  simp only [List.mem_append, mem_edgeTo] at hkind
  rcases hkind with ⟨_, hkind⟩ | ⟨_, hkind⟩
  · exact absurd hkind hne
  · exact hkind

end Terminator

/-- The edges without those that run beside a return edge. -/
def unshadowed (edges : List (BlockId × BlockId × EdgeKind)) :
    List (BlockId × BlockId × EdgeKind) :=
  edges.filter fun (src, dst, kind) =>
    kind == .callReturn || !edges.contains (src, dst, .callReturn)

theorem mem_unshadowed {edges : List (BlockId × BlockId × EdgeKind)} {src dst : BlockId}
    {kind : EdgeKind} : (src, dst, kind) ∈ unshadowed edges ↔
      (src, dst, kind) ∈ edges ∧ (kind = .callReturn ∨ (src, dst, .callReturn) ∉ edges) := by
  simp [unshadowed]

variable [Machine]

namespace CallModel

/-- What the model makes of the exit state of a block along an edge of the given kind: it applies to
return edges, and all others carry the state as it is. -/
inductive Carries (model : CallModel η) (body : Body) (src : BlockId) :
    EdgeKind → LocalSet → LocalSet → Prop
  | returned {b : Block} {c : Call} {exit flow : LocalSet} (hb : body.block src = .ok b)
    (hc : b.terminator = .call c)
    (h : Turns (model c ⟨src, b.terminatorIndex⟩).run exit flow) :
    Carries model body src .callReturn exit flow
  | other {kind : EdgeKind} {exit : LocalSet} (h : kind ≠ .callReturn) :
    Carries model body src kind exit exit

def inflow (model : CallModel η) (body : Body) (edges : List (BlockId × BlockId × EdgeKind))
    (exits : Table LocalSet) (bb : BlockId) : Set LocalSet :=
  {flow | ∃ src kind exit, (src, bb, kind) ∈ edges ∧ exits.get? src = some exit ∧
    model.Carries body src kind exit flow}

end CallModel

/-! ### What the search joins -/

namespace Taint

variable {t : Taint η} {model : CallModel η} {body : Body} {bb src : BlockId} {b : Block}
  {edges : List (BlockId × BlockId × EdgeKind)} {out : List (BlockId × EdgeKind)}
  {exits : Table LocalSet} {exit flow : LocalSet}

section

variable (s : Session (Memory η)) (hb : body.block src = .ok b)
  (hout : b.terminator.edges = .ok out)

include s hb hout

/-- If there is a return edge, what flows is what the model makes of the exit state. -/
theorem yields_edgeState_returned (hmodel : t.settings.callModel = some model)
    (hreturn : (bb, .callReturn) ∈ out) :
    Run.Yields (t.analysis.edgeState body src bb exit) flow ↔
      model.Carries body src .callReturn exit flow := by
  obtain ⟨c, hc, htarget⟩ := (Terminator.mem_callReturn_iff hout).1 hreturn
  have hcall : t.callReturn c ⟨src, b.terminatorIndex⟩ =
      (model c ⟨src, b.terminatorIndex⟩).within Memory.model fun h m => { m with model := h } := by
    simp only [callReturn, hmodel]
  rw [Analysis.yields_edgeState_of_returnsTo hb ⟨hc, htarget⟩]
  show Turns (t.callReturn c _).run exit flow ↔ _
  rw [hcall, Effect.turns_within (fun _ _ => rfl) s.memory]
  constructor
  · exact CallModel.Carries.returned hb hc
  · intro h
    cases h with
    | returned hb' hc' h =>
      cases hb.symm.trans hb'
      cases hc.symm.trans hc'
      exact h
    | other h => exact absurd rfl h

/-- If there is none, the exit state flows as it is. -/
theorem yields_edgeState_other (hreturn : (bb, .callReturn) ∉ out) :
    Run.Yields (t.analysis.edgeState body src bb exit) flow ↔ flow = exit := by
  have hc : ∀ c, ¬Analysis.ReturnsTo b bb c := by
    intro c hc
    exact hreturn ((Terminator.mem_callReturn_iff hout).2 ⟨c, hc.1, hc.2⟩)
  have hyields := Analysis.yields_edgeState_of_not_returnsTo (a := t.analysis) exit hb hc
  constructor
  · intro h
    exact h.eq_of_ok (hyields s).choose_spec
  · rintro rfl
    exact hyields

end

/-- What the search joins into a block is what flows along the edges without the shadowed ones. -/
theorem flows_eq_inflow (s : Session (Memory η)) (hmodel : t.settings.callModel = some model)
    (hedges : body.edges = .ok edges) {preds : List BlockId}
    (hpreds : ∀ {pred}, pred ∈ preds ↔ body.hasBlock pred = true ∧ body.Edge pred bb) :
    t.analysis.flows body exits preds bb = model.inflow body (unshadowed edges) exits bb := by
  ext flow
  constructor
  · rintro ⟨src, hsrc, exit, hexit, hflow⟩
    obtain ⟨hblock, b, out, kind, hb, hout, hkind⟩ := hpreds.1 hsrc
    by_cases hreturn : (bb, .callReturn) ∈ out
    · refine ⟨src, .callReturn, exit, mem_unshadowed.2 ⟨?_, .inl rfl⟩, hexit, ?_⟩
      · exact (Body.mem_edges hedges).2 ⟨hblock, b, out, hb, hout, hreturn⟩
      · exact (yields_edgeState_returned s hb hout hmodel hreturn).1 hflow
    · have hne : kind ≠ .callReturn := by
        rintro rfl
        exact hreturn hkind
      refine ⟨src, kind, exit, mem_unshadowed.2 ⟨?_, .inr fun hmem => ?_⟩, hexit, ?_⟩
      · exact (Body.mem_edges hedges).2 ⟨hblock, b, out, hb, hout, hkind⟩
      · obtain ⟨_, b', out', hb', hout', hreturn'⟩ := (Body.mem_edges hedges).1 hmem
        cases hb.symm.trans hb'
        cases hout.symm.trans hout'
        exact hreturn hreturn'
      · rw [(yields_edgeState_other s hb hout hreturn).1 hflow]
        exact .other hne
  · rintro ⟨src, kind, exit, hmem, hexit, hflow⟩
    obtain ⟨hmem, hlead⟩ := mem_unshadowed.1 hmem
    obtain ⟨hblock, b, out, hb, hout, hkind⟩ := (Body.mem_edges hedges).1 hmem
    refine ⟨src, hpreds.2 ⟨hblock, b, out, kind, hb, hout, hkind⟩, exit, hexit, ?_⟩
    rcases hlead with rfl | hnone
    · exact (yields_edgeState_returned s hb hout hmodel hkind).2 hflow
    · have hreturn : (bb, .callReturn) ∉ out := fun h =>
        hnone ((Body.mem_edges hedges).2 ⟨hblock, b, out, hb, hout, h⟩)
      cases hflow with
      | returned => exact absurd hkind hreturn
      | other => exact (yields_edgeState_other s hb hout hreturn).2 rfl

/-- Taking the shadowed edges in as well makes a difference exactly if one of them brings something
new. -/
theorem isLUB_inflow_iff (hedges : body.edges = .ok edges) {base entry : LocalSet}
    (h : IsLUB (insert base (model.inflow body (unshadowed edges) exits bb)) entry) :
    IsLUB (insert base (model.inflow body edges exits bb)) entry ↔
      ∀ src exit, (src, bb, .callReturn) ∈ edges → (src, bb, .unwind) ∈ edges →
        exits.get? src = some exit → exit ≤ entry := by
  constructor
  · intro hall src exit _ hunwind hexit
    apply hall.1
    exact .inr ⟨src, .unwind, exit, hunwind, hexit, .other (by decide)⟩
  · intro hbeside
    constructor
    · rintro flow (rfl | ⟨src, kind, exit, hmem, hexit, hflow⟩)
      · exact h.1 (.inl rfl)
      · by_cases hlead : kind = .callReturn ∨ (src, bb, .callReturn) ∉ edges
        · apply h.1
          exact .inr ⟨src, kind, exit, mem_unshadowed.2 ⟨hmem, hlead⟩, hexit, hflow⟩
        · -- a shadowed edge is an unwind edge, and carries the exit state as it is
          simp only [not_or, not_not] at hlead
          obtain ⟨hne, hreturn⟩ := hlead
          obtain ⟨_, b, out, hb, hout, hkind⟩ := (Body.mem_edges hedges).1 hmem
          obtain ⟨_, b', out', hb', hout', hreturn'⟩ := (Body.mem_edges hedges).1 hreturn
          cases hb.symm.trans hb'
          cases hout.symm.trans hout'
          obtain rfl := Terminator.eq_unwind_of_mem hout hreturn' hkind hne
          cases hflow
          exact hbeside src _ hreturn hmem hexit
    · intro w hw
      apply h.2
      rintro flow (rfl | ⟨src, kind, exit, hmem, hexit, hflow⟩)
      · exact hw (.inl rfl)
      · exact hw (.inr ⟨src, kind, exit, (mem_unshadowed.1 hmem).1, hexit, hflow⟩)

end Taint

section

variable {body : Body} {seed : List Datum} {settings : Settings η} {model : CallModel η}
  {s s' : Session (Taint.Memory η)} {r : Results (Taint.Memory η)}

/-- With a stateless model of calls, the state at the entry of a block is the join of the seed, if
it is the first one, with what flows along the edges from the blocks that were reached: what the
model makes of the exit state along a return edge, and the exit state itself along any other edge
that does not run beside a return edge. All edges can be taken in exactly if the states along the
unwind edges beside return edges arrive anyway. -/
theorem analyze_inflow (hmodel : settings.callModel = some model)
    (hstateless : ∀ c l, (model c l).Stateless) (h : analyze body seed settings s = .ok r s') :
    ∃ edges, body.edges = .ok edges ∧ ∀ bb entry, r.entries.get? bb = some entry →
      ∃ base, LocalSet.ofList body.localCount (if bb = Body.entry then seed else []) = .ok base ∧
        (∀ src kind exit, (src, bb, kind) ∈ edges → r.exits.get? src = some exit →
          ∃ flow, model.Carries body src kind exit flow) ∧
        IsLUB (insert base (model.inflow body (unshadowed edges) r.exits bb)) entry ∧
        (IsLUB (insert base (model.inflow body edges r.exits bb)) entry ↔
          ∀ src exit, (src, bb, .callReturn) ∈ edges → (src, bb, .unwind) ∈ edges →
            r.exits.get? src = some exit → exit ≤ entry) := by
  have ha : (Taint.mk seed settings).analysis.Stateless := by
    apply Taint.analysis_stateless
    intro model' hmodel'
    cases hmodel.symm.trans hmodel'
    exact hstateless
  obtain ⟨r₀, hr₀, rfl⟩ := analyze_eq_ok.1 h
  obtain ⟨bottom, start, s₁, table, p, s₂, hrun, -, -, hentries, hexits, -, -, -⟩ :=
    Analysis.solved_of_solve hr₀
  obtain ⟨limit, allowed, hiterate⟩ := hrun.iterate_eq
  obtain ⟨hexplored, hconsistent, hw⟩ := hrun.ready.tables ha hiterate
  obtain ⟨edges, hedges⟩ := hrun.valid.exists_edges
  refine ⟨edges, hedges, fun bb entry hentry => ?_⟩
  simp only [hentries] at hentry
  simp only [hexits]
  have hbb : body.hasBlock bb = true := by
    obtain ⟨exit, hexit⟩ := hconsistent.exists_exit hentry
    exact hrun.valid.hasBlock_of_reachable (hexplored.reachable_of_visited (by simp [hexit]))
  obtain ⟨preds, hpreds, hmem, hlub, hall⟩ := hconsistent.isLUB_entry hrun.ready ha s hrun.bottom_eq
    hbb hentry (by simp [hw])
  have hlead : IsLUB (insert (if bb = Body.entry then start else bottom)
      (model.inflow body (unshadowed edges) p.exits bb)) entry := by
    rw [← Taint.flows_eq_inflow (t := ⟨seed, settings⟩) s hmodel hedges hmem]
    exact hlub
  refine ⟨if bb = Body.entry then start else bottom, ?_, ?_, hlead,
    Taint.isLUB_inflow_iff hedges hlead⟩
  · have hbottom : LocalSet.bottom body.localCount = .ok bottom := hrun.bottom_eq
    have hstart := (Taint.run_start hrun.start_eq).1
    split
    · exact except_bind_eq_ok.2 ⟨bottom, hbottom, hstart⟩
    · exact except_bind_eq_ok.2 ⟨bottom, hbottom, rfl⟩
  · intro src kind exit hmem' hexit
    obtain ⟨hblock, b, out, hb, hout, hkind⟩ := (Body.mem_edges hedges).1 hmem'
    by_cases hreturn : kind = .callReturn
    · subst hreturn
      obtain ⟨flow, hflow⟩ := hall src (hmem.2 ⟨hblock, b, out, _, hb, hout, hkind⟩) exit hexit
      exact ⟨flow, (Taint.yields_edgeState_returned s hb hout hmodel hkind).1 hflow⟩
    · exact ⟨exit, .other hreturn⟩

def cleaning : CallModel Unit := fun _ _ => Effect.clean (.int 0)

def oneWay : Body :=
  ⟨1, [⟨[], .call ⟨.constant (.text "f"), [], some (.int 0), some 1, some 1⟩⟩, ⟨[], .ret⟩],
    "oneWay"⟩

end

end

attribute [local instance] Machine.ample

theorem analyze_inflow_oneWay :
    ∃ r s' edges entry base,
      analyze oneWay [.int 0] { callModel := some cleaning } ⟨⟨{}, ()⟩, []⟩ = .ok r s' ∧
      oneWay.edges = .ok edges ∧ r.entries.get? 1 = some entry ∧
      LocalSet.ofList oneWay.localCount [] = .ok base ∧
      IsLUB (insert base (cleaning.inflow oneWay (unshadowed edges) r.exits 1)) entry := by
  obtain ⟨r, s', entry, h, hentry⟩ : ∃ r s' entry, analyze oneWay [.int 0]
      { callModel := some cleaning } ⟨⟨{}, ()⟩, []⟩ = .ok r s' ∧ r.entries.get? 1 = some entry :=
    ⟨_, _, _, by cbv, by cbv⟩
  have hstateless : ∀ c l, (cleaning c l).Stateless := fun _ _ => Effect.Plain.stateless trivial
  obtain ⟨edges, hedges, hblocks⟩ := analyze_inflow rfl hstateless h
  obtain ⟨base, hbase, _, hlub, _⟩ := hblocks 1 entry hentry
  exact ⟨r, s', edges, entry, base, h, hedges, hentry, hbase, hlub⟩

/-- The model is stateless, monotone and never refuses, and yet the taint of local 0, which the call
keeps when it unwinds, does not reach the cleanup block. -/
theorem analyze_loses_unwind :
    (∀ c l, (cleaning c l).Stateless ∧ (cleaning c l).Monotone ∧
      ∀ S : LocalSet, S.size = oneWay.localCount → ∃ T, Turns (cleaning c l).run S T) ∧
    ∃ r s' edges entry base,
      analyze oneWay [.int 0] { callModel := some cleaning } ⟨⟨{}, ()⟩, []⟩ = .ok r s' ∧
      oneWay.edges = .ok edges ∧ r.entries.get? 1 = some entry ∧
      LocalSet.ofList oneWay.localCount [] = .ok base ∧
      ¬IsLUB (insert base (cleaning.inflow oneWay edges r.exits 1)) entry := by
  constructor
  · intro c l
    refine ⟨Effect.Plain.stateless trivial, Effect.setTaint_monotone false _, fun S hS => ?_⟩
    have hpos : 0 < S.size := by
      rw [Int.ofNat.inj hS]
      decide
    have hsets : Machine.sets 0 = true := by decide
    have hplace : S.place (.int 0) = .ok ⟨0, hpos⟩ := LocalSet.place_eq_ok_iff.2 ⟨rfl, hsets⟩
    refine ⟨S.put ⟨0, hpos⟩ false, fun s => ⟨s, ?_⟩⟩
    show (Effect.setTaint false (.int 0)).run (S, s) = _
    exact Effect.run_setTaint_eq_ok.2 ⟨_, hplace, rfl⟩
  · obtain ⟨r, s', h, hentry, hexit⟩ : ∃ r s', analyze oneWay [.int 0]
        { callModel := some cleaning } ⟨⟨{}, ()⟩, []⟩ = .ok r s' ∧
        r.entries.get? 1 = some ⟨1, 0#1⟩ ∧ r.exits.get? 0 = some ⟨1, 1#1⟩ :=
      ⟨_, _, by cbv, by cbv, by cbv⟩
    have hedges : oneWay.edges = .ok [(0, 1, .callReturn), (0, 1, .unwind)] := by cbv
    refine ⟨r, s', _, _, LocalSet.empty 1, h, hedges, hentry, rfl, fun hlub => ?_⟩
    have hle : (⟨1, 1#1⟩ : LocalSet) ≤ ⟨1, 0#1⟩ := by
      apply hlub.1
      exact .inr ⟨0, .unwind, _, by simp, hexit, .other (by decide)⟩
    exact absurd (hle.2 0 (by decide)) (by decide)

end MayTaint
