import MayTaint.Proofs.Taint.Paths

/-!
The analysis is linear in its seed. What it finds at the entry and at the exit of a block are the
locals that some walk leaves tainted there, and carrying taint along a walk distributes over unions.
So the sets for a seed that is put together from two are the unions of the sets for the two, in
whatever order and however often the seed names its locals, and nothing comes from no seed.
-/

namespace MayTaint

namespace Body

variable {body : Body} {A B C : List Datum} {bb : BlockId} {path : List BlockId} {l : Location}

/-- The locals that some walk leaves tainted at the exit of a block. -/
def mayLeave (body : Body) (seed : List Datum) (bb : BlockId) : Set Datum :=
  (body.instructionsOf bb).foldl Instruction.carry (body.mayTaint seed bb)

theorem taintedAlong_union (h : ∀ d, d ∈ C ↔ d ∈ A ∨ d ∈ B) :
    body.taintedAlong C path l = body.taintedAlong A path l ∪ body.taintedAlong B path l := by
  have hseed : {d | d ∈ C} = {d | d ∈ A} ∪ {d | d ∈ B} := by
    ext d
    exact h d
  simp only [taintedAlong, hseed, Instruction.foldl_carry_union]

theorem mayTaint_union (h : ∀ d, d ∈ C ↔ d ∈ A ∨ d ∈ B) :
    body.mayTaint C bb = body.mayTaint A bb ∪ body.mayTaint B bb := by
  ext d
  constructor
  · rintro ⟨path, hpath, hd⟩
    rw [taintedAlong_union h] at hd
    exact hd.imp (fun hd => ⟨path, hpath, hd⟩) fun hd => ⟨path, hpath, hd⟩
  · rintro (⟨path, hpath, hd⟩ | ⟨path, hpath, hd⟩)
    · exact ⟨path, hpath, (taintedAlong_union h).symm ▸ .inl hd⟩
    · exact ⟨path, hpath, (taintedAlong_union h).symm ▸ .inr hd⟩

theorem mayTaint_nil (body : Body) (bb : BlockId) : body.mayTaint [] bb = ∅ := by
  ext d
  simp [mayTaint, taintedAlong, Instruction.foldl_carry_empty]

theorem mayLeave_union (h : ∀ d, d ∈ C ↔ d ∈ A ∨ d ∈ B) :
    body.mayLeave C bb = body.mayLeave A bb ∪ body.mayLeave B bb := by
  rw [mayLeave, mayTaint_union h, Instruction.foldl_carry_union]
  rfl

theorem mayLeave_nil (body : Body) (bb : BlockId) : body.mayLeave [] bb = ∅ := by
  rw [mayLeave, mayTaint_nil, Instruction.foldl_carry_empty]

/-- What a machine can carry out from a seed, it can carry out from every part of it. -/
theorem Feasible.mono [Machine] (hC : body.Feasible C) (h : A ⊆ C) : body.Feasible A where
  sets i hi := hC.sets i (hi.imp_left fun hi => h hi)
  writes := hC.writes

end Body

section

variable [Machine] {η : Type} {body : Body} {seed A B C : List Datum} {bb : BlockId} {n : Nat}
  {s s' : Session (Taint.Memory η)} {r : Results (Taint.Memory η)}

/-- What an analysis that has returned finds at the entry and at the exit of a block is exact. -/
theorem exists_sets_of_analyze (hbody : body.WellFormed) (hn : body.localCount = n)
    (h : analyze body seed {} s = .ok r s') (hbb : body.hasBlock bb = true) :
    ∃ E X, r.entrySet bb = .ok E ∧ r.exitSet bb = .ok X ∧ E.size = n ∧ X.size = n ∧
      E.members = body.mayTaint seed bb ∧ X.members = body.mayLeave seed bb := by
  obtain ⟨r₀, hr₀, rfl⟩ := analyze_eq_ok.1 h
  obtain ⟨bottom, start, s₁, table, p, s₂, hrun, hsame, -, hentries, hexits, -⟩ :=
    Analysis.solved_of_solve hr₀
  have ht : (⟨seed, {}⟩ : Taint η).Lenient := Taint.lenient_default
  obtain ⟨ha, _⟩ := ht.stateless_monotone
  obtain ⟨hsize, hmembers⟩ := Taint.members_entry s ht hbody
    (Taint.feasible_of_solved hbody.isTyped ht.callModel hrun) hn hrun bb
  cases (Taint.bottom_eq hn).symm.trans hrun.bottom_eq
  obtain ⟨limit, allowed, hiterate⟩ := hrun.iterate_eq
  obtain ⟨_, hconsistent, _⟩ := hrun.ready.tables ha hiterate
  obtain ⟨b, hb⟩ := hrun.valid.exists_block hbb
  have hstate : ∀ t : Table LocalSet, Results.stateIn
      { r₀ with analysis := (Taint.mk (η := η) seed {}).quiet.analysis } t bb =
        .ok ((t.get? bb).getD (.empty n)) :=
    Results.stateIn_eq (hsame ▸ hbb) (hsame ▸ hb) (hsame ▸ Taint.bottom_eq hn)
  refine ⟨_, _, hstate r₀.entries, hstate r₀.exits, ?_⟩
  rw [hentries, hexits]
  cases hexit : p.exits.get? bb with
  | some exit =>
    obtain ⟨entry, hentry⟩ := hconsistent.exists_entry hexit
    have hturns := hconsistent.replayed hentry hexit
    rw [hentry] at hsize hmembers
    have hexitsize : exit.size = entry.size := Analysis.size_replay (hturns s).choose_spec
    rw [hentry]
    refine ⟨hsize, hexitsize.trans hsize, hmembers, ?_⟩
    rw [Body.mayLeave, ← hmembers]
    exact Taint.members_of_replay hbody hbb hturns s
  | none =>
    -- a block without an exit state has no entry state, hence no walk leads a taint there
    rw [hconsistent.visited.2 hexit] at hmembers ⊢
    have hnone : body.mayTaint seed bb = ∅ := hmembers.symm.trans (LocalSet.members_empty n)
    refine ⟨rfl, rfl, hmembers, ?_⟩
    rw [Body.mayLeave, hnone, Instruction.foldl_carry_empty]
    exact LocalSet.members_empty n

/-- The analysis of a well-formed body is linear in its seed. It returns exactly if it is feasible;
then it returns for every part of the seed as well, the sets for the whole seed are the joins of the
sets for its parts, and those for no seed are empty. -/
theorem analyze_linear (hbody : body.WellFormed)
    (hA : ∀ d ∈ A, d.isLocal body.localCount = true)
    (hB : ∀ d ∈ B, d.isLocal body.localCount = true) (hC : ∀ d, d ∈ C ↔ d ∈ A ∨ d ∈ B)
    (s : Session (Taint.Memory η)) :
    ((∃ r s', analyze body C {} s = .ok r s') ↔ body.Feasible C) ∧
    ∀ r s', analyze body C {} s = .ok r s' → ∃ rA sA rB sB r₀ s₀,
      analyze body A {} s = .ok rA sA ∧ analyze body B {} s = .ok rB sB ∧
      analyze body [] {} s = .ok r₀ s₀ ∧ ∀ bb, body.hasBlock bb = true →
        (∃ S T U, rA.entrySet bb = .ok S ∧ rB.entrySet bb = .ok T ∧ r.entrySet bb = .ok U ∧
          S.join T = .ok U) ∧
        (∃ S T U, rA.exitSet bb = .ok S ∧ rB.exitSet bb = .ok T ∧ r.exitSet bb = .ok U ∧
          S.join T = .ok U) ∧
        r₀.entrySet bb = .ok (.empty body.localCount.toNat) ∧
        r₀.exitSet bb = .ok (.empty body.localCount.toNat) := by
  have hv := Body.valid_of_validate hbody.validate
  obtain ⟨n, hn⟩ := Int.eq_ofNat_of_zero_le hv.localCount_nonneg
  have hseed : ∀ d ∈ C, d.isLocal body.localCount = true := fun d hd =>
    ((hC d).1 hd).elim (hA d) (hB d)
  have hreturns : ∀ {seed : List Datum}, seed ⊆ C →
      ((∃ r s', analyze body seed {} s = .ok r s') ↔ body.Feasible seed) := fun hsub =>
    analyze_returns_iff hbody (fun d hd => hseed d (hsub hd)) Taint.lenient_default rfl s
  refine ⟨hreturns (List.Subset.refl C), fun r s' h => ?_⟩
  have hfeasible := (hreturns (List.Subset.refl C)).1 ⟨r, s', h⟩
  have hpart : ∀ {seed : List Datum}, seed ⊆ C → ∃ r s', analyze body seed {} s = .ok r s' :=
    fun hsub => (hreturns hsub).2 (hfeasible.mono hsub)
  obtain ⟨rA, sA, hrA⟩ := hpart fun d hd => (hC d).2 (.inl hd)
  obtain ⟨rB, sB, hrB⟩ := hpart fun d hd => (hC d).2 (.inr hd)
  obtain ⟨r₀, s₀, hr₀⟩ := hpart (List.nil_subset C)
  refine ⟨rA, sA, rB, sB, r₀, s₀, hrA, hrB, hr₀, fun bb hbb => ?_⟩
  obtain ⟨EA, XA, hEA, hXA, hEAn, hXAn, hEAm, hXAm⟩ := exists_sets_of_analyze hbody hn hrA hbb
  obtain ⟨EB, XB, hEB, hXB, hEBn, hXBn, hEBm, hXBm⟩ := exists_sets_of_analyze hbody hn hrB hbb
  obtain ⟨E, X, hE, hX, hEn, hXn, hEm, hXm⟩ := exists_sets_of_analyze hbody hn h hbb
  obtain ⟨E₀, X₀, hE₀, hX₀, hE₀n, hX₀n, hE₀m, hX₀m⟩ := exists_sets_of_analyze hbody hn hr₀ hbb
  refine ⟨⟨EA, EB, E, hEA, hEB, hE, ?_⟩, ⟨XA, XB, X, hXA, hXB, hX, ?_⟩, ?_, ?_⟩
  · apply LocalSet.join_of_members (hEAn.trans hEn.symm) (hEBn.trans hEn.symm)
    rw [hEm, hEAm, hEBm, Body.mayTaint_union hC]
  · apply LocalSet.join_of_members (hXAn.trans hXn.symm) (hXBn.trans hXn.symm)
    rw [hXm, hXAm, hXBm, Body.mayLeave_union hC]
  · rw [hE₀, hn, Int.toNat_natCast, ← hE₀n,
      ← LocalSet.eq_empty_of_members (hE₀m.trans (body.mayTaint_nil bb))]
  · rw [hX₀, hn, Int.toNat_natCast, ← hX₀n,
      ← LocalSet.eq_empty_of_members (hX₀m.trans (body.mayLeave_nil bb))]

end

attribute [local instance] Machine.ample in
/-- The seed may name its locals in any order and more than once. -/
theorem analyze_linear_relay :
    ∃ r s', analyze relay [.int 1, .int 0, .int 2, .int 0] {} ⟨⟨{}, ()⟩, []⟩ = .ok r s' ∧
      ∃ rA sA rB sB, analyze relay [.int 0] {} ⟨⟨{}, ()⟩, []⟩ = .ok rA sA ∧
        analyze relay [.int 2, .int 1] {} ⟨⟨{}, ()⟩, []⟩ = .ok rB sB ∧
        ∃ S T U, rA.entrySet 1 = .ok S ∧ rB.entrySet 1 = .ok T ∧ r.entrySet 1 = .ok U ∧
          S.join T = .ok U := by
  have hbody : relay.WellFormed := ⟨by cbv, by decide⟩
  have hA : ∀ d ∈ [Datum.int 0], d.isLocal relay.localCount = true := by decide
  have hB : ∀ d ∈ [Datum.int 2, .int 1], d.isLocal relay.localCount = true := by decide
  have hC : ∀ d, d ∈ [Datum.int 1, .int 0, .int 2, .int 0] ↔
      d ∈ [Datum.int 0] ∨ d ∈ [Datum.int 2, .int 1] := by
    intro d
    simp only [List.mem_cons, List.not_mem_nil, or_false]
    tauto
  obtain ⟨r, s', h⟩ : ∃ r s', analyze relay [.int 1, .int 0, .int 2, .int 0] {}
      ⟨⟨{}, ()⟩, []⟩ = .ok r s' := ⟨_, _, by cbv⟩
  obtain ⟨rA, sA, rB, sB, _, _, hrA, hrB, _, hsets⟩ := (analyze_linear hbody hA hB hC _).2 r s' h
  exact ⟨r, s', h, rA, sA, rB, sB, hrA, hrB, (hsets 1 (by decide)).1⟩

def beyond : Body :=
  ⟨2361183241434822606848,
    [⟨[.assign (.int 1180591620717411303424) (.use (.copy (.int 0)))], .goto 1⟩, ⟨[], .ret⟩],
    "<body>"⟩

/-- Even with no seed a body can be too large to be analysed. -/
theorem analyze_fails_beyond :
    beyond.WellFormed ∧
      ∀ [Machine], ∃ f s', analyze beyond [] {} ⟨⟨{}, ()⟩, []⟩ = .error f s' := by
  have hbody : beyond.WellFormed := ⟨by cbv, by decide⟩
  refine ⟨hbody, ?_⟩
  intro _
  have hchanged : .int ((1180591620717411303424 : Nat) : Int) ∈ beyond.changed [] :=
    .inr ⟨0, Body.Reachable.entry, _, List.mem_cons_self, [.int 0], rfl⟩
  exact exists_error_of_unset hbody.isTyped rfl hchanged
    (Machine.sets_of_not_addresses (by decide)) _

end MayTaint
