import MayTaint.Proofs.FixedPoint
import MayTaint.Proofs.WellFormed

/-!
What a run does whether or not it returns. A computation that gives up leaves a session as well,
with everything that was told and remembered up to then, and it gives up with some fault. A contract
says how a session may change and which faults may occur. If the effects of an analysis keep a
contract at the places where they stand in a body, so do the replay of a reachable block and the
join of what flows into it, and hence all that happens between two visits of a run.

What one effect of a replay or of a join brings about, and the contract never takes back, still
holds at its end.
-/

namespace MayTaint

variable {σ α β : Type}

/-- How a session may change, and which faults may occur. -/
structure Contract (σ : Type) where
  moves : Session σ → Session σ → Prop
  faults : Fault → Prop
  refl : ∀ s, moves s s
  trans : ∀ {s s' s''}, moves s s' → moves s' s'' → moves s s''

namespace Run

structure Keeps (k : Contract σ) (x : Run σ α) : Prop where
  ok : ∀ {s a s'}, x s = .ok a s' → k.moves s s'
  error : ∀ {s f s'}, x s = .error f s' → k.moves s s' ∧ k.faults f

variable {k : Contract σ}

theorem Keeps.pure (a : α) : Keeps k (Pure.pure a : Run σ α) where
  ok h := by
    cases h
    exact k.refl _
  error h := by cases h

theorem Keeps.ofExcept {o : Except Fault α} (ho : ∀ f, o = .error f → k.faults f) :
    Keeps k (Run.ofExcept o : Run σ α) where
  ok h := by
    obtain ⟨_, rfl⟩ := Run.ofExcept_eq_ok.1 h
    exact k.refl _
  error h := by
    obtain ⟨hf, rfl⟩ := Run.ofExcept_eq_error.1 h
    exact ⟨k.refl _, ho _ hf⟩

theorem Keeps.bind {x : Run σ α} {f : α → Run σ β} (hx : Keeps k x) (hf : ∀ a, Keeps k (f a)) :
    Keeps k (x >>= f) where
  ok h := by
    obtain ⟨a, s', hxs, hfs⟩ := estate_bind_eq_ok.1 h
    exact k.trans (hx.ok hxs) ((hf a).ok hfs)
  error h := by
    rcases estate_bind_eq_error.1 h with hxs | ⟨a, s', hxs, hfs⟩
    · exact hx.error hxs
    · obtain ⟨hmoves, hfault⟩ := (hf a).error hfs
      exact ⟨k.trans (hx.ok hxs) hmoves, hfault⟩

theorem Keeps.comp {x : Run σ α} (hx : Keeps k x) {g : Session σ → Session σ}
    (hg : ∀ s, k.moves s (g s)) : Keeps k fun s => x (g s) where
  ok {s _ _} h := k.trans (hg s) (hx.ok h)
  error {s _ _} h := ⟨k.trans (hg s) (hx.error h).1, (hx.error h).2⟩

/-- In the session `s` the computation leaves the session `s'`, whether or not it returns. -/
def Leaves (x : Run σ α) (s s' : Session σ) : Prop :=
  (∃ a, x s = .ok a s') ∨ ∃ f, x s = .error f s'

theorem Keeps.leaves {x : Run σ α} (hx : Keeps k x) {s s' : Session σ} (h : Leaves x s s') :
    k.moves s s' := by
  rcases h with ⟨a, h⟩ | ⟨f, h⟩
  · exact hx.ok h
  · exact (hx.error h).1

end Run

/-! ### Effects -/

namespace Effect

variable {k : Contract σ} {γ : Type} [Accumulator γ]

section

variable (acc : γ) (d : Datum)

theorem onto_gen (next : Effect σ α) : Run.onto acc (gen d next).run =
    Run.ofExcept (Accumulator.gen acc d) >>= fun acc' => Run.onto acc' next.run := by
  funext s
  change Run.onto acc (gen d next).run s = EStateM.bind _ _ s
  simp only [Run.onto, run, EStateM.bind]
  cases Accumulator.gen acc d <;> rfl

theorem onto_kill (next : Effect σ α) : Run.onto acc (kill d next).run =
    Run.ofExcept (Accumulator.kill acc d) >>= fun acc' => Run.onto acc' next.run := by
  funext s
  change Run.onto acc (kill d next).run s = EStateM.bind _ _ s
  simp only [Run.onto, run, EStateM.bind]
  cases Accumulator.kill acc d <;> rfl

theorem onto_ask (next : Bool → Effect σ α) : Run.onto acc (ask d next).run =
    Run.ofExcept (Accumulator.contains acc d) >>= fun b => Run.onto acc (next b).run := by
  funext s
  change Run.onto acc (ask d next).run s = EStateM.bind _ _ s
  simp only [Run.onto, run, EStateM.bind]
  cases Accumulator.contains acc d <;> rfl

end

/-- Every effect keeps a contract that allows for any fault, any memory and any report. -/
theorem keeps (hfaults : ∀ f, k.faults f) (hmemory : ∀ s m, k.moves s { s with memory := m })
    (hreport : ∀ s body c, k.moves s (s.tell (.unsupported body c))) (x : Effect σ α) (acc : γ) :
    Run.Keeps k (Run.onto acc x.run) := by
  induction x generalizing acc with
  | done a => exact Run.Keeps.pure (a, acc)
  | raise f => exact Run.Keeps.ofExcept (o := .error f) fun g _ => hfaults g
  | gen d next ih =>
    rw [onto_gen]
    exact (Run.Keeps.ofExcept fun f _ => hfaults f).bind ih
  | kill d next ih =>
    rw [onto_kill]
    exact (Run.Keeps.ofExcept fun f _ => hfaults f).bind ih
  | ask d next ih =>
    rw [onto_ask]
    exact (Run.Keeps.ofExcept fun f _ => hfaults f).bind fun b => ih b acc
  | read next ih =>
    exact ⟨fun {s _ _} h => (ih s.memory acc).ok h, fun {s _ _} h => (ih s.memory acc).error h⟩
  | write m next ih => exact (ih acc).comp fun s => hmemory s m
  | report body c next ih => exact (ih acc).comp fun s => hreport s body c

/-- An effect that neither uses its memory nor tells the log keeps every contract on sessions. -/
theorem Plain.keeps (hfaults : ∀ f, k.faults f) {x : Effect σ α} (hx : x.Plain) (acc : γ) :
    Run.Keeps k (Run.onto acc x.run) := by
  induction x generalizing acc with
  | done a => exact Run.Keeps.pure (a, acc)
  | raise f => exact Run.Keeps.ofExcept (o := .error f) fun g _ => hfaults g
  | gen d next ih =>
    rw [onto_gen]
    exact (Run.Keeps.ofExcept fun f _ => hfaults f).bind fun acc' => ih hx acc'
  | kill d next ih =>
    rw [onto_kill]
    exact (Run.Keeps.ofExcept fun f _ => hfaults f).bind fun acc' => ih hx acc'
  | ask d next ih =>
    rw [onto_ask]
    exact (Run.Keeps.ofExcept fun f _ => hfaults f).bind fun b => ih b (hx b) acc
  | read => exact hx.elim
  | write => exact hx.elim
  | report => exact hx.elim

end Effect

/-! ### Blocks and edges -/

variable [Machine]

namespace Analysis

/-- The effects of the analysis keep the contract where they stand in the reachable blocks of a
body, and the contract allows for what they and the joins between them can be refused for. -/
structure Keeps (a : Analysis σ) (body : Body) (k : Contract σ) : Prop where
  bottom : ∀ {f}, a.bottom body = .error f → k.faults f
  join : ∀ {m n}, k.faults (.domainMismatch m n)
  instruction : ∀ {bb b} {j : Nat} {i}, body.Reachable bb → body.block bb = .ok b →
    b.instructions[j]? = some i → ∀ S : LocalSet,
      Run.Keeps k (Run.onto S (a.instruction i ⟨bb, j⟩).run)
  callReturn : ∀ {bb b c target}, body.Reachable bb → body.block bb = .ok b →
    b.terminator = .call c → c.target = some target → ∀ S : LocalSet,
      Run.Keeps k (Run.onto S (a.callReturn bb c ⟨bb, b.terminatorIndex⟩).run)

variable {a : Analysis σ} {body : Body} {k : Contract σ} {bb pred : BlockId} {b : Block}
  {count j : Nat} {i : Instruction} {S T : LocalSet} {s s' : Session σ}

/-- A replay keeps what the instructions keep that it goes through. -/
theorem keeps_replayFrom (hb : body.block bb = .ok b)
    (hk : ∀ {m : Nat} {i}, m < j + count → b.instructions[m]? = some i → ∀ S : LocalSet,
      Run.Keeps k (Run.onto S (a.instruction i ⟨bb, m⟩).run))
    (hj : j + count ≤ b.instructions.length) (S : LocalSet) :
    Run.Keeps k (Run.onto S (a.replayFrom body bb count j)) := by
  induction count generalizing j S with
  | zero => exact Run.Keeps.pure ((), S)
  | succ count ih =>
    have hat : b.instructions[j]? = some b.instructions[j] := List.getElem?_eq_getElem (by omega)
    have hnext : (j : Int) + 1 = ((j + 1 : Nat) : Int) := by omega
    rw [replayFrom_succ (Body.instructionAt_eq hb hat), hnext, Run.onto_bind]
    exact (hk (by omega) hat S).bind fun r => ih (fun hm => hk (by omega)) (by omega) r.2

theorem Keeps.replayFrom (hk : a.Keeps body k) (hbb : body.Reachable bb)
    (hb : body.block bb = .ok b) (hj : j + count ≤ b.instructions.length) (S : LocalSet) :
    Run.Keeps k (Run.onto S (a.replayFrom body bb count j)) :=
  keeps_replayFrom hb (fun _ => hk.instruction hbb hb) hj S

theorem Keeps.replay (hk : a.Keeps body k) (hbb : body.Reachable bb) (hb : body.block bb = .ok b)
    (S : LocalSet) : Run.Keeps k (Run.onto S (a.replay body bb 0 none)) := by
  rw [replay_zero_none hb]
  exact hk.replayFrom hbb hb (Nat.zero_add _).le S

theorem Keeps.edgeState (hk : a.Keeps body k) (hpred : body.Reachable pred)
    (hb : body.block pred = .ok b) (bb : BlockId) (exit : LocalSet) :
    Run.Keeps k (a.edgeState body pred bb exit) := by
  by_cases hc : ∃ c, ReturnsTo b bb c
  · obtain ⟨c, hc⟩ := hc
    rw [edgeState_of_returnsTo hb hc]
    exact (hk.callReturn hpred hb hc.1 hc.2 exit).bind fun r => Run.Keeps.pure r.2
  · rw [edgeState_of_not_returnsTo hb (not_exists.1 hc)]
    exact Run.Keeps.pure exit

/-- What an instruction brings about and the rest of the block keeps holds after the replay. -/
theorem Keeps.of_replayFrom (hk : a.Keeps body k) {P : Session σ → Prop}
    (hP : ∀ {s s'}, k.moves s s' → P s → P s') (hbb : body.Reachable bb)
    (hb : body.block bb = .ok b) {m : Nat} (hm : b.instructions[m]? = some i)
    (hi : ∀ {S T : LocalSet} {s s'}, (a.instruction i ⟨bb, m⟩).run (S, s) = .ok () (T, s') → P s')
    (hj : j + count ≤ b.instructions.length) (hle : j ≤ m) (hlt : m < j + count)
    (h : a.replayFrom body bb count j (S, s) = .ok () (T, s')) : P s' := by
  induction count generalizing j S s with
  | zero => omega
  | succ count ih =>
    have hat : b.instructions[j]? = some b.instructions[j] := List.getElem?_eq_getElem (by omega)
    have hnext : (j : Int) + 1 = ((j + 1 : Nat) : Int) := by omega
    rw [replayFrom_succ (Body.instructionAt_eq hb hat), hnext] at h
    obtain ⟨⟨⟩, ⟨U, s₁⟩, hU, hT⟩ := estate_bind_eq_ok.1 h
    by_cases hmj : m = j
    · subst hmj
      rw [hat, Option.some.injEq] at hm
      subst hm
      have hrest : Run.Keeps k (Run.onto U (a.replayFrom body bb count (m + 1 : Nat))) :=
        hk.replayFrom hbb hb (by omega) U
      exact hP (hrest.ok (Run.onto_eq_ok.2 hT)) (hi hU)
    · exact ih (by omega) (by omega) (by omega) hT

end Analysis

/-! ### Joins and visits -/

namespace Solver

variable {v : Solver σ} {k : Contract σ} {exits : Table LocalSet} {bb pred : BlockId}
  {preds rest : List BlockId} {p p' : Progress} {s s' : Session σ} {f : Fault}
  {base entry exit : LocalSet}

section

variable (hv : v.body.Valid) (hk : v.analysis.Keeps v.body k)
  (hreach : ∀ {pred exit}, exits.get? pred = some exit → v.body.Reachable pred)

include hv hk hreach

theorem keeps_joinFlows (state : LocalSet) : Run.Keeps k (v.joinFlows exits bb preds state) := by
  induction preds generalizing state with
  | nil => exact Run.Keeps.pure state
  | cons pred preds ih =>
    cases hexit : exits.get? pred with
    | none =>
      rw [joinFlows_cons_none hexit]
      exact ih state
    | some exit =>
      have hpred := hreach hexit
      obtain ⟨b, hb⟩ := hv.exists_block (hv.hasBlock_of_reachable hpred)
      rw [joinFlows_cons_some hexit]
      refine (hk.edgeState hpred hb bb exit).bind fun flow => Run.Keeps.bind ?_ ih
      refine Run.Keeps.ofExcept fun f hf => ?_
      rw [LocalSet.join_eq_error hf]
      exact hk.join

/-- What flows along an edge brings about and the other edges keep holds after the join. -/
theorem of_joinFlows {P : Session σ → Prop} (hP : ∀ {s s'}, k.moves s s' → P s → P s')
    (hpred : pred ∈ preds) (hexit : exits.get? pred = some exit)
    (hflow : ∀ {s flow s'}, v.analysis.edgeState v.body pred bb exit s = .ok flow s' → P s')
    (h : v.joinFlows exits bb preds base s = .ok entry s') : P s' := by
  induction preds generalizing base s with
  | nil => cases hpred
  | cons first preds ih =>
    cases hfirst : exits.get? first with
    | none =>
      rw [joinFlows_cons_none hfirst] at h
      rcases List.mem_cons.1 hpred with rfl | hpred
      · rw [hfirst] at hexit
        cases hexit
      · exact ih hpred h
    | some x =>
      rw [joinFlows_cons_some hfirst] at h
      obtain ⟨flow, s₁, hedge, h₁⟩ := estate_bind_eq_ok.1 h
      obtain ⟨joined, s₂, hjoin, h₂⟩ := estate_bind_eq_ok.1 h₁
      obtain ⟨_, rfl⟩ := Run.ofExcept_eq_ok.1 hjoin
      rcases List.mem_cons.1 hpred with rfl | hpred
      · rw [hfirst, Option.some.injEq] at hexit
        subst hexit
        exact hP ((keeps_joinFlows hv hk hreach joined).ok h₂) (hflow hedge)
      · exact ih hpred h₂

end

section

variable (hv : v.Ready) (hk : v.analysis.Keeps v.body k) (he : v.Explored p)

include hv hk he

theorem keeps_joinIncoming (hbb : v.body.Reachable bb) :
    Run.Keeps k (v.joinIncoming p.exits bb) := by
  obtain ⟨preds, hpreds, _⟩ :=
    Body.exists_predecessorsIn hv.table (hv.valid.hasBlock_of_reachable hbb)
  rw [joinIncoming_eq hpreds]
  refine Run.Keeps.bind (Run.Keeps.ofExcept fun f hf => ?_) fun state =>
    keeps_joinFlows hv.valid hk (fun hexit => he.reachable_of_visited (by simp [hexit])) state
  unfold Solver.base at hf
  split at hf
  · cases hf
  · exact hk.bottom hf

/-- Up to the event that tells of it, a visit keeps the contract of the effects. -/
theorem Step.moves (hs : v.Step bb rest entry exit p s p' s') : ∃ s₂, k.moves s s₂ ∧
    s' = s₂.tell (.visited v.body.name ⟨bb, entry, exit, p.exits.get? bb != some exit⟩) := by
  have hbb : v.body.Reachable bb := he.reachable_of_waiting (by simp [hs.waiting])
  obtain ⟨b, hb⟩ := hv.valid.exists_block (hv.valid.hasBlock_of_reachable hbb)
  obtain ⟨s₁, s₂, hjoin, hreplay, htold⟩ := hs.runs
  refine ⟨s₂, k.trans ((keeps_joinIncoming hv hk he hbb).ok hjoin) ?_, htold⟩
  exact (hk.replay hbb hb entry).ok (Run.onto_eq_ok.2 hreplay)

end

end Solver

end MayTaint
