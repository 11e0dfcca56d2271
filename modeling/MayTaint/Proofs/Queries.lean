import MayTaint.Dot
import MayTaint.Proofs.Contract
import MayTaint.Proofs.FailedSeeks

/-!
Queries on results, one after another. Results are values and no query changes them; what a query
can change is the session, since it replays blocks with the effects of the analysis. A question
about a location and a seek replay instructions of one block, and none behind their goal; a dump or
a graph replays the blocks that were reached. If these instructions keep a contract on sessions, the
query keeps it, whether or not it is answered.
-/

namespace MayTaint

variable {σ α β : Type}

namespace Run

def left (x : Run σ α) (s : Session σ) : Session σ :=
  match x s with
  | .ok _ s' => s'
  | .error _ s' => s'

variable {k : Contract σ}

theorem Keeps.left {x : Run σ α} (hx : Keeps k x) (s : Session σ) : k.moves s (x.left s) := by
  unfold Run.left
  split
  · next h => exact hx.ok h
  · next h => exact (hx.error h).1

theorem Keeps.mapM {f : α → Run σ β} {xs : List α} (h : ∀ x ∈ xs, Keeps k (f x)) :
    Keeps k (xs.mapM f) := by
  induction xs with
  | nil => exact Keeps.pure []
  | cons x xs ih =>
    rw [List.mapM_cons]
    refine (h x List.mem_cons_self).bind fun y => Keeps.bind ?_ fun ys => Keeps.pure (y :: ys)
    exact ih fun x hx => h x (List.mem_cons_of_mem _ hx)

end Run

/-- The first `n` instructions of a block keep a contract, whatever they make their requests of. -/
def Analysis.KeepsUpTo (a : Analysis σ) (k : Contract σ) (body : Body) (bb : BlockId) (n : Nat) :
    Prop :=
  ∀ (b : Block) (j : Nat) (i : Instruction), body.block bb = .ok b → j < n →
    b.instructions[j]? = some i → ∀ {γ : Type} [Accumulator γ] (acc : γ),
      Run.Keeps k (Run.onto acc (a.instruction i ⟨bb, j⟩).run)

def Contract.Tolerant (k : Contract σ) : Prop :=
  ∀ f, k.faults f

theorem Contract.Tolerant.bind {k : Contract σ} (hk : k.Tolerant) {o : Except Fault α}
    {f : α → Run σ β} (hf : ∀ a, o = .ok a → Run.Keeps k (f a)) :
    Run.Keeps k (Run.ofExcept o >>= f) := by
  cases o with
  | ok a => exact hf a rfl
  | error e =>
    constructor
    · intro s b s' h
      cases h
    · intro s f' s' h
      cases h
      exact ⟨k.refl s, hk e⟩

/-! ### Dumps and graphs -/

variable [Machine]

section

variable {r : Results σ} {k : Contract σ} {bb : BlockId} {b : Block} (hk : k.Tolerant)

include hk

namespace Results

variable (hbb : ∀ n, r.analysis.KeepsUpTo k r.body bb n)

include hbb

omit hk in
theorem keeps_requestsOf (hb : r.body.block bb = .ok b) {j : Nat} {i : Instruction}
    (hi : b.instructions[j]? = some i) (S : LocalSet) :
    Run.Keeps k (r.requestsOf i ⟨bb, j⟩ S) :=
  (hbb (j + 1) b j i hb j.lt_succ_self hi (Batch.ofBase S)).bind fun found => Run.Keeps.pure found.2

theorem keeps_statementRequests (hb : r.body.block bb = .ok b) {j : Nat}
    {statements : List Statement} (hdrop : b.statements.drop j = statements) (S : LocalSet) :
    Run.Keeps k (r.statementRequests bb j statements S) := by
  induction statements generalizing j S with
  | nil => exact Run.Keeps.pure ([], S)
  | cons st statements ih =>
    obtain ⟨hst, hrest⟩ := Block.statement_of_drop hdrop
    refine (keeps_requestsOf hbb hb hst S).bind fun batch => ?_
    refine hk.bind fun T _ => hk.bind fun text _ => ?_
    exact (ih hrest T).bind fun found => Run.Keeps.pure _

theorem keeps_instructionRequests : Run.Keeps k (r.instructionRequests bb) := by
  refine hk.bind fun b hb => hk.bind fun entry _ => ?_
  refine (keeps_statementRequests hk hbb hb List.drop_zero entry).bind fun found => ?_
  have hlast : b.instructions[b.statements.length]? = some (.terminator b.terminator) := by
    simp [Block.instructions]
  exact (keeps_requestsOf hbb hb hlast found.2).bind fun last =>
    hk.bind fun text _ => Run.Keeps.pure _

end Results

variable (hreached : ∀ bb, r.wasReached bb = true → ∀ n, r.analysis.KeepsUpTo k r.body bb n)

include hreached

theorem Dump.keeps_blockLines (bb : BlockId) : Run.Keeps k (Dump.blockLines r bb) := by
  unfold blockLines
  split
  · next hbb =>
    refine hk.bind fun entry _ => ?_
    refine (Results.keeps_instructionRequests hk (hreached bb hbb)).bind fun found => ?_
    exact hk.bind fun exit _ => Run.Keeps.pure _
  · exact Run.Keeps.pure _

theorem Dump.keeps_text : Run.Keeps k (Dump.text r) := by
  refine hk.bind fun count _ => hk.bind fun order _ => ?_
  exact (Run.Keeps.mapM fun bb _ => keeps_blockLines hk hreached bb).bind fun _ => Run.Keeps.pure _

theorem Dot.keeps_blockLine (bb : BlockId) : Run.Keeps k (Dot.blockLine r bb) := by
  unfold blockLine
  split
  · next hbb =>
    refine hk.bind fun entry _ => ?_
    refine (Results.keeps_instructionRequests hk (hreached bb hbb)).bind fun found => ?_
    exact hk.bind fun exit _ => Run.Keeps.pure _
  · exact Run.Keeps.pure _

theorem Dot.keeps_text (title : Datum) : Run.Keeps k (Dot.text r title) := by
  refine hk.bind fun title _ => ?_
  refine (Run.Keeps.mapM fun bb _ => keeps_blockLine hk hreached bb).bind fun blocks => ?_
  exact hk.bind fun edges _ => Run.Keeps.pure _

end

/-! ### Seeks -/

section

variable {r : Results σ} {k : Contract σ} {c c' : Cursor} {seek : Seek} {s s' : Session σ}
  {bottom : LocalSet}

/-- How a seek ends, whether or not it gets to its goal: the session has changed as the contract
says, and the cursor counts its instructions still. -/
theorem Seek.keeps (hbottom : r.analysis.bottom r.body = .ok bottom)
    (hgoal : ∀ bb (n : Nat), seek.goal r.body = .ok (bb, (n : Int)) →
      r.analysis.KeepsUpTo k r.body bb n) (hc : c.Counting) (s : Session σ) :
    ∃ c' s', c'.Counting ∧ k.moves s s' ∧
      (seek.run r (c, s) = .ok () (c', s') ∨ ∃ f, seek.run r (c, s) = .error f (c', s')) := by
  cases hplace : seek.goal r.body with
  | error f => exact ⟨c, s, hc, k.refl s, .inr ⟨f, run_of_refused hplace⟩⟩
  | ok place =>
    obtain ⟨bb, j⟩ := place
    obtain ⟨hbb, b, hb, n, rfl, hn⟩ := exists_of_goal hplace
    have hentry := Results.stateIn_eq hbb hb hbottom r.entries
    obtain ⟨j, T, U, s', hjn, -, hends⟩ := hc.moveTo_cases hb hentry n s
    have hkeeps : Run.Keeps k (Run.onto T (r.analysis.replayFrom r.body bb (n - j) j)) :=
      Analysis.keeps_replayFrom hb (fun hm hi S => hgoal bb n hplace b _ _ hb (by omega) hi S)
        (by omega) T
    rw [run_of_goal hplace]
    obtain ⟨hreplay, hmove⟩ | ⟨f, hreplay, hmove⟩ := hends
    · exact ⟨_, s', .inside bb n U, hkeeps.ok (Run.onto_eq_ok.2 hreplay), .inl hmove⟩
    · refine ⟨_, s', .inside bb j U, ?_, .inr ⟨f, hmove⟩⟩
      exact (hkeeps.error (Run.onto_eq_error.2 ⟨U, hreplay⟩)).1

theorem Results.keeps_stateAt (hk : k.Tolerant) (hbottom : r.analysis.bottom r.body = .ok bottom)
    (seek : Seek) (hgoal : ∀ bb (n : Nat), seek.goal r.body = .ok (bb, (n : Int)) →
      r.analysis.KeepsUpTo k r.body bb n) :
    Run.Keeps k (stateAt (seek.run r)) := by
  refine Run.Keeps.bind ?_ fun found => Run.Keeps.ofExcept fun f _ => hk f
  constructor
  · intro s found s' h
    obtain ⟨c', s₁, -, hmoves, hrun | ⟨f, hrun⟩⟩ := seek.keeps hbottom hgoal .new s
    · rw [Run.onto, hrun] at h
      cases h
      exact hmoves
    · rw [Run.onto, hrun] at h
      cases h
  · intro s f' s' h
    obtain ⟨c', s₁, -, hmoves, hrun | ⟨f, hrun⟩⟩ := seek.keeps hbottom hgoal .new s
    · rw [Run.onto, hrun] at h
      cases h
    · rw [Run.onto, hrun] at h
      cases h
      exact ⟨hmoves, hk _⟩

end

/-! ### Queries one after another -/

/-- A question to results. Any number of cursors may be in use; they go by numbers. -/
inductive Query where
  | entrySet (bb : BlockId)
  | exitSet (bb : BlockId)
  | stateBefore (l : Location)
  | stateAfter (l : Location)
  | isPossiblyTainted (d : Datum) (l : Location)
  | seek (cursor : Nat) (goal : Seek)
  | dump
  | graph (title : Datum)

structure View (σ : Type) where
  cursors : Nat → Cursor := fun _ => {}
  session : Session σ

namespace Query

def seek? : Query → Option Seek
  | stateBefore l | isPossiblyTainted _ l => some (.before l)
  | stateAfter l => some (.after l)
  | seek _ goal => some goal
  | entrySet _ | exitSet _ | dump | graph _ => none

/-- A query replays the first `n` instructions of a block or some of them, whether or not the block
was reached. -/
def Replays (q : Query) (body : Body) (bb : BlockId) (n : Nat) : Prop :=
  ∃ goal, q.seek? = some goal ∧ goal.goal body = .ok (bb, (n : Int))

def ask (r : Results σ) (v : View σ) : Query → View σ
  | entrySet bb => { v with session := (Run.ofExcept (r.entrySet bb)).left v.session }
  | exitSet bb => { v with session := (Run.ofExcept (r.exitSet bb)).left v.session }
  | stateBefore l => { v with session := (r.stateBefore l).left v.session }
  | stateAfter l => { v with session := (r.stateAfter l).left v.session }
  | isPossiblyTainted d l => { v with session := (r.isPossiblyTainted d l).left v.session }
  | seek cursor goal =>
    match goal.run r (v.cursors cursor, v.session) with
    | .ok _ (c, s) => ⟨Function.update v.cursors cursor c, s⟩
    | .error _ (c, s) => ⟨Function.update v.cursors cursor c, s⟩
  | dump => { v with session := (Dump.text r).left v.session }
  | graph title => { v with session := (Dot.text r title).left v.session }

/-- What queries leave that are made one after another, with new cursors at first. -/
def askAll (r : Results σ) (s : Session σ) (queries : List Query) : View σ :=
  queries.foldl (ask r) { session := s }

variable {r : Results σ} {k : Contract σ} {v : View σ} {q : Query} {bottom : LocalSet}

theorem ask_seek {cursor : Nat} {goal : Seek} {c : Cursor} {s : Session σ}
    (h : goal.run r (v.cursors cursor, v.session) = .ok () (c, s) ∨
      ∃ f, goal.run r (v.cursors cursor, v.session) = .error f (c, s)) :
    (seek cursor goal).ask r v = ⟨Function.update v.cursors cursor c, s⟩ := by
  rcases h with h | ⟨f, h⟩
  · simp only [ask, h]
  · simp only [ask, h]

/-- A query keeps what the instructions keep in the blocks that it replays. -/
theorem keeps_ask (hk : k.Tolerant) (hbottom : r.analysis.bottom r.body = .ok bottom)
    (hreached : ∀ bb, r.wasReached bb = true → ∀ n, r.analysis.KeepsUpTo k r.body bb n)
    (hreplays : ∀ bb n, q.Replays r.body bb n → r.analysis.KeepsUpTo k r.body bb n)
    (hv : ∀ i, (v.cursors i).Counting) :
    k.moves v.session (q.ask r v).session ∧ ∀ i, ((q.ask r v).cursors i).Counting := by
  have hgoal : ∀ goal, q.seek? = some goal → ∀ bb (n : Nat),
      goal.goal r.body = .ok (bb, (n : Int)) → r.analysis.KeepsUpTo k r.body bb n :=
    fun goal hq bb n h => hreplays bb n ⟨goal, hq, h⟩
  cases q with
  | entrySet bb => exact ⟨(Run.Keeps.ofExcept fun f _ => hk f).left _, hv⟩
  | exitSet bb => exact ⟨(Run.Keeps.ofExcept fun f _ => hk f).left _, hv⟩
  | stateBefore l =>
    have hkeeps := Results.keeps_stateAt hk hbottom (.before l) (hgoal _ rfl)
    exact ⟨hkeeps.left _, hv⟩
  | stateAfter l =>
    have hkeeps := Results.keeps_stateAt hk hbottom (.after l) (hgoal _ rfl)
    exact ⟨hkeeps.left _, hv⟩
  | isPossiblyTainted d l =>
    have hkeeps := Results.keeps_stateAt hk hbottom (.before l) (hgoal _ rfl)
    exact ⟨(hkeeps.bind fun S => Run.Keeps.ofExcept fun f _ => hk f).left _, hv⟩
  | seek cursor goal =>
    obtain ⟨c, s, hc, hmoves, hrun⟩ :=
      goal.keeps hbottom (hgoal _ rfl) (hv cursor) v.session
    rw [ask_seek hrun]
    refine ⟨hmoves, fun i => ?_⟩
    show (Function.update v.cursors cursor c i).Counting
    by_cases hi : i = cursor
    · rw [hi, Function.update_self]
      exact hc
    · rw [Function.update_of_ne hi]
      exact hv i
  | dump => exact ⟨(Dump.keeps_text hk hreached).left _, hv⟩
  | graph title => exact ⟨(Dot.keeps_text hk hreached title).left _, hv⟩

/-- So do queries one after another. -/
theorem keeps_askAll (hk : k.Tolerant) (hbottom : r.analysis.bottom r.body = .ok bottom)
    (hreached : ∀ bb, r.wasReached bb = true → ∀ n, r.analysis.KeepsUpTo k r.body bb n)
    {queries : List Query}
    (hreplays : ∀ q ∈ queries, ∀ bb n, q.Replays r.body bb n →
      r.analysis.KeepsUpTo k r.body bb n)
    (s : Session σ) : k.moves s (askAll r s queries).session := by
  have hfold : ∀ v : View σ, (∀ i, (v.cursors i).Counting) →
      k.moves v.session (queries.foldl (ask r) v).session := by
    induction queries with
    | nil => exact fun v _ => k.refl v.session
    | cons q queries ih =>
      intro v hv
      obtain ⟨hmoves, hcounting⟩ :=
        keeps_ask hk hbottom hreached (hreplays q List.mem_cons_self) hv
      exact k.trans hmoves
        (ih (fun q hq => hreplays q (List.mem_cons_of_mem _ hq)) (q.ask r v) hcounting)
  exact hfold { session := s } fun _ => .new

end Query

end MayTaint
