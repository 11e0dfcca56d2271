import MayTaint.Effect
import MayTaint.Proofs.Lattice

/-!
Runs whose answer does not depend on the session. An effect may use its memory and tell the log, and
is still called stateless if what it does to a set, its refusals included, is the same in every
session. For such runs one can speak of the answer (`Yields`) and of the set that another set is
turned into (`Turns`).
-/

namespace MayTaint

theorem except_bind_eq_ok {ε α β : Type} {x : Except ε α} {f : α → Except ε β} {b : β} :
    (x >>= f) = .ok b ↔ ∃ a, x = .ok a ∧ f a = .ok b := by
  cases x with
  | error e => exact ⟨nofun, nofun⟩
  | ok a =>
    refine ⟨fun h => ⟨a, rfl, h⟩, fun ⟨a', ha, h⟩ => ?_⟩
    cases ha
    exact h

theorem except_bind_eq_error {ε α β : Type} {x : Except ε α} {f : α → Except ε β} {e : ε} :
    (x >>= f) = .error e ↔ x = .error e ∨ ∃ a, x = .ok a ∧ f a = .error e := by
  cases x with
  | error e' =>
    change Except.error e' = Except.error e ↔ _
    simp
  | ok a =>
    change f a = .error e ↔ _
    simp

theorem estate_bind_eq_ok {ε τ α β : Type} {x : EStateM ε τ α} {f : α → EStateM ε τ β} {b : β}
    {s s'' : τ} : (x >>= f) s = .ok b s'' ↔ ∃ a s', x s = .ok a s' ∧ f a s' = .ok b s'' := by
  change EStateM.bind x f s = _ ↔ _
  unfold EStateM.bind
  cases x s with
  | ok a s' =>
    refine ⟨fun h => ⟨a, s', rfl, h⟩, fun ⟨a', s₁, ha, h⟩ => ?_⟩
    cases ha
    exact h
  | error e s' => exact ⟨nofun, nofun⟩

theorem estate_bind_eq_error {ε τ α β : Type} {x : EStateM ε τ α} {f : α → EStateM ε τ β} {e : ε}
    {s s'' : τ} : (x >>= f) s = .error e s'' ↔
      x s = .error e s'' ∨ ∃ a s', x s = .ok a s' ∧ f a s' = .error e s'' := by
  change EStateM.bind x f s = _ ↔ _
  unfold EStateM.bind
  cases x s with
  | ok a s' => simp
  | error e' s' => simp

theorem estate_bind_of_ok {ε τ α β : Type} {x : EStateM ε τ α} {f : α → EStateM ε τ β} {a : α}
    {s s' : τ} (h : x s = .ok a s') : (x >>= f) s = f a s' := by
  change EStateM.bind x f s = _
  rw [EStateM.bind, h]

theorem estate_bind_of_error {ε τ α β : Type} {x : EStateM ε τ α} {f : α → EStateM ε τ β} {e : ε}
    {s s' : τ} (h : x s = .error e s') : (x >>= f) s = .error e s' := by
  change EStateM.bind x f s = _
  rw [EStateM.bind, h]

section

variable {σ γ α β : Type}

namespace Run

theorem ofExcept_eq_ok {o : Except Fault α} {a : α} {s s' : Session σ} :
    Run.ofExcept o s = .ok a s' ↔ o = .ok a ∧ s' = s := by
  cases o with
  | ok b =>
    change EStateM.Result.ok b s = .ok a s' ↔ _
    simp [eq_comm]
  | error f =>
    change EStateM.Result.error f s = .ok a s' ↔ _
    simp

theorem ofExcept_eq_error {o : Except Fault α} {f : Fault} {s s' : Session σ} :
    Run.ofExcept o s = .error f s' ↔ o = .error f ∧ s' = s := by
  cases o with
  | ok b =>
    change EStateM.Result.ok b s = .error f s' ↔ _
    simp
  | error f' =>
    change EStateM.Result.error f' s = .error f s' ↔ _
    simp [eq_comm]

theorem onto_eq_ok {acc acc' : γ} {x : EStateM Fault (γ × Session σ) α} {a : α}
    {s s' : Session σ} :
    Run.onto acc x s = .ok (a, acc') s' ↔ x (acc, s) = .ok a (acc', s') := by
  unfold onto
  split
  · next h => simp [h, and_assoc]
  · next h => simp [h]

theorem onto_eq_error {acc : γ} {x : EStateM Fault (γ × Session σ) α} {f : Fault}
    {s s' : Session σ} :
    Run.onto acc x s = .error f s' ↔ ∃ acc', x (acc, s) = .error f (acc', s') := by
  unfold onto
  split
  · next h => simp [h]
  · next h => simp [h]

theorem onto_bind (acc : γ) (x : EStateM Fault (γ × Session σ) α)
    (f : α → EStateM Fault (γ × Session σ) β) :
    Run.onto acc (x >>= f) = Run.onto acc x >>= fun p => Run.onto p.2 (f p.1) := by
  funext s
  change Run.onto acc (EStateM.bind x f) s = EStateM.bind _ _ s
  simp only [onto, EStateM.bind]
  cases x (acc, s) <;> rfl

def answer (x : Run σ α) (s : Session σ) : Except Fault α :=
  match x s with
  | .ok a _ => .ok a
  | .error f _ => .error f

def Stateless (x : Run σ α) : Prop :=
  ∀ s s', answer x s = answer x s'

def Yields (x : Run σ α) (a : α) : Prop :=
  ∀ s, ∃ s', x s = .ok a s'

theorem answer_eq_ok {x : Run σ α} {a : α} {s : Session σ} :
    answer x s = .ok a ↔ ∃ s', x s = .ok a s' := by
  unfold answer
  split <;> simp [*]

theorem answer_eq_error {x : Run σ α} {f : Fault} {s : Session σ} :
    answer x s = .error f ↔ ∃ s', x s = .error f s' := by
  unfold answer
  split <;> simp [*]

theorem Stateless.yields {x : Run σ α} (hx : Stateless x) {a : α} {s s' : Session σ}
    (h : x s = .ok a s') : Yields x a := fun t =>
  answer_eq_ok.1 ((hx t s).trans (answer_eq_ok.2 ⟨s', h⟩))

theorem Yields.eq_of_ok {x : Run σ α} {a b : α} (ha : Yields x a) {s s' : Session σ}
    (hb : x s = .ok b s') : a = b := by
  obtain ⟨_, h⟩ := ha s
  rw [h] at hb
  cases hb
  rfl

theorem Stateless.const (o : Except Fault α) : Stateless (ofExcept o : Run σ α) := by
  intro s s'
  cases o <;> rfl

theorem Stateless.pure (a : α) : Stateless (Pure.pure a : Run σ α) :=
  fun _ _ => rfl

theorem Stateless.bind {x : Run σ α} {f : α → Run σ β} (hx : Stateless x)
    (hf : ∀ a, Stateless (f a)) : Stateless (x >>= f) := by
  intro s s'
  change answer (EStateM.bind x f) s = answer (EStateM.bind x f) s'
  have h := hx s s'
  unfold answer at h
  unfold answer EStateM.bind
  cases hs : x s with
  | ok a t =>
    cases hs' : x s' with
    | ok a' t' =>
      rw [hs, hs'] at h
      cases h
      exact hf a t t'
    | error f t' => simp [hs, hs'] at h
  | error f t =>
    cases hs' : x s' with
    | ok a' t' => simp [hs, hs'] at h
    | error f' t' =>
      rw [hs, hs'] at h
      cases h
      rfl

end Run

def Turns (x : EStateM Fault (LocalSet × Session σ) Unit) (S T : LocalSet) : Prop :=
  ∀ s, ∃ s', x (S, s) = .ok () (T, s')

def StatelessOn (x : EStateM Fault (LocalSet × Session σ) Unit) : Prop :=
  ∀ S : LocalSet, Run.Stateless (Run.onto S x)

variable {x y : EStateM Fault (LocalSet × Session σ) Unit} {S T U : LocalSet}

theorem StatelessOn.turns (hx : StatelessOn x) {s s' : Session σ}
    (h : x (S, s) = .ok () (T, s')) : Turns x S T := fun t => by
  obtain ⟨t', ht⟩ := (hx S).yields (Run.onto_eq_ok.2 h) t
  exact ⟨t', Run.onto_eq_ok.1 ht⟩

theorem Turns.eq_of_ok (h : Turns x S T) {s s' : Session σ} (hU : x (S, s) = .ok () (U, s')) :
    T = U := by
  obtain ⟨_, hT⟩ := h s
  rw [hT] at hU
  cases hU
  rfl

theorem turns_iff_answer : Turns x S T ↔ ∀ s, Run.answer (Run.onto S x) s = .ok ((), T) := by
  refine forall_congr' fun s => ?_
  rw [Run.answer_eq_ok]
  exact exists_congr fun s' => Run.onto_eq_ok.symm

theorem Turns.eq (s : Session σ) (h : Turns x S T) (hU : Turns x S U) : T = U :=
  h.eq_of_ok (hU s).choose_spec

theorem Turns.pure (S : LocalSet) : Turns (σ := σ) (Pure.pure ()) S S := fun s => ⟨s, rfl⟩

theorem Turns.seq (hx : Turns x S T) (hy : Turns y T U) : Turns (x >>= fun _ => y) S U := by
  intro s
  obtain ⟨s', hs⟩ := hx s
  obtain ⟨s'', hs'⟩ := hy s'
  exact ⟨s'', estate_bind_eq_ok.2 ⟨(), _, hs, hs'⟩⟩

theorem StatelessOn.pure : StatelessOn (σ := σ) (Pure.pure ()) := fun _ _ _ => rfl

theorem StatelessOn.throw (f : Fault) : StatelessOn (σ := σ) (throw f) := fun _ _ _ => rfl

theorem StatelessOn.seq (hx : StatelessOn x) (hy : StatelessOn y) :
    StatelessOn (x >>= fun _ => y) := by
  intro S
  rw [Run.onto_bind]
  exact (hx S).bind fun p => hy p.2

/-- If a sequence turns a set into another, its parts do so one after the other. -/
theorem Turns.split (s : Session σ) (hx : StatelessOn x) (hy : StatelessOn y)
    (h : Turns (x >>= fun _ => y) S U) : ∃ T, Turns x S T ∧ Turns y T U := by
  obtain ⟨s'', hs⟩ := h s
  obtain ⟨⟨⟩, ⟨T, s'⟩, hxs, hys⟩ := estate_bind_eq_ok.1 hs
  exact ⟨T, hx.turns hxs, hy.turns hys⟩

/-! ### Effects -/

namespace Effect

variable [Machine]

def Stateless (x : Effect σ Unit) : Prop :=
  StatelessOn x.run

/-- Where the effect accepts two sets, it turns the larger one into the larger one. -/
def Monotone (x : Effect σ Unit) : Prop :=
  ∀ ⦃S T S' T' : LocalSet⦄ ⦃s s₁ s₂ : Session σ⦄, S ≤ T → x.run (S, s) = .ok () (S', s₁) →
    x.run (T, s) = .ok () (T', s₂) → S' ≤ T'

theorem Monotone.of_turns {x : Effect σ Unit} (hx : x.Monotone) (s : Session σ)
    {S T S' T' : LocalSet} (hle : S ≤ T) (hS : Turns x.run S S') (hT : Turns x.run T T') :
    S' ≤ T' :=
  hx hle (hS s).choose_spec (hT s).choose_spec

theorem gen_eq_ok {S T : LocalSet} {d : Datum} :
    Accumulator.gen S d = .ok T ↔ ∃ i, S.place d = .ok i ∧ T = S.add i := by
  change (do let r ← S.insert d; pure r.2 : Except Fault LocalSet) = .ok T ↔ _
  simp only [except_bind_eq_ok, LocalSet.insert]
  constructor
  · rintro ⟨_, ⟨i, hi, hr⟩, hT⟩
    cases hr
    cases hT
    exact ⟨i, hi, rfl⟩
  · rintro ⟨i, hi, rfl⟩
    exact ⟨_, ⟨i, hi, rfl⟩, rfl⟩

theorem kill_eq_ok {S T : LocalSet} {d : Datum} :
    Accumulator.kill S d = .ok T ↔ ∃ i, S.place d = .ok i ∧ T = S.erase i := by
  change (do let r ← S.remove d; pure r.2 : Except Fault LocalSet) = .ok T ↔ _
  simp only [except_bind_eq_ok, LocalSet.remove]
  constructor
  · rintro ⟨_, ⟨i, hi, hr⟩, hT⟩
    cases hr
    cases hT
    exact ⟨i, hi, rfl⟩
  · rintro ⟨i, hi, rfl⟩
    exact ⟨_, ⟨i, hi, rfl⟩, rfl⟩

section

variable {S : LocalSet} {d : Datum} {a : α} {s : Session σ} {t : LocalSet × Session σ}

theorem run_gen_eq_ok {next : Effect σ α} :
    (gen d next).run (S, s) = .ok a t ↔
      ∃ i, S.place d = .ok i ∧ next.run (S.add i, s) = .ok a t := by
  simp only [run]
  split
  · next S' h =>
    obtain ⟨i, hi, rfl⟩ := gen_eq_ok.1 h
    refine ⟨fun hr => ⟨i, hi, hr⟩, ?_⟩
    rintro ⟨j, hj, hr⟩
    cases hi.symm.trans hj
    exact hr
  · next f h =>
    refine ⟨fun hr => (by cases hr), ?_⟩
    rintro ⟨i, hi, _⟩
    rw [gen_eq_ok.2 ⟨i, hi, rfl⟩] at h
    cases h

theorem run_kill_eq_ok {next : Effect σ α} :
    (kill d next).run (S, s) = .ok a t ↔
      ∃ i, S.place d = .ok i ∧ next.run (S.erase i, s) = .ok a t := by
  simp only [run]
  split
  · next S' h =>
    obtain ⟨i, hi, rfl⟩ := kill_eq_ok.1 h
    refine ⟨fun hr => ⟨i, hi, hr⟩, ?_⟩
    rintro ⟨j, hj, hr⟩
    cases hi.symm.trans hj
    exact hr
  · next f h =>
    refine ⟨fun hr => (by cases hr), ?_⟩
    rintro ⟨i, hi, _⟩
    rw [kill_eq_ok.2 ⟨i, hi, rfl⟩] at h
    cases h

theorem run_ask_eq_ok {next : Bool → Effect σ α} :
    (ask d next).run (S, s) = .ok a t ↔
      ∃ b, S.contains d = .ok b ∧ (next b).run (S, s) = .ok a t := by
  simp only [run]
  split
  · next b h =>
    refine ⟨fun hr => ⟨b, h, hr⟩, ?_⟩
    rintro ⟨b', h', hr⟩
    cases h.symm.trans h'
    exact hr
  · next f h =>
    refine ⟨fun hr => (by cases hr), ?_⟩
    rintro ⟨b, hb, _⟩
    cases h.symm.trans hb

theorem run_setTaint_eq_ok {b : Bool} :
    (setTaint b d).run (S, s) = .ok () t ↔ ∃ i, S.place d = .ok i ∧ t = (S.put i b, s) := by
  cases b with
  | true =>
    change (gen d (done ())).run (S, s) = .ok () t ↔ _
    rw [run_gen_eq_ok]
    refine exists_congr fun i => and_congr_right fun _ => ?_
    change EStateM.Result.ok () (S.add i, s) = .ok () t ↔ t = (S.add i, s)
    simp [eq_comm]
  | false =>
    change (kill d (done ())).run (S, s) = .ok () t ↔ _
    rw [run_kill_eq_ok]
    refine exists_congr fun i => and_congr_right fun _ => ?_
    change EStateM.Result.ok () (S.erase i, s) = .ok () t ↔ t = (S.erase i, s)
    simp [eq_comm]

end

theorem setTaint_mono {b c : Bool} {d : Datum} {S T S' T' : LocalSet} {s s₁ s₂ : Session σ}
    (hle : S ≤ T) (hbc : b = true → c = true) (hS : (setTaint b d).run (S, s) = .ok () (S', s₁))
    (hT : (setTaint c d).run (T, s) = .ok () (T', s₂)) : S' ≤ T' := by
  obtain ⟨i, hi, hS⟩ := run_setTaint_eq_ok.1 hS
  obtain ⟨j, hj, hT⟩ := run_setTaint_eq_ok.1 hT
  cases hS
  cases hT
  -- both places are named by one and the same datum
  have hij : i.val = j.val := by
    have h := (LocalSet.place_eq_ok_iff.1 hi).1.symm.trans (LocalSet.place_eq_ok_iff.1 hj).1
    rw [Datum.int.injEq] at h
    omega
  exact LocalSet.put_mono hle hij hbc

theorem setTaint_monotone (b : Bool) (d : Datum) : (setTaint (σ := σ) b d).Monotone :=
  fun _ _ _ _ _ _ _ hle hS hT => setTaint_mono hle id hS hT

/-- No effect changes the domain of the set that it works on. -/
theorem size_run {x : Effect σ α} {S T : LocalSet} {a : α} {s s' : Session σ}
    (h : x.run (S, s) = .ok a (T, s')) : T.size = S.size := by
  induction x generalizing S s with
  | done a =>
    cases h
    rfl
  | raise f => cases h
  | gen d next ih =>
    obtain ⟨i, _, hr⟩ := run_gen_eq_ok.1 h
    exact (ih hr).trans (S.size_add i)
  | kill d next ih =>
    obtain ⟨i, _, hr⟩ := run_kill_eq_ok.1 h
    exact (ih hr).trans (S.size_erase i)
  | ask d next ih =>
    obtain ⟨b, _, hr⟩ := run_ask_eq_ok.1 h
    exact ih b hr
  | read next ih => exact ih _ h
  | write m next ih => exact ih h
  | report body c next ih => exact ih h

/-- The effect neither uses its memory nor tells the log. -/
def Plain : Effect σ α → Prop
  | done _ => True
  | raise _ => True
  | gen _ next => next.Plain
  | kill _ next => next.Plain
  | ask _ next => ∀ b, (next b).Plain
  | read _ => False
  | write _ _ => False
  | report _ _ _ => False

omit [Machine] in
theorem Plain.bind {x : Effect σ α} {f : α → Effect σ β} (hx : x.Plain) (hf : ∀ a, (f a).Plain) :
    (x.bind f).Plain := by
  induction x with
  | done a => exact hf a
  | raise => exact hx
  | gen d next ih => exact ih hx
  | kill d next ih => exact ih hx
  | ask d next ih => exact fun b => ih b (hx b)
  | read => exact hx
  | write => exact hx
  | report => exact hx

theorem answer_gen (d : Datum) (next : Effect σ α) (S : LocalSet) (s : Session σ) :
    Run.answer (Run.onto S (gen d next).run) s =
      Accumulator.gen S d >>= fun T => Run.answer (Run.onto T next.run) s := by
  simp only [Run.answer, Run.onto, run]
  cases Accumulator.gen S d <;> rfl

theorem answer_kill (d : Datum) (next : Effect σ α) (S : LocalSet) (s : Session σ) :
    Run.answer (Run.onto S (kill d next).run) s =
      Accumulator.kill S d >>= fun T => Run.answer (Run.onto T next.run) s := by
  simp only [Run.answer, Run.onto, run]
  cases Accumulator.kill S d <;> rfl

theorem answer_ask (d : Datum) (next : Bool → Effect σ α) (S : LocalSet) (s : Session σ) :
    Run.answer (Run.onto S (ask d next).run) s =
      Accumulator.contains S d >>= fun b => Run.answer (Run.onto S (next b).run) s := by
  simp only [Run.answer, Run.onto, run]
  cases Accumulator.contains S d <;> rfl

theorem Plain.stateless {x : Effect σ Unit} (hx : x.Plain) : x.Stateless := by
  intro S s s'
  induction x generalizing S with
  | done => rfl
  | raise => rfl
  | gen d next ih => simp only [answer_gen, ih hx]
  | kill d next ih => simp only [answer_kill, ih hx]
  | ask d next ih => simp only [answer_ask, ih _ (hx _)]
  | read => exact hx.elim
  | write => exact hx.elim
  | report => exact hx.elim

/-- On a part of a larger memory an effect answers as it does on its own. -/
theorem answer_within {τ : Type} {get : τ → σ} {set : σ → τ → τ} (hset : ∀ m t, get (set m t) = m)
    (x : Effect σ α) (S : LocalSet) (s : Session τ) :
    Run.answer (Run.onto S (x.within get set).run) s =
      Run.answer (Run.onto S x.run) ⟨get s.memory, s.told⟩ := by
  induction x generalizing S s with
  | done => rfl
  | raise => rfl
  | gen d next ih => simp only [within, answer_gen, ih]
  | kill d next ih => simp only [within, answer_kill, ih]
  | ask d next ih => simp only [within, answer_ask, ih]
  | read next ih => exact ih _ _ _
  | write m next ih =>
    have h := ih S { s with memory := set m s.memory }
    rw [hset] at h
    exact h
  | report body c next ih => exact ih S (s.tell (.unsupported body c))

theorem exists_error_of_within {τ : Type} {get : τ → σ} {set : σ → τ → τ}
    (hset : ∀ m t, get (set m t) = m) {x : Effect σ α} {S : LocalSet} {s : Session τ} {f : Fault}
    {t} (h : (x.within get set).run (S, s) = .error f t) :
    ∃ t', x.run (S, ⟨get s.memory, s.told⟩) = .error f t' := by
  have hanswer := Run.answer_eq_error.2 ⟨t.2, Run.onto_eq_error.2 ⟨t.1, h⟩⟩
  rw [answer_within hset] at hanswer
  obtain ⟨s', hs'⟩ := Run.answer_eq_error.1 hanswer
  obtain ⟨S', hS'⟩ := Run.onto_eq_error.1 hs'
  exact ⟨(S', s'), hS'⟩

/-- On a part of a larger memory an effect turns the same sets into each other as on its own. -/
theorem turns_within {τ : Type} {get : τ → σ} {set : σ → τ → τ} (hset : ∀ m t, get (set m t) = m)
    (t : τ) {x : Effect σ Unit} {S T : LocalSet} :
    Turns (x.within get set).run S T ↔ Turns x.run S T := by
  rw [turns_iff_answer, turns_iff_answer]
  constructor
  · intro h u
    have hu := h ⟨set u.memory t, u.told⟩
    rw [answer_within hset, hset] at hu
    exact hu
  · intro h u
    rw [answer_within hset]
    exact h _

theorem Stateless.within {τ : Type} {get : τ → σ} {set : σ → τ → τ}
    (hset : ∀ m t, get (set m t) = m) {x : Effect σ Unit} (hx : x.Stateless) :
    (x.within get set).Stateless := by
  intro S s s'
  rw [answer_within hset, answer_within hset]
  exact hx S _ _

theorem Monotone.within {τ : Type} {get : τ → σ} {set : σ → τ → τ}
    (hset : ∀ m t, get (set m t) = m) {x : Effect σ Unit} (hx : x.Monotone) :
    (x.within get set).Monotone := by
  intro S T S' T' s s₁ s₂ hle hS hT
  have hS := Run.answer_eq_ok.2 ⟨s₁, Run.onto_eq_ok.2 hS⟩
  have hT := Run.answer_eq_ok.2 ⟨s₂, Run.onto_eq_ok.2 hT⟩
  rw [answer_within hset] at hS hT
  obtain ⟨t₁, hS⟩ := Run.answer_eq_ok.1 hS
  obtain ⟨t₂, hT⟩ := Run.answer_eq_ok.1 hT
  exact hx hle (Run.onto_eq_ok.1 hS) (Run.onto_eq_ok.1 hT)

end Effect

end

end MayTaint
