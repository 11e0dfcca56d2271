import MayTaint.Proofs.Stateless

/-!
Requests met at once and requests collected. A set takes every request at once. A batch leaves its
base alone and keeps the locals that were generated and those that were killed; the last request for
a local counts. Whoever makes the requests cannot tell which of the two they go to: the replies are
the same, refusals included, and the batch amounts to the set at every moment. What carries this is
one relation between a batch and a set (`Batch.AmountsTo`) that every request keeps.
-/

namespace MayTaint

/-! ### Sets over one domain -/

namespace LocalSet

variable {S T : LocalSet}

/-- Which local a datum names depends on the domain only. -/
theorem index_eq_map (h : S.size = T.size) (d : Datum) :
    T.index d = (S.index d).map (Fin.cast h) := by
  obtain ⟨n, x⟩ := S
  obtain ⟨m, y⟩ := T
  cases h
  cases hi : index ⟨n, x⟩ d with
  | ok i => exact hi
  | error f => exact hi

theorem contains_eq_map (S : LocalSet) (d : Datum) :
    S.contains d = (S.index d).map fun i => S.has i.val := by
  unfold contains
  cases S.index d <;> rfl

/-- Overwriting a set leaves the other one, if the domain is the same. -/
theorem overwrite_eq (h : T.size = S.size) : S.overwrite T = .ok T := by
  obtain ⟨n, x⟩ := S
  obtain ⟨m, y⟩ := T
  cases h
  simp [overwrite, combine]

variable [Machine]

theorem place_eq_map (h : S.size = T.size) (d : Datum) :
    T.place d = (S.place d).map (Fin.cast h) := by
  obtain ⟨n, x⟩ := S
  obtain ⟨m, y⟩ := T
  cases h
  cases hi : place ⟨n, x⟩ d with
  | ok i => exact hi
  | error f => exact hi

theorem insert_eq_map (S : LocalSet) (d : Datum) :
    S.insert d = (S.place d).map fun i => (!S.has i.val, S.put i true) := by
  unfold insert
  cases S.place d <;> rfl

theorem remove_eq_map (S : LocalSet) (d : Datum) :
    S.remove d = (S.place d).map fun i => (S.has i.val, S.put i false) := by
  unfold remove
  cases S.place d <;> rfl

end LocalSet

/-! ### What a batch amounts to -/

namespace Batch

def rewrite (b : Batch) (S : LocalSet) : Except Fault LocalSet := do
  (← S.difference b.kills).join b.gens

variable {b : Batch} {base S T : LocalSet}

theorem exists_rewrite (hgens : b.gens.size = S.size) (hkills : b.kills.size = S.size) :
    ∃ T, b.rewrite S = .ok T ∧ T.size = S.size ∧
      ∀ i, T.has i = (b.gens.has i || S.has i && !b.kills.has i) := by
  obtain ⟨U, hU⟩ : ∃ U, S.difference b.kills = .ok U := LocalSet.exists_combine _ hkills
  have hUsize : U.size = S.size := (LocalSet.size_combine hU).1
  obtain ⟨T, hT⟩ : ∃ T, U.join b.gens = .ok T :=
    LocalSet.exists_combine _ (hgens.trans hUsize.symm)
  refine ⟨T, except_bind_eq_ok.2 ⟨U, hU, hT⟩, (LocalSet.size_join hT).1.trans hUsize, fun i => ?_⟩
  rw [LocalSet.has_join hT, LocalSet.has_difference hU, Bool.or_comm]

theorem apply_of_rewrite (h : b.rewrite S = .ok T) (hsize : T.size = S.size) :
    b.apply S = .ok T := by
  obtain ⟨U, hU, hT⟩ := except_bind_eq_ok.1 h
  exact except_bind_eq_ok.2 ⟨U, hU, except_bind_eq_ok.2 ⟨T, hT, LocalSet.overwrite_eq hsize⟩⟩

def onBase (b : Batch) (base : LocalSet) : Batch :=
  { b with base }

/-- The requests of the batch make `S` of its base, which is `base`. -/
structure AmountsTo (b : Batch) (base S : LocalSet) : Prop where
  base_eq : b.base = base
  size : S.size = base.size
  size_gens : b.gens.size = base.size
  size_kills : b.kills.size = base.size
  disjoint : ∀ i, ¬(b.gens.has i = true ∧ b.kills.has i = true)
  has : ∀ i, S.has i = (b.gens.has i || base.has i && !b.kills.has i)

theorem amountsTo_ofBase (base : LocalSet) : (ofBase base).AmountsTo base base where
  base_eq := rfl
  size := rfl
  size_gens := rfl
  size_kills := rfl
  disjoint i := by simp [ofBase, LocalSet.clear]
  has i := by simp [ofBase, LocalSet.clear]

namespace AmountsTo

theorem rewrite_eq (h : b.AmountsTo base S) : b.rewrite base = .ok S := by
  obtain ⟨T, hT, hsize, hhas⟩ := exists_rewrite h.size_gens h.size_kills
  have hTS : T = S := LocalSet.eq_of_has (hsize.trans h.size.symm) fun i => by rw [hhas, h.has]
  rw [hT, hTS]

theorem apply_eq (h : b.AmountsTo base S) : b.apply base = .ok S :=
  apply_of_rewrite h.rewrite_eq h.size

theorem result_eq (h : b.AmountsTo base S) : b.result = .ok S := by
  rw [result, h.base_eq, h.apply_eq]

end AmountsTo

end Batch

/-! ### One request -/

def Accumulator.mark {γ : Type} [Accumulator γ] (tainted : Bool) (acc : γ) (d : Datum) :
    Except Fault γ :=
  if tainted then Accumulator.gen acc d else Accumulator.kill acc d

theorem LocalSet.mark_eq_map [Machine] (tainted : Bool) (S : LocalSet) (d : Datum) :
    Accumulator.mark tainted S d = (S.place d).map fun i => S.put i tainted := by
  cases tainted with
  | true =>
    show (do return (← S.insert d).2 : Except Fault LocalSet) = _
    rw [insert_eq_map]
    cases S.place d <;> rfl
  | false =>
    show (do return (← S.remove d).2 : Except Fault LocalSet) = _
    rw [remove_eq_map]
    cases S.place d <;> rfl

namespace Batch

/-- A request that is met puts the local into one of the two sets and takes it out of the other. -/
theorem mark_eq_map [Machine] {b : Batch} (h : b.gens.size = b.kills.size) (tainted : Bool)
    (d : Datum) :
    Accumulator.mark tainted b d = (b.gens.place d).map fun i =>
      { b with gens := b.gens.put i tainted, kills := b.kills.put (i.cast h) (!tainted) } := by
  cases tainted with
  | true =>
    show b.gen d = _
    rw [gen, LocalSet.insert_eq_map, LocalSet.remove_eq_map, LocalSet.place_eq_map h]
    cases b.gens.place d <;> rfl
  | false =>
    show b.kill d = _
    rw [kill, LocalSet.insert_eq_map, LocalSet.remove_eq_map, LocalSet.place_eq_map h]
    cases b.gens.place d <;> rfl

namespace AmountsTo

variable {b : Batch} {base S : LocalSet}

/-- A batch and the set that it amounts to answer alike. -/
theorem contains_eq (h : b.AmountsTo base S) (d : Datum) : b.contains d = S.contains d := by
  have hgens : S.size = b.gens.size := h.size.trans h.size_gens.symm
  have hkills : S.size = b.kills.size := h.size.trans h.size_kills.symm
  rw [contains, h.base_eq, LocalSet.contains_eq_map b.gens, LocalSet.contains_eq_map b.kills,
    LocalSet.contains_eq_map base, LocalSet.contains_eq_map S, LocalSet.index_eq_map hgens,
    LocalSet.index_eq_map hkills, LocalSet.index_eq_map h.size]
  cases S.index d with
  | error f => rfl
  | ok i =>
    simp only [Except.map, Fin.val_cast, h.has]
    cases b.gens.has i.val <;> cases b.kills.has i.val <;> cases base.has i.val <;> rfl

variable [Machine]

/-- What becomes of a batch and of the set that it amounts to when a local is to be made tainted or
clean: both refuse, or both meet the request and the batch amounts to the set still. -/
theorem mark_cases (h : b.AmountsTo base S) (tainted : Bool) (d : Datum) :
    (∃ f, Accumulator.mark tainted S d = .error f ∧ Accumulator.mark tainted b d = .error f) ∨
    ∃ (i : Nat) (T : LocalSet) (b' : Batch), d = .int i ∧ Accumulator.mark tainted S d = .ok T ∧
      Accumulator.mark tainted b d = .ok b' ∧ b'.AmountsTo base T ∧
      (∀ j, b'.gens.has j = if j = i then tainted else b.gens.has j) ∧
      ∀ j, b'.kills.has j = if j = i then !tainted else b.kills.has j := by
  have hgens : S.size = b.gens.size := h.size.trans h.size_gens.symm
  rw [LocalSet.mark_eq_map, mark_eq_map (h.size_gens.trans h.size_kills.symm),
    LocalSet.place_eq_map hgens]
  cases hi : S.place d with
  | error f => exact .inl ⟨f, rfl, rfl⟩
  | ok i =>
    refine .inr ⟨i, _, _, (LocalSet.place_eq_ok_iff.1 hi).1, rfl, rfl, ?_,
      fun j => LocalSet.has_put _ _ _ j, fun j => LocalSet.has_put _ _ _ j⟩
    constructor
    · exact h.base_eq
    · rw [LocalSet.size_put, h.size]
    · rw [LocalSet.size_put, h.size_gens]
    · rw [LocalSet.size_put, h.size_kills]
    · intro j
      simp only [LocalSet.has_put, Fin.val_cast]
      split
      · cases tainted <;> simp
      · exact h.disjoint j
    · intro j
      simp only [LocalSet.has_put, Fin.val_cast]
      split
      · cases tainted <;> simp
      · exact h.has j

end AmountsTo

end Batch

inductive Request where
  | mark (tainted : Bool) (d : Datum)
  | ask (d : Datum)

abbrev Reply := Except Fault (Option Bool)

namespace Request

variable {γ : Type} [Accumulator γ]

/-- Makes a request. A request that is refused changes nothing. -/
def perform (acc : γ) : Request → Reply × γ
  | mark tainted d =>
    match Accumulator.mark tainted acc d with
    | .ok acc' => (.ok none, acc')
    | .error f => (.error f, acc)
  | ask d => ((Accumulator.contains acc d).map some, acc)

/-- Makes a request of a batch that changes its two sets one after the other. If the second change
is refused, the first one stays. -/
def performInSteps [Machine] (b : Batch) : Request → Reply × Batch
  | mark true d =>
    match b.gens.insert d with
    | .error f => (.error f, b)
    | .ok (_, gens) =>
      match b.kills.remove d with
      | .error f => (.error f, { b with gens })
      | .ok (_, kills) => (.ok none, { b with gens, kills })
  | mark false d =>
    match b.kills.insert d with
    | .error f => (.error f, b)
    | .ok (_, kills) =>
      match b.gens.remove d with
      | .error f => (.error f, { b with kills })
      | .ok (_, gens) => (.ok none, { b with gens, kills })
  | ask d => (b.contains d |>.map some, b)

def performAll (acc : γ) (qs : List Request) : γ :=
  qs.foldl (fun acc q => (q.perform acc).2) acc

def isMet (said : Request × Reply) : Bool :=
  said.2.isOk

def met (said : List (Request × Reply)) : List Request :=
  (said.filter isMet).map Prod.fst

def verdict (i : Nat) : Request × Reply → Option Bool
  | (mark tainted (.int j), .ok _) => if j = i then some tainted else none
  | _ => none

/-- What the last request about a local that was met makes of it. -/
def lastVerdict (said : List (Request × Reply)) (i : Nat) : Option Bool :=
  said.reverse.findSome? (verdict i)

theorem perform_mark {acc acc' : γ} {tainted : Bool} {d : Datum}
    (h : Accumulator.mark tainted acc d = .ok acc') :
    (mark tainted d).perform acc = (.ok none, acc') := by
  simp only [perform, h]

theorem perform_mark_error {acc : γ} {tainted : Bool} {d : Datum} {f : Fault}
    (h : Accumulator.mark tainted acc d = .error f) :
    (mark tainted d).perform acc = (.error f, acc) := by
  simp only [perform, h]

theorem perform_ask {acc : γ} {d : Datum} {answer : Bool}
    (h : Accumulator.contains acc d = .ok answer) :
    (ask d).perform acc = (.ok (some answer), acc) := by
  rw [perform, h]
  rfl

theorem perform_refused {q : Request} {acc : γ} {f : Fault} (h : (q.perform acc).1 = .error f) :
    (q.perform acc).2 = acc := by
  cases q with
  | ask d => rfl
  | mark tainted d =>
    cases hm : Accumulator.mark tainted acc d with
    | error f => rw [perform_mark_error hm]
    | ok acc' =>
      rw [perform_mark hm] at h
      cases h

theorem performAll_concat (acc : γ) (qs : List Request) (q : Request) :
    performAll acc (qs ++ [q]) = (q.perform (performAll acc qs)).2 := by
  simp [performAll]

theorem met_concat_ok (said : List (Request × Reply)) (q : Request) (answer : Option Bool) :
    met (said ++ [(q, .ok answer)]) = met said ++ [q] := by
  rw [met, List.filter_append, List.map_append, ← met]
  rfl

theorem met_concat_error (said : List (Request × Reply)) (q : Request) (f : Fault) :
    met (said ++ [(q, .error f)]) = met said := by
  rw [met, List.filter_append, List.map_append, ← met]
  exact List.append_nil _

theorem lastVerdict_concat (said : List (Request × Reply)) (last : Request × Reply) (i : Nat) :
    lastVerdict (said ++ [last]) i = (verdict i last).or (lastVerdict said i) := by
  rw [lastVerdict, List.reverse_append, List.reverse_singleton, List.singleton_append,
    List.findSome?_cons, ← lastVerdict]
  cases verdict i last <;> rfl

end Request

namespace Batch.AmountsTo

variable [Machine] {b : Batch} {base S : LocalSet}

/-- The two sets of a batch are over one domain, so that they refuse together. -/
theorem performInSteps_eq (h : b.AmountsTo base S) (q : Request) :
    q.performInSteps b = q.perform b := by
  have hsize : b.gens.size = b.kills.size := h.size_gens.trans h.size_kills.symm
  cases q with
  | ask d => rfl
  | mark tainted d =>
    rw [Request.perform, mark_eq_map hsize]
    cases tainted with
    | true =>
      rw [Request.performInSteps, LocalSet.insert_eq_map, LocalSet.remove_eq_map,
        LocalSet.place_eq_map hsize]
      cases b.gens.place d <;> rfl
    | false =>
      rw [Request.performInSteps, LocalSet.insert_eq_map, LocalSet.remove_eq_map,
        LocalSet.place_eq_map hsize]
      cases b.gens.place d <;> rfl

/-- A batch and the set that it amounts to reply alike, and the batch amounts to the set still. Its
two sets hold what the request has decided. -/
theorem perform (h : b.AmountsTo base S) (q : Request) :
    ∃ reply T b', q.perform S = (reply, T) ∧ q.perform b = (reply, b') ∧ b'.AmountsTo base T ∧
      (∀ i, b'.gens.has i = (Request.verdict i (q, reply)).getD (b.gens.has i)) ∧
      ∀ i, b'.kills.has i = ((Request.verdict i (q, reply)).map not).getD (b.kills.has i) := by
  cases q with
  | ask d =>
    refine ⟨(S.contains d).map some, S, b, rfl, ?_, h, fun i => rfl, fun i => rfl⟩
    rw [← h.contains_eq]
    rfl
  | mark tainted d =>
    obtain ⟨f, hS, hb⟩ | ⟨i, T, b', rfl, hS, hb, h', hgens, hkills⟩ := h.mark_cases tainted d
    · exact ⟨.error f, S, b, Request.perform_mark_error hS, Request.perform_mark_error hb, h,
        fun i => by cases d <;> rfl, fun i => by cases d <;> rfl⟩
    · refine ⟨.ok none, T, b', Request.perform_mark hS, Request.perform_mark hb, h', ?_, ?_⟩
      · intro j
        rw [hgens, Request.verdict]
        by_cases hj : j = i
        · simp [hj]
        · simp [hj, Ne.symm hj]
      · intro j
        rw [hkills, Request.verdict]
        by_cases hj : j = i
        · simp [hj]
        · simp [hj, Ne.symm hj]

/-- Requests go into the two sets of a batch whatever its base is. -/
theorem perform_onBase (h : b.AmountsTo base S) (q : Request) (T : LocalSet) :
    (q.perform (b.onBase T)).2 = (q.perform b).2.onBase T := by
  have hsize : b.gens.size = b.kills.size := h.size_gens.trans h.size_kills.symm
  cases q with
  | ask d => rfl
  | mark tainted d =>
    have hT := mark_eq_map (b := b.onBase T) hsize tainted d
    have hb := mark_eq_map hsize tainted d
    cases hi : b.gens.place d with
    | ok i =>
      rw [hi] at hb
      rw [show (b.onBase T).gens.place d = .ok i from hi] at hT
      rw [Request.perform_mark hT, Request.perform_mark hb]
      rfl
    | error f =>
      rw [hi] at hb
      rw [show (b.onBase T).gens.place d = .error f from hi] at hT
      rw [Request.perform_mark_error hT, Request.perform_mark_error hb]

end Batch.AmountsTo

/-! ### Programs of requests -/

/-- A program of requests: the next request, if there is one more, depends on the replies so far. -/
abbrev Requester := List Reply → Option Request

namespace Requester

variable {γ : Type} [Accumulator γ] {p : Requester} {acc acc' : γ} {n : Nat} {q : Request}
  {reply : Reply} {said : List (Request × Reply)}

def talk (p : Requester) (acc : γ) : Nat → List (Request × Reply) × γ
  | 0 => ([], acc)
  | n + 1 =>
    let before := p.talk acc n
    match p (before.1.map Prod.snd) with
    | none => before
    | some q => (before.1 ++ [(q, (q.perform before.2).1)], (q.perform before.2).2)

theorem talk_succ_of_none (h : p.talk acc n = (said, acc')) (hp : p (said.map Prod.snd) = none) :
    p.talk acc (n + 1) = (said, acc') := by
  simp only [talk, h, hp]

theorem talk_succ_of_some (h : p.talk acc n = (said, acc'))
    (hp : p (said.map Prod.snd) = some q) :
    p.talk acc (n + 1) = (said ++ [(q, (q.perform acc').1)], (q.perform acc').2) := by
  simp only [talk, h, hp]

def after (p : Requester) (reply : Reply) : Requester :=
  fun replies => p (reply :: replies)

/-- A conversation begins with the first request and goes on as the program after the reply does. -/
theorem talk_succ_eq_cons (hp : p [] = some q) (hq : q.perform acc = (reply, acc')) (n : Nat) :
    p.talk acc (n + 1) =
      ((q, reply) :: ((p.after reply).talk acc' n).1, ((p.after reply).talk acc' n).2) := by
  induction n with
  | zero =>
    have hstart : p.talk acc 0 = ([], acc) := rfl
    rw [talk_succ_of_some hstart hp, hq]
    rfl
  | succ n ih =>
    cases hnext : p.after reply (((p.after reply).talk acc' n).1.map Prod.snd) with
    | none => rw [talk_succ_of_none ih hnext, talk_succ_of_none rfl hnext]
    | some r =>
      rw [talk_succ_of_some ih hnext, talk_succ_of_some rfl hnext]
      rfl

end Requester

/-- What the requests in `said` have made of the batch over `base` and of `base` itself. -/
structure Batch.Follows [Machine] (b : Batch) (said : List (Request × Reply))
    (base S : LocalSet) : Prop where
  amountsTo : b.AmountsTo base S
  gens : ∀ i, b.gens.has i = true ↔ Request.lastVerdict said i = some true
  kills : ∀ i, b.kills.has i = true ↔ Request.lastVerdict said i = some false
  onBase : ∀ T : LocalSet, T.size = base.size →
    (b.onBase T).AmountsTo T (Request.performAll T (Request.met said))

namespace Batch

variable [Machine] {b b' : Batch} {base S T : LocalSet} {said : List (Request × Reply)}

theorem follows_ofBase (base : LocalSet) : (ofBase base).Follows [] base base where
  amountsTo := amountsTo_ofBase base
  gens i := by simp [ofBase, LocalSet.clear, Request.lastVerdict]
  kills i := by simp [ofBase, LocalSet.clear, Request.lastVerdict]
  onBase T hT := by
    have hclear : (ofBase base).onBase T = ofBase T := by
      rw [onBase, ofBase, ofBase, LocalSet.clear, LocalSet.clear, hT]
    rw [hclear]
    exact amountsTo_ofBase T

/-- Every request keeps a batch and its set together. -/
theorem Follows.perform (h : b.Follows said base S) (q : Request) :
    ∃ reply T b', q.perform S = (reply, T) ∧ q.perform b = (reply, b') ∧
      b'.Follows (said ++ [(q, reply)]) base T := by
  obtain ⟨reply, T, b', hS, hb, h', hgens, hkills⟩ := h.amountsTo.perform q
  refine ⟨reply, T, b', hS, hb, h', ?_, ?_, ?_⟩
  · intro i
    rw [hgens, Request.lastVerdict_concat]
    cases Request.verdict i (q, reply) with
    | none => exact h.gens i
    | some v => simp
  · intro i
    rw [hkills, Request.lastVerdict_concat]
    cases Request.verdict i (q, reply) with
    | none => exact h.kills i
    | some v => cases v <;> simp
  · intro U hU
    have hbase : (q.perform (b.onBase U)).2 = b'.onBase U := by rw [h.amountsTo.perform_onBase, hb]
    cases reply with
    | ok answer =>
      obtain ⟨_, V, c, hV, hc, hcV, -⟩ := (h.onBase U hU).perform q
      rw [hc] at hbase
      rw [Request.met_concat_ok, Request.performAll_concat, hV, ← hbase]
      exact hcV
    | error f =>
      have hsame : b' = b := by
        have hrefused := Request.perform_refused (congrArg Prod.fst hb)
        rwa [hb] at hrefused
      rw [Request.met_concat_error, hsame]
      exact h.onBase U hU

/-- Whoever makes the requests hears the same from a set and from a batch over it. -/
theorem follows_talk (p : Requester) (base : LocalSet) (n : Nat) :
    ∃ said S b, p.talk base n = (said, S) ∧ p.talk (ofBase base) n = (said, b) ∧
      b.Follows said base S := by
  induction n with
  | zero => exact ⟨[], base, ofBase base, rfl, rfl, follows_ofBase base⟩
  | succ n ih =>
    obtain ⟨said, S, b, hS, hb, h⟩ := ih
    cases hp : p (said.map Prod.snd) with
    | none =>
      exact ⟨said, S, b, Requester.talk_succ_of_none hS hp, Requester.talk_succ_of_none hb hp, h⟩
    | some q =>
      obtain ⟨reply, T, b', hT, hb', h'⟩ := h.perform q
      refine ⟨said ++ [(q, reply)], T, b', ?_, ?_, h'⟩
      · rw [Requester.talk_succ_of_some hS hp, hT]
      · rw [Requester.talk_succ_of_some hb hp, hb']

end Batch

/-! ### Effects -/

namespace Effect

variable {σ α γ : Type}

/-- The requests of an effect that begins in a session, as a program. It ends at a refusal. -/
def requester : Effect σ α → Session σ → Requester
  | done _, _, _ => none
  | raise _, _, _ => none
  | gen d _, _, [] => some (.mark true d)
  | gen _ next, s, .ok _ :: replies => next.requester s replies
  | kill d _, _, [] => some (.mark false d)
  | kill _ next, s, .ok _ :: replies => next.requester s replies
  | ask d _, _, [] => some (.ask d)
  | ask _ next, s, .ok (some answer) :: replies => (next answer).requester s replies
  | read next, s, replies => (next s.memory).requester s replies
  | write m next, s, replies => next.requester { s with memory := m } replies
  | report body c next, s, replies => next.requester (s.tell (.unsupported body c)) replies
  | _, _, _ => none

def mark (tainted : Bool) (d : Datum) (next : Effect σ α) : Effect σ α :=
  if tainted then gen d next else kill d next

section Mark

variable [Accumulator γ] {acc acc' : γ} {tainted : Bool} {d : Datum}

theorem run_mark (h : Accumulator.mark tainted acc d = .ok acc') (next : Effect σ α)
    (s : Session σ) : (mark tainted d next).run (acc, s) = next.run (acc', s) := by
  cases tainted with
  | true =>
    have hgen : Accumulator.gen acc d = .ok acc' := h
    simp only [mark, if_true, run, hgen]
  | false =>
    have hkill : Accumulator.kill acc d = .ok acc' := h
    simp only [mark, Bool.false_eq_true, if_false, run, hkill]

theorem run_mark_error {f : Fault} (h : Accumulator.mark tainted acc d = .error f)
    (next : Effect σ α) (s : Session σ) :
    (mark tainted d next).run (acc, s) = .error f (acc, s) := by
  cases tainted with
  | true =>
    have hgen : Accumulator.gen acc d = .error f := h
    simp only [mark, if_true, run, hgen]
  | false =>
    have hkill : Accumulator.kill acc d = .error f := h
    simp only [mark, Bool.false_eq_true, if_false, run, hkill]

theorem talk_mark (h : Accumulator.mark tainted acc d = .ok acc') (next : Effect σ α)
    (s : Session σ) (n : Nat) : (((mark tainted d next).requester s).talk acc (n + 1)).2 =
      ((next.requester s).talk acc' n).2 := by
  have hfirst : (mark tainted d next).requester s [] = some (.mark tainted d) := by
    cases tainted <;> rfl
  have hafter : ((mark tainted d next).requester s).after (.ok none) = next.requester s := by
    cases tainted <;> rfl
  rw [Requester.talk_succ_eq_cons hfirst (Request.perform_mark h), hafter]

end Mark

def ending (o : Except Fault α) (t : γ × Session σ) : EStateM.Result Fault (γ × Session σ) α :=
  match o with
  | .ok a => .ok a t
  | .error f => .error f t

variable [Machine] {b : Batch} {base S : LocalSet}

/-- The effect ends alike on a set and on a batch over `base`, which then amounts to the set. Both
are as the requests of the effect have left them. -/
def EndsAlike (x : Effect σ α) (base S : LocalSet) (b : Batch) (s : Session σ) : Prop :=
  ∃ o T c s' n, x.run (S, s) = ending o (T, s') ∧ x.run (b, s) = ending o (c, s') ∧
    c.AmountsTo base T ∧ ((x.requester s).talk S n).2 = T ∧ ((x.requester s).talk b n).2 = c

theorem endsAlike_mark {next : Effect σ α} {s : Session σ}
    (hnext : ∀ {b : Batch} {S : LocalSet}, b.AmountsTo base S → next.EndsAlike base S b s)
    (h : b.AmountsTo base S) (tainted : Bool) (d : Datum) :
    (mark tainted d next).EndsAlike base S b s := by
  obtain ⟨f, hS, hb⟩ | ⟨_, T, c, _, hS, hb, hc, -⟩ := h.mark_cases tainted d
  · exact ⟨.error f, S, b, s, 0, run_mark_error hS next s, run_mark_error hb next s, h, rfl, rfl⟩
  · obtain ⟨o, U, e, s', n, hU, he, heU, hnU, hne⟩ := hnext hc
    refine ⟨o, U, e, s', n + 1, ?_, ?_, heU, ?_, ?_⟩
    · rw [run_mark hS, hU]
    · rw [run_mark hb, he]
    · rw [talk_mark hS, hnU]
    · rw [talk_mark hb, hne]

theorem endsAlike_ask {d : Datum} {next : Bool → Effect σ α} {s : Session σ}
    (hnext : ∀ answer, (next answer).EndsAlike base S b s) (h : b.AmountsTo base S) :
    (ask d next).EndsAlike base S b s := by
  have hb : Accumulator.contains b d = Accumulator.contains S d := h.contains_eq d
  cases hS : Accumulator.contains S d with
  | error f =>
    rw [hS] at hb
    refine ⟨.error f, S, b, s, 0, ?_, ?_, h, rfl, rfl⟩
    · simp only [run, hS, ending]
    · simp only [run, hb, ending]
  | ok answer =>
    rw [hS] at hb
    obtain ⟨o, T, c, s', n, hT, hc, hcT, hnT, hnc⟩ := hnext answer
    have hafter : ((ask d next).requester s).after (.ok (some answer)) =
      (next answer).requester s := rfl
    refine ⟨o, T, c, s', n + 1, ?_, ?_, hcT, ?_, ?_⟩
    · simp only [run, hS, hT]
    · simp only [run, hb, hc]
    · rw [Requester.talk_succ_eq_cons rfl (Request.perform_ask hS), hafter, hnT]
    · rw [Requester.talk_succ_eq_cons rfl (Request.perform_ask hb), hafter, hnc]

/-- An effect cannot tell a batch from the set that it amounts to. -/
theorem endsAlike (x : Effect σ α) (h : b.AmountsTo base S) (s : Session σ) :
    x.EndsAlike base S b s := by
  induction x generalizing b S s with
  | done a => exact ⟨.ok a, S, b, s, 0, rfl, rfl, h, rfl, rfl⟩
  | raise f => exact ⟨.error f, S, b, s, 0, rfl, rfl, h, rfl, rfl⟩
  | gen d next ih => exact endsAlike_mark (fun h => ih h s) h true d
  | kill d next ih => exact endsAlike_mark (fun h => ih h s) h false d
  | ask d next ih => exact endsAlike_ask (fun answer => ih answer h s) h
  | read next ih => exact ih s.memory h s
  | write m next ih => exact ih h { s with memory := m }
  | report body c next ih => exact ih h (s.tell (.unsupported body c))

end Effect

/-- Batches and sets are interchangeable. Over every base and for every program of requests, a batch
and the base itself give the same replies. After every request the batch makes of its base what the
base itself has become; its two sets are disjoint, and a local is in the one or the other by the
last request about it that was met. A request that is refused changes nothing, though it changes
the two sets of a batch one after the other. On any set over the domain the batch does what the
requests that were met do one by one. Effects are such programs, the rules for all statements and
terminators among them, and they end alike. -/
theorem Batch.interchangeable [Machine] (base : LocalSet) :
    (∀ (p : Requester) (n : Nat), ∃ said S b,
      p.talk base n = (said, S) ∧ p.talk (ofBase base) n = (said, b) ∧
      b.base = base ∧ b.result = .ok S ∧
      (∀ i, ¬(b.gens.has i = true ∧ b.kills.has i = true)) ∧
      (∀ i, b.gens.has i = true ↔ Request.lastVerdict said i = some true) ∧
      (∀ i, b.kills.has i = true ↔ Request.lastVerdict said i = some false) ∧
      (∀ (q : Request) (f : Fault), (q.perform S).1 = .error f →
        (q.perform S).2 = S ∧ q.performInSteps b = (.error f, b)) ∧
      (∀ q : Request, q.performInSteps b = q.perform b) ∧
      ∀ T : LocalSet, T.size = base.size →
        b.apply T = .ok (Request.performAll T (Request.met said))) ∧
    ∀ {σ α : Type} (x : Effect σ α) (s : Session σ), ∃ o S b s' n,
      x.run (base, s) = Effect.ending o (S, s') ∧
      x.run (ofBase base, s) = Effect.ending o (b, s') ∧
      ((x.requester s).talk base n).2 = S ∧ ((x.requester s).talk (ofBase base) n).2 = b := by
  constructor
  · intro p n
    obtain ⟨said, S, b, hS, hb, h⟩ := follows_talk p base n
    refine ⟨said, S, b, hS, hb, h.amountsTo.base_eq, h.amountsTo.result_eq, h.amountsTo.disjoint,
      h.gens, h.kills, ?_, h.amountsTo.performInSteps_eq, ?_⟩
    · intro q f hf
      obtain ⟨reply, T, c, hT, hc, -⟩ := h.amountsTo.perform q
      have hreply : reply = .error f := by rw [← hf, hT]
      have hcb : (q.perform b).2 = b := Request.perform_refused (by rw [hc, hreply])
      refine ⟨Request.perform_refused hf, ?_⟩
      rw [h.amountsTo.performInSteps_eq, hc, hreply, ← hcb, hc]
    · intro T hT
      exact (h.onBase T hT).apply_eq
  · intro σ α x s
    obtain ⟨o, S, b, s', n, hS, hb, -, hnS, hnb⟩ := x.endsAlike (amountsTo_ofBase base) s
    exact ⟨o, S, b, s', n, hS, hb, hnS, hnb⟩

end MayTaint
