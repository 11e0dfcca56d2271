import MayTaint.Proofs.Taint.Audit
import MayTaint.Proofs.Taint.Paths

/-!
Explicit flows. Values are computed along a walk in a store, under any meaning of the constants and
operators; what an rvalue without a rule computes is left open as well, and may read the whole
store. If two stores agree outside the tainted locals before an instruction that has a rule, they
agree outside the tainted locals after it. So once the audit of a run is empty, the locals that are
clean at a location have values there that do not depend on those of the seed: two executions along
the same walk that start from stores which differ in the seed only cannot be told apart by them.
-/

namespace MayTaint

/-- A meaning of constants and operators, and of the rvalues without a rule. -/
structure Interpretation (V : Type) where
  constant : Datum → V
  unary : Datum → V → V
  binary : Datum → V → V → V
  other : Rvalue → (Datum → V) → V

namespace Interpretation

variable {V : Type} (I : Interpretation V)

def operand (store : Datum → V) : Operand → V
  | .constant value => I.constant value
  | .copy source | .move source => store source
  | .foreign thing => I.constant thing.datum

def rvalue (store : Datum → V) : Rvalue → V
  | .use operand => I.operand store operand
  | .binary op lhs rhs => I.binary op (I.operand store lhs) (I.operand store rhs)
  | .unary op operand => I.unary op (I.operand store operand)
  | rvalue => I.other rvalue store

open Classical in
/-- The store after an instruction. Only assignments change it, and a move leaves its source as it
is. -/
noncomputable def exec (store : Datum → V) : Instruction → Datum → V
  | .statement (.assign target rvalue) =>
    fun d => if d = target then I.rvalue store rvalue else store d
  | _ => store

variable {I} {store store' : Datum → V}

theorem operand_congr {o : Operand} (h : ∀ x ∈ o.locals, store x = store' x) :
    I.operand store o = I.operand store' o := by
  cases o with
  | constant value => rfl
  | copy source => exact h source List.mem_cons_self
  | move source => exact h source List.mem_cons_self
  | foreign thing => rfl

/-- An rvalue with a rule depends on its sources only. -/
theorem rvalue_congr {rvalue : Rvalue} {sources : List Datum} (h : rvalue.sources? = some sources)
    (heq : ∀ x ∈ sources, store x = store' x) :
    I.rvalue store rvalue = I.rvalue store' rvalue := by
  cases rvalue with
  | use operand =>
    cases h
    exact operand_congr heq
  | binary op lhs rhs =>
    cases h
    have hlhs : I.operand store lhs = I.operand store' lhs :=
      operand_congr fun x hx => heq x (List.mem_append_left _ hx)
    have hrhs : I.operand store rhs = I.operand store' rhs :=
      operand_congr fun x hx => heq x (List.mem_append_right _ hx)
    simp only [Interpretation.rvalue, hlhs, hrhs]
  | unary op operand =>
    have hoperand : I.operand store operand = I.operand store' operand := by
      cases operand with
      | copy source =>
        cases h
        exact heq source List.mem_cons_self
      | move source =>
        cases h
        exact heq source List.mem_cons_self
      | constant value => cases h
      | foreign thing => cases h
    simp only [Interpretation.rvalue, hoperand]
  | _ => cases h

end Interpretation

def AgreeOff {V : Type} (n : Int) (T : Set Datum) (store store' : Datum → V) : Prop :=
  ∀ d, d.isLocal n = true → d ∉ T → store d = store' d

section

variable {V : Type} {I : Interpretation V} {n : Int} {T U : Set Datum} {store store' : Datum → V}
  {i : Instruction}

theorem AgreeOff.mono (h : AgreeOff n T store store') (hTU : T ⊆ U) :
    AgreeOff n U store store' := fun d hd hU => h d hd fun hT => hU (hTU hT)

/-- Stores that agree outside the tainted locals still do after an instruction with a rule. -/
theorem AgreeOff.exec (hwf : i.isWellFormed n = true) (hrule : i.unruled? = none)
    (h : AgreeOff n T store store') :
    AgreeOff n (Instruction.carry T i) (I.exec store i) (I.exec store' i) := by
  obtain (s | t) := i
  · cases s with
    | assign target rvalue =>
      obtain ⟨sources, hsources⟩ : ∃ sources, rvalue.sources? = some sources := by
        cases hsources : rvalue.sources? with
        | some sources => exact ⟨sources, rfl⟩
        | none =>
          rw [Instruction.unruled?, hsources] at hrule
          cases hrule
      have hflow : (Instruction.statement (.assign target rvalue)).flow? =
          some (target, sources) := by
        rw [Instruction.flow?, hsources]
        rfl
      have hlocal := (Instruction.isLocal_of_flow hwf hflow).2
      intro d hd hclean
      rw [Instruction.carry_of_flow hflow] at hclean
      push Not at hclean
      simp only [Interpretation.exec]
      split
      · next htarget =>
        -- the target is clean, hence so are the sources
        refine Interpretation.rvalue_congr hsources fun x hx => h x (hlocal x hx) ?_
        exact hclean.1 htarget x hx
      · next htarget => exact h d hd (hclean.2 htarget)
    | _ => exact h
  · exact h

theorem AgreeOff.foldl {is : List Instruction} (hwf : ∀ i ∈ is, i.isWellFormed n = true)
    (hrule : ∀ i ∈ is, i.unruled? = none) (h : AgreeOff n T store store') :
    AgreeOff n (is.foldl Instruction.carry T) (is.foldl I.exec store) (is.foldl I.exec store') := by
  induction is generalizing T store store' with
  | nil => exact h
  | cons i is ih =>
    refine ih (fun j hj => hwf j (List.mem_cons_of_mem i hj))
      (fun j hj => hrule j (List.mem_cons_of_mem i hj)) ?_
    exact h.exec (hwf i List.mem_cons_self) (hrule i List.mem_cons_self)

/-- If the audit of a well-formed body is empty, then along every walk and under every meaning of
the constants and operators, the locals that are clean at a location have there the same values for
all stores that differ in the seed only. -/
theorem analyze_noninterference [Machine] {η : Type} {body : Body} {seed : List Datum}
    {s s' : Session (Taint.Memory η)} {r : Results (Taint.Memory η)} (hbody : body.WellFormed)
    (h : analyze body seed {} s = .ok r s') (haudit : r.unsupported = [])
    (I : Interpretation V) {path : List BlockId} {l : Location} (hpath : body.Walk path l.block)
    (hl : body.validateLocation l = .ok ())
    (hstores : AgreeOff body.localCount {d | d ∈ seed} store store') {x : Int} (hx : 0 ≤ x)
    (hlt : x < body.localCount) :
    ∃ answer, Run.Yields (r.isPossiblyTainted (.int x) l) answer ∧
      (answer = false → (body.trace path l).foldl I.exec store (.int x) =
        (body.trace path l).foldl I.exec store' (.int x)) := by
  have hv := Body.valid_of_validate hbody.validate
  obtain ⟨k, hk⟩ := Int.eq_ofNat_of_zero_le hv.localCount_nonneg
  have ht : (⟨seed, {}⟩ : Taint η).Lenient := Taint.lenient_default
  obtain ⟨_, _, _, _, _, _, _, hrun, hunsupported, hyields, _⟩ :=
    exists_solved_of_analyze h
  obtain ⟨T, hT, hsize, hcovers⟩ := Taint.exists_state_of_walk s ht hbody hk hrun hpath hl
  have hlocal : (Datum.int x).isLocal body.localCount = true :=
    Datum.isLocal_iff.2 ⟨x, rfl, hx, hlt⟩
  refine ⟨T.holds (.int x), hyields hl hT (by rw [hsize, ← hk]; exact hlocal), fun hclean => ?_⟩
  have hwf : ∀ i ∈ body.trace path l, i.isWellFormed body.localCount = true := by
    intro i hi
    obtain ⟨bb, hreach, hi⟩ := Body.exists_reachable_of_mem_trace hpath hi
    have hbb := hv.hasBlock_of_reachable hreach
    obtain ⟨b, hb⟩ := hv.exists_block hbb
    exact hbody.isWellFormed hbb hb (Body.instructionsOf_eq hb ▸ hi)
  have hrule : ∀ i ∈ body.trace path l, i.unruled? = none := by
    intro i hi
    obtain ⟨bb, hbb, hi⟩ := Body.exists_reachable_of_mem_trace hpath hi
    exact Taint.unruled_eq_none ht hbody hrun (hunsupported.symm.trans haudit) hbb hi
  -- the state covers what is tainted along this walk, so a clean local is clean along it
  have hagree := (hstores.foldl (I := I) hwf hrule).mono hcovers
  refine hagree (.int x) hlocal fun hmem => ?_
  rw [show T.holds (.int x) = true from hmem] at hclean
  cases hclean

def additive : Interpretation Int where
  constant _ := 7
  unary _ x := x
  binary _ x y := x + y
  other _ _ := 0

end

attribute [local instance] Machine.ample in
/-- The two stores differ in local 0. Local 1 is clean at the end of every round. -/
theorem analyze_noninterference_relay :
    ∃ r s', analyze relay [.int 0] {} ⟨⟨{}, ()⟩, []⟩ = .ok r s' ∧ r.unsupported = [] ∧
      ∃ answer, Run.Yields (r.isPossiblyTainted (.int 1) ⟨1, 2⟩) answer ∧
        (answer = false →
          (relay.trace [0, 1] ⟨1, 2⟩).foldl additive.exec (fun _ => 0) (.int 1) =
            (relay.trace [0, 1] ⟨1, 2⟩).foldl additive.exec
              (fun d => if d.isLocal 1 then 5 else 0) (.int 1)) := by
  have hbody : relay.WellFormed := ⟨by cbv, by decide⟩
  obtain ⟨r, s', h, haudit⟩ : ∃ r s', analyze relay [.int 0] {} ⟨⟨{}, ()⟩, []⟩ = .ok r s' ∧
      r.unsupported = [] := ⟨_, _, by cbv, rfl⟩
  have hpath : relay.Walk [0, 1] 1 :=
    (Body.Walk.entry.step ⟨_, _, .goto, rfl, rfl, by decide⟩).step
      ⟨_, _, .switchCase, rfl, rfl, by decide⟩
  have hstores : AgreeOff relay.localCount {d | d ∈ [Datum.int 0]} (fun _ => (0 : Int))
      (fun d => if d.isLocal 1 then 5 else 0) := by
    intro d _ hd
    have hnot : ¬d.isLocal 1 = true := by
      intro hlocal
      obtain ⟨i, rfl, hnonneg, hlt⟩ := Datum.isLocal_iff.1 hlocal
      obtain rfl : i = 0 := by omega
      exact hd List.mem_cons_self
    exact (if_neg hnot).symm
  exact ⟨r, s', h, haudit, analyze_noninterference hbody h haudit additive hpath (by cbv) hstores
    (by decide) (by decide)⟩

end MayTaint
