import MayTaint.Proofs.Graph
import MayTaint.Proofs.Replay

/-!
Well-formed bodies, and blocks as lists of instructions. A body is well-formed if it is valid, if
nothing foreign stands in an instruction, and if every local that an instruction names, whether or
not the analysis looks at it, is one of the locals of the body. The tests are Boolean, so that a
concrete body is well-formed by evaluation.
-/

namespace MayTaint

def Datum.isLocal (n : Int) : Datum → Bool
  | int i => 0 ≤ i && i < n
  | _ => false

theorem Datum.isLocal_iff {n : Int} {d : Datum} :
    d.isLocal n = true ↔ ∃ i, d = .int i ∧ 0 ≤ i ∧ i < n := by
  cases d with
  | int i => simp [isLocal]
  | _ => exact ⟨nofun, nofun⟩

def Operand.isWellFormed (n : Int) : Operand → Bool
  | constant _ => true
  | copy source | move source => source.isLocal n
  | foreign _ => false

def Rvalue.isWellFormed (n : Int) : Rvalue → Bool
  | use operand | unary _ operand | cast _ operand | replicate operand _ => operand.isWellFormed n
  | binary _ lhs rhs | checkedBinary _ lhs rhs => lhs.isWellFormed n && rhs.isWellFormed n
  | ref place _ | addressOf place _ | len place | discriminant place => place.isLocal n
  | aggregate _ operands => operands.all (·.isWellFormed n)
  | nullary _ => true
  | foreign _ => false

def Statement.isWellFormed (n : Int) : Statement → Bool
  | assign target rvalue => target.isLocal n && rvalue.isWellFormed n
  | storageLive place | storageDead place => place.isLocal n
  | nop => true
  | foreign _ => false

def Terminator.isWellFormed (n : Int) : Terminator → Bool
  | goto _ | ret | unreachable | resume => true
  | switchInt operand _ _ | check operand _ _ _ => operand.isWellFormed n
  | call c => c.func.isWellFormed n && c.args.all (·.isWellFormed n) &&
    c.destination.all (·.isLocal n)
  | drop place _ _ => place.isLocal n
  | statement _ | foreign _ => false

def Instruction.isWellFormed (n : Int) : Instruction → Bool
  | statement s => s.isWellFormed n
  | terminator t => t.isWellFormed n

def Block.instructions (b : Block) : List Instruction :=
  b.statements.map .statement ++ [.terminator b.terminator]

structure Body.WellFormed (body : Body) : Prop where
  validate : body.validate = .ok ()
  instructions : ∀ b ∈ body.blocks, b.instructions.all (·.isWellFormed body.localCount) = true

namespace Block

theorem length_instructions (b : Block) : b.instructions.length = b.statements.length + 1 := by
  simp [instructions]

theorem instructions_eq_statement_iff {b : Block} {j : Nat} {s : Statement} :
    b.instructions[j]? = some (.statement s) ↔ b.statements[j]? = some s := by
  rw [instructions, List.getElem?_append, List.length_map]
  split
  · simp
  · next hj =>
    have hnone : b.statements[j]? = none := List.getElem?_eq_none (Nat.not_lt.1 hj)
    cases hk : j - b.statements.length <;> simp [hnone]

theorem statement_of_drop {b : Block} {j : Nat} {st : Statement} {rest : List Statement}
    (h : b.statements.drop j = st :: rest) :
    b.instructions[j]? = some (.statement st) ∧ b.statements.drop (j + 1) = rest := by
  constructor
  · rw [instructions_eq_statement_iff, ← List.head?_drop, h, List.head?_cons]
  · rw [← List.drop_drop, h, List.drop_one, List.tail_cons]

end Block

namespace Body

variable {body : Body} {bb : BlockId} {b : Block} {i : Instruction}

/-- The instructions of a block; a number that names no block has none. -/
def instructionsOf (body : Body) (bb : BlockId) : List Instruction :=
  match body.block bb with
  | .ok b => b.instructions
  | .error _ => []

theorem instructionsOf_eq (hb : body.block bb = .ok b) :
    body.instructionsOf bb = b.instructions := by
  rw [instructionsOf, hb]

theorem instructionAt_eq (hb : body.block bb = .ok b) {j : Nat} (hi : b.instructions[j]? = some i) :
    body.instructionAt ⟨bb, j⟩ = .ok i := by
  refine except_bind_eq_ok.2 ⟨b, hb, ?_⟩
  unfold Block.instructions at hi
  by_cases hj : j < b.statements.length
  · have hne : ¬((j : Int) = b.terminatorIndex) := by
      unfold Block.terminatorIndex
      omega
    rw [List.getElem?_append_left (by simpa using hj), List.getElem?_map,
      Option.map_eq_some_iff] at hi
    obtain ⟨s, hs, rfl⟩ := hi
    have hat : elementAt b.statements (j : Int) = .ok s :=
      (elementAt_eq_ok_iff (Int.natCast_nonneg j)).2 hs
    simp only [if_neg hne, hat]
    rfl
  · have hlast : j = b.statements.length := by
      have hlt := (List.getElem?_eq_some_iff.1 hi).1
      rw [List.length_append, List.length_map, List.length_singleton] at hlt
      omega
    subst hlast
    rw [List.getElem?_append_right (by simp), List.length_map, Nat.sub_self] at hi
    cases hi
    exact if_pos rfl

theorem validateLocation_eq_ok_iff {l : Location} : body.validateLocation l = .ok () ↔
    body.hasBlock l.block = true ∧
      ∃ b, body.block l.block = .ok b ∧ 0 ≤ l.index ∧ l.index ≤ b.terminatorIndex := by
  unfold validateLocation
  by_cases hblock : body.hasBlock l.block = true
  · rw [if_pos hblock]
    change (body.block l.block >>= _) = _ ↔ _
    simp only [except_bind_eq_ok, hblock, true_and]
    refine exists_congr fun b => and_congr_right fun _ => ?_
    by_cases hindex : 0 ≤ l.index ∧ l.index ≤ b.terminatorIndex
    · simp [hindex, pure, Except.pure]
    · simp [hindex, throw, throwThe, MonadExceptOf.throw]
  · rw [if_neg hblock]
    exact ⟨nofun, fun h => absurd h.1 hblock⟩

/-- A location that is valid is that of an instruction of its block. -/
theorem exists_index {l : Location} (hl : body.validateLocation l = .ok ()) :
    body.hasBlock l.block = true ∧ ∃ b, body.block l.block = .ok b ∧
      ∃ k : Nat, l.index = k ∧ k < b.instructions.length := by
  obtain ⟨hblock, b, hb, hnonneg, hle⟩ := validateLocation_eq_ok_iff.1 hl
  refine ⟨hblock, b, hb, l.index.toNat, (Int.toNat_of_nonneg hnonneg).symm, ?_⟩
  unfold Block.terminatorIndex at hle
  rw [b.length_instructions]
  omega

theorem Valid.exists_block (hv : body.Valid) (hbb : body.hasBlock bb = true) :
    ∃ b, body.block bb = .ok b := by
  obtain ⟨b, _, hb, _⟩ := hv.edges hbb
  exact ⟨b, hb⟩

theorem mem_blocks (hbb : body.hasBlock bb = true) (hb : body.block bb = .ok b) :
    b ∈ body.blocks :=
  List.mem_of_getElem? ((elementAt_eq_ok_iff (hasBlock_iff.1 hbb).1).1 hb)

/-- Every instruction of a block of a well-formed body is well-formed. -/
theorem WellFormed.isWellFormed (h : body.WellFormed) (hbb : body.hasBlock bb = true)
    (hb : body.block bb = .ok b) (hi : i ∈ b.instructions) :
    i.isWellFormed body.localCount = true :=
  List.all_eq_true.1 (h.instructions b (mem_blocks hbb hb)) i hi

end Body

namespace Analysis

variable [Machine] {σ : Type} {a : Analysis σ} {body : Body} {bb : BlockId} {b : Block}

theorem replay_zero_some (hb : body.block bb = .ok b) (count : Nat) :
    a.replay body bb 0 (some count) = a.replayFrom body bb count 0 := by
  rw [replay_of_block hb, Option.getD_some, Int.sub_zero, Int.toNat_natCast]

theorem replay_zero_none (hb : body.block bb = .ok b) :
    a.replay body bb 0 none = a.replayFrom body bb b.instructions.length 0 := by
  rw [replay_of_block hb, Option.getD_none, Int.sub_zero, b.length_instructions,
    Block.terminatorIndex]
  rfl

end Analysis

end MayTaint
