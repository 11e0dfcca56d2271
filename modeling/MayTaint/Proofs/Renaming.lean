import MayTaint.Proofs.WellFormed

/-!
Renaming the locals and the blocks of a body. A renaming permutes the locals of the body and, with
the entry in its place, its blocks; the renamed body has the same instructions over the renamed
locals, each block stands at its new number, and all edges lead to the new numbers. The graph of the
renamed body is the image of the graph of the body, and it is well-formed like the body. The two
differ in the order of the numbers, and with it in the order of the predecessors of a block.
-/

namespace MayTaint

/-! ### Renaming in instructions -/

def Operand.rename (f : Datum → Datum) : Operand → Operand
  | copy source => copy (f source)
  | move source => move (f source)
  | constant value => constant value
  | foreign thing => foreign thing

def Rvalue.rename (f : Datum → Datum) : Rvalue → Rvalue
  | use operand => use (operand.rename f)
  | binary op lhs rhs => binary op (lhs.rename f) (rhs.rename f)
  | checkedBinary op lhs rhs => checkedBinary op (lhs.rename f) (rhs.rename f)
  | unary op operand => unary op (operand.rename f)
  | ref place mutable => ref (f place) mutable
  | addressOf place mutable => addressOf (f place) mutable
  | cast kind operand => cast kind (operand.rename f)
  | aggregate kind operands => aggregate kind (operands.map (·.rename f))
  | replicate operand count => replicate (operand.rename f) count
  | len place => len (f place)
  | discriminant place => discriminant (f place)
  | nullary op => nullary op
  | foreign thing => foreign thing

def Statement.rename (f : Datum → Datum) : Statement → Statement
  | assign target rvalue => assign (f target) (rvalue.rename f)
  | storageLive place => storageLive (f place)
  | storageDead place => storageDead (f place)
  | nop => nop
  | foreign thing => foreign thing

def Call.rename (f : Datum → Datum) (g : BlockId → BlockId) (c : Call) : Call where
  func := c.func.rename f
  args := c.args.map (·.rename f)
  destination := c.destination.map f
  target := c.target.map g
  cleanup := c.cleanup.map g

def Terminator.rename (f : Datum → Datum) (g : BlockId → BlockId) : Terminator → Terminator
  | goto target => goto (g target)
  | switchInt discriminant arms otherwise =>
    switchInt (discriminant.rename f) (arms.map (Prod.map id g)) (g otherwise)
  | ret => ret
  | call c => call (c.rename f g)
  | check condition expected target cleanup =>
    check (condition.rename f) expected (g target) (cleanup.map g)
  | drop place target unwind => drop (f place) (g target) (unwind.map g)
  | unreachable => unreachable
  | resume => resume
  | statement s => statement (s.rename f)
  | foreign thing => foreign thing

def Instruction.rename (f : Datum → Datum) (g : BlockId → BlockId) : Instruction → Instruction
  | statement s => statement (s.rename f)
  | terminator t => terminator (t.rename f g)

def Block.rename (f : Datum → Datum) (g : BlockId → BlockId) (b : Block) : Block :=
  ⟨b.statements.map (·.rename f), b.terminator.rename f g⟩

section

variable {f : Datum → Datum} {g : BlockId → BlockId}

theorem Terminator.edges_rename {t : Terminator} {edges : List (BlockId × EdgeKind)}
    (h : t.edges = .ok edges) : (t.rename f g).edges = .ok (edges.map (Prod.map g id)) := by
  have hedgeTo : ∀ kind target, Terminator.edges.edgeTo kind (Option.map g target) =
      (Terminator.edges.edgeTo kind target).map (Prod.map g id) := by
    intro kind target
    cases target <;> rfl
  cases t with
  | statement s => cases h
  | foreign thing => cases h
  | switchInt discriminant arms otherwise =>
    cases h
    simp [rename, Terminator.edges, Function.comp_def]
  | call c =>
    cases h
    simp [rename, Call.rename, Terminator.edges, hedgeTo]
  | check condition expected target cleanup =>
    cases h
    simp [rename, Terminator.edges, hedgeTo]
  | drop place target unwind =>
    cases h
    simp [rename, Terminator.edges, hedgeTo]
  | _ =>
    cases h
    rfl

theorem Block.instructions_rename (b : Block) :
    (b.rename f g).instructions = b.instructions.map (·.rename f g) := by
  simp [instructions, rename, Instruction.rename, Function.comp_def]

section

variable {n : Int} (hf : ∀ d : Datum, (f d).isLocal n = d.isLocal n)

include hf

theorem Operand.isWellFormed_rename (o : Operand) :
    (o.rename f).isWellFormed n = o.isWellFormed n := by
  cases o with
  | copy source => exact hf source
  | move source => exact hf source
  | _ => rfl

theorem Rvalue.isWellFormed_rename (rvalue : Rvalue) :
    (rvalue.rename f).isWellFormed n = rvalue.isWellFormed n := by
  cases rvalue <;>
    simp [rename, isWellFormed, Operand.isWellFormed_rename hf, hf, List.all_map, Function.comp_def]

theorem Statement.isWellFormed_rename (s : Statement) :
    (s.rename f).isWellFormed n = s.isWellFormed n := by
  cases s <;> simp [rename, isWellFormed, Rvalue.isWellFormed_rename hf, hf]

theorem Terminator.isWellFormed_rename (t : Terminator) :
    (t.rename f g).isWellFormed n = t.isWellFormed n := by
  cases t <;>
    simp [rename, Call.rename, isWellFormed, Operand.isWellFormed_rename hf, hf, List.all_map,
      Option.all_map, Function.comp_def]

theorem Instruction.isWellFormed_rename (i : Instruction) :
    (i.rename f g).isWellFormed n = i.isWellFormed n := by
  cases i with
  | statement s => exact s.isWellFormed_rename hf
  | terminator t => exact t.isWellFormed_rename hf

end

end

/-! ### Lists without repetitions -/

theorem foldl_fresh_map {g : BlockId → BlockId} (hg : Function.Injective g)
    (queue xs : List BlockId) :
    (xs.map g).foldl (fun q y => if q.contains y then q else q ++ [y]) (queue.map g) =
      (xs.foldl (fun q y => if q.contains y then q else q ++ [y]) queue).map g := by
  induction xs generalizing queue with
  | nil => rfl
  | cons x xs ih =>
    have hmem : (queue.map g).contains (g x) = queue.contains x := by
      rw [Bool.eq_iff_iff, List.contains_iff_mem, List.contains_iff_mem,
        List.mem_map_of_injective hg]
    rw [List.map_cons, List.foldl_cons, List.foldl_cons, hmem, ← ih]
    split
    · rfl
    · rw [List.map_append, List.map_singleton]

theorem distinct_map {g : BlockId → BlockId} (hg : Function.Injective g) (xs : List BlockId) :
    distinct (xs.map g) = (distinct xs).map g :=
  foldl_fresh_map hg [] xs

/-! ### Renaming a body -/

namespace Body

/-- New names for the locals and the blocks of a body. The locals of the body stay among themselves,
and so do its blocks; what happens to all other numbers does not matter. -/
structure Renaming (body : Body) where
  locals : Equiv.Perm Int
  blocks : Equiv.Perm BlockId
  locals_iff : ∀ i, (0 ≤ locals i ∧ locals i < body.localCount) ↔ (0 ≤ i ∧ i < body.localCount)
  hasBlock_blocks : ∀ bb, body.hasBlock (blocks bb) = body.hasBlock bb
  blocks_entry : blocks Body.entry = Body.entry

variable {body : Body} {bb succ : BlockId} {b : Block}

namespace Renaming

def datum (ρ : body.Renaming) : Datum → Datum
  | .int i => .int (ρ.locals i)
  | d => d

variable (ρ : body.Renaming)

theorem datum_injective : Function.Injective ρ.datum := by
  intro d e h
  cases d with
  | int i =>
    cases e with
    | int j => exact congrArg Datum.int (ρ.locals.injective (Datum.int.inj h))
    | _ => cases h
  | _ =>
    cases e with
    | int j => cases h
    | _ => exact h

theorem isLocal_datum (d : Datum) :
    (ρ.datum d).isLocal body.localCount = d.isLocal body.localCount := by
  cases d with
  | int i =>
    rw [Bool.eq_iff_iff, datum, Datum.isLocal, Datum.isLocal, Bool.and_eq_true, Bool.and_eq_true]
    simpa only [decide_eq_true_eq] using ρ.locals_iff i
  | _ => rfl

theorem blocks_eq_entry : ρ.blocks bb = Body.entry ↔ bb = Body.entry := by
  rw [← ρ.blocks_entry, ρ.blocks.injective.eq_iff, ρ.blocks_entry]

/-- Two locals exchange their names, and so do two blocks other than the entry. -/
def swap (body : Body) (i j : Int) (bb bb' : BlockId)
    (hlocals : (0 ≤ i ∧ i < body.localCount) ↔ (0 ≤ j ∧ j < body.localCount))
    (hblocks : body.hasBlock bb = body.hasBlock bb') (hbb : bb ≠ Body.entry)
    (hbb' : bb' ≠ Body.entry) : body.Renaming where
  locals := Equiv.swap i j
  blocks := Equiv.swap bb bb'
  locals_iff k := by
    rw [Equiv.swap_apply_def]
    split_ifs with hi hj
    · rw [hi, hlocals]
    · rw [hj, hlocals]
    · rfl
  hasBlock_blocks b := by
    rw [Equiv.swap_apply_def]
    split_ifs with hb hb'
    · rw [hb, hblocks]
    · rw [hb', hblocks]
    · rfl
  blocks_entry := Equiv.swap_apply_of_ne_of_ne hbb.symm hbb'.symm

end Renaming

def rename (body : Body) (ρ : body.Renaming) : Body :=
  { body with blocks := body.blockIds.map fun bb =>
      ((body.blocks[(ρ.blocks.symm bb).toNat]?).getD default).rename ρ.datum ρ.blocks }

variable (ρ : body.Renaming)

theorem hasBlock_rename (bb : BlockId) : (body.rename ρ).hasBlock bb = body.hasBlock bb := by
  have hsize : (body.rename ρ).size = body.size := by simp [size, rename, blockIds]
  rw [hasBlock, hsize, hasBlock]

@[simp] theorem hasBlock_rename_blocks (bb : BlockId) :
    (body.rename ρ).hasBlock (ρ.blocks bb) = body.hasBlock bb := by
  rw [hasBlock_rename, ρ.hasBlock_blocks]

theorem getElem?_blockIds (hbb : body.hasBlock bb = true) : body.blockIds[bb.toNat]? = some bb := by
  obtain ⟨hnonneg, hlt⟩ := hasBlock_iff.1 hbb
  rw [blockIds, List.getElem?_map, List.getElem?_range (by omega)]
  exact congrArg some (Int.toNat_of_nonneg hnonneg)

/-- A block stands at its new number. -/
theorem block_rename (hbb : body.hasBlock bb = true) (hb : body.block bb = .ok b) :
    (body.rename ρ).block (ρ.blocks bb) = .ok (b.rename ρ.datum ρ.blocks) := by
  have hnew : body.hasBlock (ρ.blocks bb) = true := (ρ.hasBlock_blocks bb).trans hbb
  have hat := (elementAt_eq_ok_iff (hasBlock_iff.1 hbb).1).1 hb
  refine (elementAt_eq_ok_iff (hasBlock_iff.1 hnew).1).2 ?_
  rw [rename, List.getElem?_map, getElem?_blockIds hnew]
  simp only [Option.map_some, Equiv.symm_apply_apply, hat, Option.getD_some]

theorem successors_rename (hbb : body.hasBlock bb = true) {succs : List BlockId}
    (h : body.successors bb = .ok succs) :
    (body.rename ρ).successors (ρ.blocks bb) = .ok (succs.map ρ.blocks) := by
  obtain ⟨b, hb, h⟩ := except_bind_eq_ok.1 h
  obtain ⟨targets, htargets, h⟩ := except_bind_eq_ok.1 h
  obtain ⟨edges, hedges, htargets⟩ := except_bind_eq_ok.1 htargets
  cases h
  cases htargets
  refine except_bind_eq_ok.2 ⟨_, block_rename ρ hbb hb, except_bind_eq_ok.2
    ⟨_, except_bind_eq_ok.2 ⟨_, Terminator.edges_rename hedges, rfl⟩, ?_⟩⟩
  rw [← distinct_map ρ.blocks.injective, List.map_map, List.map_map]
  rfl

section Valid

variable (hv : body.Valid)

include hv

theorem Valid.edge_rename (hbb : body.hasBlock bb = true) :
    (body.rename ρ).Edge (ρ.blocks bb) (ρ.blocks succ) ↔ body.Edge bb succ := by
  obtain ⟨succs, hsuccs⟩ := hv.exists_successors hbb
  rw [← mem_successors hsuccs, ← mem_successors (successors_rename ρ hbb hsuccs),
    List.mem_map_of_injective ρ.blocks.injective]

theorem Valid.rename : (body.rename ρ).Valid where
  localCount_nonneg := hv.localCount_nonneg
  hasBlock_entry := (hasBlock_rename ρ _).trans hv.hasBlock_entry
  edges := by
    intro bb hbb
    obtain ⟨bb, rfl⟩ := ρ.blocks.surjective bb
    rw [hasBlock_rename_blocks] at hbb
    obtain ⟨b, edges, hb, hedges, htargets⟩ := hv.edges hbb
    refine ⟨_, _, block_rename ρ hbb hb, Terminator.edges_rename hedges, fun e' he' => ?_⟩
    obtain ⟨e, he, rfl⟩ := List.mem_map.1 he'
    rw [Prod.map_fst, hasBlock_rename_blocks]
    exact htargets e he

theorem Valid.instructionsOf_rename (hbb : body.hasBlock bb = true) :
    (body.rename ρ).instructionsOf (ρ.blocks bb) =
      (body.instructionsOf bb).map (·.rename ρ.datum ρ.blocks) := by
  obtain ⟨b, hb⟩ := hv.exists_block hbb
  rw [instructionsOf_eq hb, instructionsOf_eq (block_rename ρ hbb hb), b.instructions_rename]

end Valid

theorem WellFormed.rename (h : body.WellFormed) : (body.rename ρ).WellFormed := by
  have hv := valid_of_validate h.validate
  refine ⟨(hv.rename ρ).validate, fun b' hb' => ?_⟩
  obtain ⟨bb, hbb, rfl⟩ := List.mem_map.1 hb'
  have hold : body.hasBlock (ρ.blocks.symm bb) = true := by
    rw [← ρ.hasBlock_blocks, Equiv.apply_symm_apply]
    exact mem_blockIds.1 hbb
  obtain ⟨b, hb⟩ := hv.exists_block hold
  rw [(elementAt_eq_ok_iff (hasBlock_iff.1 hold).1).1 hb, Option.getD_some, b.instructions_rename,
    List.all_map, List.all_eq_true]
  intro i hi
  exact (i.isWellFormed_rename ρ.isLocal_datum).trans (h.isWellFormed hold hb hi)

end Body

end MayTaint
