import SimplePreopt.Eval
-- `branch_order`: an EBB ending with a conditional branch to the next EBB and a jump
-- elsewhere swaps their targets, the condition inverted, and still leaves for the same EBBs
-- with the same arguments.

namespace simple_preopt

variable {ext : External}

/-! ## The model -/

/-- `BranchOrderKind`: how the conditional branch is inverted. -/
inductive BranchOrderKind where
  | BrzToBrnz (cond_arg : Value)
  | BrnzToBrz (cond_arg : Value)
  | InvertIcmpCond (cond : IntCC) (x_arg y_arg : Value)
deriving DecidableEq, Repr

/-- The tuple the first half of `branch_order` computes: the jump, the branch before it,
and how to invert the branch. -/
structure BranchOrderInfo where
  term_inst : Inst
  term_inst_args : List Value
  term_dest : Ebb
  cond_inst : Inst
  cond_inst_args : List Value
  cond_dest : Ebb
  kind : BranchOrderKind
deriving DecidableEq, Repr

/-- The first half of `branch_order`: `inst` a `jump` away from the next EBB, after a `brz`,
`brnz` or `br_icmp` to it. -/
def branchOrderInfo (func : Function) (ebb : Ebb) (inst : Inst) : Option BranchOrderInfo :=
  match func.dfg.insts inst with
  | .Jump .Jump destination args =>
    match func.layout.nextEbb ebb with
    | none => none
    | some next_ebb =>
      if destination = next_ebb then none
      else match func.layout.prevInst inst with
        | none => none
        | some prev_inst =>
          let prev_inst_data := func.dfg.insts prev_inst
          match prev_inst_data.branchDestination with
          | none => none
          | some prev_dest =>
            if prev_dest ≠ next_ebb then none
            else match prev_inst_data with
              | .Branch opcode cond_dest cond_arg _ =>
                some ⟨inst, args, destination, prev_inst, prev_inst_data.args, cond_dest,
                  match opcode with
                  | .Brz => .BrzToBrnz cond_arg
                  | .Brnz => .BrnzToBrz cond_arg⟩
              | .BranchIcmp cond cond_dest x_arg y_arg _ =>
                some ⟨inst, args, destination, prev_inst, prev_inst_data.args, cond_dest,
                  .InvertIcmpCond cond x_arg y_arg⟩
              | _ => none
  | _ => none

/-- The two replacements of `branch_order`: each of the pair takes the other's destination
and block arguments, the branch inverted. -/
def swapTerminators (info : BranchOrderInfo) : StateM FuncCursor Unit :=
  let cond_args := info.cond_inst_args
  let term_args := info.term_inst_args
  match info.kind with
  | .BrnzToBrz cond_arg => do
    FuncCursor.replace info.term_inst (.Jump .Jump info.cond_dest (cond_args.drop 1))
    FuncCursor.replace info.cond_inst (.Branch .Brz info.term_dest cond_arg term_args)
  | .BrzToBrnz cond_arg => do
    FuncCursor.replace info.term_inst (.Jump .Jump info.cond_dest (cond_args.drop 1))
    FuncCursor.replace info.cond_inst (.Branch .Brnz info.term_dest cond_arg term_args)
  | .InvertIcmpCond cond x_arg y_arg => do
    FuncCursor.replace info.term_inst (.Jump .Jump info.cond_dest (cond_args.drop 2))
    FuncCursor.replace info.cond_inst
      (.BranchIcmp cond.inverse info.term_dest x_arg y_arg term_args)

/-- `branch_order`, with the control-flow graph recomputed for `ebb` after a swap. -/
def branchOrder (pos : FuncCursor) (cfg : ControlFlowGraph) (ebb : Ebb) (inst : Inst) :
    FuncCursor × ControlFlowGraph :=
  match branchOrderInfo pos.func ebb inst with
  | none => (pos, cfg)
  | some info =>
    let pos := (swapTerminators info pos).2
    (pos, cfg.recomputeEbb pos.func ebb)

/-! ## The terminator pair that `branch_order` swaps -/

/-- The branch opcode taken on the values the other is not: `brnz` for `brz` and back. -/
def BranchOp.inverse : BranchOp → BranchOp
  | .Brz => .Brnz
  | .Brnz => .Brz

/-- `P; J` is the pair `branch_order` swaps at `J`: a `jump` to `T` after a conditional
branch to the layout-next EBB `D ≠ T`. -/
def SwapsAt (f : Function) (ebb : Ebb) (P J : Inst) : Prop :=
  ∃ T argsJ D, f.dfg.insts J = .Jump .Jump T argsJ ∧ f.layout.nextEbb ebb = some D ∧ T ≠ D ∧
    ((∃ op c vs, f.dfg.insts P = .Branch op D c vs) ∨
      ∃ cond x y vs, f.dfg.insts P = .BranchIcmp cond D x y vs)

/-- The block arguments of a branch or jump: its value list past the condition operands. -/
def InstructionData.blockArgs : InstructionData → List Value
  | .Branch _ _ _ vs | .BranchIcmp _ _ _ _ vs | .Jump _ _ vs => vs
  | _ => []

/-- The edge a branch or jump adds: its destination and block arguments. -/
def instEdge (f : Function) (i : Inst) : Option (Ebb × List Value) :=
  (f.dfg.insts i).branchDestination.map fun d => (d, (f.dfg.insts i).blockArgs)

/-- The edges leaving `ebb`, in layout order. -/
def ebbEdges (f : Function) (ebb : Ebb) : List (Ebb × List Value) :=
  (f.layout.ebbInsts ebb).filterMap (instEdge f)

/-! ## Finding the instruction before the jump -/

theorem LayoutOk.instEbb_eq {n : Nat} {l : Layout} (h : LayoutOk n l) {e : Ebb} {i : Inst}
    (he : e ∈ l.ebbs) (hi : i ∈ l.ebbInsts e) : l.instEbb i = some e := by
  unfold Layout.instEbb
  cases hf : l.ebbs.find? (fun e => decide (i ∈ l.ebbInsts e)) with
  | none => exact absurd hi (by simpa using List.find?_eq_none.1 hf e he)
  | some e' =>
    have he' := List.mem_of_find?_eq_some hf
    have hi' : i ∈ l.ebbInsts e' := by simpa using List.find?_some hf
    by_contra hne
    have hd := (List.nodup_flatMap.1 h.insts_nodup).2.forall
      (fun _ _ h => List.Disjoint.symm h) he he' (fun h' => hne (by rw [h']))
    exact hd hi hi'

theorem listPrev_append_pair {pre : List Inst} {P J : Inst} (hJ : J ∉ pre) (hPJ : P ≠ J) :
    listPrev (pre ++ [P, J]) J = some P := by
  induction pre with
  | nil => simp [listPrev]
  | cons a rest ih =>
    simp only [List.mem_cons, not_or] at hJ
    cases rest with
    | nil => simp [listPrev, hPJ]
    | cons b rest' =>
      simp only [List.mem_cons, not_or] at hJ
      simp only [List.cons_append, listPrev, Ne.symm hJ.2.1, if_false] at ih ⊢
      exact ih (by simp [hJ.2.1, hJ.2.2])

/-- In an EBB ending `…; P; J`, the instruction before `J` is `P`. -/
theorem prevInst_of_ebbInsts {f : Function} {ebb : Ebb} {pre : List Inst} {P J : Inst}
    (he : ebb ∈ f.layout.ebbs) (hl : f.layout.ebbInsts ebb = pre ++ [P, J]) :
    f.layout.prevInst J = some P := by
  have hnd := f.wf.ebbInsts_nodup he
  rw [hl] at hnd
  have hJ : J ∉ pre := fun h => by
    simpa using (List.nodup_append.1 hnd).2.2 h (List.mem_pair.2 (.inr rfl))
  have hPJ : P ≠ J := by simpa using (List.nodup_append.1 hnd).2.1
  have hi : J ∈ f.layout.ebbInsts ebb := by simp [hl]
  simp [Layout.prevInst, f.wf.instEbb_eq he hi, hl, listPrev_append_pair hJ hPJ]

/-! ## What `branch_order` changes -/

section Frame

variable (info : BranchOrderInfo) (pos : FuncCursor) (cfg : ControlFlowGraph) (ebb : Ebb)
  (inst : Inst)

@[simp] theorem swapTerminators_layout :
    (swapTerminators info pos).2.func.layout = pos.func.layout := by
  rcases info with ⟨_, _, _, _, _, _, k⟩; cases k <;> rfl

@[simp] theorem swapTerminators_results :
    (swapTerminators info pos).2.func.dfg.results = pos.func.dfg.results := by
  rcases info with ⟨_, _, _, _, _, _, k⟩; cases k <;> rfl

@[simp] theorem swapTerminators_valueTypes :
    (swapTerminators info pos).2.func.dfg.valueTypes = pos.func.dfg.valueTypes := by
  rcases info with ⟨_, _, _, _, _, _, k⟩; cases k <;> rfl

@[simp] theorem swapTerminators_valueDefs :
    (swapTerminators info pos).2.func.dfg.valueDefs = pos.func.dfg.valueDefs := by
  rcases info with ⟨_, _, _, _, _, _, k⟩; cases k <;> rfl

@[simp] theorem swapTerminators_position :
    (swapTerminators info pos).2.position = pos.position := by
  rcases info with ⟨_, _, _, _, _, _, k⟩; cases k <;> rfl

@[simp] theorem branchOrder_layout :
    (branchOrder pos cfg ebb inst).1.func.layout = pos.func.layout := by
  unfold branchOrder; split <;> simp

@[simp] theorem branchOrder_results :
    (branchOrder pos cfg ebb inst).1.func.dfg.results = pos.func.dfg.results := by
  unfold branchOrder; split <;> simp

@[simp] theorem branchOrder_valueTypes :
    (branchOrder pos cfg ebb inst).1.func.dfg.valueTypes = pos.func.dfg.valueTypes := by
  unfold branchOrder; split <;> simp

@[simp] theorem branchOrder_valueDefs :
    (branchOrder pos cfg ebb inst).1.func.dfg.valueDefs = pos.func.dfg.valueDefs := by
  unfold branchOrder; split <;> simp

@[simp] theorem branchOrder_position :
    (branchOrder pos cfg ebb inst).1.position = pos.position := by
  unfold branchOrder; split <;> simp

end Frame

/-- `branch_order` at `j` edits `j` and the instruction before it. -/
theorem branchOrderInfo_insts {f : Function} {ebb : Ebb} {j : Inst} {info : BranchOrderInfo}
    (h : branchOrderInfo f ebb j = some info) :
    info.term_inst = j ∧ f.layout.prevInst j = some info.cond_inst := by
  unfold branchOrderInfo at h
  dsimp only at h
  repeat' split at h
  all_goals first
    | (cases h; done)
    | (cases h; exact ⟨rfl, by assumption⟩)

section Swap

variable {pos : FuncCursor} (cfg : ControlFlowGraph) {ebb : Ebb} {P J : Inst}

/-- With no instruction before `J`, `branch_order` changes nothing. -/
theorem branchOrder_of_prevInst_none (h : pos.func.layout.prevInst J = none) :
    branchOrder pos cfg ebb J = (pos, cfg) := by
  cases hb : branchOrderInfo pos.func ebb J with
  | none => simp [branchOrder, hb]
  | some info =>
    have := (branchOrderInfo_insts hb).2
    rw [h] at this; cases this

/-- Where `P; J` is not the pair it swaps, `branch_order` changes nothing. -/
theorem branchOrder_of_not_swapsAt (hprev : pos.func.layout.prevInst J = some P)
    (h : ¬SwapsAt pos.func ebb P J) : branchOrder pos cfg ebb J = (pos, cfg) := by
  have hi : branchOrderInfo pos.func ebb J = none := by
    unfold branchOrderInfo
    split
    · rename_i T argsJ hJ
      split
      · rfl
      · rename_i D hn
        split
        · rfl
        · rename_i hT
          simp only [hprev]
          split
          · rfl
          · rename_i dest hdest
            split
            · rfl
            · rename_i hdD
              rw [not_not] at hdD; subst hdD
              split
              · rename_i op D' c vs hP
                simp only [hP, InstructionData.branchDestination, Option.some.injEq] at hdest
                subst hdest
                exact absurd ⟨T, argsJ, _, hJ, hn, hT, .inl ⟨op, c, vs, hP⟩⟩ h
              · rename_i cond D' x y vs hP
                simp only [hP, InstructionData.branchDestination, Option.some.injEq] at hdest
                subst hdest
                exact absurd ⟨T, argsJ, _, hJ, hn, hT, .inr ⟨cond, x, y, vs, hP⟩⟩ h
              · rfl
    · rfl
  simp [branchOrder, hi]

variable {T D : Ebb} {argsJ : List Value}

/-- The swap of `brz`/`brnz c, D, vs; jump T, argsJ`. -/
theorem branchOrder_insts_branch (hprev : pos.func.layout.prevInst J = some P)
    (hJ : pos.func.dfg.insts J = .Jump .Jump T argsJ) (hn : pos.func.layout.nextEbb ebb = some D)
    (hT : T ≠ D) {op : BranchOp} {c : Value} {vs : List Value}
    (hP : pos.func.dfg.insts P = .Branch op D c vs) (i : Inst) :
    (branchOrder pos cfg ebb J).1.func.dfg.insts i =
      if i = P then .Branch op.inverse T c argsJ
      else if i = J then .Jump .Jump D vs else pos.func.dfg.insts i := by
  cases op <;>
    simp [branchOrder, branchOrderInfo, hJ, hn, hT, hprev, hP, InstructionData.branchDestination,
      InstructionData.args, swapTerminators, FuncCursor.replace, bind, StateT.bind, BranchOp.inverse]

/-- The swap of `br_icmp cond x, y, D, vs; jump T, argsJ`. -/
theorem branchOrder_insts_branchIcmp (hprev : pos.func.layout.prevInst J = some P)
    (hJ : pos.func.dfg.insts J = .Jump .Jump T argsJ) (hn : pos.func.layout.nextEbb ebb = some D)
    (hT : T ≠ D) {cond : IntCC} {x y : Value} {vs : List Value}
    (hP : pos.func.dfg.insts P = .BranchIcmp cond D x y vs) (i : Inst) :
    (branchOrder pos cfg ebb J).1.func.dfg.insts i =
      if i = P then .BranchIcmp cond.inverse T x y argsJ
      else if i = J then .Jump .Jump D vs else pos.func.dfg.insts i := by
  have hi : branchOrderInfo pos.func ebb J =
      some ⟨J, argsJ, T, P, x :: y :: vs, D, .InvertIcmpCond cond x y⟩ := by
    simp [branchOrderInfo, hJ, hn, hT, hprev, hP, InstructionData.branchDestination,
      InstructionData.args]
  simp [branchOrder, hi, swapTerminators, FuncCursor.replace, bind, StateT.bind]

end Swap

/-- The swapped pair: the jump goes to the layout-next EBB with the branch's
block arguments, and the branch to the jump's destination with the jump's. -/
theorem branchOrder_swapped (pos : FuncCursor) (cfg : ControlFlowGraph) {ebb : Ebb} {P J : Inst}
    {T D : Ebb} {argsJ : List Value} (hprev : pos.func.layout.prevInst J = some P) (hPJ : P ≠ J)
    (hJ : pos.func.dfg.insts J = .Jump .Jump T argsJ) (hn : pos.func.layout.nextEbb ebb = some D)
    (hT : T ≠ D)
    (hP : (∃ op c vs, pos.func.dfg.insts P = .Branch op D c vs) ∨
      ∃ cond x y vs, pos.func.dfg.insts P = .BranchIcmp cond D x y vs) :
    (branchOrder pos cfg ebb J).1.func.dfg.insts J = .Jump .Jump D (pos.func.dfg.insts P).blockArgs ∧
      ((branchOrder pos cfg ebb J).1.func.dfg.insts P).branchDestination = some T ∧
      ((branchOrder pos cfg ebb J).1.func.dfg.insts P).blockArgs = argsJ := by
  rcases hP with ⟨op, c, vs, hP⟩ | ⟨cond, x, y, vs, hP⟩
  · simp [branchOrder_insts_branch cfg hprev hJ hn hT hP, hP, Ne.symm hPJ,
      InstructionData.blockArgs, InstructionData.branchDestination]
  · simp [branchOrder_insts_branchIcmp cfg hprev hJ hn hT hP, hP, Ne.symm hPJ,
      InstructionData.blockArgs, InstructionData.branchDestination]

/-! ## The swapped pair leaves the EBB as the original did -/

theorem readArgs_of_isSome {env : Env} {vs : List Value} (h : ∀ v ∈ vs, (env v).isSome) :
    ∃ xs, readArgs env vs = some xs := by
  induction vs with
  | nil => exact ⟨[], rfl⟩
  | cons v vs ih =>
    obtain ⟨x, hx⟩ := Option.isSome_iff_exists.1 (h v (List.mem_cons_self _ _))
    obtain ⟨xs, hxs⟩ := ih fun u hu => h u (List.mem_cons_of_mem _ hu)
    exact ⟨x :: xs, by rw [readArgs_cons, hx, hxs]; rfl⟩

section Exits

/-- A branch or jump does what `branchFlow` says. -/
theorem stepInst_of_branchDestination {f : Function} {env : Env} {i : Inst}
    (h : (f.dfg.insts i).branchDestination.isSome) :
    stepInst ext f env i = branchFlow f.dfg.valueTypes env (f.dfg.insts i) := by
  unfold stepInst
  cases hd : f.dfg.insts i <;> simp_all [InstructionData.branchDestination, stepData]

variable {f f' : Function} {P J : Inst} {env : Env} {T D : Ebb} {argsJ vs : List Value}

/-- The swapped pair leaves the way the old one did, as a branch tested either way sends
control to one of the two destinations. -/
theorem execInsts_swapped
    (hJ : f.dfg.insts J = .Jump .Jump T argsJ) (hJ' : f'.dfg.insts J = .Jump .Jump D vs)
    (hargs : ∀ v ∈ argsJ ++ vs, (env v).isSome)
    (hP : ∀ xs ys, readArgs env argsJ = some xs → readArgs env vs = some ys →
      ∃ b : Bool, branchFlow f.dfg.valueTypes env (f.dfg.insts P) =
          (if b then .exit (.goto D ys) else .cont env) ∧
        branchFlow f'.dfg.valueTypes env (f'.dfg.insts P) =
          (if b then .cont env else .exit (.goto T xs)))
    (hbP : (f.dfg.insts P).branchDestination.isSome)
    (hbP' : (f'.dfg.insts P).branchDestination.isSome) :
    execInsts ext f' env [P, J] = execInsts ext f env [P, J] := by
  obtain ⟨xs, hxs⟩ := readArgs_of_isSome fun v hv => hargs v (List.mem_append_left _ hv)
  obtain ⟨ys, hys⟩ := readArgs_of_isSome fun v hv => hargs v (List.mem_append_right _ hv)
  obtain ⟨b, h1, h2⟩ := hP xs ys hxs hys
  simp only [execInsts, stepInst_of_branchDestination hbP, stepInst_of_branchDestination hbP', h1, h2]
  cases b <;> simp [stepInst, stepData, branchFlow, hJ, hJ', hxs, hys]

end Exits

/-- A branch tested the other way round, with the destinations swapped, sends
control to the same place. -/
theorem branchFlow_inverted {tyOf : Value → Ty} {env : Env} {c : Value} {z : Nat}
    (hz : env c = some z) {xs ys : List Nat} {argsJ vs : List Value}
    (hxs : readArgs env argsJ = some xs) (hys : readArgs env vs = some ys) (T D : Ebb) :
    (∀ op : BranchOp, ∃ b : Bool,
      branchFlow tyOf env (.Branch op D c vs) = (if b then .exit (.goto D ys) else .cont env) ∧
      branchFlow tyOf env (.Branch op.inverse T c argsJ) =
        (if b then .cont env else .exit (.goto T xs))) ∧
    (∀ (cond : IntCC) (y : Value) (u : Nat), env y = some u → ∃ b : Bool,
      branchFlow tyOf env (.BranchIcmp cond D c y vs) = (if b then .exit (.goto D ys) else .cont env) ∧
      branchFlow tyOf env (.BranchIcmp cond.inverse T c y argsJ) =
        (if b then .cont env else .exit (.goto T xs))) := by
  refine ⟨fun op => ⟨op.taken z, ?_⟩, fun cond y u hu => ⟨cond.eval (tyOf c).bits z u, ?_⟩⟩
  · cases op <;> by_cases h : z = 0 <;>
      simp [branchFlow, hz, hxs, hys, BranchOp.taken, BranchOp.inverse, h]
  · cases h : cond.eval (tyOf c).bits z u <;> simp [branchFlow, hz, hu, hxs, hys, h]

theorem InstructionData.mem_args_of_mem_blockArgs {d : InstructionData} {v : Value}
    (h : v ∈ d.blockArgs) : v ∈ d.args := by
  cases d <;> simp_all [InstructionData.blockArgs, InstructionData.args]

/-- `ebb0(v0): brz v0, ebb1; jump ebb2`, then `ebb1: return` and `ebb2: return`. -/
def brzThenJump : Function :=
  Function.ofLists [.Branch .Brz ⟨1⟩ ⟨0⟩ [], .Jump .Jump ⟨2⟩ [], .MultiAry [], .MultiAry []]
    [.Param ⟨0⟩ 0] [.I32] [[0, 1], [2], [3]] ⟨by decide, by decide, by decide⟩

end simple_preopt
