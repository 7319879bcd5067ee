import SimplePreopt.Eval
-- `simplify` and `branch_opt`: the rewrites of one instruction in place, each leaving the
-- instruction doing what it did where its operands hold what their definitions compute.

namespace simple_preopt

variable {ext : External}

/-! ## Reading through a definition -/

/-- The data of the instruction that defines `v`, when an instruction does. -/
def DataFlowGraph.defData (dfg : DataFlowGraph) (v : Value) : Option InstructionData :=
  (dfg.defInst v).map dfg.insts

/-- The immediate of `v`, when an `iconst` defines it. -/
def DataFlowGraph.iconstOf (dfg : DataFlowGraph) (v : Value) : Option Imm64 :=
  match dfg.defData v with
  | some (.UnaryImm imm) => some imm
  | _ => none

/-- The boolean `b`, when `bint b` defines `v`. -/
def DataFlowGraph.bintOf (dfg : DataFlowGraph) (v : Value) : Option Value :=
  match dfg.defData v with
  | some (.Unary .Bint bool_val) => some bool_val
  | _ => none

theorem DataFlowGraph.iconstOf_eq_some {dfg : DataFlowGraph} {v : Value} {imm : Imm64} :
    dfg.iconstOf v = some imm ↔ dfg.defData v = some (.UnaryImm imm) := by
  unfold DataFlowGraph.iconstOf; split <;> simp_all

theorem DataFlowGraph.bintOf_eq_some {dfg : DataFlowGraph} {v b : Value} :
    dfg.bintOf v = some b ↔ dfg.defData v = some (.Unary .Bint b) := by
  unfold DataFlowGraph.bintOf; split <;> simp_all

theorem DataFlowGraph.defData_of_defInst {dfg : DataFlowGraph} {v : Value}
    (h : dfg.defInst v = none) : dfg.defData v = none := by
  simp [DataFlowGraph.defData, h]

/-! ## The rewrites -/

/-- The immediate opcode a binary opcode with right operand `iconst imm` becomes, and its
immediate: `isub` becomes `iadd_imm` of `imm.wrapping_neg()`. -/
def immOpcode (opcode : BinaryOp) (imm : Imm64) : Option (BinaryImmOp × Imm64) :=
  match opcode with
  | .Iadd => some (.IaddImm, imm)
  | .Imul => some (.ImulImm, imm)
  | .Sdiv => some (.SdivImm, imm)
  | .Udiv => some (.UdivImm, imm)
  | .Srem => some (.SremImm, imm)
  | .Urem => some (.UremImm, imm)
  | .Band => some (.BandImm, imm)
  | .Bor => some (.BorImm, imm)
  | .Bxor => some (.BxorImm, imm)
  | .Rotl => some (.RotlImm, imm)
  | .Rotr => some (.RotrImm, imm)
  | .Ishl => some (.IshlImm, imm)
  | .Ushr => some (.UshrImm, imm)
  | .Sshr => some (.SshrImm, imm)
  | .Isub => some (.IaddImm, -imm)
  | _ => none

/-- The data `simplify` gives an instruction, when it rewrites it; the left operand is looked
at only when the right one is an EBB parameter, as in the source. -/
def simplifyData (dfg : DataFlowGraph) : InstructionData → Option InstructionData
  | .Binary opcode (a0, a1) =>
    match dfg.valueDef a1 with
    | .Result _ _ => (dfg.iconstOf a1).bind fun imm =>
      (immOpcode opcode imm).map fun (new_opcode, imm) => .BinaryImm new_opcode a0 imm
    | .Param _ _ => (dfg.iconstOf a0).bind fun imm =>
      if opcode = .Isub then some (.BinaryImm .IrsubImm a1 imm) else none
  | .IntCompare cond (a0, a1) => (dfg.iconstOf a1).map fun imm => .IntCompareImm cond a0 imm
  | .CondTrap op c => (dfg.bintOf c).map fun b => .CondTrap op b
  | .Branch op dest c vs => (dfg.bintOf c).map fun b => .Branch op dest b vs
  | .Ternary (c, x, y) => (dfg.bintOf c).map fun b => .Ternary (b, x, y)
  | _ => none

/-- The condition a fused branch tests: that of the comparison, inverted for
`brz`, since `icmp_imm` is non-zero when its condition holds. -/
def fusedCond (br_opcode : BranchOp) (cmp_cond : IntCC) : IntCC :=
  match br_opcode with
  | .Brz => cmp_cond.inverse
  | .Brnz => cmp_cond

/-- The data `branch_opt` gives a `brz`/`brnz` on `icmp_imm cond a, 0` with `cond` `Equal`
or `NotEqual`: a `brz` or `brnz` on `a`. -/
def branchOptData (dfg : DataFlowGraph) : InstructionData → Option InstructionData
  | .Branch br_opcode dest first_arg vs =>
    match dfg.defData first_arg with
    | some (.IntCompareImm cmp_cond cmp_arg cmp_imm) =>
      if cmp_imm ≠ 0 then none
      else match fusedCond br_opcode cmp_cond with
        | .Equal => some (.Branch .Brz dest cmp_arg vs)
        | .NotEqual => some (.Branch .Brnz dest cmp_arg vs)
        | _ => none
    | _ => none
  | _ => none

/-- Give `inst` the data that `rw` computes from the data-flow graph, when it
computes one (`replace(inst)` or a write through `inst_args_mut`). -/
def rewriteInst (rw : DataFlowGraph → InstructionData → Option InstructionData) (inst : Inst) :
    StateM FuncCursor Unit := fun pos =>
  match rw pos.func.dfg (pos.func.dfg.insts inst) with
  | some d => FuncCursor.replace inst d pos
  | none => ((), pos)

/-- `simplify`. -/
def simplify (inst : Inst) : StateM FuncCursor Unit := rewriteInst simplifyData inst

/-- `branch_opt`. -/
def branchOpt (inst : Inst) : StateM FuncCursor Unit := rewriteInst branchOptData inst

/-! ## A rewrite in place changes one instruction's data -/

section Rewrite

variable (rw : DataFlowGraph → InstructionData → Option InstructionData) (inst : Inst)
  (pos : FuncCursor)

/-- The data `inst` has after the rewrite. -/
def rewritten : InstructionData :=
  (rw pos.func.dfg (pos.func.dfg.insts inst)).getD (pos.func.dfg.insts inst)

theorem rewriteInst_insts (j : Inst) :
    (rewriteInst rw inst pos).2.func.dfg.insts j =
      if j = inst then rewritten rw inst pos else pos.func.dfg.insts j := by
  unfold rewriteInst rewritten
  by_cases hj : j = inst <;> split <;> simp_all [FuncCursor.replace]

@[simp] theorem rewriteInst_results : (rewriteInst rw inst pos).2.func.dfg.results =
    pos.func.dfg.results := by
  unfold rewriteInst; split <;> rfl

@[simp] theorem rewriteInst_valueTypes : (rewriteInst rw inst pos).2.func.dfg.valueTypes =
    pos.func.dfg.valueTypes := by
  unfold rewriteInst; split <;> rfl

@[simp] theorem rewriteInst_valueDefs : (rewriteInst rw inst pos).2.func.dfg.valueDefs =
    pos.func.dfg.valueDefs := by
  unfold rewriteInst; split <;> rfl

@[simp] theorem rewriteInst_ebbParams : (rewriteInst rw inst pos).2.func.dfg.ebbParams =
    pos.func.dfg.ebbParams := by
  unfold rewriteInst; split <;> rfl

@[simp] theorem rewriteInst_valueCount : (rewriteInst rw inst pos).2.func.dfg.valueCount =
    pos.func.dfg.valueCount := by
  unfold rewriteInst; split <;> rfl

@[simp] theorem rewriteInst_layout : (rewriteInst rw inst pos).2.func.layout =
    pos.func.layout := by
  unfold rewriteInst; split <;> rfl

@[simp] theorem rewriteInst_position : (rewriteInst rw inst pos).2.position = pos.position := by
  unfold rewriteInst; split <;> rfl

theorem stepInst_rewriteInst (env : Env) :
    stepInst ext (rewriteInst rw inst pos).2.func env inst =
      stepData ext pos.func.dfg.valueTypes env (pos.func.dfg.results inst) (rewritten rw inst pos) := by
  simp [stepInst, rewriteInst_insts]

end Rewrite

/-! ## What `simplify` and `branch_opt` can do -/

/-- Every rewrite of `simplify`, by the constant or the `bint` it folds. -/
theorem simplifyData_cases {dfg : DataFlowGraph} {d d' : InstructionData}
    (h : simplifyData dfg d = some d') :
    (∃ op a b imm op' imm', d = .Binary op (a, b) ∧ dfg.iconstOf b = some imm ∧
      immOpcode op imm = some (op', imm') ∧ d' = .BinaryImm op' a imm') ∨
    (∃ a b imm, d = .Binary .Isub (a, b) ∧ dfg.defInst b = none ∧ dfg.iconstOf a = some imm ∧
      d' = .BinaryImm .IrsubImm b imm) ∨
    (∃ cond a b imm, d = .IntCompare cond (a, b) ∧ dfg.iconstOf b = some imm ∧
      d' = .IntCompareImm cond a imm) ∨
    (∃ op c b, d = .CondTrap op c ∧ dfg.bintOf c = some b ∧ d' = .CondTrap op b) ∨
    (∃ op dest c vs b, d = .Branch op dest c vs ∧ dfg.bintOf c = some b ∧
      d' = .Branch op dest b vs) ∨
    (∃ c x y b, d = .Ternary (c, x, y) ∧ dfg.bintOf c = some b ∧ d' = .Ternary (b, x, y)) := by
  cases d with
  | Binary op ab =>
    obtain ⟨a, b⟩ := ab
    simp only [simplifyData] at h
    split at h
    · obtain ⟨imm, hi, h⟩ := Option.bind_eq_some.1 h
      obtain ⟨⟨op', imm'⟩, ho, rfl⟩ := Option.map_eq_some'.1 h
      exact .inl ⟨op, a, b, imm, op', imm', rfl, hi, ho, rfl⟩
    · rename_i hb
      obtain ⟨imm, hi, h⟩ := Option.bind_eq_some.1 h
      split at h
      · cases h; subst_vars
        exact .inr (.inl ⟨a, b, imm, rfl, by simp [DataFlowGraph.defInst, hb], hi, rfl⟩)
      · cases h
  | IntCompare cond ab =>
    obtain ⟨a, b⟩ := ab
    obtain ⟨imm, hi, rfl⟩ := Option.map_eq_some'.1 h
    exact .inr (.inr (.inl ⟨cond, a, b, imm, rfl, hi, rfl⟩))
  | CondTrap op c =>
    obtain ⟨b, hb, rfl⟩ := Option.map_eq_some'.1 h
    exact .inr (.inr (.inr (.inl ⟨op, c, b, rfl, hb, rfl⟩)))
  | Branch op dest c vs =>
    obtain ⟨b, hb, rfl⟩ := Option.map_eq_some'.1 h
    exact .inr (.inr (.inr (.inr (.inl ⟨op, dest, c, vs, b, rfl, hb, rfl⟩))))
  | Ternary cxy =>
    obtain ⟨c, x, y⟩ := cxy
    obtain ⟨b, hb, rfl⟩ := Option.map_eq_some'.1 h
    exact .inr (.inr (.inr (.inr (.inr ⟨c, x, y, b, rfl, hb, rfl⟩))))
  | _ => cases h

/-- Every rewrite of `branch_opt`. -/
theorem branchOptData_cases {dfg : DataFlowGraph} {d d' : InstructionData}
    (h : branchOptData dfg d = some d') :
    ∃ br dest c vs cmp_cond a op, d = .Branch br dest c vs ∧
      dfg.defData c = some (.IntCompareImm cmp_cond a 0) ∧
      (fusedCond br cmp_cond = .Equal ∧ op = .Brz ∨ fusedCond br cmp_cond = .NotEqual ∧ op = .Brnz) ∧
      d' = .Branch op dest a vs := by
  cases d with
  | Branch br dest c vs =>
    simp only [branchOptData] at h
    split at h
    · rename_i cmp_cond a imm hc
      split at h
      · cases h
      · rename_i h0
        rw [not_not] at h0; subst h0
        split at h <;> cases h
        · exact ⟨br, dest, c, vs, cmp_cond, a, .Brz, rfl, hc, .inl ⟨‹_›, rfl⟩, rfl⟩
        · exact ⟨br, dest, c, vs, cmp_cond, a, .Brnz, rfl, hc, .inr ⟨‹_›, rfl⟩, rfl⟩
    · cases h
  | _ => cases h

/-! ## What the operands hold -/

/-- Each of `vs` holds a pattern, and one that an instruction defines holds
what that instruction computes in the same environment. -/
def OperandsAgree (ext : External) (dfg : DataFlowGraph) (env : Env) (vs : List Value) : Prop :=
  ∀ v ∈ vs, ∃ p, env v = some p ∧
    ∀ d, dfg.defData v = some d → evalData ext dfg.valueTypes env (dfg.valueTypes v) d = .value p

section Agree

variable {dfg : DataFlowGraph} {env : Env} {vs : List Value} {v : Value}

theorem OperandsAgree.iconst (h : OperandsAgree ext dfg env vs) (hv : v ∈ vs) {imm : Imm64}
    (hc : dfg.iconstOf v = some imm) : env v = some (immBits (dfg.valueTypes v).bits imm) := by
  obtain ⟨p, hp, hd⟩ := h v hv
  have := hd _ (DataFlowGraph.iconstOf_eq_some.1 hc)
  simp only [evalData, Outcome.value.injEq] at this
  rw [hp, this]

theorem OperandsAgree.bint (h : OperandsAgree ext dfg env vs) (hv : v ∈ vs) {b : Value}
    (hb : dfg.bintOf v = some b) : ∃ x, env b = some x ∧ env v = some (if x = 0 then 0 else 1) := by
  obtain ⟨p, hp, hd⟩ := h v hv
  have := hd _ (DataFlowGraph.bintOf_eq_some.1 hb)
  simp only [evalData, readVal] at this
  split at this
  · rename_i x hx
    cases this
    exact ⟨x, hx, hp⟩
  · cases this

theorem OperandsAgree.icmpImm (h : OperandsAgree ext dfg env vs) (hv : v ∈ vs) {cond : IntCC}
    {a : Value} {imm : Imm64} (hd : dfg.defData v = some (.IntCompareImm cond a imm)) :
    ∃ x, env a = some x ∧ env v = some
      (if cond.eval (dfg.valueTypes a).bits x (immBits (dfg.valueTypes a).bits imm) then 1 else 0) := by
  obtain ⟨p, hp, hd'⟩ := h v hv
  have := hd' _ hd
  simp only [evalData, readVal] at this
  split at this
  · rename_i x hx
    cases this
    exact ⟨x, hx, hp⟩
  · cases this

end Agree

/-! ## The types the rewrites need -/

/-- The binary opcodes whose right operand is a shift or rotate amount. -/
def BinaryOp.isShift : BinaryOp → Bool
  | .Rotl | .Rotr | .Ishl | .Ushr | .Sshr => true
  | _ => false

/-- Modelled from the spec: the operand types the verifier asks of the formats `simplify`
folds a constant into. -/
def Typed (tyOf : Value → Ty) (res : Option Value) : InstructionData → Prop
  | .Binary op (a, b) =>
    ∀ r, res = some r → tyOf a = tyOf r ∧ (tyOf b = tyOf r ∨ op.isShift ∧ 8 ≤ (tyOf b).bits)
  | .IntCompare _ (a, b) => tyOf b = tyOf a
  | _ => True

theorem Ty.bits_le (t : Ty) : t.bits ≤ 64 := by cases t <;> decide

/-- A width divides `2^w` for the width `w` of its own type or of any integer type. -/
theorem Ty.bits_dvd_two_pow (t u : Ty) (h : u = t ∨ 8 ≤ u.bits) : t.bits ∣ 2 ^ u.bits := by
  cases t <;> cases u <;> simp only [Ty.bits, reduceCtorEq, false_or, or_false] at h ⊢ <;>
    first | decide | omega

@[simp] theorem immBits_zero (w : Nat) : immBits w 0 = 0 := by simp [immBits]

/-- A shift or rotate reads its amount modulo the width. -/
theorem binaryOp_shift {op : BinaryOp} (hs : op.isShift) {w y y' : Nat} (h : y % w = y' % w)
    (x : Nat) : binaryOp op w x y = binaryOp op w x y' := by
  cases op <;> simp_all [BinaryOp.isShift, binaryOp]

/-- `iadd_imm` of the negated immediate subtracts it, at every width up to 64. -/
theorem wrap_add_immBits_neg {w : Nat} (hw : w ≤ 64) (x : Nat) (imm : Imm64) :
    wrap w ((x : Int) + immBits w (-imm)) = wrap w ((x : Int) - immBits w imm) := by
  have hlt := imm.isLt
  have hd : 2 ^ w ∣ 2 ^ 64 := Nat.pow_dvd_pow 2 hw
  have hneg : immBits w (-imm) = (2 ^ 64 - imm.toNat) % 2 ^ w := by
    rw [immBits, BitVec.toNat_neg, Nat.mod_mod_of_dvd _ hd]
  have h64 : (x : Int) + (2 ^ 64 - imm.toNat) = x - imm.toNat + 2 ^ (64 - w) * 2 ^ w := by
    rw [← pow_add, Nat.sub_add_cancel hw]; ring
  rw [hneg, immBits, Int.natCast_mod, Int.natCast_mod, Nat.cast_pow, Nat.cast_ofNat,
    wrap_add_emod, wrap_sub_emod, Nat.cast_sub hlt.le, Nat.cast_pow, Nat.cast_ofNat, h64,
    wrap_eq_iff, Int.add_mul_emod_self]

/-- Each folding of `immOpcode` computes what the binary opcode computed. -/
theorem immOpcode_sound {op : BinaryOp} {imm imm' : Imm64} {op' : BinaryImmOp}
    (h : immOpcode op imm = some (op', imm')) {tr tb : Ty}
    (ht : tb = tr ∨ op.isShift ∧ 8 ≤ tb.bits) (x : Nat) :
    binaryImmOp op' tr.bits x imm' = binaryOp op tr.bits x (immBits tb.bits imm) := by
  have hmod : immBits tb.bits imm % tr.bits = immBits tr.bits imm % tr.bits := by
    have h1 := Ty.bits_dvd_two_pow tr tb (ht.imp id And.right)
    have h2 := Ty.bits_dvd_two_pow tr tr (.inl rfl)
    simp only [immBits, Nat.mod_mod_of_dvd _ h1, Nat.mod_mod_of_dvd _ h2]
  cases op <;> simp only [immOpcode, Option.some.injEq, Prod.mk.injEq, reduceCtorEq] at h <;>
    obtain ⟨rfl, rfl⟩ := h <;>
    simp only [binaryImmOp, BinaryImmOp.binary] <;>
    first
    | exact binaryOp_shift (by rfl) hmod.symm x
    | (rcases ht with rfl | ⟨hs, -⟩
       · simp only [binaryOp, wrap_add_immBits_neg (Ty.bits_le _)]
       · cases hs)

/-! ## The rewrites keep what an instruction does -/

theorem BranchOp.taken_bint (op : BranchOp) (x : Nat) :
    op.taken (if x = 0 then 0 else 1) = op.taken x := by
  by_cases h : x = 0 <;> cases op <;> simp [BranchOp.taken, h]

theorem CondTrapOp.traps_bint (op : CondTrapOp) (x : Nat) :
    op.traps (if x = 0 then 0 else 1) = op.traps x := by
  by_cases h : x = 0 <;> cases op <;> simp [CondTrapOp.traps, h]

/-- A fused branch on `a` is taken exactly when the branch on `icmp_imm cmp_cond a, 0` was. -/
theorem fused_taken {br op : BranchOp} {cmp_cond : IntCC}
    (h : fusedCond br cmp_cond = .Equal ∧ op = .Brz ∨ fusedCond br cmp_cond = .NotEqual ∧ op = .Brnz)
    (w x : Nat) : op.taken x = br.taken (if cmp_cond.eval w x (immBits w 0) then 1 else 0) := by
  have hc : ∀ c, fusedCond br cmp_cond = c →
      cmp_cond = match br with | .Brz => c.inverse | .Brnz => c := fun c hc => by
    cases br <;> simp only [fusedCond] at hc <;> simp [← hc]
  rw [immBits_zero]
  rcases h with ⟨h, rfl⟩ | ⟨h, rfl⟩ <;> cases br <;> rw [hc _ h] <;>
    by_cases hx : x = 0 <;> simp [BranchOp.taken, IntCC.eval, IntCC.inverse, hx]

section Sound

variable {dfg : DataFlowGraph} {env : Env} {res : Option Value} {d d' : InstructionData}

/-- A rewrite of `simplify` does what the instruction did. -/
theorem simplifyData_sound (h : simplifyData dfg d = some d') (hA : OperandsAgree ext dfg env d.args)
    (hT : Typed dfg.valueTypes res d) :
    stepData ext dfg.valueTypes env res d' = stepData ext dfg.valueTypes env res d := by
  rcases simplifyData_cases h with
    ⟨op, a, b, imm, op', imm', rfl, hb, ho, rfl⟩ | ⟨a, b, imm, rfl, -, ha, rfl⟩ |
    ⟨cond, a, b, imm, rfl, hb, rfl⟩ | ⟨op, c, b, rfl, hb, rfl⟩ |
    ⟨op, dest, c, vs, b, rfl, hb, rfl⟩ | ⟨c, x, y, b, rfl, hb, rfl⟩
  · -- a constant right operand
    have hy := hA.iconst (by simp [InstructionData.args]) hb
    cases res with
    | none => rfl
    | some r =>
      obtain ⟨-, ht⟩ := hT r rfl
      simp only [stepData, valueFlow, evalData, readVal, hy, immOpcode_sound ho ht]
  · -- a constant left operand of `isub`
    have hx := hA.iconst (by simp [InstructionData.args]) ha
    cases res with
    | none => rfl
    | some r =>
      obtain ⟨hta, -⟩ := hT r rfl
      simp only [stepData, valueFlow, evalData, readVal, hx, binaryImmOp, hta]
  · -- a constant compared with
    have hy := hA.iconst (by simp [InstructionData.args]) hb
    simp only [Typed] at hT
    simp only [stepData, valueFlow, evalData, readVal, hy, hT]
  · -- `bint` read through by a conditional trap
    obtain ⟨x, hx, hc⟩ := hA.bint (by simp [InstructionData.args]) hb
    simp only [stepData, hx, hc, CondTrapOp.traps_bint]
  · -- `bint` read through by a branch
    obtain ⟨x, hx, hc⟩ := hA.bint (by simp [InstructionData.args]) hb
    simp only [stepData, branchFlow, hx, hc]
    cases readArgs env vs <;> simp [BranchOp.taken_bint]
  · -- `bint` read through by `select`
    obtain ⟨z, hz, hc⟩ := hA.bint (by simp [InstructionData.args]) hb
    cases res with
    | none => rfl
    | some r =>
      have hz0 : ((if z = 0 then 0 else 1) = 0) ↔ z = 0 := by split <;> simp_all
      simp only [stepData, valueFlow, evalData, readVal, hz, hc, hz0]

/-- A rewrite of `branch_opt` does what the branch did. -/
theorem branchOptData_sound (h : branchOptData dfg d = some d')
    (hA : OperandsAgree ext dfg env d.args) :
    stepData ext dfg.valueTypes env res d' = stepData ext dfg.valueTypes env res d := by
  obtain ⟨br, dest, c, vs, cmp_cond, a, op, rfl, hc, hop, rfl⟩ := branchOptData_cases h
  obtain ⟨x, hx, hcx⟩ := hA.icmpImm (by simp [InstructionData.args]) hc
  simp only [stepData, branchFlow, hx, hcx]
  cases readArgs env vs <;> simp only [fused_taken hop (dfg.valueTypes a).bits x]

end Sound

section Pass

variable {pos : FuncCursor} {inst : Inst} {env : Env}

/-- `simplify` leaves the instruction doing what it did. -/
theorem stepInst_simplify
    (hA : OperandsAgree ext pos.func.dfg env (pos.func.dfg.insts inst).args)
    (hT : Typed pos.func.dfg.valueTypes (pos.func.dfg.results inst) (pos.func.dfg.insts inst)) :
    stepInst ext (simplify inst pos).2.func env inst = stepInst ext pos.func env inst := by
  rw [simplify, stepInst_rewriteInst, rewritten]
  cases h : simplifyData pos.func.dfg (pos.func.dfg.insts inst) with
  | none => rfl
  | some d' => exact simplifyData_sound h hA hT

/-- `branch_opt` leaves the instruction doing what it did. -/
theorem stepInst_branchOpt (hA : OperandsAgree ext pos.func.dfg env (pos.func.dfg.insts inst).args) :
    stepInst ext (branchOpt inst pos).2.func env inst = stepInst ext pos.func env inst := by
  rw [branchOpt, stepInst_rewriteInst, rewritten]
  cases h : branchOptData pos.func.dfg (pos.func.dfg.insts inst) with
  | none => rfl
  | some d' => exact branchOptData_sound h hA

end Pass

theorem DataFlowGraph.valueDef_of_defData {dfg : DataFlowGraph} {v : Value} {d : InstructionData}
    (h : dfg.defData v = some d) : ∃ i n, dfg.valueDef v = .Result i n := by
  unfold DataFlowGraph.defData DataFlowGraph.defInst at h
  split at h
  · exact ⟨_, _, ‹_›⟩
  · cases h

/-- What `simplify` and `branch_opt` rewrite, each keeping what the instruction does; a
constant left operand of `isub` is folded only when the right one is a parameter. -/
theorem simplify_branchOpt_correct (ext : External) :
    (∀ (pos : FuncCursor) (inst : Inst) (env : Env),
      OperandsAgree ext pos.func.dfg env (pos.func.dfg.insts inst).args →
      Typed pos.func.dfg.valueTypes (pos.func.dfg.results inst) (pos.func.dfg.insts inst) →
      stepInst ext (simplify inst pos).2.func env inst = stepInst ext pos.func env inst ∧
      (simplify inst pos).2.func.dfg.results = pos.func.dfg.results ∧
      (simplify inst pos).2.func.dfg.valueTypes = pos.func.dfg.valueTypes) ∧
    (∀ (dfg : DataFlowGraph) (a b : Value) (C : Imm64), dfg.iconstOf b = some C →
      (∀ op' : BinaryImmOp, op' ≠ .IrsubImm →
        simplifyData dfg (.Binary op'.binary (a, b)) = some (.BinaryImm op' a C)) ∧
      simplifyData dfg (.Binary .Isub (a, b)) = some (.BinaryImm .IaddImm a (-C)) ∧
      simplifyData dfg (.Binary .Umulhi (a, b)) = none ∧
      simplifyData dfg (.Binary .Smulhi (a, b)) = none) ∧
    (∀ (w x : Nat) (C : Imm64), w ≤ 64 →
      binaryImmOp .IaddImm w x (-C) = binaryOp .Isub w x (immBits w C)) ∧
    (∀ (dfg : DataFlowGraph) (a b : Value) (C : Imm64), dfg.iconstOf a = some C →
      dfg.defInst b = none →
      simplifyData dfg (.Binary .Isub (a, b)) = some (.BinaryImm .IrsubImm b C)) ∧
    (∀ (pos : FuncCursor) (inst : Inst) (a b : Value) (C : Imm64) (i : Inst) (n : Nat),
      pos.func.dfg.insts inst = .Binary .Isub (a, b) → pos.func.dfg.iconstOf a = some C →
      pos.func.dfg.valueDef b = .Result i n → pos.func.dfg.iconstOf b = none →
      simplify inst pos = ((), pos)) ∧
    (∀ (dfg : DataFlowGraph) (cond : IntCC) (a b : Value) (C : Imm64), dfg.iconstOf b = some C →
      simplifyData dfg (.IntCompare cond (a, b)) = some (.IntCompareImm cond a C)) ∧
    (∀ (dfg : DataFlowGraph) (c b : Value), dfg.bintOf c = some b →
      (∀ op, simplifyData dfg (.CondTrap op c) = some (.CondTrap op b)) ∧
      (∀ op dest vs, simplifyData dfg (.Branch op dest c vs) = some (.Branch op dest b vs)) ∧
      (∀ x y, simplifyData dfg (.Ternary (c, x, y)) = some (.Ternary (b, x, y)))) ∧
    (∀ (pos : FuncCursor) (inst : Inst) (env : Env),
      OperandsAgree ext pos.func.dfg env (pos.func.dfg.insts inst).args →
      stepInst ext (branchOpt inst pos).2.func env inst = stepInst ext pos.func env inst ∧
      (branchOpt inst pos).2.func.dfg.results = pos.func.dfg.results ∧
      (branchOpt inst pos).2.func.dfg.valueTypes = pos.func.dfg.valueTypes) ∧
    (∀ (dfg : DataFlowGraph) (br : BranchOp) (dest : Ebb) (c : Value) (vs : List Value)
      (cond : IntCC) (a : Value), dfg.defData c = some (.IntCompareImm cond a 0) →
      (cond = .Equal ∨ cond = .NotEqual) →
      ∃ op, branchOptData dfg (.Branch br dest c vs) = some (.Branch op dest a vs) ∧
        ∀ w x, op.taken x = br.taken (if cond.eval w x (immBits w 0) then 1 else 0)) ∧
    (∀ (dfg : DataFlowGraph) (br : BranchOp) (dest : Ebb) (c : Value) (vs : List Value)
      (cond : IntCC) (a : Value) (imm : Imm64), dfg.defData c = some (.IntCompareImm cond a imm) →
      cond ≠ .Equal → cond ≠ .NotEqual → branchOptData dfg (.Branch br dest c vs) = none) := by
  refine ⟨fun pos inst env hA hT => ⟨stepInst_simplify hA hT, rewriteInst_results .., rewriteInst_valueTypes ..⟩,
    fun dfg a b C hb => ?_, fun w x C hw => ?_, fun dfg a b C ha hb => ?_,
    fun pos inst a b C i n hi _ hv hb => ?_, fun dfg cond a b C hb => ?_,
    fun dfg c b hb => ?_, fun pos inst env hA => ⟨stepInst_branchOpt hA, rewriteInst_results ..,
      rewriteInst_valueTypes ..⟩, fun dfg br dest c vs cond a hc hcond => ?_,
    fun dfg br dest c vs cond a imm hc h1 h2 => ?_⟩
  · -- a constant right operand
    obtain ⟨i, n, hv⟩ := DataFlowGraph.valueDef_of_defData (DataFlowGraph.iconstOf_eq_some.1 hb)
    refine ⟨fun op' h1 => ?_, ?_, ?_, ?_⟩ <;> simp only [simplifyData, hv, hb, Option.bind_some]
    · cases op' <;> first | rfl | exact absurd rfl h1
    all_goals rfl
  · -- `isub` by `C` is `iadd_imm` by `-C`
    simp only [binaryImmOp, BinaryImmOp.binary, binaryOp, wrap_add_immBits_neg hw]
  · -- a constant left operand of `isub`
    obtain ⟨e, n, hv⟩ : ∃ e n, dfg.valueDef b = .Param e n := by
      unfold DataFlowGraph.defInst at hb; split at hb
      · cases hb
      · exact ⟨_, _, ‹_›⟩
    simp only [simplifyData, hv, ha, if_true]
    rfl
  · -- a constant left operand of `isub` is not looked at when the right one is a result
    simp only [simplify, rewriteInst, hi, simplifyData, hv, hb, Option.none_bind]
  · -- a constant compared with
    simp [simplifyData, hb]
  · -- `bint` read through
    simp [simplifyData, hb]
  · -- a fused branch
    have hf : fusedCond br cond = .Equal ∨ fusedCond br cond = .NotEqual := by
      cases br <;> rcases hcond with rfl | rfl <;> simp [fusedCond, IntCC.inverse]
    rcases hf with hf | hf
    · exact ⟨.Brz, by simp [branchOptData, hc, hf], fused_taken (.inl ⟨hf, rfl⟩)⟩
    · exact ⟨.Brnz, by simp [branchOptData, hc, hf], fused_taken (.inr ⟨hf, rfl⟩)⟩
  · -- any other condition
    have hf : ∀ c', fusedCond br cond = c' → c' ≠ .Equal ∧ c' ≠ .NotEqual := by
      rintro c' rfl
      cases br <;> cases cond <;> simp_all [fusedCond, IntCC.inverse]
    simp only [branchOptData, hc]
    split
    · rfl
    · split <;> simp_all

/-- `v0 = iconst 7; v1 = iadd v2, v0; return v1`, in one EBB with the parameter `v2`. -/
def iaddOfSeven : Function :=
  Function.ofLists [.UnaryImm 7, .Binary .Iadd (⟨2⟩, ⟨0⟩), .MultiAry [⟨1⟩]]
    [.Result ⟨0⟩ 0, .Result ⟨1⟩ 0, .Param ⟨0⟩ 0] [.I32, .I32, .I32] [[0, 1, 2]]
    ⟨by decide, by decide, by decide⟩

theorem simplify_iadd_seven :
    (simplify ⟨1⟩ ⟨iaddOfSeven, .At ⟨1⟩⟩).2.func.dfg.insts ⟨1⟩ = .BinaryImm .IaddImm ⟨2⟩ 7 ∧
    stepInst noExternal (simplify ⟨1⟩ ⟨iaddOfSeven, .At ⟨1⟩⟩).2.func
        (fun v => if v = ⟨0⟩ then some 7 else if v = ⟨2⟩ then some 5 else none) ⟨1⟩ =
      stepInst noExternal iaddOfSeven
        (fun v => if v = ⟨0⟩ then some 7 else if v = ⟨2⟩ then some 5 else none) ⟨1⟩ := by
  refine ⟨rfl, ((simplify_branchOpt_correct noExternal).1 ⟨iaddOfSeven, .At ⟨1⟩⟩ ⟨1⟩ _ ?_ ?_).1⟩
  · intro v hv
    rw [show (iaddOfSeven.dfg.insts ⟨1⟩).args = [⟨2⟩, ⟨0⟩] from rfl] at hv
    rcases List.mem_pair.1 hv with rfl | rfl
    · exact ⟨5, rfl, fun d hd => by cases hd⟩
    · exact ⟨7, rfl, fun d hd => by cases hd; rfl⟩
  · intro r hr
    cases hr
    exact ⟨rfl, .inl rfl⟩

/-- `v0 = iconst 5; v1 = iadd v3, v3; v2 = isub v0, v1; return v2`, in one EBB
with the parameter `v3`. -/
def isubOfIadd : Function :=
  Function.ofLists [.UnaryImm 5, .Binary .Iadd (⟨3⟩, ⟨3⟩), .Binary .Isub (⟨0⟩, ⟨1⟩), .MultiAry [⟨2⟩]]
    [.Result ⟨0⟩ 0, .Result ⟨1⟩ 0, .Result ⟨2⟩ 0, .Param ⟨0⟩ 0] [.I32, .I32, .I32, .I32]
    [[0, 1, 2, 3]] ⟨by decide, by decide, by decide⟩

/-- An `isub` whose left operand is an `iconst` stays an `isub` when its right
operand is the result of an instruction. -/
theorem simplify_keeps_isub_of_iadd :
    (isubOfIadd.dfg.iconstOf ⟨0⟩ = some 5) ∧
    (simplify ⟨2⟩ ⟨isubOfIadd, .At ⟨2⟩⟩).2.func.dfg.insts ⟨2⟩ = .Binary .Isub (⟨0⟩, ⟨1⟩) :=
  ⟨rfl, rfl⟩

end simple_preopt
