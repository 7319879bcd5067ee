import SimplePreopt.Divrem
import SimplePreopt.Simplify
import SimplePreopt.BranchOrder
-- `do_preopt`: the walk over the EBBs in layout order and the instructions of each, running
-- `simplify`, the div/rem rewrite, `branch_opt` and `branch_order`, on fuel.

namespace simple_preopt

/-! ## The driver -/

/-- The body of the inner loop at `inst`: `simplify`, then the div/rem rewrite, or else
`branch_opt` and `branch_order`. -/
def preoptInst (mn : MagicNumbers) (ebb : Ebb) (inst : Inst) (pos : FuncCursor)
    (cfg : ControlFlowGraph) : FuncCursor × ControlFlowGraph :=
  let pos := (simplify inst pos).2
  match getDivInfo inst pos.func.dfg with
  | some divrem_info => ((doDivremTransformation mn divrem_info inst pos).2, cfg)
  | none =>
    let pos := (branchOpt inst pos).2
    branchOrder pos cfg ebb inst

/-- `while let Some(inst) = pos.next_inst() { … }`, for at most `fuel` turns. -/
def instLoop (mn : MagicNumbers) (ebb : Ebb) :
    Nat → FuncCursor → ControlFlowGraph → FuncCursor × ControlFlowGraph
  | 0, pos, cfg => (pos, cfg)
  | fuel + 1, pos, cfg =>
    match FuncCursor.nextInst pos with
    | (some inst, pos) =>
      let s := preoptInst mn ebb inst pos cfg
      instLoop mn ebb fuel s.1 s.2
    | (none, pos) => (pos, cfg)

/-- `while let Some(ebb) = pos.next_ebb() { … }`, for at most `fuel` turns. -/
def ebbLoop (mn : MagicNumbers) :
    Nat → FuncCursor → ControlFlowGraph → FuncCursor × ControlFlowGraph
  | 0, pos, cfg => (pos, cfg)
  | fuel + 1, pos, cfg =>
    match FuncCursor.nextEbb pos with
    | (some ebb, pos) =>
      let s := instLoop mn ebb ((pos.func.layout.ebbInsts ebb).length + 1) pos cfg
      ebbLoop mn fuel s.1 s.2
    | (none, pos) => (pos, cfg)

/-- `do_preopt`: the function and the control-flow graph after the pass. -/
def doPreopt (mn : MagicNumbers) (func : Function) (cfg : ControlFlowGraph) :
    Function × ControlFlowGraph :=
  let s := ebbLoop mn (func.layout.ebbs.length + 1) (FuncCursor.new func) cfg
  (s.1.func, s.2)

/-! ## Divisions that can trap are left alone -/

theorem simplify_of_none {inst : Inst} {pos : FuncCursor}
    (h : simplifyData pos.func.dfg (pos.func.dfg.insts inst) = none) : (simplify inst pos).2 = pos := by
  simp [simplify, rewriteInst, h]

theorem branchOpt_of_none {inst : Inst} {pos : FuncCursor}
    (h : branchOptData pos.func.dfg (pos.func.dfg.insts inst) = none) :
    (branchOpt inst pos).2 = pos := by
  simp [branchOpt, rewriteInst, h]

/-- A division by zero, or a signed one by `-1`, is not rewritten. -/
theorem doDivremTransformation_of_trapping (mn : MagicNumbers) {info : DivRemByConstInfo}
    (hd : info.divisor = 0 ∨ (info.isSigned = true ∧ info.divisor = -1)) (inst : Inst)
    (pos : FuncCursor) : (doDivremTransformation mn info inst pos).2 = pos := by
  have h32 := toInt_small (show 2 ≤ 32 by norm_num)
  have h64 := toInt_small (show 2 ≤ 64 by norm_num)
  cases info with
  | DivU32 n d | RemU32 n d | DivU64 n d | RemU64 n d =>
    have h0 : d = 0 := BitVec.eq_of_toNat_eq (by
      simpa [DivRemByConstInfo.divisor, DivRemByConstInfo.isSigned] using hd)
    simp only [doDivremTransformation, divremUnsigned, if_pos h0]; rfl
  | DivS32 n d | RemS32 n d =>
    have h0 : d = -1 ∨ d = 0 := by
      simp only [DivRemByConstInfo.divisor, DivRemByConstInfo.isSigned, true_and] at hd
      rcases hd with h | h
      · exact .inr (BitVec.eq_of_toInt_eq (by rw [h, h32.1]))
      · exact .inl (BitVec.eq_of_toInt_eq (by rw [h, h32.2.2]))
    simp only [doDivremTransformation, divremSigned, if_pos h0]; rfl
  | DivS64 n d | RemS64 n d =>
    have h0 : d = -1 ∨ d = 0 := by
      simp only [DivRemByConstInfo.divisor, DivRemByConstInfo.isSigned, true_and] at hd
      rcases hd with h | h
      · exact .inr (BitVec.eq_of_toInt_eq (by rw [h, h64.1]))
      · exact .inl (BitVec.eq_of_toInt_eq (by rw [h, h64.2.2]))
    simp only [doDivremTransformation, divremSigned, if_pos h0]; rfl

/-- What `get_div_info` reads off a division by an immediate, and that the pass leaves it
and the function as they are for a divisor `0`, or `-1` signed. -/
theorem getDivInfo_exact_and_trapping_kept (mn : MagicNumbers) (ebb : Ebb) (pos : FuncCursor)
    (cfg : ControlFlowGraph) {inst : Inst} {op : BinaryImmOp} {arg : Value} {imm : Imm64}
    {is_signed is_rem : Bool} (hi : pos.func.dfg.insts inst = .BinaryImm op arg imm)
    (hk : divRemKind op = some (is_signed, is_rem)) :
    (∀ info, getDivInfo inst pos.func.dfg = some info →
      info.isSigned = is_signed ∧ info.isRem = is_rem ∧ info.value = arg ∧
      info.ty = pos.func.dfg.valueType arg ∧
      info.divisor = if is_signed
        then sval (pos.func.dfg.valueType arg).bits (immBits (pos.func.dfg.valueType arg).bits imm)
        else immBits (pos.func.dfg.valueType arg).bits imm) ∧
    (immBits (pos.func.dfg.valueType arg).bits imm = 0 ∨
      (is_signed = true ∧
        sval (pos.func.dfg.valueType arg).bits (immBits (pos.func.dfg.valueType arg).bits imm) = -1) →
      preoptInst mn ebb inst pos cfg = (pos, cfg)) := by
  have hfields : ∀ info, getDivInfo inst pos.func.dfg = some info →
      info.isSigned = is_signed ∧ info.isRem = is_rem ∧ info.value = arg ∧
      info.ty = pos.func.dfg.valueType arg ∧
      info.divisor = if is_signed
        then sval (pos.func.dfg.valueType arg).bits (immBits (pos.func.dfg.valueType arg).bits imm)
        else immBits (pos.func.dfg.valueType arg).bits imm := by
    intro info h
    obtain ⟨hk', hv, ht, hd⟩ := getDivInfo_fields hi h
    rw [hk] at hk'
    obtain ⟨hs, hr⟩ := Prod.mk.inj (Option.some.inj hk')
    exact ⟨hs.symm, hr.symm, hv, ht, by rw [hd, ← hs, ht]⟩
  refine ⟨hfields, fun htrap => ?_⟩
  have hs : (simplify inst pos).2 = pos := simplify_of_none (by simp [hi, simplifyData])
  unfold preoptInst
  rw [hs]
  cases hg : getDivInfo inst pos.func.dfg with
  | some info =>
    obtain ⟨hsg, -, -, -, hd⟩ := hfields info hg
    simp only [hg, Prod.mk.injEq, and_true]
    refine doDivremTransformation_of_trapping mn ?_ inst pos
    rw [hd, hsg]
    rcases htrap with h0 | ⟨h1, hm⟩
    · cases is_signed
      · exact .inl (by simp [h0])
      · exact .inl (by simp [h0, sval])
    · exact .inr ⟨h1, by simp [h1, hm]⟩
  | none =>
    simp only [hg]
    rw [branchOpt_of_none (by simp [hi, branchOptData])]
    simp [branchOrder, branchOrderInfo, hi]

/-- `v1 = sdiv_imm.i32 v0, 0xffff_ffff; return v1`: a division by `-1` at 32
bits, whose immediate is out of the signed 32-bit range. -/
def sdivByAllOnes : Function :=
  Function.ofLists [.BinaryImm .SdivImm ⟨0⟩ 0xFFFFFFFF, .MultiAry [⟨1⟩]]
    [.Param ⟨0⟩ 0, .Result ⟨0⟩ 0] [.I32, .I32] [[0, 1]] ⟨by decide, by decide, by decide⟩

theorem sdivByAllOnes_kept :
    preoptInst ⟨fun _ => ⟨0, false, 0⟩, fun _ => ⟨0, false, 0⟩, fun _ => ⟨0, 0⟩, fun _ => ⟨0, 0⟩⟩
        ⟨0⟩ ⟨0⟩ ⟨sdivByAllOnes, .At ⟨0⟩⟩ ⟨fun _ => []⟩ =
      (⟨sdivByAllOnes, .At ⟨0⟩⟩, ⟨fun _ => []⟩) :=
  (getDivInfo_exact_and_trapping_kept _ ⟨0⟩ ⟨sdivByAllOnes, .At ⟨0⟩⟩ ⟨fun _ => []⟩
    (show sdivByAllOnes.dfg.insts ⟨0⟩ = .BinaryImm .SdivImm ⟨0⟩ 0xFFFFFFFF from rfl)
    (show divRemKind .SdivImm = some (true, false) from rfl)).2 (.inr ⟨rfl, by decide⟩)

end simple_preopt
