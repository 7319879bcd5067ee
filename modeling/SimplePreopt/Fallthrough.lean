import SimplePreopt.Walk
-- `branch_order` over whole runs: after the pass no EBB ends with a conditional branch to
-- the next EBB followed by a jump elsewhere, so another run finds no pair to swap.

namespace simple_preopt

/-! ## The exits of an instruction -/

/-- `d'` leaves the instruction the way `d` does: to the same EBBs with the same block
arguments, or not at all. -/
def KeepsExit : InstructionData → InstructionData → Prop
  | .Branch _ D _ vs, d' => ∃ op c, d' = .Branch op D c vs
  | .BranchIcmp cond D x y vs, d' => d' = .BranchIcmp cond D x y vs
  | .Jump op D vs, d' => d' = .Jump op D vs
  | _, d' => d'.branchDestination = none

namespace KeepsExit

variable {d d' d'' : InstructionData}

theorem refl (d : InstructionData) : KeepsExit d d := by
  cases d <;> first | exact ⟨_, _, rfl⟩ | rfl

theorem of_none (hd : d.branchDestination = none) (hd' : d'.branchDestination = none) :
    KeepsExit d d' := by
  cases d <;> first | exact hd' | cases hd

/-- What does not branch has no block arguments. -/
theorem blockArgs_of_none (hd : d.branchDestination = none) : d.blockArgs = [] := by
  cases d <;> first | rfl | cases hd

theorem branchDestination (h : KeepsExit d d') : d'.branchDestination = d.branchDestination := by
  cases d with
  | Branch => obtain ⟨_, _, rfl⟩ := h; rfl
  | BranchIcmp | Jump => rw [h]
  | _ => exact h

theorem trans (h₁ : KeepsExit d d') (h₂ : KeepsExit d' d'') : KeepsExit d d'' := by
  cases d with
  | Branch => obtain ⟨_, _, rfl⟩ := h₁; exact h₂
  | BranchIcmp | Jump => rw [h₁] at h₂; exact h₂
  | _ =>
    have hd' : d'.branchDestination = none := h₁
    exact (h₂.branchDestination.trans hd' : d''.branchDestination = none)

theorem blockArgs (h : KeepsExit d d') : d'.blockArgs = d.blockArgs := by
  cases d with
  | Branch => obtain ⟨_, _, rfl⟩ := h; rfl
  | BranchIcmp | Jump => rw [h]
  | _ => exact blockArgs_of_none h

theorem not_jump (h : KeepsExit d d') (hd : ∀ op T a, d ≠ .Jump op T a) :
    ∀ op T a, d' ≠ .Jump op T a := by
  rintro op T a rfl
  cases d with
  | Branch => obtain ⟨_, _, h⟩ := h; cases h
  | BranchIcmp => cases h
  | Jump => exact hd _ _ _ rfl
  | _ => cases (h : some T = none)

/-- An instruction is a `brz`/`brnz` or a `br_icmp` to `D` exactly when its rewrite is. -/
theorem condBranch_iff (h : KeepsExit d d') (D : Ebb) :
    ((∃ op c vs, d' = .Branch op D c vs) ∨ ∃ cond x y vs, d' = .BranchIcmp cond D x y vs) ↔
      ((∃ op c vs, d = .Branch op D c vs) ∨ ∃ cond x y vs, d = .BranchIcmp cond D x y vs) := by
  cases d with
  | Branch => obtain ⟨_, _, rfl⟩ := h; simp
  | BranchIcmp | Jump => rw [h]
  | _ =>
    have hd' : d'.branchDestination = none := h
    constructor
    · rintro (⟨_, _, _, rfl⟩ | ⟨_, _, _, _, rfl⟩) <;> cases hd'
    · rintro (⟨_, _, _, h⟩ | ⟨_, _, _, _, h⟩) <;> cases h

end KeepsExit

theorem simplifyData_keepsExit {dfg : DataFlowGraph} {d d' : InstructionData}
    (h : simplifyData dfg d = some d') : KeepsExit d d' := by
  rcases simplifyData_cases h with ⟨_, _, _, _, _, _, rfl, -, -, rfl⟩ | ⟨_, _, _, rfl, -, -, rfl⟩ |
    ⟨_, _, _, _, rfl, -, rfl⟩ | ⟨_, _, _, rfl, -, rfl⟩ | ⟨_, _, _, _, _, rfl, -, rfl⟩ |
    ⟨_, _, _, _, rfl, -, rfl⟩ <;>
    first | exact ⟨_, _, rfl⟩ | rfl

theorem branchOptData_keepsExit {dfg : DataFlowGraph} {d d' : InstructionData}
    (h : branchOptData dfg d = some d') : KeepsExit d d' := by
  obtain ⟨_, _, _, _, _, a, op, rfl, -, -, rfl⟩ := branchOptData_cases h
  exact ⟨op, a, rfl⟩

theorem rewriteInst_keepsExit (rw : DataFlowGraph → InstructionData → Option InstructionData)
    (hrw : ∀ dfg d d', rw dfg d = some d' → KeepsExit d d') (j : Inst) (pos : FuncCursor) :
    KeepsExit (pos.func.dfg.insts j) ((rewriteInst rw j pos).2.func.dfg.insts j) := by
  rw [rewriteInst_insts, if_pos rfl, rewritten]
  cases h : rw pos.func.dfg (pos.func.dfg.insts j) with
  | none => exact KeepsExit.refl _
  | some d' => exact hrw _ _ _ h

theorem getDivInfo_branchDestination {inst : Inst} {dfg : DataFlowGraph} {info : DivRemByConstInfo}
    (h : getDivInfo inst dfg = some info) : (dfg.insts inst).branchDestination = none := by
  unfold getDivInfo at h
  split at h
  · rename_i heq; rw [heq]; rfl
  · cases h

/-! ## One turn at a jump, and at any other instruction -/

/-- At a jump, the turn is `branch_order` alone. -/
theorem preoptInst_of_jump (mn : MagicNumbers) (ebb : Ebb) {j : Inst} {pos : FuncCursor}
    (cfg : ControlFlowGraph) {op : JumpOp} {T : Ebb} {a : List Value}
    (hj : pos.func.dfg.insts j = .Jump op T a) :
    preoptInst mn ebb j pos cfg = branchOrder pos cfg ebb j := by
  have hs : (simplify j pos).2 = pos := simplify_of_none (by simp [hj, simplifyData])
  simp only [preoptInst, hs, getDivInfo, hj]
  rw [branchOpt_of_none (by simp [hj, branchOptData])]

theorem branchOrder_of_not_jump {pos : FuncCursor} {cfg : ControlFlowGraph} {ebb : Ebb} {j : Inst}
    (h : ∀ T a, pos.func.dfg.insts j ≠ .Jump .Jump T a) : branchOrder pos cfg ebb j = (pos, cfg) := by
  have hi : branchOrderInfo pos.func ebb j = none := by
    unfold branchOrderInfo
    split
    · exact absurd ‹_› (h _ _)
    · rfl
  simp [branchOrder, hi]

/-- The turn at an instruction that is not a jump keeps its exits. -/
theorem preoptInst_keepsExit (mn : MagicNumbers) (ebb : Ebb) {j : Inst} (pos : FuncCursor)
    (cfg : ControlFlowGraph) (hpos : pos.position = .At j) (hjlt : j.idx < pos.func.dfg.instCount)
    (hj : ∀ op T a, pos.func.dfg.insts j ≠ .Jump op T a) :
    KeepsExit (pos.func.dfg.insts j) ((preoptInst mn ebb j pos cfg).1.func.dfg.insts j) := by
  have h₁ : KeepsExit (pos.func.dfg.insts j) ((simplify j pos).2.func.dfg.insts j) :=
    rewriteInst_keepsExit simplifyData (fun _ _ _ => simplifyData_keepsExit) j pos
  obtain ⟨hp₁, e₁⟩ : (simplify j pos).2.position = pos.position ∧
      Edit (· = j) j [] pos.func (simplify j pos).2.func := rewriteInst_edit simplifyData j pos
  unfold preoptInst
  dsimp only
  split
  · rename_i info hinfo
    obtain ⟨-, -, hb⟩ := doDivremTransformation_builds mn info (simplify j pos).2 (hp₁.trans hpos)
      (by have := e₁.inst_count; omega)
    refine h₁.trans ?_
    rcases hb with hb | hb
    · exact KeepsExit.of_none (getDivInfo_branchDestination hinfo) hb
    · rw [hb]; exact KeepsExit.refl _
  · have h₃ : KeepsExit (pos.func.dfg.insts j) ((branchOpt j (simplify j pos).2).2.func.dfg.insts j) :=
      h₁.trans (rewriteInst_keepsExit branchOptData (fun _ _ _ => branchOptData_keepsExit) j _)
    rw [branchOrder_of_not_jump fun T a => h₃.not_jump hj .Jump T a]
    exact h₃

/-! ## Pairs that `branch_order` swaps -/

/-- `P; J` is a pair that `branch_order` swaps only if it was one before the
branch's exits were kept. -/
theorem SwapsAt.of_keepsExit {f f' : Function} {ebb : Ebb} {P J : Inst}
    (hk : KeepsExit (f.dfg.insts P) (f'.dfg.insts P)) (hJ : f'.dfg.insts J = f.dfg.insts J)
    (hn : f'.layout.nextEbb ebb = f.layout.nextEbb ebb) (h : SwapsAt f' ebb P J) :
    SwapsAt f ebb P J := by
  obtain ⟨T, a, D, hJ', hn', hT, hP⟩ := h
  exact ⟨T, a, D, hJ ▸ hJ', hn ▸ hn', hT, (hk.condBranch_iff D).1 hP⟩

/-- No pair at the end of `ebb` in `f` is one that `branch_order` swaps. -/
def Settled (f : Function) (ebb : Ebb) : Prop :=
  ∀ pre P J, f.layout.ebbInsts ebb = pre ++ [P, J] → ¬SwapsAt f ebb P J

theorem Untouched.settled {ebb : Ebb} {f f' : Function} (h : Untouched ebb f f')
    (hs : Settled f ebb) : Settled f' ebb := by
  intro pre P J hl hsw
  have hl' := h.layout.symm.trans hl
  refine hs pre P J hl' (SwapsAt.of_keepsExit ?_ (h.insts J (by simp [hl'])) ?_ hsw)
  · rw [h.insts P (by simp [hl'])]; exact KeepsExit.refl _
  · simp only [Layout.nextEbb, h.ebbs]

theorem visitInsts_singleton (mn : MagicNumbers) (ebb : Ebb) (j : Inst) (pos : FuncCursor)
    (cfg : ControlFlowGraph) :
    visitInsts mn ebb [j] pos cfg = preoptInst mn ebb j { pos with position := .At j } cfg :=
  rfl

/-- The turn at the last instruction of an EBB leaves no pair there to swap. -/
theorem preoptInst_settled (mn : MagicNumbers) {ebb : Ebb} {J : Inst} (pos : FuncCursor)
    (cfg : ControlFlowGraph) (hpos : pos.position = .At J) (he : ebb ∈ pos.func.layout.ebbs)
    {done : List Inst} (hl : pos.func.layout.ebbInsts ebb = done ++ [J]) :
    Settled (preoptInst mn ebb J pos cfg).1.func ebb := by
  have hnd := pos.func.wf.ebbInsts_nodup he
  rw [hl] at hnd
  have hJd : J ∉ done := fun hm => by simpa using (List.nodup_append.1 hnd).2.2 hm
  have hjlt : J.idx < pos.func.dfg.instCount :=
    pos.func.wf.insts_lt J (List.mem_flatMap.2 ⟨ebb, he, by simp [hl]⟩)
  obtain ⟨-, L, ed⟩ := preoptInst_edit mn ebb pos cfg hpos hjlt
  have hl₁ : (preoptInst mn ebb J pos cfg).1.func.layout.ebbInsts ebb = done ++ L ++ [J] := by
    rw [ed.layout ebb he, hl, insertBeforeAll_middle L hJd (List.not_mem_nil J)]
  intro pre P J' hl' hsw
  have hlast : (pre ++ [P]) ++ [J'] = (done ++ L) ++ [J] := by
    rw [List.append_assoc, List.singleton_append, ← hl', hl₁]
  obtain ⟨-, hJJ⟩ := List.append_inj' hlast rfl
  obtain rfl : J = J' := (List.singleton_inj.1 hJJ).symm
  by_cases hj : ∃ op T a, pos.func.dfg.insts J = .Jump op T a
  · obtain ⟨op, T, a, hj⟩ := hj
    rw [preoptInst_of_jump mn ebb cfg hj] at hsw hl'
    rw [branchOrder_layout] at hl'
    have hprev : pos.func.layout.prevInst J = some P := prevInst_of_ebbInsts he hl'
    by_cases hs : SwapsAt pos.func ebb P J
    · obtain ⟨T₀, a₀, D, hJ₀, hn, hT, hP⟩ := hs
      have hPJ : P ≠ J := by
        have := pos.func.wf.ebbInsts_nodup he
        rw [hl'] at this
        simpa using (List.nodup_append.1 this).2.1
      obtain ⟨hJs, -⟩ := branchOrder_swapped pos cfg hprev hPJ hJ₀ hn hT hP
      obtain ⟨T₁, a₁, D₁, hJ₁, hn₁, hT₁, -⟩ := hsw
      rw [hJs] at hJ₁
      rw [branchOrder_layout] at hn₁
      obtain ⟨-, rfl, -⟩ := InstructionData.Jump.inj hJ₁
      exact hT₁ (Option.some.inj (hn.symm.trans hn₁))
    · exact hs (by rwa [branchOrder_of_not_swapsAt cfg hprev hs] at hsw)
  · push_neg at hj
    obtain ⟨T, a, D, hJ, -⟩ := hsw
    exact (preoptInst_keepsExit mn ebb pos cfg hpos hjlt hj).not_jump hj _ _ _ hJ

/-- After the walk over an EBB, no pair at its end is one that `branch_order` would swap. -/
theorem visitInsts_settled (mn : MagicNumbers) {pos : FuncCursor} {ebb : Ebb} (cfg : ControlFlowGraph)
    (he : ebb ∈ pos.func.layout.ebbs) (hp : pos.position = .Before ebb) :
    Settled (visitInsts mn ebb (pos.func.layout.ebbInsts ebb) pos cfg).1.func ebb := by
  rcases List.eq_nil_or_concat (pos.func.layout.ebbInsts ebb) with hl | ⟨l, J, hl⟩
  · rw [hl]
    intro pre P J h'
    rw [show (visitInsts mn ebb [] pos cfg).1 = pos from rfl, hl] at h'
    simp at h'
  · rw [List.concat_eq_append] at hl
    have hw := (visitInsts_rest mn cfg (⟨he, .inl ⟨hp, hl⟩⟩ : WalkAt pos ebb (l ++ [J]))).1
    obtain ⟨done, hd⟩ := hw.layout
    rw [hl, visitInsts_append]
    exact preoptInst_settled mn _ _ rfl hw.mem hd

/-- The walk over an EBB that ends with `P; J` is the walk up to `J`, then `branch_order`
at `J`, with the pair still at the end. -/
theorem visitInsts_pair (mn : MagicNumbers) {pos : FuncCursor} {ebb : Ebb} (cfg : ControlFlowGraph)
    {pre : List Inst} {P J : Inst} (h : WalkAt pos ebb (pre ++ [P, J]))
    (hP : ∀ op T a, pos.func.dfg.insts P ≠ .Jump op T a) {op : JumpOp} {T : Ebb} {a : List Value}
    (hJ : pos.func.dfg.insts J = .Jump op T a) :
    ∃ q c, visitInsts mn ebb (pre ++ [P, J]) pos cfg = branchOrder q c ebb J ∧
      (∃ done, q.func.layout.ebbInsts ebb = done ++ [P, J]) ∧ q.func.layout.prevInst J = some P ∧
      P ≠ J ∧ q.func.layout.ebbs = pos.func.layout.ebbs ∧
      q.func.dfg.insts J = pos.func.dfg.insts J ∧
      KeepsExit (pos.func.dfg.insts P) (q.func.dfg.insts P) := by
  have hPJ : P ≠ J := by simpa using (List.nodup_append.1 h.nodup).2.1
  obtain ⟨q₁, c₁, hs₁⟩ : ∃ q c, visitInsts mn ebb pre pos cfg = (q, c) := ⟨_, _, rfl⟩
  have h₁ := visitInsts_rest mn cfg h
  rw [hs₁] at h₁
  obtain ⟨hw₁, he₁, hi₁⟩ := h₁
  dsimp only at hw₁ he₁ hi₁
  have hPlt : P.idx < q₁.func.dfg.instCount := by
    obtain ⟨done, hl⟩ := hw₁.layout
    exact q₁.func.wf.insts_lt P (List.mem_flatMap.2 ⟨ebb, hw₁.mem, by simp [hl]⟩)
  have hk := preoptInst_keepsExit mn ebb { q₁ with position := .At P } c₁ rfl hPlt
    (by rw [show ({ q₁ with position := .At P } : FuncCursor).func = q₁.func from rfl,
      hi₁ P (by simp)]; exact hP)
  have hp₂ := (preoptInst_edit mn ebb { q₁ with position := .At P } c₁ rfl hPlt).1
  obtain ⟨q₂, c₂, hs₂⟩ : ∃ q c, preoptInst mn ebb P { q₁ with position := .At P } c₁ = (q, c) :=
    ⟨_, _, rfl⟩
  have h₂ := visitInsts_rest mn c₁ (show WalkAt q₁ ebb ([P] ++ [J]) from hw₁)
  rw [visitInsts_singleton, hs₂] at h₂
  rw [hs₂] at hk hp₂
  obtain ⟨hw₂, he₂, hi₂⟩ := h₂
  dsimp only at hw₂ he₂ hi₂ hk hp₂
  obtain ⟨done, hl₂⟩ := hw₂.at_layout hp₂
  have hJ₂ : q₂.func.dfg.insts J = pos.func.dfg.insts J :=
    (hi₂ J (List.mem_singleton_self J)).trans (hi₁ J (by simp))
  refine ⟨{ q₂ with position := .At J }, c₂, ?_, ⟨done, hl₂⟩, prevInst_of_ebbInsts hw₂.mem hl₂,
    hPJ, he₂.trans he₁, hJ₂, by rw [← hi₁ P (by simp)]; exact hk⟩
  rw [show pre ++ [P, J] = pre ++ [P] ++ [J] by simp, visitInsts_append, visitInsts_append, hs₁]
  dsimp only
  rw [visitInsts_singleton mn ebb P, hs₂]
  exact preoptInst_of_jump mn ebb c₂ (hJ₂.trans hJ)

/-! ## The whole run -/

/-- After `do_preopt`, no EBB ends with a pair that `branch_order` would swap. -/
theorem doPreopt_settled (mn : MagicNumbers) (func : Function) (cfg : ControlFlowGraph) {ebb : Ebb}
    (he : ebb ∈ func.layout.ebbs) : Settled (doPreopt mn func cfg).1 ebb := by
  obtain ⟨pos, c, hp, hme, -, h₂⟩ := doPreopt_ebb mn func cfg he
  exact h₂.settled (visitInsts_settled mn c hme hp)

/-- An EBB that ends with a pair `branch_order` swaps ends, after `do_preopt`, with the two
swapped. -/
theorem doPreopt_swaps (mn : MagicNumbers) (func : Function) (cfg : ControlFlowGraph) {ebb : Ebb}
    {pre : List Inst} {P J : Inst} {T D : Ebb} {argsJ : List Value} (he : ebb ∈ func.layout.ebbs)
    (hl : func.layout.ebbInsts ebb = pre ++ [P, J]) (hJ : func.dfg.insts J = .Jump .Jump T argsJ)
    (hn : func.layout.nextEbb ebb = some D) (hT : T ≠ D)
    (hP : (∃ op c vs, func.dfg.insts P = .Branch op D c vs) ∨
      ∃ cond x y vs, func.dfg.insts P = .BranchIcmp cond D x y vs) :
    (∃ pre', (doPreopt mn func cfg).1.layout.ebbInsts ebb = pre' ++ [P, J]) ∧
      (doPreopt mn func cfg).1.dfg.insts J = .Jump .Jump D (func.dfg.insts P).blockArgs ∧
      ((doPreopt mn func cfg).1.dfg.insts P).branchDestination = some T ∧
      ((doPreopt mn func cfg).1.dfg.insts P).blockArgs = argsJ := by
  obtain ⟨pos, c, hp, hme, h₁, h₂⟩ := doPreopt_ebb mn func cfg he
  have hl' : pos.func.layout.ebbInsts ebb = pre ++ [P, J] := h₁.layout.trans hl
  have hPi : pos.func.dfg.insts P = func.dfg.insts P := h₁.insts P (by simp [hl])
  have hJi : pos.func.dfg.insts J = func.dfg.insts J := h₁.insts J (by simp [hl])
  have hPnj : ∀ op T a, pos.func.dfg.insts P ≠ .Jump op T a := by
    rw [hPi]
    rcases hP with ⟨_, _, _, hP⟩ | ⟨_, _, _, _, hP⟩ <;> simp [hP]
  obtain ⟨q, c', hv, ⟨done, hq⟩, hprev, hPJ, hqe, hqJ, hqP⟩ :=
    visitInsts_pair mn c ⟨hme, .inl ⟨hp, hl'⟩⟩ hPnj (hJi.trans hJ)
  rw [hl', hv] at h₂
  have hnq : q.func.layout.nextEbb ebb = some D := by
    simp only [Layout.nextEbb, hqe, h₁.ebbs] at hn ⊢; exact hn
  have hPq := (hqP.condBranch_iff D).2 (hPi ▸ hP)
  obtain ⟨hsJ, hsP, hsa⟩ := branchOrder_swapped q c' hprev hPJ (hqJ.trans (hJi.trans hJ)) hnq hT hPq
  have hlq : (branchOrder q c' ebb J).1.func.layout.ebbInsts ebb = done ++ [P, J] := by
    rw [branchOrder_layout, hq]
  rw [h₂.insts J (by simp [hq]), h₂.insts P (by simp [hq]), h₂.layout, hlq, hsJ,
    hqP.blockArgs, hPi]
  exact ⟨⟨done, rfl⟩, rfl, hsP, hsa⟩

/-- After `do_preopt` no EBB ends with a conditional branch to the next EBB followed by a
jump elsewhere, and every EBB that did ends with the pair swapped. -/
theorem doPreopt_fallthrough (mn : MagicNumbers) (func : Function) (cfg : ControlFlowGraph) :
    (∀ ebb ∈ (doPreopt mn func cfg).1.layout.ebbs, ∀ pre P J,
      (doPreopt mn func cfg).1.layout.ebbInsts ebb = pre ++ [P, J] →
      ¬SwapsAt (doPreopt mn func cfg).1 ebb P J) ∧
    (∀ ebb ∈ func.layout.ebbs, ∀ pre P J T argsJ D, func.layout.ebbInsts ebb = pre ++ [P, J] →
      func.dfg.insts J = .Jump .Jump T argsJ → func.layout.nextEbb ebb = some D → T ≠ D →
      ((∃ op c vs, func.dfg.insts P = .Branch op D c vs) ∨
        ∃ cond x y vs, func.dfg.insts P = .BranchIcmp cond D x y vs) →
      (∃ pre', (doPreopt mn func cfg).1.layout.ebbInsts ebb = pre' ++ [P, J]) ∧
        (doPreopt mn func cfg).1.dfg.insts J = .Jump .Jump D (func.dfg.insts P).blockArgs ∧
        ((doPreopt mn func cfg).1.dfg.insts P).branchDestination = some T ∧
        ((doPreopt mn func cfg).1.dfg.insts P).blockArgs = argsJ) :=
  ⟨fun _ he => doPreopt_settled mn func cfg (doPreopt_ebbs mn func cfg ▸ he),
    fun _ he _ _ _ _ _ _ hl hJ hn hT hP => doPreopt_swaps mn func cfg he hl hJ hn hT hP⟩

/-- Magic numbers that nothing reads: the functions below divide by no constant. -/
def unusedMagic : MagicNumbers :=
  ⟨fun _ => ⟨0, false, 0⟩, fun _ => ⟨0, false, 0⟩, fun _ => ⟨0, 0⟩, fun _ => ⟨0, 0⟩⟩

theorem brzThenJump_fallthrough :
    brzThenJump.layout.nextEbb ⟨0⟩ = some ⟨1⟩ ∧
      (doPreopt unusedMagic brzThenJump ⟨fun _ => []⟩).1.dfg.insts ⟨1⟩ = .Jump .Jump ⟨1⟩ [] ∧
      ((doPreopt unusedMagic brzThenJump ⟨fun _ => []⟩).1.dfg.insts ⟨0⟩).branchDestination =
        some ⟨2⟩ :=
  have h := (doPreopt_fallthrough unusedMagic brzThenJump ⟨fun _ => []⟩).2 ⟨0⟩ (by decide) []
    ⟨0⟩ ⟨1⟩ ⟨2⟩ [] ⟨1⟩ rfl rfl rfl (by decide) (.inl ⟨.Brz, ⟨0⟩, [], rfl⟩)
  ⟨rfl, h.2.1, h.2.2.1⟩

/-! ## A second run -/

/-- An EBB that no turn of a run would swap at its end keeps its last two
instructions: the jump as it is, the instruction before it with its exits. -/
theorem doPreopt_keeps_settled_pair (mn : MagicNumbers) (f : Function) (cfg : ControlFlowGraph)
    {ebb : Ebb} {pre : List Inst} {P J : Inst} {op : JumpOp} {T : Ebb} {a : List Value}
    (he : ebb ∈ f.layout.ebbs) (hs : Settled f ebb) (hl : f.layout.ebbInsts ebb = pre ++ [P, J])
    (hJ : f.dfg.insts J = .Jump op T a) (hP : ∀ op T a, f.dfg.insts P ≠ .Jump op T a) :
    (∃ pre', (doPreopt mn f cfg).1.layout.ebbInsts ebb = pre' ++ [P, J]) ∧
      (doPreopt mn f cfg).1.dfg.insts J = f.dfg.insts J ∧
      KeepsExit (f.dfg.insts P) ((doPreopt mn f cfg).1.dfg.insts P) := by
  obtain ⟨pos, c, hp, hme, h₁, h₂⟩ := doPreopt_ebb mn f cfg he
  have hl' : pos.func.layout.ebbInsts ebb = pre ++ [P, J] := h₁.layout.trans hl
  have hPi : pos.func.dfg.insts P = f.dfg.insts P := h₁.insts P (by simp [hl])
  have hJi : pos.func.dfg.insts J = f.dfg.insts J := h₁.insts J (by simp [hl])
  obtain ⟨q, c', hv, ⟨done, hq⟩, hprev, -, hqe, hqJ, hqP⟩ :=
    visitInsts_pair mn c ⟨hme, .inl ⟨hp, hl'⟩⟩ (hPi ▸ hP) (hJi.trans hJ)
  rw [hPi] at hqP
  have hns : ¬SwapsAt q.func ebb P J := fun hsw =>
    hs pre P J hl (SwapsAt.of_keepsExit hqP (hqJ.trans hJi)
      (by simp only [Layout.nextEbb, hqe, h₁.ebbs]) hsw)
  rw [hl', hv, branchOrder_of_not_swapsAt c' hprev hns] at h₂
  rw [h₂.layout, hq, h₂.insts J (by simp [hq]), h₂.insts P (by simp [hq]), hqJ, hJi]
  exact ⟨⟨done, rfl⟩, rfl, hqP⟩

end simple_preopt
