import SimplePreopt.Cfg
-- The function `do_preopt` returns: well typed, with no division by a constant left that
-- the pass would expand, and at most seven instructions added per division.

namespace simple_preopt

variable {ext : External}

open FuncCursor

/-! ## The pass keeps the types -/

/-- One turn at an instruction of the layout keeps a function in SSA form well typed. -/
theorem preoptInst_wellTyped (mn : MagicNumbers) (ebb : Ebb) {j : Inst} (pos : FuncCursor)
    (cfg : ControlFlowGraph) (hpos : pos.position = .At j) (hj : j ∈ pos.func.layout.allInsts)
    (hf : WellFormed pos.func) (ht : WellTyped pos.func) :
    WellTyped (preoptInst mn ebb j pos cfg).1.func := by
  have hf₁ := simplify_wellFormed hf hj
  have ht₁ := simplify_wellTyped hf ht hj
  have hj₁ : j ∈ (simplify j pos).2.func.layout.allInsts := by simpa [simplify] using hj
  have hpos₁ : (simplify j pos).2.position = .At j := by simpa [simplify] using hpos
  unfold preoptInst
  dsimp only
  split
  · exact (doDivremTransformation_wellTyped mn hpos₁ hj₁ hf₁ ht₁ ‹_›).1
  · exact branchOrder_wellTyped _ cfg ebb j (branchOpt_wellFormed hf₁ hj₁)
      (branchOpt_wellTyped hf₁ ht₁ hj₁)

/-- `do_preopt` keeps a function in SSA form well typed, with any magic numbers. -/
theorem doPreopt_wellTyped (mn : MagicNumbers) (func : Function) (cfg : ControlFlowGraph)
    (hwf : WellFormed func) (hty : WellTyped func) : WellTyped (doPreopt mn func cfg).1 := by
  rw [doPreopt_eq_visitTurns]
  exact (visitTurns_keeps mn (fun f => WellFormed f ∧ WellTyped f)
    (fun e j pos c he hj hpos h =>
      have hjm := List.mem_flatMap.2 ⟨e, he, hj⟩
      ⟨preoptInst_wellFormed mn e pos c hpos hjm h.1, preoptInst_wellTyped mn e pos c hpos hjm h.1 h.2⟩)
    _ (FuncCursor.new func) cfg (fun _ ht => Layout.mem_instOrder ht) ⟨hwf, hty⟩).2

theorem udivBySeven_wellTyped :
    WellFormed udivBySeven ∧ WellTyped udivBySeven ∧
      WellTyped (doPreopt roundUpMagic udivBySeven ⟨fun _ => []⟩).1 :=
  have hty : WellTyped udivBySeven := by decide
  ⟨udivBySeven_wellFormed, hty,
    doPreopt_wellTyped roundUpMagic udivBySeven _ udivBySeven_wellFormed hty⟩

/-! ## What `get_div_info` reads -/

/-- `get_div_info` reads only the data of the instruction and the type of its operand. -/
theorem getDivInfo_congr {k : Inst} {dfg dfg' : DataFlowGraph} (hi : dfg'.insts k = dfg.insts k)
    (ht : ∀ a ∈ (dfg.insts k).args, dfg'.valueTypes a = dfg.valueTypes a) :
    getDivInfo k dfg' = getDivInfo k dfg := by
  unfold getDivInfo
  rw [hi]
  cases h : dfg.insts k with
  | BinaryImm op a imm =>
    have : dfg'.valueType a = dfg.valueType a := ht a (by simp [h, InstructionData.args])
    simp only [this]
  | _ => rfl

theorem getDivInfo_of_branch {k : Inst} {dfg : DataFlowGraph}
    (h : (dfg.insts k).branchDestination.isSome = true) : getDivInfo k dfg = none := by
  cases hg : getDivInfo k dfg with
  | none => rfl
  | some info => rw [getDivInfo_branchDestination hg] at h; cases h

/-! ## What one turn writes -/

@[simp] theorem branchOrder_instCount (pos : FuncCursor) (cfg : ControlFlowGraph) (ebb : Ebb)
    (J : Inst) : (branchOrder pos cfg ebb J).1.func.dfg.instCount = pos.func.dfg.instCount := by
  unfold branchOrder; split <;> simp

theorem rewriteInst_instCount (rw : DataFlowGraph → InstructionData → Option InstructionData)
    (j : Inst) (pos : FuncCursor) :
    (rewriteInst rw j pos).2.func.dfg.instCount = pos.func.dfg.instCount := by
  unfold rewriteInst; split <;> rfl

/-- `branch_order` at `J` keeps the data of every other instruction, but for
the branch it swaps with `J`, which stays a branch. -/
theorem branchOrder_insts_of_ne (pos : FuncCursor) (cfg : ControlFlowGraph) (ebb : Ebb)
    {J k : Inst} (hkJ : k ≠ J) (hk : k.idx < pos.func.dfg.instCount) :
    (branchOrder pos cfg ebb J).1.func.dfg.insts k = pos.func.dfg.insts k ∨
      ((pos.func.dfg.insts k).branchDestination.isSome = true ∧
        ((branchOrder pos cfg ebb J).1.func.dfg.insts k).branchDestination.isSome = true) := by
  cases hprev : pos.func.layout.prevInst J with
  | none => rw [branchOrder_of_prevInst_none cfg hprev]; exact .inl rfl
  | some P =>
    by_cases hkP : k = P
    · subst hkP
      by_cases hs : SwapsAt pos.func ebb k J
      · obtain ⟨T, argsJ, D, hJd, hn, hT, hP⟩ := hs
        obtain ⟨hPd, -, hPJ⟩ := condBranch_shape hP
        obtain ⟨-, hPd', -⟩ := branchOrder_swapped pos cfg hprev
          (fun h => hPJ T argsJ (h ▸ hJd)) hJd hn hT hP
        exact .inr ⟨by rw [hPd]; rfl, by rw [hPd']; rfl⟩
      · rw [branchOrder_of_not_swapsAt cfg hprev hs]; exact .inl rfl
    · refine .inl ((branchOrder_edit pos cfg ebb J).insts k hk ?_)
      rintro (h | h)
      exacts [hkJ h, hkP (Option.some.inj (hprev.symm.trans h)).symm]

/-- `branch_order` at `J` leaves `J` as it was, or makes it a jump. -/
theorem branchOrder_insts_self (pos : FuncCursor) (cfg : ControlFlowGraph) (ebb : Ebb) (J : Inst) :
    (branchOrder pos cfg ebb J).1.func.dfg.insts J = pos.func.dfg.insts J ∨
      ((branchOrder pos cfg ebb J).1.func.dfg.insts J).branchDestination.isSome = true := by
  cases hprev : pos.func.layout.prevInst J with
  | none => rw [branchOrder_of_prevInst_none cfg hprev]; exact .inl rfl
  | some P =>
    by_cases hs : SwapsAt pos.func ebb P J
    · obtain ⟨T, argsJ, D, hJd, hn, hT, hP⟩ := hs
      obtain ⟨-, -, hPJ⟩ := condBranch_shape hP
      obtain ⟨hJ', -, -⟩ := branchOrder_swapped pos cfg hprev
        (fun h => hPJ T argsJ (h ▸ hJd)) hJd hn hT hP
      exact .inr (by rw [hJ']; rfl)
    · rw [branchOrder_of_not_swapsAt cfg hprev hs]; exact .inl rfl

/-- `branch_opt` leaves `j` as it was, or makes it a branch. -/
theorem branchOpt_insts_self (j : Inst) (pos : FuncCursor) :
    (branchOpt j pos).2.func.dfg.insts j = pos.func.dfg.insts j ∨
      ((branchOpt j pos).2.func.dfg.insts j).branchDestination.isSome = true := by
  simp only [branchOpt, rewriteInst_insts, if_pos rfl, rewritten]
  cases h : branchOptData pos.func.dfg (pos.func.dfg.insts j) with
  | none => exact .inl rfl
  | some d =>
    obtain ⟨_, _, _, _, _, _, _, -, -, -, rfl⟩ := branchOptData_cases h
    exact .inr rfl

/-- What a turn at `j` does to any other instruction: it keeps its data,
keeps a branch a branch, or has added it with data that cannot trap. -/
theorem preoptInst_insts (mn : MagicNumbers) (ebb : Ebb) {j : Inst} (pos : FuncCursor)
    (cfg : ControlFlowGraph) (hpos : pos.position = .At j) (hjlt : j.idx < pos.func.dfg.instCount)
    {k : Inst} (hkj : k ≠ j) (hk : k.idx < (preoptInst mn ebb j pos cfg).1.func.dfg.instCount) :
    (k.idx < pos.func.dfg.instCount ∧
        (preoptInst mn ebb j pos cfg).1.func.dfg.insts k = pos.func.dfg.insts k) ∨
      (k.idx < pos.func.dfg.instCount ∧ (pos.func.dfg.insts k).branchDestination.isSome = true ∧
        ((preoptInst mn ebb j pos cfg).1.func.dfg.insts k).branchDestination.isSome = true) ∨
      (pos.func.dfg.instCount ≤ k.idx ∧
        ((preoptInst mn ebb j pos cfg).1.func.dfg.insts k).trapFree = true) := by
  have hs₁ : (simplify j pos).2.func.dfg.insts k = pos.func.dfg.insts k := by
    simp only [simplify, rewriteInst_insts, if_neg hkj]
  have hc₁ : (simplify j pos).2.func.dfg.instCount = pos.func.dfg.instCount :=
    rewriteInst_instCount _ _ _
  have hpos₁ : (simplify j pos).2.position = .At j := (rewriteInst_position _ _ _).trans hpos
  unfold preoptInst at hk ⊢
  dsimp only at hk ⊢
  cases hg : getDivInfo j (simplify j pos).2.func.dfg with
  | some info =>
    simp only [hg] at hk ⊢
    by_cases hlt : k.idx < pos.func.dfg.instCount
    · obtain ⟨-, ⟨L, ed⟩, -⟩ := doDivremTransformation_builds mn info _ hpos₁ (hc₁ ▸ hjlt)
      exact .inl ⟨hlt, (ed.insts k (hc₁ ▸ hlt) hkj).trans hs₁⟩
    · rcases doDivremTransformation_writes mn info _ k hk with ⟨hlt', -⟩ | ht
      · exact absurd (hc₁ ▸ hlt') hlt
      · exact .inr (.inr ⟨Nat.le_of_not_lt hlt, ht⟩)
  | none =>
    simp only [hg] at hk ⊢
    have hs₂ : (branchOpt j (simplify j pos).2).2.func.dfg.insts k = pos.func.dfg.insts k := by
      simp only [branchOpt, rewriteInst_insts, if_neg hkj, hs₁]
    have hc₂ : (branchOpt j (simplify j pos).2).2.func.dfg.instCount = pos.func.dfg.instCount :=
      (rewriteInst_instCount _ _ _).trans hc₁
    rw [branchOrder_instCount, hc₂] at hk
    rcases branchOrder_insts_of_ne _ cfg ebb hkj (hc₂ ▸ hk) with h | h
    · exact .inl ⟨hk, h.trans hs₂⟩
    · exact .inr (.inl ⟨hk, hs₂ ▸ h.1, h.2⟩)

/-- After a turn at `j`, `get_div_info` finds at `j` only a division by `0`,
or by `-1` at a signed opcode: any other it finds there the turn rewrites. -/
theorem preoptInst_getDivInfo (mn : MagicNumbers) (ebb : Ebb) (j : Inst) (pos : FuncCursor)
    (cfg : ControlFlowGraph) (info : DivRemByConstInfo)
    (h : getDivInfo j (preoptInst mn ebb j pos cfg).1.func.dfg = some info) :
    info.divisor = 0 ∨ (info.isSigned = true ∧ info.divisor = -1) := by
  unfold preoptInst at h
  dsimp only at h
  cases hg : getDivInfo j (simplify j pos).2.func.dfg with
  | some info₀ =>
    simp only [hg] at h
    by_cases ht : info₀.divisor = 0 ∨ (info₀.isSigned = true ∧ info₀.divisor = -1)
    · rw [doDivremTransformation_of_trapping mn ht, hg] at h
      cases h; exact ht
    · rw [getDivInfo_of_trapFree (InstructionData.trapFree_of_replacesDivrem
        (doDivremTransformation_replaces mn ht _))] at h
      cases h
  | none =>
    simp only [hg] at h
    have hty : (branchOrder (branchOpt j (simplify j pos).2).2 cfg ebb j).1.func.dfg.valueTypes =
        (simplify j pos).2.func.dfg.valueTypes := by simp [branchOpt]
    have hnone : getDivInfo j (branchOrder (branchOpt j (simplify j pos).2).2 cfg ebb j).1.func.dfg =
        none := by
      rcases branchOrder_insts_self (branchOpt j (simplify j pos).2).2 cfg ebb j with h₃ | h₃
      · rcases branchOpt_insts_self j (simplify j pos).2 with h₂ | h₂
        · rw [getDivInfo_congr (h₃.trans h₂) fun a _ => by rw [hty], hg]
        · exact getDivInfo_of_branch (h₃ ▸ h₂)
      · exact getDivInfo_of_branch h₃
    rw [hnone] at h
    cases h

/-! ## The whole pass -/

/-- `get_div_info` finds at `k` only a division that the pass leaves alone:
one by `0`, or by `-1` at a signed opcode. -/
def DivremKept (dfg : DataFlowGraph) (k : Inst) : Prop :=
  ∀ info, getDivInfo k dfg = some info →
    info.divisor = 0 ∨ (info.isSigned = true ∧ info.divisor = -1)

theorem Extends.mem_of_lt {f g : Function} (hx : Extends f g) {i : Inst}
    (hi : i ∈ g.layout.allInsts) (hlt : i.idx < f.dfg.instCount) : i ∈ f.layout.allInsts := by
  obtain ⟨e, he, hie⟩ := List.mem_flatMap.1 hi
  rw [hx.ebbs] at he
  refine List.mem_flatMap.2 ⟨e, he, ?_⟩
  rw [← hx.originals e he]
  exact List.mem_filter.2 ⟨hie, decide_eq_true hlt⟩

/-- A turn at `j` leaves every instruction of the layout but those still to
be visited with no division that the pass would rewrite. -/
theorem preoptInst_divremKept (mn : MagicNumbers) (e : Ebb) (j : Inst) (ts : List (Ebb × Inst))
    (pos : FuncCursor) (cfg : ControlFlowGraph) (he : e ∈ pos.func.layout.ebbs)
    (hj : j ∈ pos.func.layout.ebbInsts e) (hpos : pos.position = .At j) (hf : WellFormed pos.func)
    (hts : j ∉ ts.map Prod.snd)
    (h : ∀ k ∈ pos.func.layout.allInsts, k ∉ ((e, j) :: ts).map Prod.snd → DivremKept pos.func.dfg k) :
    ∀ k ∈ (preoptInst mn e j pos cfg).1.func.layout.allInsts, k ∉ ts.map Prod.snd →
      DivremKept (preoptInst mn e j pos cfg).1.func.dfg k := by
  intro k hk hkts
  have hjlt := pos.func.wf.insts_lt j (List.mem_flatMap.2 ⟨e, he, hj⟩)
  by_cases hkj : k = j
  · subst hkj; exact preoptInst_getDivInfo mn e k pos cfg
  obtain ⟨-, L, ed⟩ := preoptInst_edit mn e pos cfg hpos hjlt
  rcases preoptInst_insts mn e pos cfg hpos hjlt hkj
      ((preoptInst mn e j pos cfg).1.func.wf.insts_lt k hk) with ⟨hlt, hd⟩ | ⟨-, -, hd⟩ | ⟨-, hd⟩
  · have hk₀ := (Extends.of_edit ed).mem_of_lt hk hlt
    intro info hinfo
    refine h k hk₀ (by simp [hkj, hkts]) info ?_
    rwa [getDivInfo_congr hd fun a ha => ed.types a (hf.uses k hk₀ a ha).lt] at hinfo
  · intro info hinfo; rw [getDivInfo_of_branch hd] at hinfo; cases hinfo
  · intro info hinfo; rw [getDivInfo_of_trapFree hd] at hinfo; cases hinfo

/-! ## Constants folded into divisions -/

/-- `simplify` writes neither an `iconst` nor a binary opcode on two registers. -/
theorem simplifyData_ne {dfg : DataFlowGraph} {d d' : InstructionData}
    (h : simplifyData dfg d = some d') : (∀ c, d' ≠ .UnaryImm c) ∧ ∀ op ab, d' ≠ .Binary op ab := by
  rcases simplifyData_cases h with ⟨_, _, _, _, _, _, -, -, -, rfl⟩ | ⟨_, _, _, -, -, -, rfl⟩ |
    ⟨_, _, _, _, -, -, rfl⟩ | ⟨_, _, _, -, -, rfl⟩ | ⟨_, _, _, _, _, -, -, rfl⟩ | ⟨_, _, _, _, -, -, rfl⟩ <;>
    exact ⟨nofun, nofun⟩

/-- `simplify` folds a constant divisor that an `iconst` defines. -/
theorem simplifyData_binary_ne_none {dfg : DataFlowGraph} {op : BinaryOp} {a b : Value}
    {c : Imm64} (hc : dfg.iconstOf b = some c) (hop : op.divides = true) :
    simplifyData dfg (.Binary op (a, b)) ≠ none := by
  cases hv : dfg.valueDef b with
  | Param e n =>
    simp [DataFlowGraph.iconstOf, DataFlowGraph.defData, DataFlowGraph.defInst, hv] at hc
  | Result i n =>
    simp only [simplifyData, hv, hc, Option.bind_some]
    cases op <;> simp_all [immOpcode, BinaryOp.divides]

/-- What a turn leaves at `j`: data the div/rem rewrite wrote, a branch, the
data `simplify` computed, or the data `j` had when `simplify` computed none. -/
theorem preoptInst_insts_self (mn : MagicNumbers) (ebb : Ebb) (j : Inst) (pos : FuncCursor)
    (cfg : ControlFlowGraph) :
    ((preoptInst mn ebb j pos cfg).1.func.dfg.insts j).replacesDivrem = true ∨
      ((preoptInst mn ebb j pos cfg).1.func.dfg.insts j).branchDestination.isSome = true ∨
      simplifyData pos.func.dfg (pos.func.dfg.insts j) =
        some ((preoptInst mn ebb j pos cfg).1.func.dfg.insts j) ∨
      (simplifyData pos.func.dfg (pos.func.dfg.insts j) = none ∧
        (preoptInst mn ebb j pos cfg).1.func.dfg.insts j = pos.func.dfg.insts j) := by
  have h₁ : simplifyData pos.func.dfg (pos.func.dfg.insts j) =
        some ((simplify j pos).2.func.dfg.insts j) ∨
      (simplifyData pos.func.dfg (pos.func.dfg.insts j) = none ∧
        (simplify j pos).2.func.dfg.insts j = pos.func.dfg.insts j) := by
    simp only [simplify, rewriteInst_insts, if_pos rfl, rewritten]
    cases simplifyData pos.func.dfg (pos.func.dfg.insts j) <;> simp
  unfold preoptInst
  dsimp only
  cases hg : getDivInfo j (simplify j pos).2.func.dfg with
  | some info =>
    dsimp only
    by_cases ht : info.divisor = 0 ∨ (info.isSigned = true ∧ info.divisor = -1)
    · rw [doDivremTransformation_of_trapping mn ht]; exact .inr (.inr h₁)
    · exact .inl (doDivremTransformation_replaces mn ht _)
  | none =>
    dsimp only
    rcases branchOrder_insts_self (branchOpt j (simplify j pos).2).2 cfg ebb j with h₃ | h₃
    · rcases branchOpt_insts_self j (simplify j pos).2 with h₂ | h₂
      · rw [h₃, h₂]; exact .inr (.inr h₁)
      · rw [h₃]; exact .inr (.inl h₂)
    · exact .inr (.inl h₃)

/-- A turn writes an `iconst` only as `iconst 0`. -/
theorem preoptInst_iconstOf (mn : MagicNumbers) (ebb : Ebb) {j : Inst} (pos : FuncCursor)
    (cfg : ControlFlowGraph) (hpos : pos.position = .At j) (hjlt : j.idx < pos.func.dfg.instCount)
    (hf : WellFormed pos.func) {b : Value} (hb : b.idx < pos.func.dfg.valueCount) {c : Imm64}
    (h : (preoptInst mn ebb j pos cfg).1.func.dfg.iconstOf b = some c) :
    c = 0 ∨ pos.func.dfg.iconstOf b = some c := by
  obtain ⟨-, L, ed⟩ := preoptInst_edit mn ebb pos cfg hpos hjlt
  simp only [DataFlowGraph.iconstOf_eq_some, DataFlowGraph.defData, DataFlowGraph.defInst,
    DataFlowGraph.valueDef, ed.defs b hb] at h ⊢
  cases hd : pos.func.dfg.valueDefs b with
  | Param e n => simp [hd] at h
  | Result i n =>
    simp only [hd, Option.map_some', Option.some.injEq] at h ⊢
    by_cases hij : i = j
    · subst hij
      rcases preoptInst_insts_self mn ebb i pos cfg with h₁ | h₁ | h₁ | ⟨-, h₁⟩ <;> rw [h] at h₁
      · exact .inl (by simpa [InstructionData.replacesDivrem] using h₁)
      · cases h₁
      · exact absurd rfl ((simplifyData_ne h₁).1 c)
      · exact .inr h₁.symm
    · have hi := (hf.def_result b i n hb hd).1
      rcases preoptInst_insts mn ebb pos cfg hpos hjlt hij (lt_of_lt_of_le hi ed.inst_count) with
        ⟨-, h₁⟩ | ⟨-, -, h₁⟩ | ⟨h₁, -⟩
      · exact .inr (h₁ ▸ h)
      · rw [h] at h₁; cases h₁
      · omega

/-- An `iconst` defines the divisor of a division by a register at `k` only as `iconst 0`. -/
def ConstFolded (dfg : DataFlowGraph) (k : Inst) : Prop :=
  ∀ op a b, dfg.insts k = .Binary op (a, b) → op.divides = true →
    ∀ c, dfg.iconstOf b = some c → c = 0

/-- After a turn at `j`, a division by a register left at `j` is one whose
divisor no `iconst` defined, so none but `iconst 0` defines it. -/
theorem preoptInst_constFolded_self (mn : MagicNumbers) (ebb : Ebb) {j : Inst} (pos : FuncCursor)
    (cfg : ControlFlowGraph) (hpos : pos.position = .At j) (hj : j ∈ pos.func.layout.allInsts)
    (hf : WellFormed pos.func) : ConstFolded (preoptInst mn ebb j pos cfg).1.func.dfg j := by
  intro op a b hd hdiv c hc
  rcases preoptInst_insts_self mn ebb j pos cfg with h₁ | h₁ | h₁ | ⟨hs, h₁⟩ <;> rw [hd] at h₁
  · simp [InstructionData.replacesDivrem, InstructionData.trapFree, hdiv] at h₁
  · cases h₁
  · exact absurd rfl ((simplifyData_ne h₁).2 op (a, b))
  · -- `simplify` left the division, so no `iconst` defined its divisor
    rw [← h₁] at hs
    have hb := (hf.uses j hj b (by rw [← h₁]; simp [InstructionData.args])).lt
    rcases preoptInst_iconstOf mn ebb pos cfg hpos (pos.func.wf.insts_lt j hj) hf hb hc with h₀ | h₀
    · exact h₀
    · exact absurd hs (simplifyData_binary_ne_none h₀ hdiv)

/-- A turn at `j` keeps every instruction of the layout but those still to be
visited with no constant divisor the pass would expand. -/
theorem preoptInst_constFolded (mn : MagicNumbers) (e : Ebb) (j : Inst) (ts : List (Ebb × Inst))
    (pos : FuncCursor) (cfg : ControlFlowGraph) (he : e ∈ pos.func.layout.ebbs)
    (hj : j ∈ pos.func.layout.ebbInsts e) (hpos : pos.position = .At j) (hf : WellFormed pos.func)
    (h : ∀ k ∈ pos.func.layout.allInsts, k ∉ ((e, j) :: ts).map Prod.snd → ConstFolded pos.func.dfg k) :
    ∀ k ∈ (preoptInst mn e j pos cfg).1.func.layout.allInsts, k ∉ ts.map Prod.snd →
      ConstFolded (preoptInst mn e j pos cfg).1.func.dfg k := by
  intro k hk hkts
  have hjm := List.mem_flatMap.2 ⟨e, he, hj⟩
  have hjlt := pos.func.wf.insts_lt j hjm
  by_cases hkj : k = j
  · subst hkj; exact preoptInst_constFolded_self mn e pos cfg hpos hjm hf
  obtain ⟨-, L, ed⟩ := preoptInst_edit mn e pos cfg hpos hjlt
  intro op a b hd hdiv c hc
  rcases preoptInst_insts mn e pos cfg hpos hjlt hkj
      ((preoptInst mn e j pos cfg).1.func.wf.insts_lt k hk) with ⟨hlt, hd'⟩ | ⟨-, -, hd'⟩ | ⟨-, hd'⟩
  · have hk₀ := (Extends.of_edit ed).mem_of_lt hk hlt
    rw [hd'] at hd
    have hb := (hf.uses k hk₀ b (by simp [hd, InstructionData.args])).lt
    rcases preoptInst_iconstOf mn e pos cfg hpos hjlt hf hb hc with h₀ | h₀
    · exact h₀
    · exact h k hk₀ (by simp [hkj, hkts]) op a b hd hdiv c h₀
  · rw [hd] at hd'; cases hd'
  · simp [hd, InstructionData.trapFree, hdiv] at hd'

/-- In `do_preopt`'s result no instruction divides by a constant the pass would rewrite. -/
theorem doPreopt_kept (mn : MagicNumbers) (func : Function) (cfg : ControlFlowGraph)
    (hwf : WellFormed func) :
    WellFormed (doPreopt mn func cfg).1 ∧ ∀ k ∈ (doPreopt mn func cfg).1.layout.allInsts,
      DivremKept (doPreopt mn func cfg).1.dfg k ∧ ConstFolded (doPreopt mn func cfg).1.dfg k := by
  rw [doPreopt_eq_visitTurns]
  have hinit : (func.layout.instOrder.map Prod.snd).Nodup := by
    rw [Layout.instOrder_snd]; exact func.wf.insts_nodup
  have h := visitTurns_induct mn (fun ts f _ => WellFormed f ∧ (ts.map Prod.snd).Nodup ∧
      ∀ k ∈ f.layout.allInsts, k ∉ ts.map Prod.snd → DivremKept f.dfg k ∧ ConstFolded f.dfg k)
    (fun e j ts pos c he hj hpos ⟨hf, hnd, hk⟩ =>
      have hnd' := List.nodup_cons.1 hnd
      ⟨preoptInst_wellFormed mn e pos c hpos (List.mem_flatMap.2 ⟨e, he, hj⟩) hf, hnd'.2,
        fun k hk' hkts =>
          ⟨preoptInst_divremKept mn e j ts pos c he hj hpos hf hnd'.1
            (fun k h₁ h₂ => (hk k h₁ h₂).1) k hk' hkts,
          preoptInst_constFolded mn e j ts pos c he hj hpos hf
            (fun k h₁ h₂ => (hk k h₁ h₂).2) k hk' hkts⟩⟩)
    _ (FuncCursor.new func) cfg (fun _ ht => Layout.mem_instOrder ht)
    ⟨hwf, hinit, fun k hk hn => absurd (by rwa [Layout.instOrder_snd]) hn⟩
  exact ⟨h.1, fun k hk => h.2.2 k hk (List.not_mem_nil k)⟩

/-- Every division by an immediate that `get_div_info` accepts in `do_preopt`'s result
divides by `0`, or by `-1` at a signed opcode. -/
theorem doPreopt_divrem_kept (mn : MagicNumbers) (func : Function) (cfg : ControlFlowGraph)
    (hwf : WellFormed func) :
    ∀ k ∈ (doPreopt mn func cfg).1.layout.allInsts, ∀ info : DivRemByConstInfo,
      getDivInfo k (doPreopt mn func cfg).1.dfg = some info →
      info.divisor = 0 ∨ (info.isSigned = true ∧ info.divisor = -1) :=
  fun k hk => ((doPreopt_kept mn func cfg hwf).2 k hk).1

theorem udivBySeven_divrem_kept :
    WellFormed udivBySeven ∧
      ∀ k ∈ (doPreopt roundUpMagic udivBySeven ⟨fun _ => []⟩).1.layout.allInsts,
        ∀ info : DivRemByConstInfo,
          getDivInfo k (doPreopt roundUpMagic udivBySeven ⟨fun _ => []⟩).1.dfg = some info →
          info.divisor = 0 ∨ (info.isSigned = true ∧ info.divisor = -1) :=
  ⟨udivBySeven_wellFormed, doPreopt_divrem_kept roundUpMagic udivBySeven _ udivBySeven_wellFormed⟩

/-- Every instruction `do_preopt` adds defines a value, does not branch, and never traps. -/
theorem doPreopt_adds_trapFree (mn : MagicNumbers) (func : Function) (cfg : ControlFlowGraph) :
    ∀ k : Inst, func.dfg.instCount ≤ k.idx → k.idx < (doPreopt mn func cfg).1.dfg.instCount →
      ((doPreopt mn func cfg).1.dfg.insts k).definesValue = true ∧
      ((doPreopt mn func cfg).1.dfg.insts k).branchDestination = none ∧
      ∀ (ext : External) (tyOf : Value → Ty) (env : Env) (ty : Ty),
        evalData ext tyOf env ty ((doPreopt mn func cfg).1.dfg.insts k) ≠ .trap := by
  rw [doPreopt_eq_visitTurns]
  have hts : ∀ t ∈ func.layout.instOrder, t.2.idx < func.dfg.instCount := fun t ht =>
    func.wf.insts_lt _ (List.mem_flatMap.2 ⟨_, (Layout.mem_instOrder ht).1, (Layout.mem_instOrder ht).2⟩)
  refine fun k h₁ h₂ =>
    have ht := (visitTurns_induct mn (fun ts f _ => (∀ t ∈ ts, t.2.idx < func.dfg.instCount) ∧
        func.dfg.instCount ≤ f.dfg.instCount ∧ ∀ k : Inst, func.dfg.instCount ≤ k.idx →
          k.idx < f.dfg.instCount → (f.dfg.insts k).trapFree = true)
      (fun e j ts pos c he hj hpos h => ?_) _ (FuncCursor.new func) cfg
      (fun _ ht => Layout.mem_instOrder ht) ⟨hts, le_rfl, fun k h₁ h₂ => absurd h₂ (by simpa using h₁)⟩).2.2 k h₁ h₂
    ⟨InstructionData.definesValue_of_trapFree ht, InstructionData.branchDestination_of_trapFree ht,
      fun _ tyOf env ty => evalData_ne_trap ht tyOf env ty⟩
  obtain ⟨hts, hc, hk⟩ := h
  have hjlt : j.idx < func.dfg.instCount := hts (e, j) (List.mem_cons_self _ _)
  obtain ⟨-, L, ed⟩ := preoptInst_edit mn e pos c hpos
    (pos.func.wf.insts_lt j (List.mem_flatMap.2 ⟨e, he, hj⟩))
  refine ⟨fun t ht => hts t (List.mem_cons_of_mem _ ht), hc.trans ed.inst_count, fun k h₁ h₂ => ?_⟩
  have hkj : k ≠ j := fun h => by subst h; omega
  rcases preoptInst_insts mn e pos c hpos (pos.func.wf.insts_lt j (List.mem_flatMap.2 ⟨e, he, hj⟩))
      hkj h₂ with ⟨hlt, hd⟩ | ⟨hlt, hb, -⟩ | ⟨-, hd⟩
  · rw [hd]; exact hk k h₁ hlt
  · rw [InstructionData.branchDestination_of_trapFree (hk k h₁ hlt)] at hb; cases hb
  · exact hd

theorem udivBySeven_adds_trapFree :
    udivBySeven.dfg.instCount ≤ (⟨2⟩ : Inst).idx ∧
      (⟨2⟩ : Inst).idx < (doPreopt roundUpMagic udivBySeven ⟨fun _ => []⟩).1.dfg.instCount ∧
      ((doPreopt roundUpMagic udivBySeven ⟨fun _ => []⟩).1.dfg.insts ⟨2⟩).definesValue = true ∧
      ((doPreopt roundUpMagic udivBySeven ⟨fun _ => []⟩).1.dfg.insts ⟨2⟩).branchDestination =
        none ∧
      ∀ (ext : External) (tyOf : Value → Ty) (env : Env) (ty : Ty),
        evalData ext tyOf env ty ((doPreopt roundUpMagic udivBySeven ⟨fun _ => []⟩).1.dfg.insts ⟨2⟩) ≠
          .trap :=
  have h₁ : udivBySeven.dfg.instCount ≤ (⟨2⟩ : Inst).idx := by decide
  have h₂ : (⟨2⟩ : Inst).idx <
      (doPreopt roundUpMagic udivBySeven ⟨fun _ => []⟩).1.dfg.instCount := by decide
  ⟨h₁, h₂, doPreopt_adds_trapFree roundUpMagic udivBySeven _ ⟨2⟩ h₁ h₂⟩

/-! ## How much the pass adds -/

theorem InstructionData.divides_of_branch {d : InstructionData}
    (h : d.branchDestination.isSome = true) : d.divides = false := by
  cases d <;> first | rfl | cases h

/-- A turn at `j` keeps whether any other instruction there was divides. -/
theorem preoptInst_divides (mn : MagicNumbers) (ebb : Ebb) {j : Inst} (pos : FuncCursor)
    (cfg : ControlFlowGraph) (hpos : pos.position = .At j) (hjlt : j.idx < pos.func.dfg.instCount)
    {k : Inst} (hkj : k ≠ j) (hk : k.idx < pos.func.dfg.instCount) :
    ((preoptInst mn ebb j pos cfg).1.func.dfg.insts k).divides = (pos.func.dfg.insts k).divides := by
  obtain ⟨-, L, ed⟩ := preoptInst_edit mn ebb pos cfg hpos hjlt
  rcases preoptInst_insts mn ebb pos cfg hpos hjlt hkj (lt_of_lt_of_le hk ed.inst_count) with
    ⟨-, hd⟩ | ⟨-, hb, hb'⟩ | ⟨hge, -⟩
  · rw [hd]
  · rw [InstructionData.divides_of_branch hb, InstructionData.divides_of_branch hb']
  · omega

/-- `simplify` makes a division only of a division. -/
theorem simplifyData_divides {dfg : DataFlowGraph} {d d' : InstructionData}
    (h : simplifyData dfg d = some d') (hd : d'.divides = true) : d.divides = true := by
  rcases simplifyData_cases h with ⟨op, a, b, imm, op', imm', rfl, -, ho, rfl⟩ |
    ⟨_, _, _, -, -, -, rfl⟩ | ⟨_, _, _, _, -, -, rfl⟩ | ⟨_, _, _, -, -, rfl⟩ |
    ⟨_, _, _, _, _, -, -, rfl⟩ | ⟨_, _, _, _, -, -, rfl⟩
  · cases op <;> simp only [immOpcode, Option.some.injEq, Prod.mk.injEq, reduceCtorEq] at ho <;>
      first | rfl | (obtain ⟨rfl, -⟩ := ho; cases hd)
  all_goals cases hd

theorem getDivInfo_divides {k : Inst} {dfg : DataFlowGraph} {info : DivRemByConstInfo}
    (h : getDivInfo k dfg = some info) : (dfg.insts k).divides = true := by
  obtain ⟨op, arg, imm, hi⟩ := getDivInfo_binaryImm h
  have hk := (getDivInfo_fields hi h).1
  rw [hi]
  cases op <;> first | rfl | cases hk

/-- A turn adds instructions only at a division, and at most seven. -/
theorem preoptInst_instCount (mn : MagicNumbers) (ebb : Ebb) (j : Inst) (pos : FuncCursor)
    (cfg : ControlFlowGraph) :
    (preoptInst mn ebb j pos cfg).1.func.dfg.instCount ≤
      pos.func.dfg.instCount + if (pos.func.dfg.insts j).divides then 7 else 0 := by
  have hc₁ : (simplify j pos).2.func.dfg.instCount = pos.func.dfg.instCount :=
    rewriteInst_instCount _ _ _
  unfold preoptInst
  dsimp only
  cases hg : getDivInfo j (simplify j pos).2.func.dfg with
  | some info =>
    have hd : (pos.func.dfg.insts j).divides = true := by
      have h₁ := getDivInfo_divides hg
      simp only [simplify, rewriteInst_insts, if_pos rfl, rewritten] at h₁
      cases hs : simplifyData pos.func.dfg (pos.func.dfg.insts j) with
      | none => rwa [hs] at h₁
      | some d' => rw [hs] at h₁; exact simplifyData_divides hs h₁
    have h₇ : (doDivremTransformation mn info j (simplify j pos).2).2.func.dfg.instCount ≤
        (simplify j pos).2.func.dfg.instCount + 7 := doDivremTransformation_addsAtMost mn info _
    simp only [hd, if_true]
    omega
  | none =>
    simp only [branchOrder_instCount, branchOpt, rewriteInst_instCount, hc₁]
    exact Nat.le_add_right _ _

/-- `do_preopt` adds at most seven instructions for each division or remainder. -/
theorem doPreopt_instCount_le (mn : MagicNumbers) (func : Function) (cfg : ControlFlowGraph) :
    (doPreopt mn func cfg).1.dfg.instCount ≤
      func.dfg.instCount + 7 * func.layout.allInsts.countP fun i => (func.dfg.insts i).divides := by
  rw [doPreopt_eq_visitTurns]
  have hinit : func.layout.instOrder.countP (fun t => (func.dfg.insts t.2).divides) =
      func.layout.allInsts.countP fun i => (func.dfg.insts i).divides := by
    rw [← Layout.instOrder_snd, List.countP_map]; rfl
  have hnd : (func.layout.instOrder.map Prod.snd).Nodup := by
    rw [Layout.instOrder_snd]; exact func.wf.insts_nodup
  refine (Nat.le_add_right _ _).trans (visitTurns_induct mn
    (fun ts f _ => (∀ t ∈ ts, t.2 ∈ f.layout.allInsts) ∧ (ts.map Prod.snd).Nodup ∧
      f.dfg.instCount + 7 * ts.countP (fun t => (f.dfg.insts t.2).divides) ≤
        func.dfg.instCount + 7 * func.layout.allInsts.countP fun i => (func.dfg.insts i).divides)
    (fun e j ts pos c he hj hpos h => ?_) _ (FuncCursor.new func) cfg
    (fun _ ht => Layout.mem_instOrder ht)
    ⟨fun t ht => List.mem_flatMap.2 ⟨t.1, Layout.mem_instOrder ht⟩, hnd,
      (congrArg (func.dfg.instCount + 7 * ·) hinit).le⟩).2.2
  obtain ⟨hmem, hnd, hle⟩ := h
  have hnd' := List.nodup_cons.1 hnd
  have hjts : j ∉ ts.map Prod.snd := hnd'.1
  have hjlt := pos.func.wf.insts_lt j (List.mem_flatMap.2 ⟨e, he, hj⟩)
  obtain ⟨-, L, ed⟩ := preoptInst_edit mn e pos c hpos hjlt
  have hx := Extends.of_edit ed
  -- no instruction still to be visited becomes a division
  have hmono : ts.countP (fun t => ((preoptInst mn e j pos c).1.func.dfg.insts t.2).divides) =
      ts.countP (fun t => (pos.func.dfg.insts t.2).divides) :=
    List.countP_congr fun t ht => by
      have htj : t.2 ≠ j := fun h => hjts (h ▸ List.mem_map_of_mem Prod.snd ht)
      rw [preoptInst_divides mn e pos c hpos hjlt htj
        (pos.func.wf.insts_lt _ (hmem t (List.mem_cons_of_mem _ ht)))]
  have hstep := preoptInst_instCount mn e j pos c
  refine ⟨fun t ht => ?_, hnd'.2, ?_⟩
  · obtain ⟨e', he', hie'⟩ := List.mem_flatMap.1 (hmem t (List.mem_cons_of_mem _ ht))
    exact List.mem_flatMap.2 ⟨e', by rw [hx.ebbs]; exact he', hx.mem he' hie'⟩
  · cases hdj : (pos.func.dfg.insts j).divides <;>
      simp only [List.countP_cons, hdj, Bool.false_eq_true, ↓reduceIte] at hle hstep <;> omega

end simple_preopt
