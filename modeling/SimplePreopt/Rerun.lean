import SimplePreopt.Result
-- What the pass leaves alone, where it puts what it adds, and running it again: a second
-- run inserts nothing and rewrites no division, and any number of runs computes the same.

namespace simple_preopt

variable {ext : External}

/-! ## The pass only inserts -/

/-- The walk keeps where each value of the function it starts from is defined. -/
theorem visitTurns_valueDefs (mn : MagicNumbers) (func : Function) (ts : List (Ebb × Inst))
    (pos : FuncCursor) (cfg : ControlFlowGraph)
    (hts : ∀ t ∈ ts, t.1 ∈ pos.func.layout.ebbs ∧ t.2 ∈ pos.func.layout.ebbInsts t.1)
    (h : func.dfg.valueCount ≤ pos.func.dfg.valueCount ∧
      ∀ v : Value, v.idx < func.dfg.valueCount → pos.func.dfg.valueDefs v = func.dfg.valueDefs v) :
    ∀ v : Value, v.idx < func.dfg.valueCount →
      (visitTurns mn ts pos cfg).1.func.dfg.valueDefs v = func.dfg.valueDefs v := by
  refine (visitTurns_keeps mn (fun f => func.dfg.valueCount ≤ f.dfg.valueCount ∧
    ∀ v : Value, v.idx < func.dfg.valueCount → f.dfg.valueDefs v = func.dfg.valueDefs v)
    (fun e j pos cfg he hj hpos h => ?_) ts pos cfg hts h).2
  obtain ⟨-, L, ed⟩ := preoptInst_edit mn e pos cfg hpos
    (pos.func.wf.insts_lt j (List.mem_flatMap.2 ⟨e, he, hj⟩))
  exact ⟨h.1.trans ed.value_count, fun v hv => (ed.defs v (lt_of_lt_of_le hv h.1)).trans (h.2 v hv)⟩

/-- `do_preopt` only inserts: the same EBBs, each with its instructions in the same order,
and every value defined where it was. -/
theorem doPreopt_only_inserts (mn : MagicNumbers) (func : Function) (cfg : ControlFlowGraph) :
    (doPreopt mn func cfg).1.layout.ebbs = func.layout.ebbs ∧
    (∀ e ∈ func.layout.ebbs, ((doPreopt mn func cfg).1.layout.ebbInsts e).filter
      (fun i => i.idx < func.dfg.instCount) = func.layout.ebbInsts e) ∧
    ∀ v : Value, v.idx < func.dfg.valueCount →
      (doPreopt mn func cfg).1.dfg.valueDefs v = func.dfg.valueDefs v := by
  have hts : ∀ t ∈ func.layout.instOrder, t.1 ∈ func.layout.ebbs ∧ t.2 ∈ func.layout.ebbInsts t.1 :=
    fun _ ht => Layout.mem_instOrder ht
  have hx := visitTurns_extends mn func.layout.instOrder (FuncCursor.new func) cfg hts
  rw [doPreopt_eq_visitTurns]
  exact ⟨hx.ebbs, hx.originals, visitTurns_valueDefs mn func _ (FuncCursor.new func) cfg hts
    ⟨le_refl _, fun _ _ => rfl⟩⟩

/-! ## Where no rewrite applies -/

/-- No rewrite of a turn applies at `j` in `ebb`. -/
def NoRewrite (f : Function) (ebb : Ebb) (j : Inst) : Prop :=
  simplifyData f.dfg (f.dfg.insts j) = none ∧ branchOptData f.dfg (f.dfg.insts j) = none ∧
    (∀ info ∈ getDivInfo j f.dfg, info.divisor = 0 ∨ (info.isSigned = true ∧ info.divisor = -1)) ∧
    branchOrderInfo f ebb j = none

instance (f : Function) (ebb : Ebb) (j : Inst) : Decidable (NoRewrite f ebb j) :=
  inferInstanceAs (Decidable (_ ∧ _ ∧ _ ∧ _))

/-- A turn where no rewrite applies changes neither the function nor the control-flow graph. -/
theorem preoptInst_of_noRewrite (mn : MagicNumbers) {ebb : Ebb} {j : Inst} {pos : FuncCursor}
    (cfg : ControlFlowGraph) (h : NoRewrite pos.func ebb j) :
    preoptInst mn ebb j pos cfg = (pos, cfg) := by
  obtain ⟨hs, hb, hd, ho⟩ := h
  unfold preoptInst
  simp only [simplify_of_none hs]
  cases hg : getDivInfo j pos.func.dfg with
  | some info => simp only [doDivremTransformation_of_trapping mn (hd info hg)]
  | none => simp only [branchOpt_of_none hb, branchOrder, ho]

/-- `udiv_imm x, 0`, returned: the one division is by zero. -/
def udivByZero : Function :=
  Function.ofLists [.BinaryImm .UdivImm ⟨0⟩ 0, .MultiAry [⟨1⟩]] [.Param ⟨0⟩ 0, .Result ⟨0⟩ 0]
    [.I32, .I32] [[0, 1]] ⟨by decide, by decide, by decide⟩

theorem getDivInfo_divisor_zero {k : Inst} {dfg : DataFlowGraph} {op : BinaryImmOp} {arg : Value}
    {info : DivRemByConstInfo} (hi : dfg.insts k = .BinaryImm op arg 0)
    (h : getDivInfo k dfg = some info) : info.divisor = 0 := by
  rw [(getDivInfo_fields hi h).2.2.2, immBits_zero]
  split <;> simp [sval]

/-- `do_preopt` changes an instruction with an immediate only to expand it as a division or
remainder. -/
theorem doPreopt_keeps_binaryImm (mn : MagicNumbers) (func : Function) (cfg : ControlFlowGraph)
    (hwf : WellFormed func) :
    ∀ k ∈ func.layout.allInsts, ∀ op arg imm, func.dfg.insts k = .BinaryImm op arg imm →
      (∀ info, getDivInfo k func.dfg = some info →
        info.divisor = 0 ∨ (info.isSigned = true ∧ info.divisor = -1)) →
      (doPreopt mn func cfg).1.dfg.insts k = func.dfg.insts k := by
  intro k hk op arg imm hi hkept
  have harg := (hwf.uses k hk arg (by simp [hi, InstructionData.args])).lt
  have hklt := func.wf.insts_lt k hk
  rw [doPreopt_eq_visitTurns]
  refine (visitTurns_keeps mn (fun f => func.dfg.instCount ≤ f.dfg.instCount ∧
      func.dfg.valueCount ≤ f.dfg.valueCount ∧ f.dfg.valueTypes arg = func.dfg.valueTypes arg ∧
      f.dfg.insts k = func.dfg.insts k)
    (fun e j pos c he hj hpos ⟨hc, hv, ht, hd⟩ => ?_) _ (FuncCursor.new func) cfg
    (fun _ ht => Layout.mem_instOrder ht) ⟨le_rfl, le_rfl, rfl, rfl⟩).2.2.2
  have hjlt := pos.func.wf.insts_lt j (List.mem_flatMap.2 ⟨e, he, hj⟩)
  obtain ⟨-, L, ed⟩ := preoptInst_edit mn e pos c hpos hjlt
  refine ⟨hc.trans ed.inst_count, hv.trans ed.value_count,
    (ed.types arg (lt_of_lt_of_le harg hv)).trans ht, ?_⟩
  by_cases hkj : k = j
  · -- at its own turn no rewrite applies, the operand having kept its type
    subst hkj
    have hd' : pos.func.dfg.insts k = .BinaryImm op arg imm := hd.trans hi
    have hg : getDivInfo k pos.func.dfg = getDivInfo k func.dfg :=
      getDivInfo_congr hd fun a ha => by
        simp only [hi, InstructionData.args, List.mem_singleton] at ha
        exact ha ▸ ht
    have hno : NoRewrite pos.func e k :=
      ⟨by rw [hd']; rfl, by rw [hd']; rfl, fun info h => hkept info (hg.symm.trans h),
        by simp only [branchOrderInfo, hd']⟩
    rw [preoptInst_of_noRewrite mn c hno]
    exact hd
  · rcases preoptInst_insts mn e pos c hpos hjlt hkj (lt_of_lt_of_le hklt (hc.trans ed.inst_count))
      with ⟨-, h₁⟩ | ⟨-, h₁, -⟩ | ⟨h₁, -⟩
    · exact h₁.trans hd
    · rw [hd, hi] at h₁; cases h₁
    · omega

theorem udivByZero_keeps_binaryImm :
    WellFormed udivByZero ∧ (⟨0⟩ : Inst) ∈ udivByZero.layout.allInsts ∧
      udivByZero.dfg.insts ⟨0⟩ = .BinaryImm .UdivImm ⟨0⟩ 0 ∧
      (∀ info, getDivInfo ⟨0⟩ udivByZero.dfg = some info →
        info.divisor = 0 ∨ (info.isSigned = true ∧ info.divisor = -1)) ∧
      (doPreopt roundUpMagic udivByZero ⟨fun _ => []⟩).1.dfg.insts ⟨0⟩ = udivByZero.dfg.insts ⟨0⟩ :=
  have hwf : WellFormed udivByZero := WellFormed.of_ssaCheck (by decide)
  have hk : (⟨0⟩ : Inst) ∈ udivByZero.layout.allInsts := by decide
  have h0 : ∀ info, getDivInfo ⟨0⟩ udivByZero.dfg = some info →
      info.divisor = 0 ∨ (info.isSigned = true ∧ info.divisor = -1) :=
    fun _ h => .inl (getDivInfo_divisor_zero rfl h)
  ⟨hwf, hk, rfl, h0,
    doPreopt_keeps_binaryImm roundUpMagic udivByZero _ hwf ⟨0⟩ hk .UdivImm ⟨0⟩ 0 rfl h0⟩

/-! ## Where the pass puts what it adds -/

/-- Inserting before `j` into a list made of blocks, one before each of its
instructions, adds to the block before `j`. -/
theorem insertBeforeAll_blocks (l : List Inst) (added : Inst → List Inst) {j : Inst}
    (L : List Inst) (hj : ∀ i, j ∉ added i) :
    insertBeforeAll (l.flatMap fun i => added i ++ [i]) j L =
      l.flatMap fun i => Function.update added j (added j ++ L) i ++ [i] := by
  induction l with
  | nil => rfl
  | cons a t ih =>
    simp only [List.flatMap_cons, insertBeforeAll_append, ih, insertBeforeAll_of_not_mem L (hj a)]
    by_cases ha : a = j
    · subst ha; simp [insertBeforeAll]
    · simp [insertBeforeAll, ha]

/-- A list of distinct instructions whose indices lie in `[a, b)` has at most `b - a` of them. -/
theorem length_le_of_idx_mem {L : List Inst} {a b : Nat} (hL : L.Nodup)
    (h : ∀ k ∈ L, a ≤ k.idx ∧ k.idx < b) : L.length ≤ b - a := by
  have hn : (L.map Inst.idx).Nodup := hL.map fun _ _ => Inst.ext
  have hs : L.map Inst.idx ⊆ List.range' a (b - a) := fun n hn' => by
    obtain ⟨k, hk, rfl⟩ := List.mem_map.1 hn'
    have := h k hk
    exact List.mem_range'_1.2 ⟨this.1, by omega⟩
  simpa using (List.subperm_of_subset hn hs).length_le

/-- A turn at `j` puts what it adds just before `j`: at most seven new
instructions, and none unless `j` divides. -/
theorem preoptInst_added (mn : MagicNumbers) (e : Ebb) (j : Inst) (pos : FuncCursor)
    (cfg : ControlFlowGraph) (he : e ∈ pos.func.layout.ebbs) (hj : j ∈ pos.func.layout.ebbInsts e)
    (hpos : pos.position = .At j) :
    ∃ L : List Inst, (preoptInst mn e j pos cfg).1.func.layout.ebbs = pos.func.layout.ebbs ∧
      pos.func.dfg.instCount ≤ (preoptInst mn e j pos cfg).1.func.dfg.instCount ∧
      (∀ e' ∈ pos.func.layout.ebbs, (preoptInst mn e j pos cfg).1.func.layout.ebbInsts e' =
        insertBeforeAll (pos.func.layout.ebbInsts e') j L) ∧
      (∀ k ∈ L, pos.func.dfg.instCount ≤ k.idx) ∧ L.length ≤ 7 ∧
      (L ≠ [] → (pos.func.dfg.insts j).divides = true) := by
  obtain ⟨-, L, ed⟩ := preoptInst_edit mn e pos cfg hpos
    (pos.func.wf.insts_lt j (List.mem_flatMap.2 ⟨e, he, hj⟩))
  -- what the turn adds is laid out in `e`, so the count holds it
  obtain ⟨l₁, l₂, hl⟩ := List.mem_iff_append.1 hj
  have hsub : List.Sublist L ((preoptInst mn e j pos cfg).1.func.layout.ebbInsts e) := by
    rw [ed.layout e he, hl, insertBeforeAll_append, insertBeforeAll_cons, if_pos rfl]
    exact ((List.sublist_append_left L [j]).trans (List.sublist_append_left _ _)).trans
      (List.sublist_append_right _ _)
  have hlt : ∀ k ∈ L, pos.func.dfg.instCount ≤ k.idx ∧
      k.idx < (preoptInst mn e j pos cfg).1.func.dfg.instCount := fun k hk =>
    ⟨ed.fresh k hk, (preoptInst mn e j pos cfg).1.func.wf.insts_lt k
      (List.mem_flatMap.2 ⟨e, ed.ebbs ▸ he, hsub.subset hk⟩)⟩
  have hlen := length_le_of_idx_mem
    (((preoptInst mn e j pos cfg).1.func.wf.ebbInsts_nodup (ed.ebbs ▸ he)).sublist hsub) hlt
  have hc := preoptInst_instCount mn e j pos cfg
  refine ⟨L, ed.ebbs, ed.inst_count, ed.layout, ed.fresh, ?_, fun hL => ?_⟩
  · rcases Bool.eq_false_or_eq_true (pos.func.dfg.insts j).divides with hd | hd <;>
      simp only [hd, ↓reduceIte, Bool.false_eq_true] at hc <;> omega
  · obtain ⟨k, hk⟩ := List.exists_mem_of_ne_nil L hL
    have := hlt k hk
    rcases Bool.eq_false_or_eq_true (pos.func.dfg.insts j).divides with hd | hd
    · exact hd
    · simp only [hd, ↓reduceIte, Bool.false_eq_true] at hc; omega

/-- `do_preopt` puts what it adds in blocks of at most seven just before the divisions of the
input, and nothing else moves. -/
theorem doPreopt_inserts_before_divisions (mn : MagicNumbers) (func : Function)
    (cfg : ControlFlowGraph) :
    ∃ added : Inst → List Inst,
      (∀ i, added i ≠ [] → (func.dfg.insts i).divides = true ∧ (added i).length ≤ 7) ∧
      (∀ i, ∀ k ∈ added i, func.dfg.instCount ≤ k.idx) ∧
      ∀ e ∈ func.layout.ebbs, (doPreopt mn func cfg).1.layout.ebbInsts e =
        (func.layout.ebbInsts e).flatMap fun i => added i ++ [i] := by
  rw [doPreopt_eq_visitTurns]
  have hnd : (func.layout.instOrder.map Prod.snd).Nodup := by
    rw [Layout.instOrder_snd]; exact func.wf.insts_nodup
  obtain ⟨-, -, -, -, added, -, h⟩ := visitTurns_induct mn
    (fun ts f _ => (ts.map Prod.snd).Nodup ∧ f.layout.ebbs = func.layout.ebbs ∧
      func.dfg.instCount ≤ f.dfg.instCount ∧
      (∀ t ∈ ts, t.2.idx < func.dfg.instCount ∧
        (f.dfg.insts t.2).divides = (func.dfg.insts t.2).divides) ∧
      ∃ added : Inst → List Inst, (∀ t ∈ ts, added t.2 = []) ∧
        (∀ i, added i ≠ [] → (func.dfg.insts i).divides = true ∧ (added i).length ≤ 7) ∧
        (∀ i, ∀ k ∈ added i, func.dfg.instCount ≤ k.idx) ∧
        ∀ e ∈ func.layout.ebbs,
          f.layout.ebbInsts e = (func.layout.ebbInsts e).flatMap fun i => added i ++ [i])
    (fun e j ts pos c he hj hpos ⟨hnd, hebbs, hcount, hts, added, hpend, hdiv, hfresh, hlay⟩ => by
      obtain ⟨L, he', hc', hl', hL, hlen, hLd⟩ := preoptInst_added mn e j pos c he hj hpos
      have hnd' := List.nodup_cons.1 hnd
      have hjts : j ∉ ts.map Prod.snd := hnd'.1
      have hjlt : j.idx < func.dfg.instCount := (hts (e, j) (List.mem_cons_self _ _)).1
      have hjd : (pos.func.dfg.insts j).divides = (func.dfg.insts j).divides :=
        (hts (e, j) (List.mem_cons_self _ _)).2
      have hj0 : added j = [] := hpend (e, j) (List.mem_cons_self _ _)
      refine ⟨hnd'.2, he'.trans hebbs, hcount.trans hc', fun t ht => ⟨(hts t (.tail _ ht)).1, ?_⟩,
        Function.update added j (added j ++ L), fun t ht => ?_, fun i hi => ?_, fun i k hk => ?_,
        fun e' he'' => ?_⟩
      · -- an instruction still to be visited keeps whether it divides
        have htj : t.2 ≠ j := fun h => hjts (h ▸ List.mem_map_of_mem Prod.snd ht)
        rw [preoptInst_divides mn e pos c hpos (lt_of_lt_of_le hjlt hcount) htj
          (lt_of_lt_of_le (hts t (.tail _ ht)).1 hcount)]
        exact (hts t (.tail _ ht)).2
      · have htj : t.2 ≠ j := fun h => hjts (h ▸ List.mem_map_of_mem Prod.snd ht)
        rw [Function.update_noteq htj]; exact hpend t (.tail _ ht)
      · by_cases hij : i = j
        · subst hij
          rw [Function.update_same, hj0, List.nil_append] at hi ⊢
          exact ⟨hjd ▸ hLd hi, hlen⟩
        · rw [Function.update_noteq hij] at hi ⊢; exact hdiv i hi
      · by_cases hij : i = j
        · subst hij
          rw [Function.update_same, hj0, List.nil_append] at hk
          exact hcount.trans (hL k hk)
        · rw [Function.update_noteq hij] at hk; exact hfresh i k hk
      · rw [hl' e' (hebbs ▸ he''), hlay e' he'']
        exact insertBeforeAll_blocks _ added L fun i hji => by
          have := hfresh i j hji; omega)
    _ (FuncCursor.new func) cfg (fun _ ht => Layout.mem_instOrder ht)
    ⟨hnd, rfl, le_rfl, fun t ht => ⟨func.wf.insts_lt _ (List.mem_flatMap.2
        ⟨t.1, (Layout.mem_instOrder ht).1, (Layout.mem_instOrder ht).2⟩), rfl⟩,
      fun _ => [], fun _ _ => rfl, fun _ h => absurd rfl h, fun _ _ h => absurd h (List.not_mem_nil _),
      fun e _ => by simp [FuncCursor.new]⟩
  exact ⟨added, h⟩

/-! ## A second run inserts nothing -/

/-- At an instruction with no constant divisor the pass would expand,
`simplify` leaves one neither: the only divisor it folds is `iconst 0`. -/
theorem simplify_divremKept {j : Inst} {pos : FuncCursor} {info : DivRemByConstInfo}
    (hk : DivremKept pos.func.dfg j) (hc : ConstFolded pos.func.dfg j)
    (hg : getDivInfo j (simplify j pos).2.func.dfg = some info) :
    info.divisor = 0 ∨ (info.isSigned = true ∧ info.divisor = -1) := by
  cases hs : simplifyData pos.func.dfg (pos.func.dfg.insts j) with
  | none => rw [simplify_of_none hs] at hg; exact hk info hg
  | some d' =>
    have hd' : (simplify j pos).2.func.dfg.insts j = d' := by
      simp [simplify, rewriteInst_insts, rewritten, hs]
    have hdiv := getDivInfo_divides hg
    rw [hd'] at hdiv
    rcases simplifyData_cases hs with ⟨op, a, b, imm, op', imm', hd, hb, ho, rfl⟩ |
      ⟨_, _, _, -, -, -, rfl⟩ | ⟨_, _, _, _, -, -, rfl⟩ | ⟨_, _, _, -, -, rfl⟩ |
      ⟨_, _, _, _, _, -, -, rfl⟩ | ⟨_, _, _, _, -, -, rfl⟩
    · -- a divisor `iconst 0` folds into the immediate `0`
      have hop := simplifyData_divides hs hdiv
      rw [hd] at hop
      have h0 := hc op a b hd hop imm hb
      subst h0
      have himm : imm' = 0 := by
        cases op <;> simp only [immOpcode, Option.some.injEq, Prod.mk.injEq, reduceCtorEq] at ho <;>
          exact ho.2.symm
      exact .inl (getDivInfo_divisor_zero (hd'.trans (by rw [himm])) hg)
    all_goals cases hdiv

/-- A turn at an instruction with no constant divisor the pass would expand adds no instruction. -/
theorem preoptInst_instCount_of_kept (mn : MagicNumbers) (ebb : Ebb) {j : Inst} (pos : FuncCursor)
    (cfg : ControlFlowGraph) (hk : DivremKept pos.func.dfg j) (hc : ConstFolded pos.func.dfg j) :
    (preoptInst mn ebb j pos cfg).1.func.dfg.instCount = pos.func.dfg.instCount := by
  have hc₁ : (simplify j pos).2.func.dfg.instCount = pos.func.dfg.instCount :=
    rewriteInst_instCount _ _ _
  unfold preoptInst
  dsimp only
  cases hg : getDivInfo j (simplify j pos).2.func.dfg with
  | none => simp only [branchOrder_instCount, branchOpt, rewriteInst_instCount, hc₁]
  | some info =>
    dsimp only
    rw [doDivremTransformation_of_trapping mn (simplify_divremKept hk hc hg), hc₁]

/-- From a well-formed function where no instruction holds a division the pass would
expand, turns keep that, the function well formed, and the instruction count. -/
theorem visitTurns_kept (mn : MagicNumbers) (ts : List (Ebb × Inst)) (pos : FuncCursor)
    (cfg : ControlFlowGraph)
    (hts : ∀ t ∈ ts, t.1 ∈ pos.func.layout.ebbs ∧ t.2 ∈ pos.func.layout.ebbInsts t.1)
    (hwf : WellFormed pos.func)
    (hk : ∀ k ∈ pos.func.layout.allInsts, DivremKept pos.func.dfg k ∧ ConstFolded pos.func.dfg k) :
    WellFormed (visitTurns mn ts pos cfg).1.func ∧
      (visitTurns mn ts pos cfg).1.func.dfg.instCount = pos.func.dfg.instCount ∧
      ∀ k ∈ (visitTurns mn ts pos cfg).1.func.layout.allInsts,
        DivremKept (visitTurns mn ts pos cfg).1.func.dfg k ∧
          ConstFolded (visitTurns mn ts pos cfg).1.func.dfg k :=
  visitTurns_induct mn (fun _ f _ => WellFormed f ∧ f.dfg.instCount = pos.func.dfg.instCount ∧
      ∀ k ∈ f.layout.allInsts, DivremKept f.dfg k ∧ ConstFolded f.dfg k)
    (fun e j _ pos c he hj hpos ⟨hf, hn, hk⟩ =>
      have hjm := List.mem_flatMap.2 ⟨e, he, hj⟩
      ⟨preoptInst_wellFormed mn e pos c hpos hjm hf,
        (preoptInst_instCount_of_kept mn e pos c (hk j hjm).1 (hk j hjm).2).trans hn,
        fun k hk' => ⟨preoptInst_divremKept mn e j [] pos c he hj hpos hf (List.not_mem_nil _)
            (fun k h₁ _ => (hk k h₁).1) k hk' (List.not_mem_nil _),
          preoptInst_constFolded mn e j [] pos c he hj hpos hf (fun k h₁ _ => (hk k h₁).2) k hk'
            (List.not_mem_nil _)⟩⟩)
    ts pos cfg hts ⟨hwf, rfl, hk⟩

/-- A second run of `do_preopt` inserts nothing: it keeps the instruction count and the
instructions of every EBB. -/
theorem doPreopt_rerun_inserts_nothing (mn : MagicNumbers) (func : Function)
    (cfg cfg' : ControlFlowGraph) (hwf : WellFormed func) :
    (doPreopt mn (doPreopt mn func cfg).1 cfg').1.dfg.instCount =
      (doPreopt mn func cfg).1.dfg.instCount ∧
    ∀ e ∈ (doPreopt mn func cfg).1.layout.ebbs,
      (doPreopt mn (doPreopt mn func cfg).1 cfg').1.layout.ebbInsts e =
        (doPreopt mn func cfg).1.layout.ebbInsts e := by
  obtain ⟨hwf₁, hk₁⟩ := doPreopt_kept mn func cfg hwf
  generalize (doPreopt mn func cfg).1 = out at hwf₁ hk₁ ⊢
  have hts : ∀ t ∈ out.layout.instOrder, t.1 ∈ out.layout.ebbs ∧ t.2 ∈ out.layout.ebbInsts t.1 :=
    fun _ ht => Layout.mem_instOrder ht
  have hcount := (visitTurns_kept mn out.layout.instOrder (FuncCursor.new out) cfg' hts hwf₁
    hk₁).2.1
  have hx : Extends out (visitTurns mn out.layout.instOrder (FuncCursor.new out) cfg').1.func :=
    visitTurns_extends mn out.layout.instOrder (FuncCursor.new out) cfg' hts
  rw [doPreopt_eq_visitTurns]
  refine ⟨hcount, fun e he => ?_⟩
  dsimp only
  -- nothing was inserted, so the layout is the one the second run started from
  rw [← hx.originals e he]
  refine (List.filter_eq_self.2 fun i hi => ?_).symm
  have := (visitTurns mn out.layout.instOrder (FuncCursor.new out) cfg').1.func.wf.insts_lt i
    (List.mem_flatMap.2 ⟨e, hx.ebbs ▸ he, hi⟩)
  exact decide_eq_true (hcount ▸ this)

theorem udivBySeven_rerun_inserts_nothing :
    WellFormed udivBySeven ∧
      (doPreopt roundUpMagic (doPreopt roundUpMagic udivBySeven ⟨fun _ => []⟩).1
          ⟨fun _ => []⟩).1.dfg.instCount =
        (doPreopt roundUpMagic udivBySeven ⟨fun _ => []⟩).1.dfg.instCount ∧
      ∀ e ∈ (doPreopt roundUpMagic udivBySeven ⟨fun _ => []⟩).1.layout.ebbs,
        (doPreopt roundUpMagic (doPreopt roundUpMagic udivBySeven ⟨fun _ => []⟩).1
            ⟨fun _ => []⟩).1.layout.ebbInsts e =
          (doPreopt roundUpMagic udivBySeven ⟨fun _ => []⟩).1.layout.ebbInsts e :=
  ⟨udivBySeven_wellFormed,
    doPreopt_rerun_inserts_nothing roundUpMagic udivBySeven _ _ udivBySeven_wellFormed⟩

/-! ## What a second run rewrites -/

/-- The cursor of the turn at `j` that comes after the turns `ts`: where the walk is,
moved to `j`. -/
def turnCursor (mn : MagicNumbers) (ts : List (Ebb × Inst)) (pos : FuncCursor)
    (cfg : ControlFlowGraph) (j : Inst) : FuncCursor :=
  { (visitTurns mn ts pos cfg).1 with position := .At j }

theorem visitTurns_turnCursor (mn : MagicNumbers) (ts rest : List (Ebb × Inst)) (e : Ebb)
    (j : Inst) (pos : FuncCursor) (cfg : ControlFlowGraph) :
    visitTurns mn (ts ++ (e, j) :: rest) pos cfg =
      visitTurns mn rest (preoptInst mn e j (turnCursor mn ts pos cfg j) (visitTurns mn ts pos cfg).2).1
        (preoptInst mn e j (turnCursor mn ts pos cfg j) (visitTurns mn ts pos cfg).2).2 := by
  rw [visitTurns_append]; rfl

/-- A second run of `do_preopt` swaps no pair, keeping the last two instructions of each EBB
and their exits, and no turn of it rewrites a division. -/
theorem doPreopt_rerun_keeps_terminators (mn : MagicNumbers) (func : Function)
    (cfg cfg' : ControlFlowGraph) {ebb : Ebb} {pre : List Inst} {P J : Inst} {op : JumpOp} {T : Ebb}
    {a : List Value} (he : ebb ∈ func.layout.ebbs)
    (hl : (doPreopt mn func cfg).1.layout.ebbInsts ebb = pre ++ [P, J])
    (hJ : (doPreopt mn func cfg).1.dfg.insts J = .Jump op T a)
    (hP : ∀ op T a, (doPreopt mn func cfg).1.dfg.insts P ≠ .Jump op T a) :
    (∃ pre', (doPreopt mn (doPreopt mn func cfg).1 cfg').1.layout.ebbInsts ebb = pre' ++ [P, J]) ∧
      (doPreopt mn (doPreopt mn func cfg).1 cfg').1.dfg.insts J =
        (doPreopt mn func cfg).1.dfg.insts J ∧
      KeepsExit ((doPreopt mn func cfg).1.dfg.insts P)
        ((doPreopt mn (doPreopt mn func cfg).1 cfg').1.dfg.insts P) ∧
      (WellFormed func → ∀ ts e j rest,
        (doPreopt mn func cfg).1.layout.instOrder = ts ++ (e, j) :: rest →
        ∀ info, getDivInfo j (simplify j (turnCursor mn ts
            (FuncCursor.new (doPreopt mn func cfg).1) cfg' j)).2.func.dfg = some info →
          (doDivremTransformation mn info j (simplify j (turnCursor mn ts
              (FuncCursor.new (doPreopt mn func cfg).1) cfg' j)).2).2 =
            (simplify j (turnCursor mn ts (FuncCursor.new (doPreopt mn func cfg).1) cfg' j)).2) := by
  obtain ⟨h₁, h₂, h₃⟩ := doPreopt_keeps_settled_pair mn _ cfg' (by rw [doPreopt_ebbs]; exact he)
    (doPreopt_settled mn func cfg he) hl hJ hP
  refine ⟨h₁, h₂, h₃, fun hwf ts e j rest hord info hg => ?_⟩
  obtain ⟨hwf₁, hk₁⟩ := doPreopt_kept mn func cfg hwf
  generalize (doPreopt mn func cfg).1 = out at hwf₁ hk₁ hord hg ⊢
  have hin : ∀ t ∈ out.layout.instOrder, t.1 ∈ out.layout.ebbs ∧ t.2 ∈ out.layout.ebbInsts t.1 :=
    fun _ ht => Layout.mem_instOrder ht
  have hts : ∀ t ∈ ts, t.1 ∈ out.layout.ebbs ∧ t.2 ∈ out.layout.ebbInsts t.1 :=
    fun t ht => hin t (hord ▸ List.mem_append_left _ ht)
  obtain ⟨he', hj'⟩ := hin (e, j) (hord ▸ List.mem_append_right _ (List.mem_cons_self _ _))
  -- the turns before `j` keep the invariant the first run left, and `j` itself
  have hx := visitTurns_extends mn ts (FuncCursor.new out) cfg' hts
  have hk : DivremKept (turnCursor mn ts (FuncCursor.new out) cfg' j).func.dfg j ∧
      ConstFolded (turnCursor mn ts (FuncCursor.new out) cfg' j).func.dfg j :=
    (visitTurns_kept mn ts (FuncCursor.new out) cfg' hts hwf₁ hk₁).2.2 j
      (List.mem_flatMap.2 ⟨e, hx.ebbs ▸ he', hx.mem he' hj'⟩)
  exact doDivremTransformation_of_trapping mn (simplify_divremKept hk.1 hk.2 hg) j _

/-- `ebb0(v0): v1 = udiv_imm v0, 0; brz v0, ebb1; jump ebb2`, then `ebb1: return` and
`ebb2: return`: a division left to trap before a pair the first run swaps. -/
def udivZeroThenBrz : Function :=
  Function.ofLists [.BinaryImm .UdivImm ⟨0⟩ 0, .Branch .Brz ⟨1⟩ ⟨0⟩ [], .Jump .Jump ⟨2⟩ [],
      .MultiAry [], .MultiAry []]
    [.Param ⟨0⟩ 0, .Result ⟨0⟩ 0] [.I32, .I32] [[0, 1, 2], [3], [4]]
    ⟨by decide, by decide, by decide⟩

theorem udivZeroThenBrz_rerun :
    (doPreopt unusedMagic udivZeroThenBrz ⟨fun _ => []⟩).1.layout.ebbInsts ⟨0⟩ =
        [⟨0⟩] ++ [⟨1⟩, ⟨2⟩] ∧
      (doPreopt unusedMagic (doPreopt unusedMagic udivZeroThenBrz ⟨fun _ => []⟩).1
        ⟨fun _ => []⟩).1.dfg.insts ⟨2⟩ = .Jump .Jump ⟨1⟩ [] ∧
      getDivInfo ⟨0⟩ (simplify ⟨0⟩ (turnCursor unusedMagic []
        (FuncCursor.new (doPreopt unusedMagic udivZeroThenBrz ⟨fun _ => []⟩).1) ⟨fun _ => []⟩
          ⟨0⟩)).2.func.dfg = some (.DivU32 ⟨0⟩ 0) ∧
      (doDivremTransformation unusedMagic (.DivU32 ⟨0⟩ 0) ⟨0⟩ (simplify ⟨0⟩ (turnCursor unusedMagic []
        (FuncCursor.new (doPreopt unusedMagic udivZeroThenBrz ⟨fun _ => []⟩).1) ⟨fun _ => []⟩
          ⟨0⟩)).2).2 =
        (simplify ⟨0⟩ (turnCursor unusedMagic []
          (FuncCursor.new (doPreopt unusedMagic udivZeroThenBrz ⟨fun _ => []⟩).1) ⟨fun _ => []⟩
            ⟨0⟩)).2 := by
  have hl : (doPreopt unusedMagic udivZeroThenBrz ⟨fun _ => []⟩).1.layout.ebbInsts ⟨0⟩ =
      [⟨0⟩] ++ [⟨1⟩, ⟨2⟩] := by decide
  have hJ : (doPreopt unusedMagic udivZeroThenBrz ⟨fun _ => []⟩).1.dfg.insts ⟨2⟩ =
      .Jump .Jump ⟨1⟩ [] := by decide
  have hP : (doPreopt unusedMagic udivZeroThenBrz ⟨fun _ => []⟩).1.dfg.insts ⟨1⟩ =
      .Branch .Brnz ⟨2⟩ ⟨0⟩ [] := by decide
  have hord : (doPreopt unusedMagic udivZeroThenBrz ⟨fun _ => []⟩).1.layout.instOrder =
      [] ++ (⟨0⟩, ⟨0⟩) :: [(⟨0⟩, ⟨1⟩), (⟨0⟩, ⟨2⟩), (⟨1⟩, ⟨3⟩), (⟨2⟩, ⟨4⟩)] := by decide
  have hg : getDivInfo ⟨0⟩ (simplify ⟨0⟩ (turnCursor unusedMagic []
      (FuncCursor.new (doPreopt unusedMagic udivZeroThenBrz ⟨fun _ => []⟩).1) ⟨fun _ => []⟩
        ⟨0⟩)).2.func.dfg = some (.DivU32 ⟨0⟩ 0) := by decide
  have h := doPreopt_rerun_keeps_terminators unusedMagic udivZeroThenBrz ⟨fun _ => []⟩
    ⟨fun _ => []⟩ (by decide) hl hJ (fun _ _ _ h => by rw [hP] at h; cases h)
  exact ⟨hl, h.2.1.trans hJ, hg,
    h.2.2.2 (WellFormed.of_ssaCheck (by decide)) [] ⟨0⟩ ⟨0⟩ _ hord _ hg⟩

/-- `v1 = bint.i32 v0; v2 = icmp_imm ne v1, 0; brz v2, ebb1; return`, and `ebb1: return`. -/
def bintIcmp : Function :=
  Function.ofLists [.Unary .Bint ⟨0⟩, .IntCompareImm .NotEqual ⟨1⟩ 0, .Branch .Brz ⟨1⟩ ⟨2⟩ [],
      .MultiAry [], .MultiAry []]
    [.Param ⟨0⟩ 0, .Result ⟨0⟩ 0, .Result ⟨1⟩ 0] [.B1, .I32, .B1] [[0, 1, 2, 3], [4]]
    ⟨by decide, by decide, by decide⟩

/-- `do_preopt` is not idempotent: the second run reads through the `bint` that the first
run's `branch_opt` exposed. -/
theorem doPreopt_rerun_bintIcmp :
    (doPreopt unusedMagic bintIcmp ⟨fun _ => []⟩).1.dfg.insts ⟨2⟩ = .Branch .Brz ⟨1⟩ ⟨1⟩ [] ∧
      (doPreopt unusedMagic (doPreopt unusedMagic bintIcmp ⟨fun _ => []⟩).1
        (doPreopt unusedMagic bintIcmp ⟨fun _ => []⟩).2).1.dfg.insts ⟨2⟩ =
          .Branch .Brz ⟨1⟩ ⟨0⟩ [] := by
  decide

/-! ## Running the pass again -/

/-- The pass run `n` times, each run on what the one before returned, refines
the function it started from. -/
theorem doPreopt_iterate_refines (mn : MagicNumbers) (hmn : mn.Contract) (func : Function)
    (cfg : ControlFlowGraph) (hf : WellFormed func) (ht : WellTyped func) :
    ∀ n : Nat, Refines ext func
      ((fun p : Function × ControlFlowGraph => doPreopt mn p.1 p.2)^[n] (func, cfg)).1
  | 0 => Refines.refl hf ht
  | n + 1 => by
    have ih := doPreopt_iterate_refines mn hmn func cfg hf ht n
    rw [Function.iterate_succ_apply']
    exact ih.trans (doPreopt_refines mn hmn _ _ ih.wf ih.typed)

/-- Any number of runs of `do_preopt` still runs as the first input did. -/
theorem doPreopt_iterate_runs_as (ext : External) (mn : MagicNumbers) (hmn : mn.Contract)
    (func : Function) (cfg : ControlFlowGraph) (hwf : WellFormed func) (hty : WellTyped func)
    (n fuel : Nat) (args : List Nat) (hargs : ArgsFit func args) :
    let out := ((fun p : Function × ControlFlowGraph => doPreopt mn p.1 p.2)^[n] (func, cfg)).1
    (run ext out fuel args).trace = (run ext func fuel args).trace ∧
      (run ext out fuel args).halt = (run ext func fuel args).halt ∧
      ∀ v : Value, v.idx < func.dfg.valueCount →
        (run ext out fuel args).env v = (run ext func fuel args).env v :=
  (doPreopt_iterate_refines mn hmn func cfg hwf hty n).runs fuel args hargs

theorem udivBySeven_twice_runs_as :
    roundUpMagic.Contract ∧ WellFormed udivBySeven ∧ WellTyped udivBySeven ∧
      ArgsFit udivBySeven [100] ∧
      let out := ((fun p : Function × ControlFlowGraph => doPreopt roundUpMagic p.1 p.2)^[2]
        (udivBySeven, ⟨fun _ => []⟩)).1
      (run noExternal out 2 [100]).trace = (run noExternal udivBySeven 2 [100]).trace ∧
        (run noExternal out 2 [100]).halt = (run noExternal udivBySeven 2 [100]).halt ∧
        ∀ v : Value, v.idx < udivBySeven.dfg.valueCount →
          (run noExternal out 2 [100]).env v = (run noExternal udivBySeven 2 [100]).env v :=
  have hty : WellTyped udivBySeven := by decide
  have hargs : ArgsFit udivBySeven [100] := fun e he => by
    cases he
    decide
  ⟨roundUpMagic_contract, udivBySeven_wellFormed, hty, hargs,
    doPreopt_iterate_runs_as noExternal roundUpMagic roundUpMagic_contract udivBySeven _
      udivBySeven_wellFormed hty 2 2 [100] hargs⟩

end simple_preopt
