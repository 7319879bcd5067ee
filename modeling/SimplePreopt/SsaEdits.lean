import SimplePreopt.Dominance
import SimplePreopt.Walk
import SimplePreopt.Build
-- Each way the pass edits a function keeps it in SSA form, by mapping the paths of the
-- edited function to paths of the function before the edit.

namespace simple_preopt

/-! ## Neighbours in an EBB -/

theorem listNext_mem_tail : ∀ {l : List Inst} {i j : Inst}, listNext l i = some j → j ∈ l.tail
  | [], _, _, h => by cases h
  | a :: t, i, j, h => by
    unfold listNext at h
    split at h
    · exact List.mem_of_mem_head? h
    · exact List.mem_of_mem_tail (listNext_mem_tail h)

theorem listNext_mem_left : ∀ {l : List Inst} {i j : Inst}, listNext l i = some j → i ∈ l
  | [], _, _, h => by cases h
  | a :: t, i, j, h => by
    unfold listNext at h
    split at h
    · subst_vars; exact List.mem_cons_self _ _
    · exact List.mem_cons_of_mem _ (listNext_mem_left h)

theorem listPrev_head {j : Inst} : ∀ {t : List Inst}, j ∉ t → listPrev (j :: t) j = none
  | [], _ => rfl
  | b :: t, h => by
    simp only [List.mem_cons, not_or] at h
    simp only [listPrev, Ne.symm h.1, if_false]
    exact listPrev_of_not_mem (by simp only [List.mem_cons, not_or]; exact h)

theorem listPrev_of_listNext : ∀ {l : List Inst} {i j : Inst}, l.Nodup → listNext l i = some j →
    listPrev l j = some i
  | [], _, _, _, h => by cases h
  | a :: t, i, j, hl, h => by
    rw [List.nodup_cons] at hl
    unfold listNext at h
    split at h
    · subst_vars
      cases t with
      | nil => cases h
      | cons b t' => cases h; simp [listPrev]
    · have ih := listPrev_of_listNext hl.2 h
      cases t with
      | nil => cases h
      | cons b t' =>
        have hb : b ≠ j := fun hb => by
          subst hb; rw [listPrev_head (List.nodup_cons.1 hl.2).1] at ih; cases ih
        simpa only [listPrev, hb, if_false] using ih

theorem listNext_of_listPrev : ∀ {l : List Inst} {i j : Inst}, l.Nodup → listPrev l j = some i →
    listNext l i = some j
  | [], _, _, _, h => by cases h
  | [_], _, _, _, h => by cases h
  | a :: b :: t, i, j, hl, h => by
    unfold listPrev at h
    split at h
    · cases h; subst_vars; simp [listNext]
    · rename_i hbj
      have ih := listNext_of_listPrev (List.nodup_cons.1 hl).2 h
      have hai : a ≠ i := fun hai => (List.nodup_cons.1 hl).1 (hai ▸ listNext_mem_left ih)
      simpa only [listNext, hai, if_false] using ih

theorem head?_insertBefore (l : List Inst) (j k : Inst) :
    (insertBefore l j k).head? = if l.head? = some j then some k else l.head? := by
  cases l with
  | nil => rfl
  | cons a t => by_cases h : a = j <;> simp [insertBefore, h]

/-- Putting `k` before `j` changes only the neighbour after the instruction that came before `j`. -/
theorem listNext_insertBefore {j k i : Inst} (hi : i ≠ k) : ∀ {l : List Inst}, l.Nodup → k ∉ l →
    listNext (insertBefore l j k) i = if listNext l i = some j then some k else listNext l i
  | [], _, _ => rfl
  | a :: t, hl, hk => by
    rw [List.nodup_cons] at hl
    by_cases haj : a = j
    · subst haj
      have : listNext (a :: t) i ≠ some a := fun h => hl.1 (listNext_mem_tail h)
      rw [if_neg this]
      simp only [insertBefore, if_true, listNext, Ne.symm hi, if_false]
    · have ih := @listNext_insertBefore j k i hi t hl.2 fun h => hk (List.mem_cons_of_mem _ h)
      by_cases hai : a = i
      · subst hai
        simp [insertBefore, haj, listNext, head?_insertBefore]
      · simp only [insertBefore, haj, if_false, listNext, hai, ih]

theorem listNext_insertBefore_self {j k : Inst} : ∀ {l : List Inst}, j ∈ l → k ∉ l →
    listNext (insertBefore l j k) k = some j
  | [], h, _ => by cases h
  | a :: t, hj, hk => by
    have hak : a ≠ k := fun h => hk (h ▸ List.mem_cons_self _ _)
    by_cases haj : a = j
    · subst haj; simp [insertBefore, listNext]
    · have hjt : j ∈ t := by simpa [Ne.symm haj] using hj
      simp only [insertBefore, haj, if_false, listNext, hak]
      exact listNext_insertBefore_self hjt fun h => hk (List.mem_cons_of_mem _ h)

/-! ## Neighbours in the layout -/

section Layout

variable {n : Nat} {l : Layout}

theorem LayoutOk.nextInst_eq (h : LayoutOk n l) {e : Ebb} {i : Inst} (he : e ∈ l.ebbs)
    (hi : i ∈ l.ebbInsts e) : l.nextInst i = listNext (l.ebbInsts e) i := by
  simp [Layout.nextInst, h.instEbb_eq he hi]

theorem LayoutOk.prevInst_eq (h : LayoutOk n l) {e : Ebb} {i : Inst} (he : e ∈ l.ebbs)
    (hi : i ∈ l.ebbInsts e) : l.prevInst i = listPrev (l.ebbInsts e) i := by
  simp [Layout.prevInst, h.instEbb_eq he hi]

theorem Layout.nextInst_mem {i j : Inst} (hn : l.nextInst i = some j) :
    ∃ e ∈ l.ebbs, i ∈ l.ebbInsts e ∧ j ∈ l.ebbInsts e ∧ listNext (l.ebbInsts e) i = some j := by
  obtain ⟨e, hie, hn⟩ := Option.bind_eq_some.1 hn
  obtain ⟨he, hi⟩ := Layout.instEbb_mem hie
  exact ⟨e, he, hi, List.mem_of_mem_tail (listNext_mem_tail hn), hn⟩

theorem LayoutOk.prevInst_of_nextInst (h : LayoutOk n l) {i j : Inst}
    (hn : l.nextInst i = some j) : l.prevInst j = some i := by
  obtain ⟨e, he, -, hj, hn⟩ := Layout.nextInst_mem hn
  rw [h.prevInst_eq he hj, listPrev_of_listNext (h.ebbInsts_nodup he) hn]

theorem LayoutOk.nextInst_of_prevInst (h : LayoutOk n l) {i j : Inst}
    (hp : l.prevInst j = some i) : l.nextInst i = some j := by
  obtain ⟨e, hje, hp⟩ := Option.bind_eq_some.1 hp
  obtain ⟨he, -⟩ := Layout.instEbb_mem hje
  have hn := listNext_of_listPrev (h.ebbInsts_nodup he) hp
  rw [h.nextInst_eq he (listNext_mem_left hn), hn]

theorem LayoutOk.prevInst_of_firstInst (h : LayoutOk n l) {e : Ebb} {j : Inst} (he : e ∈ l.ebbs)
    (hf : l.firstInst e = some j) : l.prevInst j = none := by
  have hj : j ∈ l.ebbInsts e := List.mem_of_mem_head? hf
  have hnd := h.ebbInsts_nodup he
  rw [h.prevInst_eq he hj]
  unfold Layout.firstInst at hf
  cases hl : l.ebbInsts e with
  | nil => rw [hl] at hj; cases hj
  | cons a t =>
    rw [hl] at hf hnd; cases hf
    exact listPrev_head (List.nodup_cons.1 hnd).1

end Layout

/-- Control reaches an instruction only from the one before it. -/
theorem pred_eq_prevInst {f : Function} {p : ProgramPoint} {J P : Inst}
    (hprev : f.layout.prevInst J = some P) (h : ProgramPoint.inst J ∈ succs f p) :
    p = .inst P := by
  cases p with
  | ebb e =>
    obtain ⟨he, i, hf, hi⟩ := mem_succs_ebb.1 h
    cases hi
    rw [f.wf.prevInst_of_firstInst he hf] at hprev; cases hprev
  | inst i =>
    rcases mem_succs_inst.1 h with ⟨D, -, h⟩ | ⟨-, i', hn, hi⟩
    · cases h
    · cases hi
      rw [f.wf.prevInst_of_nextInst hn] at hprev; cases hprev; rfl

/-- A path to an instruction comes through the one before it. -/
theorem ReachAvoid.of_prevInst {f : Function} {d : ProgramPoint} {J P : Inst}
    (h : ReachAvoid f d (.inst J)) (hprev : f.layout.prevInst J = some P) :
    ReachAvoid f d (.inst P) ∧ ProgramPoint.inst P ≠ d := by
  cases h with
  | step hp hpd hq => obtain rfl := pred_eq_prevInst hprev hq; exact ⟨hp, hpd⟩

/-! ## Edits that keep the values -/

/-- Availability carries over to an edit that maps each avoiding path back. -/
theorem Available.transfer {f f' : Function} {v : Value} {i i' : Inst} (h : Available f v i)
    (hcount : f.dfg.valueCount ≤ f'.dfg.valueCount) (hdef : f'.dfg.valueDefs v = f.dfg.valueDefs v)
    (hmem : ∀ p, f.layout.HasPoint p → f'.layout.HasPoint p)
    (hpath : ReachAvoid f' (f.dfg.defPoint v) (.inst i') →
      ReachAvoid f (f.dfg.defPoint v) (.inst i)) :
    Available f' v i' := by
  have hd : f'.dfg.defPoint v = f.dfg.defPoint v := by simp only [DataFlowGraph.defPoint, hdef]
  exact ⟨lt_of_lt_of_le h.lt hcount, hd ▸ hmem _ h.def_mem, hd ▸ fun h' => h.sdom (hpath h')⟩

/-- `f'` is `f` with other instruction data: the layout, the results and the values are the same. -/
structure SameShape (f f' : Function) : Prop where
  layout : f'.layout = f.layout
  results : f'.dfg.results = f.dfg.results
  valueDefs : f'.dfg.valueDefs = f.dfg.valueDefs
  ebbParams : f'.dfg.ebbParams = f.dfg.ebbParams
  instCount : f'.dfg.instCount = f.dfg.instCount
  valueCount : f'.dfg.valueCount = f.dfg.valueCount

/-- New instruction data that keeps which instructions define a value, with
each operand available where it is used, keeps SSA form. -/
theorem WellFormed.of_sameShape {f f' : Function} (hf : WellFormed f) (hs : SameShape f f')
    (hval : ∀ i, (f'.dfg.insts i).definesValue = (f.dfg.insts i).definesValue)
    (huses : ∀ i ∈ f.layout.allInsts, ∀ v ∈ (f'.dfg.insts i).args, Available f' v i) :
    WellFormed f' where
  result_def i v h := by rw [hs.valueDefs]; exact hf.result_def i v (hs.results ▸ h)
  def_result v i n hv h := by
    rw [hs.instCount, hs.results]
    exact hf.def_result v i n (hs.valueCount ▸ hv) (hs.valueDefs ▸ h)
  param_def e v h := by
    rw [hs.valueCount, hs.valueDefs]; exact hf.param_def e v (hs.ebbParams ▸ h)
  def_param v e n hv h := by
    rw [hs.ebbParams]; exact hf.def_param v e n (hs.valueCount ▸ hv) (hs.valueDefs ▸ h)
  no_result i h := by rw [hs.results]; exact hf.no_result i (hval i ▸ h)
  has_result i hi h := by rw [hs.results]; exact hf.has_result i (hs.layout ▸ hi) (hval i ▸ h)
  uses i hi := huses i (hs.layout ▸ hi)

/-- A rewrite of `j` in place that keeps what control does there keeps every
value available where it was. -/
theorem Available.setInst {f : Function} {j : Inst} {d : InstructionData}
    (hdest : d.branchDestination = (f.dfg.insts j).branchDestination)
    (hfall : d.fallsThrough = (f.dfg.insts j).fallsThrough) {v : Value} {i : Inst}
    (h : Available f v i) : Available { f with dfg := f.dfg.setInst j d } v i :=
  have hs : succs { f with dfg := f.dfg.setInst j d } = succs f := succs_congr rfl fun i => by
    by_cases hi : i = j <;> simp [hi, hdest, hfall]
  h.transfer le_rfl rfl (fun _ h => h) fun h' => h'.of_succs_eq (by rfl) hs

/-- A rewrite in place that keeps control and gives `j` operands available there keeps SSA form. -/
theorem WellFormed.setInst {f : Function} (hf : WellFormed f) {j : Inst} {d : InstructionData}
    (hdest : d.branchDestination = (f.dfg.insts j).branchDestination)
    (hfall : d.fallsThrough = (f.dfg.insts j).fallsThrough)
    (hval : d.definesValue = (f.dfg.insts j).definesValue)
    (hargs : ∀ a ∈ d.args, Available f a j) :
    WellFormed { f with dfg := f.dfg.setInst j d } := by
  refine hf.of_sameShape ⟨rfl, rfl, rfl, rfl, rfl, rfl⟩ (fun i => ?_) fun i hi v hv => ?_
  · by_cases hij : i = j <;> simp [hij, hval]
  · by_cases hij : i = j
    · subst hij
      simp only [DataFlowGraph.setInst_insts, if_true] at hv
      exact (hargs v hv).setInst hdest hfall
    · simp only [DataFlowGraph.setInst_insts, hij, if_false] at hv
      exact (hf.uses i hi v hv).setInst hdest hfall

/-- An operand of the definition of an operand of `j` is available at `j`. -/
theorem WellFormed.available_through {f : Function} (hf : WellFormed f) {c b : Value} {j : Inst}
    {d : InstructionData} (hc : Available f c j) (hd : f.dfg.defData c = some d)
    (hb : b ∈ d.args) : Available f b j := by
  obtain ⟨k, hk, rfl⟩ := Option.map_eq_some'.1 hd
  have hmem : k ∈ f.layout.allInsts := by
    have := hc.def_mem
    rwa [DataFlowGraph.defPoint_of_defInst hk] at this
  have hb' := hf.uses k hmem b hb
  exact ⟨hb'.lt, hb'.def_mem, hb'.sdom.trans (hc.defInst hk)⟩

/-- A rewrite in place by `rw` keeps SSA form when every data it computes would. -/
theorem rewriteInst_wellFormed {rw : DataFlowGraph → InstructionData → Option InstructionData}
    {j : Inst} {pos : FuncCursor} (hf : WellFormed pos.func)
    (h : ∀ d, rw pos.func.dfg (pos.func.dfg.insts j) = some d →
      d.branchDestination = (pos.func.dfg.insts j).branchDestination ∧
      d.fallsThrough = (pos.func.dfg.insts j).fallsThrough ∧
      d.definesValue = (pos.func.dfg.insts j).definesValue ∧
      ∀ a ∈ d.args, Available pos.func a j) :
    WellFormed (rewriteInst rw j pos).2.func := by
  unfold rewriteInst
  split
  · rename_i d hd
    obtain ⟨h₁, h₂, h₃, h₄⟩ := h d hd
    exact hf.setInst h₁ h₂ h₃ h₄
  · exact hf

theorem simplify_wellFormed {j : Inst} {pos : FuncCursor} (hf : WellFormed pos.func)
    (hj : j ∈ pos.func.layout.allInsts) : WellFormed (simplify j pos).2.func := by
  refine rewriteInst_wellFormed hf fun d hd => ?_
  have hu := hf.uses j hj
  rcases simplifyData_cases hd with
    ⟨op, a, b, imm, op', imm', hi, -, -, rfl⟩ | ⟨a, b, imm, hi, -, -, rfl⟩ |
    ⟨cond, a, b, imm, hi, -, rfl⟩ | ⟨op, c, b, hi, hb, rfl⟩ | ⟨op, dest, c, vs, b, hi, hb, rfl⟩ |
    ⟨c, x, y, b, hi, hb, rfl⟩ <;> rw [hi] at hu ⊢
  · exact ⟨rfl, rfl, rfl, by simpa [InstructionData.args] using hu a (by simp [InstructionData.args])⟩
  · exact ⟨rfl, rfl, rfl, by simpa [InstructionData.args] using hu b (by simp [InstructionData.args])⟩
  · exact ⟨rfl, rfl, rfl, by simpa [InstructionData.args] using hu a (by simp [InstructionData.args])⟩
  · refine ⟨rfl, rfl, rfl, ?_⟩
    simpa [InstructionData.args] using hf.available_through (hu c (by simp [InstructionData.args]))
      (DataFlowGraph.bintOf_eq_some.1 hb) (by simp [InstructionData.args])
  · refine ⟨rfl, rfl, rfl, fun a ha => ?_⟩
    simp only [InstructionData.args, List.mem_cons] at ha
    rcases ha with rfl | ha
    · exact hf.available_through (hu c (by simp [InstructionData.args]))
        (DataFlowGraph.bintOf_eq_some.1 hb) (by simp [InstructionData.args])
    · exact hu a (by simp [InstructionData.args, ha])
  · refine ⟨rfl, rfl, rfl, fun a ha => ?_⟩
    simp only [InstructionData.args, List.mem_cons, List.not_mem_nil, or_false] at ha
    rcases ha with rfl | rfl | rfl
    · exact hf.available_through (hu c (by simp [InstructionData.args]))
        (DataFlowGraph.bintOf_eq_some.1 hb) (by simp [InstructionData.args])
    · exact hu a (by simp [InstructionData.args])
    · exact hu a (by simp [InstructionData.args])

theorem branchOpt_wellFormed {j : Inst} {pos : FuncCursor} (hf : WellFormed pos.func)
    (hj : j ∈ pos.func.layout.allInsts) : WellFormed (branchOpt j pos).2.func := by
  refine rewriteInst_wellFormed hf fun d hd => ?_
  have hu := hf.uses j hj
  obtain ⟨br, dest, c, vs, cmp_cond, a, op, hi, hc, -, rfl⟩ := branchOptData_cases hd
  rw [hi] at hu ⊢
  refine ⟨rfl, rfl, rfl, fun x hx => ?_⟩
  simp only [InstructionData.args, List.mem_cons] at hx
  rcases hx with rfl | hx
  · exact hf.available_through (hu c (by simp [InstructionData.args])) hc
      (by simp [InstructionData.args])
  · exact hu x (by simp [InstructionData.args, hx])

/-! ## The swap of `branch_order` -/

theorem Layout.prevInst_mem {l : Layout} {P J : Inst} (h : l.prevInst J = some P) :
    P ∈ l.allInsts ∧ J ∈ l.allInsts := by
  obtain ⟨e, hje, hp⟩ := Option.bind_eq_some.1 h
  obtain ⟨he, hj⟩ := Layout.instEbb_mem hje
  exact ⟨List.mem_flatMap.2 ⟨e, he, listPrev_mem hp⟩, List.mem_flatMap.2 ⟨e, he, hj⟩⟩

theorem branchOrder_sameShape (pos : FuncCursor) (cfg : ControlFlowGraph) (ebb : Ebb) (J : Inst) :
    SameShape pos.func (branchOrder pos cfg ebb J).1.func := by
  unfold branchOrder
  split
  · exact ⟨rfl, rfl, rfl, rfl, rfl, rfl⟩
  · rename_i info _
    rcases info with ⟨_, _, _, _, _, _, k⟩
    cases k <;> exact ⟨rfl, rfl, rfl, rfl, rfl, rfl⟩

/-- A path after the swap that avoids neither `P` nor `J` maps to one before, `J` read as `P`. -/
theorem swap_reachAvoid {f f' : Function} (hl : f'.layout = f.layout) {P J : Inst} {T D : Ebb}
    {argsJ : List Value} {dP' : InstructionData} (hPJ : P ≠ J)
    (hprev : f.layout.prevInst J = some P) (hJ : f.dfg.insts J = .Jump .Jump T argsJ)
    (hD : (f.dfg.insts P).branchDestination = some D) (hfall : (f.dfg.insts P).fallsThrough = true)
    (hIP : f'.dfg.insts P = dP') (hIJ : f'.dfg.insts J = .Jump .Jump D (f.dfg.insts P).blockArgs)
    (hIo : ∀ i, i ≠ P → i ≠ J → f'.dfg.insts i = f.dfg.insts i)
    (hT : dP'.branchDestination = some T) {d : ProgramPoint} (hdP : d ≠ .inst P)
    (hdJ : d ≠ .inst J) {p₀ : ProgramPoint} (h : ReachAvoid f' d p₀) :
    ReachAvoid f d (if p₀ = .inst J then .inst P else p₀) := by
  have hnext := f.wf.nextInst_of_prevInst hprev
  refine h.lift (fun p => if p = .inst J then .inst P else p)
    (fun e he => by simpa using ReachAvoid.entry (hl ▸ he)) fun p q hp hpd hq => ?_
  by_cases hpP : p = .inst P
  · -- the new branch goes to `T`, as `J` did, or falls through to `J`
    rw [hpP] at hp hq hpd
    simp only [if_neg (fun h => hPJ (ProgramPoint.inst.inj h))] at hp
    rw [mem_succs_inst, hIP, hT, hl, hnext] at hq
    rcases hq with ⟨D', hD', rfl⟩ | ⟨-, i', hi', rfl⟩
    · cases hD'
      simpa using ReachAvoid.step (ReachAvoid.step hp hpd (by simp [hfall, hnext])) (Ne.symm hdJ)
        (by simp [hJ, InstructionData.branchDestination])
    · cases hi'; simpa using hp
  by_cases hpJ : p = .inst J
  · -- the new jump goes to `D`, where `P` branched
    rw [hpJ] at hp hq
    simp only [if_true] at hp
    rw [mem_succs_inst, hIJ] at hq
    rcases hq with ⟨D', hD', rfl⟩ | ⟨h, -⟩
    · cases hD'
      simpa using ReachAvoid.step hp (Ne.symm hdP) (by simp [hD])
    · cases h
  · simp only [if_neg hpJ] at hp
    have hso : succs f' p = succs f p := by
      cases p with
      | ebb e => simp only [succs, hl]
      | inst i => simp only [succs, hl, hIo i (fun h => hpP (h ▸ rfl)) (fun h => hpJ (h ▸ rfl))]
    rw [hso] at hq
    have hqJ : q ≠ .inst J := fun h => hpP (pred_eq_prevInst hprev (h ▸ hq))
    simpa [hqJ] using ReachAvoid.step hp hpd hq

/-- The swap of `branch_order` keeps SSA form. -/
theorem WellFormed.swap {f f' : Function} (hf : WellFormed f) (hs : SameShape f f') {P J : Inst}
    {T D : Ebb} {argsJ : List Value} (dP' : InstructionData)
    (hprev : f.layout.prevInst J = some P) (hJ : f.dfg.insts J = .Jump .Jump T argsJ)
    (hD : (f.dfg.insts P).branchDestination = some D)
    (hP : (f.dfg.insts P).fallsThrough = true ∧ (f.dfg.insts P).definesValue = false)
    (hI : ∀ i, f'.dfg.insts i = if i = P then dP' else
      if i = J then .Jump .Jump D (f.dfg.insts P).blockArgs else f.dfg.insts i)
    (hT : dP'.branchDestination = some T) (hP' : dP'.fallsThrough = true ∧ dP'.definesValue = false)
    (hargs : ∀ a ∈ dP'.args, a ∈ (f.dfg.insts P).args ∨ a ∈ argsJ) : WellFormed f' := by
  have hPJ : P ≠ J := fun h => by
    subst h; rw [hJ] at hP; cases hP.1
  have hIP : f'.dfg.insts P = dP' := by rw [hI, if_pos rfl]
  have hIJ : f'.dfg.insts J = .Jump .Jump D (f.dfg.insts P).blockArgs := by
    rw [hI, if_neg hPJ.symm, if_pos rfl]
  have hIo : ∀ i, i ≠ P → i ≠ J → f'.dfg.insts i = f.dfg.insts i := fun i h₁ h₂ => by
    rw [hI, if_neg h₁, if_neg h₂]
  have hpath := @swap_reachAvoid f f' hs.layout P J T D argsJ dP' hPJ hprev hJ hD hP.1 hIP hIJ hIo hT
  obtain ⟨hmemP, hmemJ⟩ := Layout.prevInst_mem hprev
  refine hf.of_sameShape hs (fun i => ?_) fun i hi v hv => ?_
  · by_cases h₁ : i = P
    · rw [h₁, hIP, hP'.2, hP.2]
    · by_cases h₂ : i = J
      · rw [h₂, hIJ, hJ]; rfl
      · rw [hIo i h₁ h₂]
  · -- the definition of an operand is neither `P` nor `J`
    have key : ∀ {u : Inst}, Available f v u → (ReachAvoid f' (f.dfg.defPoint v) (.inst i) →
        ReachAvoid f (f.dfg.defPoint v) (.inst u)) → Available f' v i := fun h hp =>
      h.transfer (hs.valueCount ▸ le_rfl) (by rw [hs.valueDefs]) (fun _ h => hs.layout ▸ h) hp
    have hne : ∀ {u : Inst}, Available f v u →
        f.dfg.defPoint v ≠ .inst P ∧ f.dfg.defPoint v ≠ .inst J := fun h =>
      ⟨hf.defPoint_ne hP.2 h.lt, hf.defPoint_ne (by rw [hJ]; rfl) h.lt⟩
    by_cases h₁ : i = P
    · rw [h₁, hIP] at hv
      rw [h₁] at key ⊢
      rcases hargs v hv with hv | hv
      · have ha := hf.uses P hmemP v hv
        exact key ha fun h => by simpa [hPJ] using hpath (hne ha).1 (hne ha).2 h
      · have ha := hf.uses J hmemJ v (by rw [hJ]; exact hv)
        exact key ha fun h => by
          have h' : ReachAvoid f (f.dfg.defPoint v) (.inst P) := by
            simpa [hPJ] using hpath (hne ha).1 (hne ha).2 h
          exact h'.step (Ne.symm (hne ha).1) (by simp [hP.1, f.wf.nextInst_of_prevInst hprev])
    · by_cases h₂ : i = J
      · rw [h₂, hIJ] at hv
        rw [h₂] at key ⊢
        have ha := hf.uses P hmemP v (InstructionData.mem_args_of_mem_blockArgs hv)
        exact key ha fun h => by simpa using hpath (hne ha).1 (hne ha).2 h
      · rw [hIo i h₁ h₂] at hv
        have ha := hf.uses i hi v hv
        exact key ha fun h => by simpa [h₂] using hpath (hne ha).1 (hne ha).2 h

/-- `branch_order` keeps SSA form. -/
theorem branchOrder_wellFormed (pos : FuncCursor) (cfg : ControlFlowGraph) (ebb : Ebb) (J : Inst)
    (hf : WellFormed pos.func) : WellFormed (branchOrder pos cfg ebb J).1.func := by
  have hs := branchOrder_sameShape pos cfg ebb J
  cases hprev : pos.func.layout.prevInst J with
  | none =>
    cases hb : branchOrderInfo pos.func ebb J with
    | none => simpa [branchOrder, hb] using hf
    | some info =>
      have := (branchOrderInfo_insts hb).2
      rw [hprev] at this; cases this
  | some P =>
    by_cases hsw : SwapsAt pos.func ebb P J
    · obtain ⟨T, argsJ, D, hJ, hn, hT, hP⟩ := hsw
      rcases hP with ⟨op, c, vs, hP⟩ | ⟨cond, x, y, vs, hP⟩
      · refine hf.swap hs (.Branch op.inverse T c argsJ) hprev hJ (by rw [hP]; rfl)
          (by rw [hP]; exact ⟨rfl, rfl⟩)
          (by simpa only [hP, InstructionData.blockArgs] using
            branchOrder_insts_branch cfg hprev hJ hn hT hP) rfl ⟨rfl, rfl⟩ fun a ha => ?_
        rw [hP]
        simp only [InstructionData.args, List.mem_cons] at ha ⊢
        tauto
      · refine hf.swap hs (.BranchIcmp cond.inverse T x y argsJ) hprev hJ (by rw [hP]; rfl)
          (by rw [hP]; exact ⟨rfl, rfl⟩)
          (by simpa only [hP, InstructionData.blockArgs] using
            branchOrder_insts_branchIcmp cfg hprev hJ hn hT hP) rfl ⟨rfl, rfl⟩ fun a ha => ?_
        rw [hP]
        simp only [InstructionData.args, List.mem_cons] at ha ⊢
        tauto
    · rw [branchOrder_of_not_swapsAt cfg hprev hsw]; exact hf

/-! ## One instruction put before the cursor -/

section Insert

variable {n : Nat} {l : Layout} {j k : Inst} {e : Ebb}

theorem LayoutOk.firstInst_insertInst (h : LayoutOk n l) (hje : l.instEbb j = some e) {e' : Ebb}
    (he' : e' ∈ l.ebbs) :
    (l.insertInst k j).firstInst e' = if l.firstInst e' = some j then some k else l.firstInst e' := by
  unfold Layout.firstInst
  rw [Layout.insertInst_ebbInsts hje]
  split
  · subst_vars; exact head?_insertBefore _ _ _
  · rename_i hne
    have : (l.ebbInsts e').head? ≠ some j := fun hh => hne (by
      have := h.instEbb_eq he' (List.mem_of_mem_head? hh)
      rw [hje] at this; exact (Option.some.inj this).symm)
    rw [if_neg this]

theorem LayoutOk.nextInst_insertInst (h : LayoutOk n l) (hje : l.instEbb j = some e)
    (hk : k ∉ l.allInsts) {i : Inst} (hik : i ≠ k) :
    (l.insertInst k j).nextInst i = if l.nextInst i = some j then some k else l.nextInst i := by
  unfold Layout.nextInst
  rw [Layout.instEbb_insertInst hje k hik]
  cases hie : l.instEbb i with
  | none => rfl
  | some e' =>
    obtain ⟨he', -⟩ := Layout.instEbb_mem hie
    simp only [Option.some_bind]
    rw [Layout.insertInst_ebbInsts hje]
    split
    · subst_vars
      exact listNext_insertBefore hik (h.ebbInsts_nodup he')
        fun hm => hk (List.mem_flatMap.2 ⟨_, he', hm⟩)
    · rename_i hne
      have : listNext (l.ebbInsts e') i ≠ some j := fun hn => hne (by
        have := h.instEbb_eq he' (List.mem_of_mem_tail (listNext_mem_tail hn))
        rw [hje] at this; exact (Option.some.inj this).symm)
      rw [if_neg this]

theorem LayoutOk.nextInst_insertInst_self (h : LayoutOk n l) (hje : l.instEbb j = some e)
    (hk : k.idx = n) : (l.insertInst k j).nextInst k = some j := by
  obtain ⟨he, hj⟩ := Layout.instEbb_mem hje
  have hk' : k ∉ l.ebbInsts e := fun hm => by
    have := h.insts_lt k (List.mem_flatMap.2 ⟨e, he, hm⟩); omega
  have hl : (l.insertInst k j).ebbInsts e = insertBefore (l.ebbInsts e) j k := by
    rw [Layout.insertInst_ebbInsts hje, if_pos rfl]
  have hkm : k ∈ (l.insertInst k j).ebbInsts e := by rw [hl]; exact mem_insertBefore.2 (.inr ⟨hj, rfl⟩)
  rw [(h.insertInst k j hk).nextInst_eq (by simpa using he) hkm, hl]
  exact listNext_insertBefore_self hj hk'

end Insert

section Ins

variable (d : InstructionData) (ty : Ty) (pos : FuncCursor)

@[simp] theorem ins_insts (i : Inst) : (FuncCursor.ins d ty pos).2.func.dfg.insts i =
    if i = ⟨pos.func.dfg.instCount⟩ then d else pos.func.dfg.insts i := rfl

@[simp] theorem ins_results (i : Inst) : (FuncCursor.ins d ty pos).2.func.dfg.results i =
    if i = ⟨pos.func.dfg.instCount⟩ then some ⟨pos.func.dfg.valueCount⟩
    else pos.func.dfg.results i := rfl

@[simp] theorem ins_valueDefs (v : Value) : (FuncCursor.ins d ty pos).2.func.dfg.valueDefs v =
    if v = ⟨pos.func.dfg.valueCount⟩ then .Result ⟨pos.func.dfg.instCount⟩ 0
    else pos.func.dfg.valueDefs v := rfl

@[simp] theorem ins_valueTypes (v : Value) : (FuncCursor.ins d ty pos).2.func.dfg.valueTypes v =
    if v = ⟨pos.func.dfg.valueCount⟩ then ty else pos.func.dfg.valueTypes v := rfl

@[simp] theorem ins_ebbParams :
    (FuncCursor.ins d ty pos).2.func.dfg.ebbParams = pos.func.dfg.ebbParams := rfl

@[simp] theorem ins_instCount :
    (FuncCursor.ins d ty pos).2.func.dfg.instCount = pos.func.dfg.instCount + 1 := rfl

@[simp] theorem ins_valueCount :
    (FuncCursor.ins d ty pos).2.func.dfg.valueCount = pos.func.dfg.valueCount + 1 := rfl

theorem ins_layout {j : Inst} (hpos : pos.position = .At j) :
    (FuncCursor.ins d ty pos).2.func.layout =
      pos.func.layout.insertInst ⟨pos.func.dfg.instCount⟩ j := by
  show pos.func.layout.insertAt pos.position _ = _
  rw [hpos]; rfl

theorem ins_allInsts {j : Inst} (hpos : pos.position = .At j) (hj : j ∈ pos.func.layout.allInsts)
    (i : Inst) : i ∈ (FuncCursor.ins d ty pos).2.func.layout.allInsts ↔
      i = ⟨pos.func.dfg.instCount⟩ ∨ i ∈ pos.func.layout.allInsts := by
  obtain ⟨e, he, hm⟩ := List.mem_flatMap.1 hj
  rw [ins_layout d ty pos hpos, (Layout.allInsts_insertInst_perm pos.func.wf.ebbs_nodup _ j
    (by rw [pos.func.wf.instEbb_eq he hm]; exact Option.some_ne_none e)).mem_iff, List.mem_cons]

variable {d pos}

/-- The new instruction defines a value, so it does not branch: it only falls through, to `j`. -/
theorem ins_succs_new {j : Inst} (hpos : pos.position = .At j) (hj : j ∈ pos.func.layout.allInsts)
    (hd : d.definesValue = true) {q : ProgramPoint}
    (hq : q ∈ succs (FuncCursor.ins d ty pos).2.func (.inst ⟨pos.func.dfg.instCount⟩)) :
    q = .inst j := by
  obtain ⟨e, he, hm⟩ := List.mem_flatMap.1 hj
  rw [mem_succs_inst, ins_insts, if_pos rfl, (InstructionData.fallsThrough_of_definesValue hd).2,
    ins_layout d ty pos hpos, pos.func.wf.nextInst_insertInst_self (pos.func.wf.instEbb_eq he hm) rfl]
    at hq
  rcases hq with ⟨D, hD, -⟩ | ⟨-, i', hi', rfl⟩
  · cases hD
  · cases hi'; rfl

/-- Every other point has the successors it had, the new instruction standing in for `j`. -/
theorem ins_succs_old {j : Inst} (hpos : pos.position = .At j) (hj : j ∈ pos.func.layout.allInsts)
    {p q : ProgramPoint} (hpk : p ≠ .inst ⟨pos.func.dfg.instCount⟩)
    (hq : q ∈ succs (FuncCursor.ins d ty pos).2.func p) :
    (if q = .inst ⟨pos.func.dfg.instCount⟩ then .inst j else q) ∈ succs pos.func p := by
  obtain ⟨e, he, hm⟩ := List.mem_flatMap.1 hj
  have hje := pos.func.wf.instEbb_eq he hm
  have hk : (⟨pos.func.dfg.instCount⟩ : Inst) ∉ pos.func.layout.allInsts :=
    fun h => pos.func.wf.ne_of_mem h rfl
  have hlay := ins_layout d ty pos hpos
  cases p with
  | ebb e' =>
    rw [mem_succs_ebb, hlay, Layout.insertInst_ebbs] at hq
    obtain ⟨he', i, hfi, rfl⟩ := hq
    rw [pos.func.wf.firstInst_insertInst hje he'] at hfi
    split at hfi
    · cases hfi; simpa [he']
    · simpa [he', pos.func.wf.ne_of_mem (List.mem_flatMap.2 ⟨e', he', List.mem_of_mem_head? hfi⟩)]
  | inst i =>
    have hik : i ≠ ⟨pos.func.dfg.instCount⟩ := fun h => hpk (h ▸ rfl)
    rw [mem_succs_inst, ins_insts, if_neg hik, hlay, pos.func.wf.nextInst_insertInst hje hk hik] at hq
    rcases hq with ⟨D, hD, rfl⟩ | ⟨hfall, i', hi', rfl⟩
    · simp [hD]
    · split at hi'
      · cases hi'; simp [hfall, pos.func.wf.ne_of_mem hj, *]
      · obtain ⟨e'', he'', -, hm', -⟩ := Layout.nextInst_mem hi'
        simp [hfall, hi', pos.func.wf.ne_of_mem (List.mem_flatMap.2 ⟨e'', he'', hm'⟩)]

/-- A path of the function after the insertion maps to a path of the function
before, the new instruction read as `j`. -/
theorem ins_reachAvoid {j : Inst} (hpos : pos.position = .At j)
    (hj : j ∈ pos.func.layout.allInsts) (hd : d.definesValue = true) {dd p : ProgramPoint}
    (h : ReachAvoid (FuncCursor.ins d ty pos).2.func dd p) :
    ReachAvoid pos.func dd (if p = .inst ⟨pos.func.dfg.instCount⟩ then .inst j else p) := by
  refine h.lift (fun p => if p = .inst ⟨pos.func.dfg.instCount⟩ then .inst j else p)
    (fun e he => by
      simpa using (ReachAvoid.entry (by simpa [ins_layout d ty pos hpos] using he) :
        ReachAvoid pos.func dd (.ebb e)))
    fun p q hp hpd hq => ?_
  by_cases hpk : p = .inst ⟨pos.func.dfg.instCount⟩
  · subst hpk
    rw [ins_succs_new ty hpos hj hd hq]
    simpa [pos.func.wf.ne_of_mem hj] using hp
  · simp only [if_neg hpk] at hp
    exact hp.step hpd (ins_succs_old ty hpos hj hpk hq)

end Ins

/-- One builder call at `j` with operands available there keeps SSA form. -/
theorem WellFormed.ins {pos : FuncCursor} {j : Inst} (hf : WellFormed pos.func)
    (hpos : pos.position = .At j) (hj : j ∈ pos.func.layout.allInsts) {d : InstructionData}
    (ty : Ty) (hd : d.definesValue = true) (hargs : ∀ a ∈ d.args, Available pos.func a j) :
    WellFormed (FuncCursor.ins d ty pos).2.func ∧
      (∀ a, Available pos.func a j → Available (FuncCursor.ins d ty pos).2.func a j) ∧
      Available (FuncCursor.ins d ty pos).2.func (FuncCursor.ins d ty pos).1 j := by
  have hmem := ins_allInsts d ty pos hpos hj
  have hjk := pos.func.wf.ne_of_mem hj
  have hkeep : ∀ {v : Value} {i i' : Inst}, Available pos.func v i →
      (ReachAvoid (FuncCursor.ins d ty pos).2.func (pos.func.dfg.defPoint v) (.inst i') →
        ReachAvoid pos.func (pos.func.dfg.defPoint v) (.inst i)) →
      Available (FuncCursor.ins d ty pos).2.func v i' := fun h hp =>
    h.transfer (Nat.le_succ _) (by rw [ins_valueDefs, if_neg (Value.ne_of_idx_lt h.lt)])
      (fun p hp => by
        cases p with
        | ebb e' => simpa [Layout.HasPoint, ins_layout d ty pos hpos] using hp
        | inst i => exact (hmem i).2 (.inr hp)) hp
  refine ⟨⟨?_, ?_, ?_, ?_, ?_, ?_, ?_⟩,
    fun a ha => hkeep ha fun h => by simpa [hjk] using ins_reachAvoid ty hpos hj hd h, ?_⟩
  · -- result_def
    intro i v h
    rw [ins_results] at h
    by_cases hik : i = ⟨pos.func.dfg.instCount⟩
    · rw [if_pos hik] at h; cases h; simp [hik]
    · rw [if_neg hik] at h
      rw [ins_valueDefs, if_neg (Value.ne_of_idx_lt (pos.func.results_lt i v h))]
      exact hf.result_def i v h
  · -- def_result
    intro v i n hv h
    rw [ins_valueDefs] at h
    by_cases hvk : v = ⟨pos.func.dfg.valueCount⟩
    · rw [if_pos hvk] at h; cases h; simp [hvk]
    · rw [if_neg hvk] at h
      obtain ⟨hi, hr⟩ := hf.def_result v i n (Value.idx_lt_of_ne hv hvk) h
      exact ⟨Nat.lt_succ_of_lt hi, by rw [ins_results, if_neg (Inst.ne_of_idx_lt hi), hr]⟩
  · -- param_def
    intro e' v hv
    obtain ⟨hlt, n', hd'⟩ := hf.param_def e' v hv
    exact ⟨Nat.lt_succ_of_lt hlt, n', by rw [ins_valueDefs, if_neg (Value.ne_of_idx_lt hlt), hd']⟩
  · -- def_param
    intro v e' n hv h
    rw [ins_valueDefs] at h
    split at h
    · cases h
    · exact hf.def_param v e' n (Value.idx_lt_of_ne hv ‹_›) h
  · -- no_result
    intro i h
    rw [ins_insts] at h
    rw [ins_results]
    split at h
    · rw [hd] at h; cases h
    · rw [if_neg ‹_›]; exact hf.no_result i h
  · -- has_result
    intro i hi h
    rw [ins_results]
    split
    · exact ⟨_, rfl⟩
    · rename_i hik
      rw [ins_insts, if_neg hik] at h
      exact hf.has_result i (((hmem i).1 hi).resolve_left hik) h
  · -- uses
    intro i hi v hv
    rcases (hmem i).1 hi with rfl | hi
    · rw [ins_insts, if_pos rfl] at hv
      exact hkeep (hargs v hv) fun h => by simpa using ins_reachAvoid ty hpos hj hd h
    · have hik := pos.func.wf.ne_of_mem hi
      rw [ins_insts, if_neg hik] at hv
      exact hkeep (hf.uses i hi v hv) fun h => by simpa [hik] using ins_reachAvoid ty hpos hj hd h
  · -- the new value, defined just before `j`
    obtain ⟨e, he, hm⟩ := List.mem_flatMap.1 hj
    have hdp : (FuncCursor.ins d ty pos).2.func.dfg.defPoint (FuncCursor.ins d ty pos).1 =
        .inst ⟨pos.func.dfg.instCount⟩ := by
      rw [DataFlowGraph.defPoint, ins_valueDefs, ins_fst, if_pos rfl]
    have hprev : (FuncCursor.ins d ty pos).2.func.layout.prevInst j =
        some ⟨pos.func.dfg.instCount⟩ :=
      (FuncCursor.ins d ty pos).2.func.wf.prevInst_of_nextInst (by
        rw [ins_layout d ty pos hpos]
        exact pos.func.wf.nextInst_insertInst_self (pos.func.wf.instEbb_eq he hm) rfl)
    refine ⟨by simp, ?_, fun h => ?_⟩
    · rw [hdp]; exact (hmem _).2 (.inl rfl)
    · rw [hdp] at h
      exact (h.of_prevInst hprev).2 rfl

end simple_preopt
