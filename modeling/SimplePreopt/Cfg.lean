import SimplePreopt.Writes
import SimplePreopt.Fallthrough
import SimplePreopt.Correct
-- The control-flow graph over whole runs of the pass: a graph that lists the branches of
-- every EBB still does after `do_preopt`, and every EBB keeps its exits up to order.

namespace simple_preopt

open FuncCursor

/-! ## Exits along a list of the layout -/

theorem mem_insertBeforeAll_of_mem {l L : List Inst} {j i : Inst} (hj : j ∈ l) (hi : i ∈ L) :
    i ∈ insertBeforeAll l j L :=
  List.mem_flatMap.2 ⟨j, hj, by simp [hi]⟩

theorem filterMap_insertBeforeAll {β : Type} {g : Inst → Option β} (l : List Inst) (j : Inst)
    {L : List Inst} (hL : ∀ i ∈ L, g i = none) :
    (insertBeforeAll l j L).filterMap g = l.filterMap g := by
  induction l with
  | nil => rfl
  | cons a t ih =>
    by_cases ha : a = j
    · subst ha
      cases h : g a <;>
        simp [List.filterMap_cons, List.filterMap_append, List.filterMap_eq_nil_iff.2 hL, h, ih]
    · cases h : g a <;> simp [List.filterMap_cons, ha, h, ih]

/-- Swapping the exits of two adjacent instructions permutes the exits of the list. -/
theorem filterMap_swap_perm {β : Type} {g g' : Inst → Option β} {pre suf : List Inst}
    {P J : Inst} (hrest : ∀ i ∈ pre ++ suf, g' i = g i) (hP : g' P = g J) (hJ : g' J = g P) :
    ((pre ++ P :: J :: suf).filterMap g').Perm ((pre ++ P :: J :: suf).filterMap g) := by
  have h₁ : pre.filterMap g' = pre.filterMap g :=
    List.filterMap_congr fun i hi => hrest i (List.mem_append_left _ hi)
  have h₂ : suf.filterMap g' = suf.filterMap g :=
    List.filterMap_congr fun i hi => hrest i (List.mem_append_right _ hi)
  simp only [List.filterMap_append, List.filterMap_cons, h₁, h₂, hP, hJ]
  refine List.Perm.append_left _ ?_
  cases g P <;> cases g J <;> first | exact .refl _ | exact .swap _ _ _

/-! ## The exits of the instructions of a function -/

theorem instEdge_of_keepsExit {f f' : Function} {i : Inst}
    (h : KeepsExit (f.dfg.insts i) (f'.dfg.insts i)) : instEdge f' i = instEdge f i := by
  simp only [instEdge, h.branchDestination, h.blockArgs]

/-- The branches of an EBB, read off the edges of its instructions. -/
theorem ebbBranches_eq (f : Function) (ebb : Ebb) :
    ebbBranches f ebb =
      (f.layout.ebbInsts ebb).filterMap fun i => (instEdge f i).map fun x => (i, x.1) :=
  List.filterMap_congr fun i _ => by simp [instEdge, Option.map_map, Function.comp_def]

/-- `f'` is `f` with instructions that do not branch put before `j`, and each instruction
`S` does not name leaving as it did. -/
structure EdgesKept (S : Inst → Prop) (j : Inst) (L : List Inst) (f f' : Function) : Prop where
  ebbs : f'.layout.ebbs = f.layout.ebbs
  layout : ∀ e ∈ f.layout.ebbs, f'.layout.ebbInsts e = insertBeforeAll (f.layout.ebbInsts e) j L
  added : ∀ i ∈ L, instEdge f' i = none
  kept : ∀ i ∈ f.layout.allInsts, ¬S i → instEdge f' i = instEdge f i

namespace EdgesKept

variable {S : Inst → Prop} {j : Inst} {L : List Inst} {f g h : Function}

/-- A function with the layout and the exits of `f`. -/
theorem of_instEdge (hl : g.layout = f.layout) (hk : ∀ i, instEdge g i = instEdge f i) :
    EdgesKept S j [] f g where
  ebbs := by rw [hl]
  layout _ _ := by rw [hl, insertBeforeAll_nil]
  added := by simp
  kept i _ _ := hk i

theorem of_same (hk : EdgesKept S j L g h) (hl : g.layout = f.layout)
    (he : ∀ i, instEdge g i = instEdge f i) : EdgesKept S j L f h where
  ebbs := hk.ebbs.trans (by rw [hl])
  layout e he' := by
    rw [← hl] at he' ⊢
    exact hk.layout e he'
  added := hk.added
  kept i hi hS := (hk.kept i (by rw [hl]; exact hi) hS).trans (he i)

/-- An EBB none of whose instructions `S` names keeps its edges, and the
branches the control-flow graph lists for it. -/
theorem ebb (hk : EdgesKept S j L f g) {e : Ebb} (he : e ∈ f.layout.ebbs)
    (hS : ∀ i ∈ f.layout.ebbInsts e, ¬S i) :
    ebbEdges g e = ebbEdges f e ∧ ebbBranches g e = ebbBranches f e := by
  have hi : ∀ i ∈ f.layout.ebbInsts e, instEdge g i = instEdge f i :=
    fun i hi => hk.kept i (List.mem_flatMap.2 ⟨e, he, hi⟩) (hS i hi)
  constructor
  · rw [ebbEdges, ebbEdges, hk.layout e he, filterMap_insertBeforeAll _ _ hk.added]
    exact List.filterMap_congr hi
  · rw [ebbBranches_eq, ebbBranches_eq, hk.layout e he,
      filterMap_insertBeforeAll _ _ fun i h' => by simp [hk.added i h']]
    exact List.filterMap_congr fun i h' => by rw [hi i h']

end EdgesKept

/-! ## The exits each rewrite keeps -/

theorem rewriteInst_instEdge (rw : DataFlowGraph → InstructionData → Option InstructionData)
    (hrw : ∀ dfg d d', rw dfg d = some d' → KeepsExit d d') (j : Inst) (pos : FuncCursor)
    (i : Inst) : instEdge (rewriteInst rw j pos).2.func i = instEdge pos.func i := by
  by_cases hi : i = j
  · subst hi; exact instEdge_of_keepsExit (rewriteInst_keepsExit rw hrw i pos)
  · simp only [instEdge, rewriteInst_insts, if_neg hi]

/-- The div/rem rewrite at `j` keeps the exit of every instruction there was,
and adds instructions that do not branch. -/
theorem doDivremTransformation_edgesKept (mn : MagicNumbers) {info : DivRemByConstInfo}
    {pos : FuncCursor} {e : Ebb} {j : Inst} (hpos : pos.position = .At j)
    (he : e ∈ pos.func.layout.ebbs) (hj : j ∈ pos.func.layout.ebbInsts e)
    (hinfo : getDivInfo j pos.func.dfg = some info) :
    ∃ L, EdgesKept (fun _ => False) j L pos.func (doDivremTransformation mn info j pos).2.func := by
  have hjm := List.mem_flatMap.2 ⟨e, he, hj⟩
  obtain ⟨-, ⟨L, ed⟩, hb⟩ :=
    doDivremTransformation_builds mn info pos hpos (pos.func.wf.insts_lt j hjm)
  refine ⟨L, ed.ebbs, ed.layout, fun i hi => ?_, fun i hi _ => ?_⟩
  · have hm : i ∈ (doDivremTransformation mn info j pos).2.func.layout.allInsts :=
      List.mem_flatMap.2 ⟨e, by rw [ed.ebbs]; exact he,
        by rw [ed.layout e he]; exact mem_insertBeforeAll_of_mem hj hi⟩
    rcases doDivremTransformation_writes mn info pos i
      ((doDivremTransformation mn info j pos).2.func.wf.insts_lt i hm) with ⟨hlt, -⟩ | ht
    · exact absurd hlt (Nat.not_lt.2 (ed.fresh i hi))
    · simp [instEdge, InstructionData.branchDestination_of_trapFree ht]
  · by_cases hij : i = j
    · subst hij
      exact instEdge_of_keepsExit (hb.elim (KeepsExit.of_none (getDivInfo_branchDestination hinfo))
        fun h => h ▸ KeepsExit.refl _)
    · simp only [instEdge, ed.insts i (pos.func.wf.insts_lt i hi) hij]

/-! ## What `branch_order` changes -/

section BranchOrder

variable (pos : FuncCursor) (cfg : ControlFlowGraph) {ebb : Ebb} {J : Inst}

/-- `branch_order` changes nothing, or recomputes the EBB it was given. -/
theorem branchOrder_cfg (ebb : Ebb) (J : Inst) :
    branchOrder pos cfg ebb J = (pos, cfg) ∨
      (branchOrder pos cfg ebb J).2 = cfg.recomputeEbb (branchOrder pos cfg ebb J).1.func ebb := by
  unfold branchOrder
  split
  · exact .inl rfl
  · exact .inr rfl

theorem listPrev_of_prevInst {f : Function} {P : Inst} (he : ebb ∈ f.layout.ebbs)
    (hJ : J ∈ f.layout.ebbInsts ebb) (h : f.layout.prevInst J = some P) :
    listPrev (f.layout.ebbInsts ebb) J = some P := by
  simpa [Layout.prevInst, f.wf.instEbb_eq he hJ] using h

variable {pos}

/-- `branch_order` at `J` keeps the exits of every instruction outside `J`'s EBB. -/
theorem branchOrder_edgesKept (he : ebb ∈ pos.func.layout.ebbs) (hJ : J ∈ pos.func.layout.ebbInsts ebb) :
    EdgesKept (· ∈ pos.func.layout.ebbInsts ebb) J [] pos.func (branchOrder pos cfg ebb J).1.func where
  ebbs := by simp
  layout _ _ := by simp [insertBeforeAll_nil]
  added := by simp
  kept i hm hi := by
    have hne : ¬(i = J ∨ pos.func.layout.prevInst J = some i) := by
      rintro (rfl | hp)
      · exact hi hJ
      · exact hi (listPrev_mem (listPrev_of_prevInst he hJ hp))
    simp only [instEdge, (branchOrder_edit pos cfg ebb J).insts i (pos.func.wf.insts_lt i hm) hne]

/-- `branch_order` at `J` permutes the edges of `J`'s EBB: the swapped pair trades its exits. -/
theorem branchOrder_ebbEdges_perm (he : ebb ∈ pos.func.layout.ebbs)
    (hJ : J ∈ pos.func.layout.ebbInsts ebb) :
    (ebbEdges (branchOrder pos cfg ebb J).1.func ebb).Perm (ebbEdges pos.func ebb) := by
  cases hprev : pos.func.layout.prevInst J with
  | none => rw [branchOrder_of_prevInst_none cfg hprev]
  | some P =>
    by_cases hs : SwapsAt pos.func ebb P J
    swap
    · rw [branchOrder_of_not_swapsAt cfg hprev hs]
    obtain ⟨T, argsJ, D, hJd, hn, hT, hP⟩ := hs
    obtain ⟨hPd, -, hPJ⟩ := condBranch_shape hP
    obtain ⟨hJ', hPd', hPa'⟩ := branchOrder_swapped pos cfg hprev
      (fun h => hPJ T argsJ (h ▸ hJd)) hJd hn hT hP
    obtain ⟨pre, suf, hl⟩ := listPrev_split (listPrev_of_prevInst he hJ hprev)
    -- the pair stands nowhere else in the EBB
    have hnd : (P :: J :: (pre ++ suf)).Nodup :=
      (hl ▸ pos.func.wf.ebbInsts_nodup he).perm (List.perm_middle.trans (List.perm_middle.cons P))
    have hPn : P ∉ pre ++ suf := fun h => (List.nodup_cons.1 hnd).1 (List.mem_cons_of_mem _ h)
    have hJn : J ∉ pre ++ suf := (List.nodup_cons.1 (List.nodup_cons.1 hnd).2).1
    have hrest : ∀ i ∈ pre ++ suf,
        instEdge (branchOrder pos cfg ebb J).1.func i = instEdge pos.func i := by
      intro i hi
      have hm : i ∈ pos.func.layout.allInsts := List.mem_flatMap.2 ⟨ebb, he, by
        rcases List.mem_append.1 hi with h | h <;> simp [hl, h]⟩
      simp only [instEdge, (branchOrder_edit pos cfg ebb J).insts i (pos.func.wf.insts_lt i hm)
        (by rintro (h | h); exacts [hJn (h ▸ hi), hPn (Option.some.inj (hprev.symm.trans h) ▸ hi)])]
    rw [ebbEdges, ebbEdges, branchOrder_layout, hl]
    exact filterMap_swap_perm hrest (by simp only [instEdge, hPd', hPa', hJd]; rfl)
      (by simp only [instEdge, hJ', hPd]; rfl)

end BranchOrder

/-! ## One turn -/

/-- One turn keeps every exit and adds no branch, or `branch_order` permutes the edges of
one EBB and recomputes it in the graph. -/
theorem preoptInst_edges (mn : MagicNumbers) (e : Ebb) (j : Inst) (pos : FuncCursor)
    (cfg : ControlFlowGraph) (he : e ∈ pos.func.layout.ebbs) (hj : j ∈ pos.func.layout.ebbInsts e)
    (hpos : pos.position = .At j) :
    (∃ L, EdgesKept (fun _ => False) j L pos.func (preoptInst mn e j pos cfg).1.func ∧
      (preoptInst mn e j pos cfg).2 = cfg) ∨
    (EdgesKept (· ∈ pos.func.layout.ebbInsts e) j [] pos.func (preoptInst mn e j pos cfg).1.func ∧
      (preoptInst mn e j pos cfg).2 = cfg.recomputeEbb (preoptInst mn e j pos cfg).1.func e ∧
      (ebbEdges (preoptInst mn e j pos cfg).1.func e).Perm (ebbEdges pos.func e)) := by
  have hk₁ := rewriteInst_instEdge simplifyData (fun _ _ _ => simplifyData_keepsExit) j pos
  have hl₁ : (simplify j pos).2.func.layout = pos.func.layout := rewriteInst_layout _ _ _
  have hpos₁ : (simplify j pos).2.position = .At j := (rewriteInst_position _ _ _).trans hpos
  unfold preoptInst
  dsimp only
  split
  · rename_i info hinfo
    obtain ⟨L, h⟩ := doDivremTransformation_edgesKept mn hpos₁ (hl₁ ▸ he) (hl₁ ▸ hj) hinfo
    exact .inl ⟨L, h.of_same hl₁ hk₁, rfl⟩
  · have hk₂ : ∀ i, instEdge (branchOpt j (simplify j pos).2).2.func i = instEdge pos.func i :=
      fun i => (rewriteInst_instEdge branchOptData (fun _ _ _ => branchOptData_keepsExit) j _ i).trans
        (hk₁ i)
    have hl₂ : (branchOpt j (simplify j pos).2).2.func.layout = pos.func.layout :=
      (rewriteInst_layout _ _ _).trans hl₁
    rcases branchOrder_cfg (branchOpt j (simplify j pos).2).2 cfg e j with h | h
    · rw [h]; exact .inl ⟨[], EdgesKept.of_instEdge hl₂ hk₂, rfl⟩
    · have hk₃ := branchOrder_edgesKept cfg (hl₂ ▸ he) (hl₂ ▸ hj)
      rw [hl₂] at hk₃
      have hE : ebbEdges (branchOpt j (simplify j pos).2).2.func e = ebbEdges pos.func e := by
        rw [ebbEdges, ebbEdges, hl₂]
        exact List.filterMap_congr fun i _ => hk₂ i
      exact .inr ⟨hk₃.of_same hl₂ hk₂, h,
        hE ▸ branchOrder_ebbEdges_perm cfg (hl₂ ▸ he) (hl₂ ▸ hj)⟩

/-- A turn keeps the EBBs, and permutes the edges of each. -/
theorem preoptInst_ebbEdges_perm (mn : MagicNumbers) (e : Ebb) (j : Inst) (pos : FuncCursor)
    (cfg : ControlFlowGraph) (he : e ∈ pos.func.layout.ebbs) (hj : j ∈ pos.func.layout.ebbInsts e)
    (hpos : pos.position = .At j) :
    (preoptInst mn e j pos cfg).1.func.layout.ebbs = pos.func.layout.ebbs ∧
      ∀ e' ∈ pos.func.layout.ebbs,
        (ebbEdges (preoptInst mn e j pos cfg).1.func e').Perm (ebbEdges pos.func e') := by
  rcases preoptInst_edges mn e j pos cfg he hj hpos with ⟨L, hk, -⟩ | ⟨hk, -, hp⟩
  · exact ⟨hk.ebbs, fun e' he' => by rw [(hk.ebb he' fun _ _ h => h).1]⟩
  · refine ⟨hk.ebbs, fun e' he' => ?_⟩
    by_cases hee : e' = e
    · subst hee; exact hp
    · rw [(hk.ebb he' fun i hi hie => hee (pos.func.wf.ebb_unique he' he hi hie)).1]

/-- `cfg` lists, for each EBB of `func`, the branches in it and where each goes. -/
def ControlFlowGraph.Matches (cfg : ControlFlowGraph) (func : Function) : Prop :=
  ∀ e ∈ func.layout.ebbs, cfg.succs e = ebbBranches func e

/-- A turn keeps the control-flow graph in step with the function. -/
theorem preoptInst_matches (mn : MagicNumbers) (e : Ebb) (j : Inst) (pos : FuncCursor)
    (cfg : ControlFlowGraph) (he : e ∈ pos.func.layout.ebbs) (hj : j ∈ pos.func.layout.ebbInsts e)
    (hpos : pos.position = .At j) (h : cfg.Matches pos.func) :
    (preoptInst mn e j pos cfg).2.Matches (preoptInst mn e j pos cfg).1.func := by
  intro e' he'
  rcases preoptInst_edges mn e j pos cfg he hj hpos with ⟨L, hk, hc⟩ | ⟨hk, hc, -⟩ <;>
    rw [hk.ebbs] at he'
  · rw [hc, h e' he', (hk.ebb he' fun _ _ h => h).2]
  · rw [hc]
    by_cases hee : e' = e
    · subst hee; simp [ControlFlowGraph.recomputeEbb]
    · simp only [ControlFlowGraph.recomputeEbb, if_neg hee]
      rw [h e' he', (hk.ebb he' fun i hi hie => hee (pos.func.wf.ebb_unique he' he hi hie)).2]

/-! ## The whole pass -/

/-- `do_preopt` keeps the control-flow graph in step with the function: a graph listing the
branches of every EBB still does for the function the pass returns. -/
theorem doPreopt_keeps_cfg (mn : MagicNumbers) (func : Function) (cfg : ControlFlowGraph)
    (h : ∀ e ∈ func.layout.ebbs, cfg.succs e = ebbBranches func e) :
    ∀ e ∈ (doPreopt mn func cfg).1.layout.ebbs,
      (doPreopt mn func cfg).2.succs e = ebbBranches (doPreopt mn func cfg).1 e := by
  rw [doPreopt_eq_visitTurns]
  exact visitTurns_induct mn (fun _ f c => c.Matches f)
    (fun e j _ pos c he hj hpos h => preoptInst_matches mn e j pos c he hj hpos h) _ _ _
    (fun _ ht => Layout.mem_instOrder ht) h

theorem brzThenJump_keeps_cfg :
    (∀ e ∈ brzThenJump.layout.ebbs,
      (⟨ebbBranches brzThenJump⟩ : ControlFlowGraph).succs e = ebbBranches brzThenJump e) ∧
    ∀ e ∈ (doPreopt roundUpMagic brzThenJump ⟨ebbBranches brzThenJump⟩).1.layout.ebbs,
      (doPreopt roundUpMagic brzThenJump ⟨ebbBranches brzThenJump⟩).2.succs e =
        ebbBranches (doPreopt roundUpMagic brzThenJump ⟨ebbBranches brzThenJump⟩).1 e :=
  ⟨fun _ _ => rfl, doPreopt_keeps_cfg roundUpMagic brzThenJump _ fun _ _ => rfl⟩

/-- `do_preopt` keeps the control flow: each EBB leaves for the same EBBs with the same
block arguments, in another order at most. -/
theorem doPreopt_keeps_edges (mn : MagicNumbers) (func : Function) (cfg : ControlFlowGraph) :
    ∀ e ∈ func.layout.ebbs, (ebbEdges (doPreopt mn func cfg).1 e).Perm (ebbEdges func e) := by
  rw [doPreopt_eq_visitTurns]
  refine (visitTurns_induct mn (fun _ f _ => f.layout.ebbs = func.layout.ebbs ∧
      ∀ e ∈ func.layout.ebbs, (ebbEdges f e).Perm (ebbEdges func e))
    (fun e j _ pos c he hj hpos h => ?_) _ (FuncCursor.new func) cfg
    (fun _ ht => Layout.mem_instOrder ht) ⟨rfl, fun _ _ => .refl _⟩).2
  obtain ⟨hs, hp⟩ := preoptInst_ebbEdges_perm mn e j pos c he hj hpos
  exact ⟨hs.trans h.1, fun e' he' => (hp e' (h.1 ▸ he')).trans (h.2 e' he')⟩

theorem brzThenJump_keeps_edges :
    (⟨0⟩ : Ebb) ∈ brzThenJump.layout.ebbs ∧
      (ebbEdges (doPreopt roundUpMagic brzThenJump ⟨fun _ => []⟩).1 ⟨0⟩).Perm
        (ebbEdges brzThenJump ⟨0⟩) :=
  have he : (⟨0⟩ : Ebb) ∈ brzThenJump.layout.ebbs := by decide
  ⟨he, doPreopt_keeps_edges roundUpMagic brzThenJump _ ⟨0⟩ he⟩

end simple_preopt
