import SimplePreopt.Preopt
-- What one turn may change: fresh instructions just before the cursor's `j`, and the data
-- of the instructions of `j`'s EBB; everything else stays.

namespace simple_preopt

open FuncCursor

/-! ## Inserting before one instruction -/

/-- `l` with the instructions `L` put just before `j`. -/
def insertBeforeAll (l : List Inst) (j : Inst) (L : List Inst) : List Inst :=
  l.flatMap fun i => if i = j then L ++ [j] else [i]

@[simp] theorem insertBeforeAll_cons (a : Inst) (t : List Inst) (j : Inst) (L : List Inst) :
    insertBeforeAll (a :: t) j L = (if a = j then L ++ [j] else [a]) ++ insertBeforeAll t j L :=
  List.flatMap_cons _ _ _

@[simp] theorem insertBeforeAll_append (l₁ l₂ : List Inst) (j : Inst) (L : List Inst) :
    insertBeforeAll (l₁ ++ l₂) j L = insertBeforeAll l₁ j L ++ insertBeforeAll l₂ j L :=
  List.flatMap_append _ _ _

theorem insertBeforeAll_nil (l : List Inst) (j : Inst) : insertBeforeAll l j [] = l := by
  induction l with
  | nil => rfl
  | cons a t ih => by_cases h : a = j <;> simp [h, ih]

theorem insertBeforeAll_of_not_mem {l : List Inst} {j : Inst} (L : List Inst) (h : j ∉ l) :
    insertBeforeAll l j L = l := by
  induction l with
  | nil => rfl
  | cons a t ih =>
    simp only [List.mem_cons, not_or] at h
    simp [Ne.symm h.1, ih h.2]

theorem insertBeforeAll_middle {l₁ l₂ : List Inst} {j : Inst} (L : List Inst) (h₁ : j ∉ l₁)
    (h₂ : j ∉ l₂) : insertBeforeAll (l₁ ++ j :: l₂) j L = l₁ ++ L ++ j :: l₂ := by
  simp [insertBeforeAll_of_not_mem L h₁, insertBeforeAll_of_not_mem L h₂]

theorem insertBeforeAll_trans (l : List Inst) {j : Inst} {L₁ : List Inst} (L₂ : List Inst)
    (h : j ∉ L₁) : insertBeforeAll (insertBeforeAll l j L₁) j L₂ = insertBeforeAll l j (L₁ ++ L₂) := by
  induction l with
  | nil => rfl
  | cons a t ih =>
    by_cases ha : a = j
    · subst ha; simp [ih, insertBeforeAll_of_not_mem L₂ h]
    · simp [ha, ih]

/-- `insert_inst` puts one instruction before `j` in a list that holds `j` once. -/
theorem insertBefore_eq {l : List Inst} (hl : l.Nodup) (j y : Inst) :
    insertBefore l j y = insertBeforeAll l j [y] := by
  induction l with
  | nil => rfl
  | cons a t ih =>
    rw [List.nodup_cons] at hl
    unfold insertBefore
    split
    · subst_vars
      simp [insertBeforeAll_of_not_mem [y] hl.1]
    · rename_i h
      simp [h, ih hl.2]

/-! ## What an edit at `j` may change -/

/-- `f'` is `f` with the fresh instructions `L` put just before `j`, the data
changed only of instructions that `S` allows, and nothing else changed. -/
structure Edit (S : Inst → Prop) (j : Inst) (L : List Inst) (f f' : Function) : Prop where
  ebbs : f'.layout.ebbs = f.layout.ebbs
  layout : ∀ e ∈ f.layout.ebbs, f'.layout.ebbInsts e = insertBeforeAll (f.layout.ebbInsts e) j L
  fresh : ∀ i ∈ L, f.dfg.instCount ≤ i.idx
  inst_count : f.dfg.instCount ≤ f'.dfg.instCount
  value_count : f.dfg.valueCount ≤ f'.dfg.valueCount
  insts : ∀ i : Inst, i.idx < f.dfg.instCount → ¬S i → f'.dfg.insts i = f.dfg.insts i
  results : ∀ i : Inst, i.idx < f.dfg.instCount → f'.dfg.results i = f.dfg.results i
  types : ∀ v : Value, v.idx < f.dfg.valueCount → f'.dfg.valueTypes v = f.dfg.valueTypes v
  defs : ∀ v : Value, v.idx < f.dfg.valueCount → f'.dfg.valueDefs v = f.dfg.valueDefs v

namespace Edit

variable {S S' : Inst → Prop} {j : Inst} {L L₁ L₂ : List Inst} {f g h : Function}

theorem refl (S : Inst → Prop) (j : Inst) (f : Function) : Edit S j [] f f where
  ebbs := rfl
  layout e _ := (insertBeforeAll_nil _ _).symm
  fresh := by simp
  inst_count := le_refl _
  value_count := le_refl _
  insts _ _ _ := rfl
  results _ _ := rfl
  types _ _ := rfl
  defs _ _ := rfl

theorem mono (hS : ∀ i, S i → S' i) (e : Edit S j L f g) : Edit S' j L f g :=
  { e with insts := fun i hi h => e.insts i hi fun h' => h (hS i h') }

theorem trans (hj : j.idx < f.dfg.instCount) (e₁ : Edit S j L₁ f g) (e₂ : Edit S j L₂ g h) :
    Edit S j (L₁ ++ L₂) f h where
  ebbs := e₂.ebbs.trans e₁.ebbs
  layout e he := by
    rw [e₂.layout e (e₁.ebbs ▸ he), e₁.layout e he]
    exact insertBeforeAll_trans _ _ fun hm => by have := e₁.fresh j hm; omega
  fresh i hi := by
    rcases List.mem_append.1 hi with hi | hi
    · exact e₁.fresh i hi
    · have := e₂.fresh i hi; have := e₁.inst_count; omega
  inst_count := e₁.inst_count.trans e₂.inst_count
  value_count := e₁.value_count.trans e₂.value_count
  insts i hi hs := (e₂.insts i (by have := e₁.inst_count; omega) hs).trans (e₁.insts i hi hs)
  results i hi := (e₂.results i (by have := e₁.inst_count; omega)).trans (e₁.results i hi)
  types v hv := (e₂.types v (by have := e₁.value_count; omega)).trans (e₁.types v hv)
  defs v hv := (e₂.defs v (by have := e₁.value_count; omega)).trans (e₁.defs v hv)

end Edit

/-! ## Builder programs at the cursor -/

/-- A builder program at `j` keeps the cursor there and edits only `j`, putting what it adds
just before `j`. -/
def Builds {α : Type} (j : Inst) (prog : StateM FuncCursor α) : Prop :=
  ∀ pos : FuncCursor, pos.position = .At j → j.idx < pos.func.dfg.instCount →
    (prog pos).2.position = .At j ∧ (∃ L, Edit (· = j) j L pos.func (prog pos).2.func) ∧
    (((prog pos).2.func.dfg.insts j).branchDestination = none ∨
      (prog pos).2.func.dfg.insts j = pos.func.dfg.insts j)

namespace Builds

variable {j : Inst}

theorem pure {α : Type} (a : α) : Builds j (Pure.pure a : StateM FuncCursor α) :=
  fun pos hp _ => ⟨hp, ⟨[], Edit.refl _ j pos.func⟩, .inr rfl⟩

theorem bind {α β : Type} {p : StateM FuncCursor α} {q : α → StateM FuncCursor β}
    (hp : Builds j p) (hq : ∀ a, Builds j (q a)) : Builds j (p >>= q) := by
  intro pos hpos hj
  obtain ⟨hpos₁, ⟨L₁, e₁⟩, b₁⟩ := hp pos hpos hj
  obtain ⟨hpos₂, ⟨L₂, e₂⟩, b₂⟩ := hq (p pos).1 (p pos).2 hpos₁ (by have := e₁.inst_count; omega)
  refine ⟨hpos₂, ⟨L₁ ++ L₂, e₁.trans hj e₂⟩, ?_⟩
  show ((q (p pos).1 (p pos).2).2.func.dfg.insts j).branchDestination = none ∨
    (q (p pos).1 (p pos).2).2.func.dfg.insts j = pos.func.dfg.insts j
  rcases b₂ with b₂ | b₂
  · exact .inl b₂
  · rw [b₂]; exact b₁

theorem ite {α : Type} {c : Prop} [Decidable c] {p q : StateM FuncCursor α} (hp : Builds j p)
    (hq : Builds j q) : Builds j (if c then p else q) := by
  split
  · exact hp
  · exact hq

/-- `pos.ins()` with one result: the new instruction goes just before `j`. -/
theorem ins (d : InstructionData) (ty : FuncCursor → Ty) :
    Builds j (fun pos => FuncCursor.ins d (ty pos) pos) := by
  intro pos hpos hj
  have hl : (FuncCursor.ins d (ty pos) pos).2.func.layout =
      pos.func.layout.insertInst ⟨pos.func.dfg.instCount⟩ j := by
    show pos.func.layout.insertAt pos.position _ = _
    rw [hpos]; rfl
  refine ⟨hpos, ⟨[⟨pos.func.dfg.instCount⟩], ?_⟩, .inr (if_neg (Inst.ne_of_idx_lt hj))⟩
  refine ⟨by rw [hl]; exact Layout.insertInst_ebbs _ _ _, fun e he => ?_, by simp, Nat.le_succ _,
    Nat.le_succ _, fun i hi _ => if_neg (Inst.ne_of_idx_lt hi), fun i hi => if_neg (Inst.ne_of_idx_lt hi),
    fun v hv => if_neg (Value.ne_of_idx_lt hv), fun v hv => if_neg (Value.ne_of_idx_lt hv)⟩
  rw [hl]
  cases h₀ : pos.func.layout.instEbb j with
  | some e₀ =>
    rw [Layout.insertInst_ebbInsts h₀]
    split
    · subst_vars
      exact insertBefore_eq (pos.func.wf.ebbInsts_nodup he) _ _
    · rename_i hne'
      refine (insertBeforeAll_of_not_mem _ fun hm => hne' ?_).symm
      have := pos.func.wf.instEbb_eq he hm
      rw [h₀] at this; exact (Option.some.inj this).symm
  | none =>
    have : pos.func.layout.insertInst ⟨pos.func.dfg.instCount⟩ j = pos.func.layout := by
      simp [Layout.insertInst, h₀]
    rw [this]
    refine (insertBeforeAll_of_not_mem _ fun hm => ?_).symm
    rw [pos.func.wf.instEbb_eq he hm] at h₀; simp at h₀

/-- `pos.func.dfg.replace(j)` with data that is not a branch. -/
theorem replace {d : InstructionData} (hd : d.branchDestination = none) :
    Builds j (FuncCursor.replace j d) := by
  intro pos hpos _
  refine ⟨hpos, ⟨[], rfl, fun e _ => (insertBeforeAll_nil _ _).symm, by simp, le_refl _,
    le_refl _, fun i _ hi => ?_, fun _ _ => rfl, fun _ _ => rfl, fun _ _ => rfl⟩, .inl ?_⟩
  · simp [FuncCursor.replace, hi]
  · simp [FuncCursor.replace, hd]

end Builds

/-! ## The div/rem rewrite is a builder program at the instruction -/

section Divrem

variable {inst : Inst}

theorem finishDivrem_builds (is_rem : Bool) (n1 qf : Value) (d : Imm64) :
    Builds inst (finishDivrem is_rem inst n1 qf d) := by
  unfold finishDivrem
  split
  · exact Builds.bind (Builds.ins _ _) fun _ => Builds.replace rfl
  · exact Builds.replace rfl

theorem unsignedQuotient_builds {w : Nat} (ty : Ty) (m : MU w) (n1 : Value) :
    Builds inst (unsignedQuotient ty m n1) := by
  unfold unsignedQuotient
  refine Builds.bind (Builds.ins _ fun _ => ty) fun _ => Builds.bind (Builds.ins _ _) fun _ =>
    Builds.ite ?_ (Builds.ite (Builds.ins _ _) (Builds.pure _))
  exact Builds.bind (Builds.ins _ _) fun _ => Builds.bind (Builds.ins _ _) fun _ =>
    Builds.bind (Builds.ins _ _) fun _ => Builds.ins _ _

theorem signedBias_builds (w : Nat) (n1 : Value) (k : Nat) :
    Builds inst (signedBias w n1 k) :=
  Builds.bind (Builds.ite (Builds.pure _) (Builds.ins _ _)) fun _ =>
    Builds.bind (Builds.ins _ _) fun _ => Builds.ins _ _

theorem signedQuotient_builds {w : Nat} (ty : Ty) (m : MS w) (to_imm : BitVec w → Imm64)
    (n1 : Value) (d : BitVec w) : Builds inst (signedQuotient ty m to_imm n1 d) :=
  Builds.bind (Builds.ins _ fun _ => ty) fun _ => Builds.bind (Builds.ins _ _) fun _ =>
    Builds.bind (Builds.ite (Builds.ins _ _) (Builds.ite (Builds.ins _ _) (Builds.pure _))) fun _ =>
      Builds.bind (Builds.ite (Builds.pure _) (Builds.ins _ _)) fun _ =>
        Builds.bind (Builds.ins _ _) fun _ => Builds.ins _ _

theorem divremUnsigned_builds (w : Nat) (ty : Ty) (magic : BitVec w → MU w) (is_rem : Bool)
    (n1 : Value) (d : BitVec w) : Builds inst (divremUnsigned w ty magic is_rem n1 d inst) := by
  unfold divremUnsigned
  refine Builds.ite (Builds.pure _) (Builds.ite (Builds.ite (Builds.replace rfl) (Builds.replace rfl))
    (Builds.ite (Builds.ite (Builds.replace rfl) (Builds.replace rfl)) ?_))
  exact Builds.bind (unsignedQuotient_builds _ _ _) fun _ => finishDivrem_builds _ _ _ _

theorem divremSigned_builds (w : Nat) (ty : Ty) (magic : BitVec w → MS w)
    (is_power_of_two : BitVec w → Option (Bool × Nat)) (to_imm : BitVec w → Imm64)
    (is_rem : Bool) (n1 : Value) (d : BitVec w) :
    Builds inst (divremSigned w ty magic is_power_of_two to_imm is_rem n1 d inst) := by
  unfold divremSigned
  refine Builds.ite (Builds.pure _) (Builds.ite (Builds.ite (Builds.replace rfl) (Builds.replace rfl)) ?_)
  split
  · exact Builds.bind (signedBias_builds _ _ _) fun _ =>
      Builds.ite (Builds.bind (Builds.ins _ _) fun _ => Builds.replace rfl)
        (Builds.bind (Builds.ins _ _) fun _ => Builds.ite (Builds.replace rfl) (Builds.replace rfl))
  · exact Builds.bind (signedQuotient_builds _ _ _ _ _) fun _ => finishDivrem_builds _ _ _ _

theorem doDivremTransformation_builds (mn : MagicNumbers) (info : DivRemByConstInfo) :
    Builds inst (doDivremTransformation mn info inst) := by
  cases info <;> first
    | exact divremUnsigned_builds _ _ _ _ _ _
    | exact divremSigned_builds _ _ _ _ _ _ _ _

end Divrem

/-! ## One turn of the pass -/

/-- A rewrite in place edits only its instruction. -/
theorem rewriteInst_edit (rw : DataFlowGraph → InstructionData → Option InstructionData)
    (j : Inst) (pos : FuncCursor) :
    (rewriteInst rw j pos).2.position = pos.position ∧
      Edit (· = j) j [] pos.func (rewriteInst rw j pos).2.func := by
  refine ⟨by simp, by simp, fun e _ => by simp [insertBeforeAll_nil], by simp, ?_, ?_,
    fun i _ hi => by simp [rewriteInst_insts, hi], by simp, by simp, by simp⟩ <;>
    (unfold rewriteInst; split <;> exact le_refl _)

theorem listPrev_mem {l : List Inst} {x p : Inst} (h : listPrev l x = some p) : p ∈ l := by
  induction l with
  | nil => cases h
  | cons a t ih =>
    cases t with
    | nil => cases h
    | cons b t' =>
      unfold listPrev at h
      split at h
      · cases h; exact List.mem_cons_self _ _
      · exact List.mem_cons_of_mem _ (ih h)

@[simp] theorem swapTerminators_instCount (info : BranchOrderInfo) (pos : FuncCursor) :
    (swapTerminators info pos).2.func.dfg.instCount = pos.func.dfg.instCount := by
  rcases info with ⟨_, _, _, _, _, _, k⟩; cases k <;> rfl

@[simp] theorem swapTerminators_valueCount (info : BranchOrderInfo) (pos : FuncCursor) :
    (swapTerminators info pos).2.func.dfg.valueCount = pos.func.dfg.valueCount := by
  rcases info with ⟨_, _, _, _, _, _, k⟩; cases k <;> rfl

theorem swapTerminators_insts_of_ne (info : BranchOrderInfo) (pos : FuncCursor) {i : Inst}
    (h₁ : i ≠ info.term_inst) (h₂ : i ≠ info.cond_inst) :
    (swapTerminators info pos).2.func.dfg.insts i = pos.func.dfg.insts i := by
  rcases info with ⟨_, _, _, _, _, _, k⟩
  cases k <;> simp_all [swapTerminators, FuncCursor.replace, bind, StateT.bind]

/-- `branch_order` at `j` edits `j` and the instruction before it. -/
theorem branchOrder_edit (pos : FuncCursor) (cfg : ControlFlowGraph) (ebb : Ebb) (j : Inst) :
    Edit (fun i => i = j ∨ pos.func.layout.prevInst j = some i) j [] pos.func
      (branchOrder pos cfg ebb j).1.func := by
  unfold branchOrder
  split
  · exact Edit.refl _ j pos.func
  · rename_i info hi
    obtain ⟨ht, hp⟩ := branchOrderInfo_insts hi
    refine ⟨by simp, fun e _ => by simp [insertBeforeAll_nil], by simp, by simp, by simp,
      fun i _ hi => swapTerminators_insts_of_ne info pos (fun h => hi (.inl (h.trans ht)))
        (fun h => hi (.inr (h ▸ hp))), by simp, by simp, by simp⟩

/-- One turn at `j` edits only `j` and the instruction before it, and inserts just before `j`. -/
theorem preoptInst_edit (mn : MagicNumbers) (ebb : Ebb) {j : Inst} (pos : FuncCursor)
    (cfg : ControlFlowGraph) (hpos : pos.position = .At j) (hjlt : j.idx < pos.func.dfg.instCount) :
    (preoptInst mn ebb j pos cfg).1.position = .At j ∧
      ∃ L, Edit (fun i => i = j ∨ pos.func.layout.prevInst j = some i) j L pos.func
        (preoptInst mn ebb j pos cfg).1.func := by
  have hin : ∀ i, i = j → i = j ∨ pos.func.layout.prevInst j = some i := fun i h => .inl h
  obtain ⟨hp₁, e₁⟩ : (simplify j pos).2.position = pos.position ∧
      Edit (· = j) j [] pos.func (simplify j pos).2.func := rewriteInst_edit simplifyData j pos
  have hlt₁ : j.idx < (simplify j pos).2.func.dfg.instCount := by have := e₁.inst_count; omega
  unfold preoptInst
  dsimp only
  split
  · obtain ⟨hp₂, ⟨L₂, e₂⟩, -⟩ := doDivremTransformation_builds mn _ _ (hp₁.trans hpos) hlt₁
    exact ⟨hp₂, [] ++ L₂, (e₁.trans hjlt e₂).mono hin⟩
  · obtain ⟨hp₂, e₂⟩ := rewriteInst_edit branchOptData j (simplify j pos).2
    have hl : (branchOpt j (simplify j pos).2).2.func.layout = pos.func.layout := by
      simp [branchOpt, simplify]
    have e₃ := branchOrder_edit (branchOpt j (simplify j pos).2).2 cfg ebb j
    rw [hl] at e₃
    refine ⟨by rw [branchOrder_position]; exact hp₂.trans (hp₁.trans hpos), [] ++ [] ++ [], ?_⟩
    exact ((e₁.trans hjlt e₂).mono hin).trans hjlt e₃

end simple_preopt
