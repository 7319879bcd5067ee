import SimplePreopt.Typing
import SimplePreopt.SsaRun
-- The pass keeps a function well typed: every instruction it changes or adds is typed,
-- and the values there were keep their types.

namespace simple_preopt

open FuncCursor

/-! ## The type rules read only types -/

theorem InstructionData.typedAs_congr {t t' : Value → Ty} {ty : Ty} {d : InstructionData}
    (h : ∀ a ∈ d.args, t' a = t a) : d.TypedAs t' ty ↔ d.TypedAs t ty := by
  cases d with
  | Unary op a =>
    cases op <;> simp [InstructionData.TypedAs, h a (by simp [InstructionData.args])]
  | Binary op ab =>
    obtain ⟨a, b⟩ := ab
    simp [InstructionData.TypedAs, h a (by simp [InstructionData.args]),
      h b (by simp [InstructionData.args])]
  | BinaryImm op a imm => simp [InstructionData.TypedAs, h a (by simp [InstructionData.args])]
  | IntCompare c ab =>
    obtain ⟨a, b⟩ := ab
    simp [InstructionData.TypedAs, h a (by simp [InstructionData.args]),
      h b (by simp [InstructionData.args])]
  | Ternary cab =>
    obtain ⟨c, a, b⟩ := cab
    simp [InstructionData.TypedAs, h a (by simp [InstructionData.args]),
      h b (by simp [InstructionData.args])]
  | _ => exact Iff.rfl

/-- An instruction whose operands all have type `t` is typed at `t`. -/
theorem InstructionData.typedAs_of_args {tyOf : Value → Ty} {t : Ty} {d : InstructionData}
    (h : ∀ a ∈ d.args, tyOf a = t) : d.TypedAs tyOf t := by
  cases d with
  | Unary op a =>
    cases op
    · trivial
    · exact h a (by simp [InstructionData.args])
  | Binary op ab =>
    obtain ⟨a, b⟩ := ab
    exact ⟨h a (by simp [InstructionData.args]), .inl (h b (by simp [InstructionData.args]))⟩
  | BinaryImm op a imm => exact h a (by simp [InstructionData.args])
  | IntCompare c ab =>
    obtain ⟨a, b⟩ := ab
    exact (h b (by simp [InstructionData.args])).trans (h a (by simp [InstructionData.args])).symm
  | Ternary cab =>
    obtain ⟨c, a, b⟩ := cab
    exact ⟨h a (by simp [InstructionData.args]), h b (by simp [InstructionData.args])⟩
  | _ => trivial

theorem InstructionData.ArgsTyped.transfer {dfg dfg' : DataFlowGraph} {d : InstructionData}
    (h : d.ArgsTyped dfg) (hp : dfg'.ebbParams = dfg.ebbParams)
    (hb : ∀ a ∈ d.blockArgs, dfg'.valueTypes a = dfg.valueTypes a)
    (hq : ∀ D ∈ d.branchDestination, ∀ u ∈ dfg.ebbParams D, dfg'.valueTypes u = dfg.valueTypes u) :
    d.ArgsTyped dfg' := fun D hD => by
  rw [hp, List.map_congr_left hb, List.map_congr_left (hq D hD)]
  exact h D hD

/-- Data that is not a branch passes no arguments. -/
theorem InstructionData.argsTyped_of_dest {dfg : DataFlowGraph} {d : InstructionData}
    (h : d.branchDestination = none) : d.ArgsTyped dfg := fun D hD => by
  rw [h] at hD; cases hD

/-- An edit keeps a function well typed when old values keep their types and each instruction
is unchanged or typed on its own. -/
theorem WellTyped.transfer {f f' : Function} (hf : WellFormed f) (ht : WellTyped f)
    (hp : f'.dfg.ebbParams = f.dfg.ebbParams)
    (htypes : ∀ u : Value, u.idx < f.dfg.valueCount → f'.dfg.valueTypes u = f.dfg.valueTypes u)
    (hinst : ∀ i ∈ f'.layout.allInsts,
      (i ∈ f.layout.allInsts ∧ f'.dfg.insts i = f.dfg.insts i ∧ f'.dfg.results i = f.dfg.results i) ∨
      ((∀ r ∈ f'.dfg.results i, (f'.dfg.insts i).TypedAs f'.dfg.valueTypes (f'.dfg.valueTypes r)) ∧
        (f'.dfg.insts i).ArgsTyped f'.dfg)) :
    WellTyped f' where
  result i hi r hr := by
    rcases hinst i hi with ⟨hi, hd, hres⟩ | ⟨h, -⟩
    · rw [hres] at hr
      rw [hd, htypes r (f.results_lt i r hr),
        InstructionData.typedAs_congr fun a ha => htypes a (hf.uses i hi a ha).lt]
      exact ht.result i hi r hr
    · exact h r hr
  branch i hi := by
    rcases hinst i hi with ⟨hi, hd, -⟩ | ⟨-, h⟩
    · rw [hd]
      exact (ht.branch i hi).transfer hp
        (fun a ha => htypes a (hf.uses i hi a (InstructionData.mem_args_of_mem_blockArgs ha)).lt)
        fun D _ u hu => htypes u (hf.param_def D u hu).1
    · exact h

/-- New data for `j`, typed at its result's type, with the arguments its destination takes. -/
theorem WellTyped.setInst {f : Function} (hf : WellFormed f) (ht : WellTyped f) {j : Inst}
    {d : InstructionData} (hT : ∀ r ∈ f.dfg.results j, d.TypedAs f.dfg.valueTypes (f.dfg.valueTypes r))
    (hB : d.ArgsTyped f.dfg) : WellTyped { f with dfg := f.dfg.setInst j d } :=
  ht.transfer hf rfl (fun _ _ => rfl) fun i hi => by
    by_cases hij : i = j
    · subst hij
      exact .inr ⟨by simpa using hT, by simpa using hB⟩
    · exact .inl ⟨hi, by simp [hij], rfl⟩

/-- `pos.ins()` of data typed at the new value's type, from values there were. -/
theorem WellTyped.ins {pos : FuncCursor} {j : Inst} (hpos : pos.position = .At j)
    (hj : j ∈ pos.func.layout.allInsts) (hf : WellFormed pos.func) (ht : WellTyped pos.func)
    {d : InstructionData} {ty : Ty} (hd : d.definesValue = true)
    (hT : d.TypedAs pos.func.dfg.valueTypes ty) (hargs : ∀ a ∈ d.args, a.idx < pos.func.dfg.valueCount) :
    WellTyped (FuncCursor.ins d ty pos).2.func := by
  have htypes : ∀ u : Value, u.idx < pos.func.dfg.valueCount →
      (FuncCursor.ins d ty pos).2.func.dfg.valueTypes u = pos.func.dfg.valueTypes u :=
    fun u hu => by rw [ins_valueTypes, if_neg (Value.ne_of_idx_lt hu)]
  refine ht.transfer hf rfl htypes fun i hi => ?_
  rcases (ins_allInsts d ty pos hpos hj i).1 hi with rfl | hi
  · refine .inr ⟨fun r hr => ?_, InstructionData.argsTyped_of_dest
      (by rw [ins_insts, if_pos rfl]; exact (InstructionData.fallsThrough_of_definesValue hd).2)⟩
    rw [ins_results, if_pos rfl] at hr
    cases hr
    rw [ins_insts, if_pos rfl, ins_valueTypes, if_pos rfl,
      InstructionData.typedAs_congr fun a ha => htypes a (hargs a ha)]
    exact hT
  · have hne := pos.func.wf.ne_of_mem hi
    exact .inl ⟨hi, by rw [ins_insts, if_neg hne], by rw [ins_results, if_neg hne]⟩

/-! ## The rewrites in place -/

/-- What `simplify` makes of data is typed wherever the data was, and goes
where the data went with the same arguments. -/
theorem simplifyData_typed {dfg : DataFlowGraph} {d d' : InstructionData}
    (h : simplifyData dfg d = some d') :
    (∀ tyOf t, d.TypedAs tyOf t → d'.TypedAs tyOf t) ∧
      d'.branchDestination = d.branchDestination ∧ d'.blockArgs = d.blockArgs := by
  rcases simplifyData_cases h with
    ⟨op, a, b, imm, op', imm', rfl, -, -, rfl⟩ | ⟨a, b, imm, rfl, -, -, rfl⟩ |
    ⟨cond, a, b, imm, rfl, -, rfl⟩ | ⟨op, c, b, rfl, -, rfl⟩ | ⟨op, dest, c, vs, b, rfl, -, rfl⟩ |
    ⟨c, x, y, b, rfl, -, rfl⟩
  · exact ⟨fun _ _ hT => hT.1, rfl, rfl⟩
  · -- `isub` is not a shift, so its right operand has the result's type
    exact ⟨fun _ _ hT => hT.2.resolve_right (by simp [BinaryOp.isShift]), rfl, rfl⟩
  -- `icmp_imm`, a trap and a branch take any operand types
  iterate 3 exact ⟨fun _ _ _ => trivial, rfl, rfl⟩
  exact ⟨fun _ _ hT => hT, rfl, rfl⟩

theorem branchOptData_typed {dfg : DataFlowGraph} {d d' : InstructionData}
    (h : branchOptData dfg d = some d') :
    (∀ tyOf t, d.TypedAs tyOf t → d'.TypedAs tyOf t) ∧
      d'.branchDestination = d.branchDestination ∧ d'.blockArgs = d.blockArgs := by
  obtain ⟨br, dest, c, vs, cmp_cond, a, op, rfl, -, -, rfl⟩ := branchOptData_cases h
  exact ⟨fun _ _ _ => trivial, rfl, rfl⟩

/-- A rewrite in place keeps the function well typed when the new data is typed and goes
where the old went. -/
theorem rewriteInst_wellTyped {rw : DataFlowGraph → InstructionData → Option InstructionData}
    {j : Inst} {pos : FuncCursor} (hf : WellFormed pos.func) (ht : WellTyped pos.func)
    (hj : j ∈ pos.func.layout.allInsts)
    (h : ∀ d, rw pos.func.dfg (pos.func.dfg.insts j) = some d →
      (∀ tyOf t, (pos.func.dfg.insts j).TypedAs tyOf t → d.TypedAs tyOf t) ∧
      d.branchDestination = (pos.func.dfg.insts j).branchDestination ∧
      d.blockArgs = (pos.func.dfg.insts j).blockArgs) :
    WellTyped (rewriteInst rw j pos).2.func := by
  unfold rewriteInst
  split
  · rename_i d hd
    obtain ⟨hT, hdest, hargs⟩ := h d hd
    refine ht.setInst hf (fun r hr => hT _ _ (ht.result j hj r hr)) fun D hD => ?_
    rw [hdest] at hD
    rw [hargs]
    exact ht.branch j hj D hD
  · exact ht

theorem simplify_wellTyped {j : Inst} {pos : FuncCursor} (hf : WellFormed pos.func)
    (ht : WellTyped pos.func) (hj : j ∈ pos.func.layout.allInsts) :
    WellTyped (simplify j pos).2.func :=
  rewriteInst_wellTyped hf ht hj fun _ hd => simplifyData_typed hd

theorem branchOpt_wellTyped {j : Inst} {pos : FuncCursor} (hf : WellFormed pos.func)
    (ht : WellTyped pos.func) (hj : j ∈ pos.func.layout.allInsts) :
    WellTyped (branchOpt j pos).2.func :=
  rewriteInst_wellTyped hf ht hj fun _ hd => branchOptData_typed hd

/-! ## The swap of `branch_order` -/

theorem InstructionData.definesValue_of_dest {d : InstructionData} {D : Ebb}
    (h : d.branchDestination = some D) : d.definesValue = false := by
  cases hv : d.definesValue
  · rfl
  · rw [(InstructionData.fallsThrough_of_definesValue hv).2] at h; cases h

/-- The swap moves each edge with its arguments. -/
theorem WellTyped.swap {f f' : Function} (hf : WellFormed f) (ht : WellTyped f) (hs : SameShape f f')
    (hty : f'.dfg.valueTypes = f.dfg.valueTypes) {P J : Inst} {T D : Ebb} {argsJ : List Value}
    (dP' : InstructionData) (hprev : f.layout.prevInst J = some P)
    (hJ : f.dfg.insts J = .Jump .Jump T argsJ) (hD : (f.dfg.insts P).branchDestination = some D)
    (hI : ∀ i, f'.dfg.insts i = if i = P then dP' else
      if i = J then .Jump .Jump D (f.dfg.insts P).blockArgs else f.dfg.insts i)
    (hT : dP'.branchDestination = some T) (hA : dP'.blockArgs = argsJ) : WellTyped f' := by
  obtain ⟨hP, hJm⟩ := Layout.prevInst_mem hprev
  have hnone : ∀ i, (f.dfg.insts i).definesValue = false → ∀ r ∈ f'.dfg.results i,
      (f'.dfg.insts i).TypedAs f'.dfg.valueTypes (f'.dfg.valueTypes r) := fun i hi r hr => by
    rw [hs.results, hf.no_result i hi] at hr; cases hr
  refine ht.transfer hf hs.ebbParams (fun u _ => by rw [hty]) fun i hi => ?_
  rw [hs.layout] at hi
  by_cases h₁ : i = P
  · subst h₁
    refine .inr ⟨hnone i (InstructionData.definesValue_of_dest hD), fun D' hD' => ?_⟩
    rw [hI, if_pos rfl, hT] at hD'
    obtain rfl := Option.some.inj hD'
    have hJt := ht.branch J hJm T (by rw [hJ]; rfl)
    rw [hJ] at hJt
    rw [hI, if_pos rfl, hA, hty, hs.ebbParams]
    exact hJt
  · by_cases h₂ : i = J
    · subst h₂
      refine .inr ⟨hnone i (by rw [hJ]; rfl), fun D' hD' => ?_⟩
      rw [hI, if_neg h₁, if_pos rfl] at hD'
      obtain rfl := Option.some.inj hD'
      rw [hI, if_neg h₁, if_pos rfl, hty, hs.ebbParams]
      exact ht.branch P hP D hD
    · exact .inl ⟨hi, by rw [hI, if_neg h₁, if_neg h₂], by rw [hs.results]⟩

/-- `branch_order` keeps the function well typed. -/
theorem branchOrder_wellTyped (pos : FuncCursor) (cfg : ControlFlowGraph) (ebb : Ebb) (J : Inst)
    (hf : WellFormed pos.func) (ht : WellTyped pos.func) :
    WellTyped (branchOrder pos cfg ebb J).1.func := by
  have hs := branchOrder_sameShape pos cfg ebb J
  cases hprev : pos.func.layout.prevInst J with
  | none =>
    cases hb : branchOrderInfo pos.func ebb J with
    | none => simpa [branchOrder, hb] using ht
    | some info =>
      have := (branchOrderInfo_insts hb).2
      rw [hprev] at this; cases this
  | some P =>
    by_cases hsw : SwapsAt pos.func ebb P J
    · obtain ⟨T, argsJ, D, hJ, hn, hT, hP⟩ := hsw
      rcases hP with ⟨op, c, vs, hP⟩ | ⟨cond, x, y, vs, hP⟩
      · exact ht.swap hf hs (branchOrder_valueTypes ..) (.Branch op.inverse T c argsJ) hprev hJ
          (by rw [hP]; rfl) (by simpa only [hP, InstructionData.blockArgs] using
            branchOrder_insts_branch cfg hprev hJ hn hT hP) rfl rfl
      · exact ht.swap hf hs (branchOrder_valueTypes ..) (.BranchIcmp cond.inverse T x y argsJ) hprev
          hJ (by rw [hP]; rfl) (by simpa only [hP, InstructionData.blockArgs] using
            branchOrder_insts_branchIcmp cfg hprev hJ hn hT hP) rfl rfl
    · rw [branchOrder_of_not_swapsAt cfg hprev hsw]; exact ht

/-! ## The div/rem rewrites -/

/-- A state of a div/rem rewrite at `j` from `f₀`, well typed, with the values `vs` of the
result's type `t` in scope. -/
structure AtTy (f₀ : Function) (j : Inst) (vs : List Value) (t : Ty) (pos : FuncCursor) : Prop where
  wf : AtWf f₀ j vs pos
  typed : WellTyped pos.func
  vs_ty : ∀ v ∈ vs, pos.func.dfg.valueTypes v = t
  result_ty : ∀ r ∈ pos.func.dfg.results j, pos.func.dfg.valueTypes r = t
  params : pos.func.dfg.ebbParams = f₀.dfg.ebbParams

theorem AtTy.mono {f₀ : Function} {j : Inst} {vs vs' : List Value} {t : Ty} {pos : FuncCursor}
    (h : AtTy f₀ j vs t pos) (hs : ∀ a ∈ vs', a ∈ vs) : AtTy f₀ j vs' t pos :=
  { h with wf := h.wf.mono hs, vs_ty := fun v hv => h.vs_ty v (hs v hv) }

/-- `prog` keeps the values `vs` of type `t` in scope and adds those `out` picks. -/
def TyScoped {α : Type} (j : Inst) (vs : List Value) (t : Ty) (out : α → List Value)
    (prog : StateM FuncCursor α) : Prop :=
  ∀ f₀ pos, AtTy f₀ j vs t pos → AtTy f₀ j (out (prog pos).1 ++ vs) t (prog pos).2

namespace TyScoped

variable {j : Inst} {vs : List Value} {t : Ty}

theorem pure {α : Type} {out : α → List Value} (a : α) (h : ∀ x ∈ out a, x ∈ vs) :
    TyScoped j vs t out (Pure.pure a : StateM FuncCursor α) :=
  fun _ _ hp => hp.mono fun x hx => (List.mem_append.1 hx).elim (h x) id

theorem bind {α β : Type} {out₁ : α → List Value} {out₂ : β → List Value}
    {p : StateM FuncCursor α} {q : α → StateM FuncCursor β} (hp : TyScoped j vs t out₁ p)
    (hq : ∀ a, TyScoped j (out₁ a ++ vs) t out₂ (q a)) : TyScoped j vs t out₂ (p >>= q) :=
  fun f₀ pos h => (hq _ f₀ _ (hp f₀ pos h)).mono fun x hx => by
    simp only [List.mem_append] at hx ⊢; tauto

theorem ite {α : Type} {out : α → List Value} {c : Prop} [Decidable c] {p q : StateM FuncCursor α}
    (hp : TyScoped j vs t out p) (hq : TyScoped j vs t out q) :
    TyScoped j vs t out (if c then p else q) := by
  split
  · exact hp
  · exact hq

/-- `pos.ins()` with one result of type `t`, from operands in scope. -/
theorem ins (d : InstructionData) (ty : FuncCursor → Ty) (hd : d.definesValue = true)
    (hargs : ∀ a ∈ d.args, a ∈ vs)
    (hty : ∀ pos : FuncCursor, (∀ v ∈ vs, pos.func.dfg.valueTypes v = t) → ty pos = t) :
    TyScoped j vs t (fun v => [v]) (fun pos => FuncCursor.ins d (ty pos) pos) := by
  intro f₀ pos h
  have hold : ∀ u : Value, u.idx < pos.func.dfg.valueCount →
      (FuncCursor.ins d (ty pos) pos).2.func.dfg.valueTypes u = pos.func.dfg.valueTypes u :=
    fun u hu => by rw [ins_valueTypes, if_neg (Value.ne_of_idx_lt hu)]
  have hT : d.TypedAs pos.func.dfg.valueTypes (ty pos) := by
    rw [hty pos h.vs_ty]
    exact InstructionData.typedAs_of_args fun a ha => h.vs_ty a (hargs a ha)
  refine ⟨Scoped.ins d ty hd hargs f₀ pos h.wf, h.typed.ins h.wf.position h.wf.mem h.wf.wf hd hT
    fun a ha => (h.wf.avail a (hargs a ha)).lt, fun v hv => ?_, fun r hr => ?_, h.params⟩
  · rcases List.mem_append.1 hv with hv | hv
    · rw [List.mem_singleton.1 hv, ins_fst, ins_valueTypes, if_pos rfl, hty pos h.vs_ty]
    · rw [hold v (h.wf.avail v hv).lt, h.vs_ty v hv]
  · rw [ins_results, if_neg (pos.func.wf.ne_of_mem h.wf.mem)] at hr
    rw [hold r (pos.func.results_lt _ _ hr), h.result_ty r hr]

theorem insIconst (imm : Imm64) : TyScoped j vs t (fun v => [v]) (insIconst t imm) :=
  ins (.UnaryImm imm) (fun _ => t) rfl (by simp [InstructionData.args]) fun _ _ => rfl

theorem insBinary (op : BinaryOp) {x y : Value} (hx : x ∈ vs) (hy : y ∈ vs) :
    TyScoped j vs t (fun v => [v]) (insBinary op x y) :=
  ins (.Binary op (x, y)) (fun pos => pos.func.dfg.valueType x) rfl
    (by simp [InstructionData.args, hx, hy]) fun _ h => h x hx

theorem insBinaryImm (op : BinaryImmOp) {x : Value} (imm : Imm64) (hx : x ∈ vs) :
    TyScoped j vs t (fun v => [v]) (insBinaryImm op x imm) :=
  ins (.BinaryImm op x imm) (fun pos => pos.func.dfg.valueType x) rfl
    (by simp [InstructionData.args, hx]) fun _ h => h x hx

/-- `replace(j)` with data that defines a value from operands in scope. -/
theorem replace (d : InstructionData) (hd : d.definesValue = true) (hargs : ∀ a ∈ d.args, a ∈ vs) :
    TyScoped j vs t (fun _ => []) (FuncCursor.replace j d) := by
  intro f₀ pos h
  refine ⟨Scoped.replace d hd hargs f₀ pos h.wf, h.typed.setInst h.wf.wf (fun r hr => ?_)
    (InstructionData.argsTyped_of_dest (InstructionData.fallsThrough_of_definesValue hd).2),
    h.vs_ty, h.result_ty, h.params⟩
  rw [h.result_ty r hr]
  exact InstructionData.typedAs_of_args fun a ha => h.vs_ty a (hargs a ha)

end TyScoped

section Divrem

variable {inst : Inst} {vs : List Value}

theorem finishDivrem_tyScoped {t : Ty} (is_rem : Bool) {n1 qf : Value} (d : Imm64) (hn : n1 ∈ vs)
    (hq : qf ∈ vs) : TyScoped inst vs t (fun _ => []) (finishDivrem is_rem inst n1 qf d) := by
  unfold finishDivrem
  split
  · exact TyScoped.bind (TyScoped.insBinaryImm _ _ hq) fun _ =>
      TyScoped.replace _ rfl (by simp [InstructionData.args, hn])
  · exact TyScoped.replace _ rfl (by simp [InstructionData.args, hq])

theorem unsignedQuotient_tyScoped {w : Nat} (ty : Ty) (m : MU w) {n1 : Value} (hn : n1 ∈ vs) :
    TyScoped inst vs ty (fun v => [v]) (unsignedQuotient ty m n1) := by
  unfold unsignedQuotient
  refine TyScoped.bind (TyScoped.insIconst _) fun q0 =>
    TyScoped.bind (TyScoped.insBinary _ (by simp [hn]) (by simp)) fun q1 =>
      TyScoped.ite ?_ (TyScoped.ite (TyScoped.insBinaryImm _ _ (by simp))
        (TyScoped.pure _ (by simp)))
  exact TyScoped.bind (TyScoped.insBinary _ (by simp [hn]) (by simp)) fun t1 =>
    TyScoped.bind (TyScoped.insBinaryImm _ _ (by simp)) fun t2 =>
      TyScoped.bind (TyScoped.insBinary _ (by simp) (by simp)) fun t3 =>
        TyScoped.insBinaryImm _ _ (by simp)

theorem divremUnsigned_tyScoped (w : Nat) (ty : Ty) (magic : BitVec w → MU w) (is_rem : Bool)
    {n1 : Value} (d : BitVec w) (hn : n1 ∈ vs) :
    TyScoped inst vs ty (fun _ => []) (divremUnsigned w ty magic is_rem n1 d inst) := by
  unfold divremUnsigned
  refine TyScoped.ite (TyScoped.pure _ (by simp)) (TyScoped.ite (TyScoped.ite
    (TyScoped.replace _ rfl (by simp [InstructionData.args]))
    (TyScoped.replace _ rfl (by simp [InstructionData.args, hn]))) (TyScoped.ite (TyScoped.ite
      (TyScoped.replace _ rfl (by simp [InstructionData.args, hn]))
      (TyScoped.replace _ rfl (by simp [InstructionData.args, hn]))) ?_))
  exact TyScoped.bind (unsignedQuotient_tyScoped _ _ hn) fun _ =>
    finishDivrem_tyScoped _ _ (by simp [hn]) (by simp)

theorem signedBias_tyScoped {t : Ty} (w : Nat) {n1 : Value} (k : Nat) (hn : n1 ∈ vs) :
    TyScoped inst vs t (fun v => [v]) (signedBias w n1 k) :=
  TyScoped.bind (TyScoped.ite (TyScoped.pure _ (by simp [hn])) (TyScoped.insBinaryImm _ _ hn))
    fun _ => TyScoped.bind (TyScoped.insBinaryImm _ _ (by simp)) fun _ =>
      TyScoped.insBinary _ (by simp [hn]) (by simp)

theorem signedQuotient_tyScoped {w : Nat} (ty : Ty) (m : MS w) (to_imm : BitVec w → Imm64)
    {n1 : Value} (d : BitVec w) (hn : n1 ∈ vs) :
    TyScoped inst vs ty (fun v => [v]) (signedQuotient ty m to_imm n1 d) :=
  TyScoped.bind (TyScoped.insIconst _) fun _ =>
    TyScoped.bind (TyScoped.insBinary _ (by simp [hn]) (by simp)) fun _ =>
      TyScoped.bind (TyScoped.ite (TyScoped.insBinary _ (by simp) (by simp [hn]))
        (TyScoped.ite (TyScoped.insBinary _ (by simp) (by simp [hn]))
          (TyScoped.pure _ (by simp)))) fun _ =>
        TyScoped.bind (TyScoped.ite (TyScoped.pure _ (by simp))
          (TyScoped.insBinaryImm _ _ (by simp))) fun _ =>
          TyScoped.bind (TyScoped.insBinaryImm _ _ (by simp)) fun _ =>
            TyScoped.insBinary _ (by simp) (by simp)

theorem divremSigned_tyScoped (w : Nat) (ty : Ty) (magic : BitVec w → MS w)
    (is_power_of_two : BitVec w → Option (Bool × Nat)) (to_imm : BitVec w → Imm64)
    (is_rem : Bool) {n1 : Value} (d : BitVec w) (hn : n1 ∈ vs) :
    TyScoped inst vs ty (fun _ => [])
      (divremSigned w ty magic is_power_of_two to_imm is_rem n1 d inst) := by
  unfold divremSigned
  refine TyScoped.ite (TyScoped.pure _ (by simp)) (TyScoped.ite (TyScoped.ite
    (TyScoped.replace _ rfl (by simp [InstructionData.args]))
    (TyScoped.replace _ rfl (by simp [InstructionData.args, hn]))) ?_)
  split
  · exact TyScoped.bind (signedBias_tyScoped _ _ hn) fun _ => TyScoped.ite
      (TyScoped.bind (TyScoped.insBinaryImm _ _ (by simp)) fun _ =>
        TyScoped.replace _ rfl (by simp [InstructionData.args, hn]))
      (TyScoped.bind (TyScoped.insBinaryImm _ _ (by simp)) fun _ =>
        TyScoped.ite (TyScoped.replace _ rfl (by simp [InstructionData.args]))
          (TyScoped.replace _ rfl (by simp [InstructionData.args])))
  · exact TyScoped.bind (signedQuotient_tyScoped _ _ _ _ hn) fun _ =>
      finishDivrem_tyScoped _ _ (by simp [hn]) (by simp)

theorem doDivremTransformation_tyScoped (mn : MagicNumbers) (info : DivRemByConstInfo)
    (hn : info.value ∈ vs) :
    TyScoped inst vs info.ty (fun _ => []) (doDivremTransformation mn info inst) := by
  cases info <;> first
    | exact divremUnsigned_tyScoped _ _ _ _ _ hn
    | exact divremSigned_tyScoped _ _ _ _ _ _ _ hn

end Divrem

/-- A div/rem rewrite keeps the function well typed: every value it adds has the numerator's type. -/
theorem doDivremTransformation_wellTyped (mn : MagicNumbers) {j : Inst} {pos : FuncCursor}
    {info : DivRemByConstInfo} (hpos : pos.position = .At j) (hj : j ∈ pos.func.layout.allInsts)
    (hf : WellFormed pos.func) (ht : WellTyped pos.func)
    (hinfo : getDivInfo j pos.func.dfg = some info) :
    WellTyped (doDivremTransformation mn info j pos).2.func ∧
      (doDivremTransformation mn info j pos).2.func.dfg.ebbParams = pos.func.dfg.ebbParams := by
  obtain ⟨op, arg, imm, hi⟩ := getDivInfo_binaryImm hinfo
  obtain ⟨-, hv, hty, -⟩ := getDivInfo_fields hi hinfo
  have h := doDivremTransformation_tyScoped mn info (List.mem_singleton_self _) pos.func pos
    ⟨getDivInfo_atWf hpos hj hf hinfo, ht, fun v hv' => by
      rw [List.mem_singleton.1 hv', hv, hty]; rfl, fun r hr => ?_, rfl⟩
  · exact ⟨h.typed, h.params⟩
  · -- the immediate opcode has its operand's type
    have := ht.result j hj r hr
    rw [hi] at this
    rw [hty, ← this]; rfl

end simple_preopt
