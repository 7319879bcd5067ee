import SimplePreopt.EditSim
import SimplePreopt.Magic
-- The pass keeps what a function computes: each edit of a turn, each turn, and the walk
-- of `do_preopt` refine the function they start from.

namespace simple_preopt

variable {ext : External}

variable {S : Inst → Prop} {j : Inst} {L : List Inst} {f g h : Function}

/-! ## The calls a function takes -/

/-- An edit that keeps the parameters of each EBB takes every call the function
took: the parameters are values it had, and keep their types. -/
theorem ArgsFit.of_edit (hf : WellFormed f) (ed : Edit S j L f g)
    (hp : g.dfg.ebbParams = f.dfg.ebbParams) {args : List Nat} (h : ArgsFit f args) :
    ArgsFit g args := by
  intro e he
  rw [ed.ebbs] at he
  rw [hp]
  refine ((List.forall₂_and_left _ _).2 ⟨fun v hv => (hf.param_def e v hv).1, h e he⟩).imp ?_
  rintro v x ⟨hv, hx⟩
  rwa [ed.types v hv]

/-! ## What the pass has made of a function so far -/

/-- `g` is what the pass may make of `f`: it is in SSA form and well typed,
keeps the values of `f`, takes every call `f` takes, and runs as `f` does. -/
structure Refines (ext : External) (f g : Function) : Prop where
  wf : WellFormed g
  typed : WellTyped g
  count : f.dfg.valueCount ≤ g.dfg.valueCount
  fit : ∀ args, ArgsFit f args → ArgsFit g args
  runs : RunsAs ext f g

namespace Refines

theorem refl (hf : WellFormed f) (ht : WellTyped f) : Refines ext f f :=
  ⟨hf, ht, le_refl _, fun _ h => h, RunsAs.refl f⟩

theorem trans (h₁ : Refines ext f g) (h₂ : Refines ext g h) : Refines ext f h :=
  ⟨h₂.wf, h₂.typed, h₁.count.trans h₂.count, fun a ha => h₂.fit a (h₁.fit a ha),
    h₁.runs.trans h₂.runs h₁.count h₁.fit⟩

/-- An edit that keeps the EBB parameters and runs as the function it edits
refines it, once it keeps SSA form and the types. -/
theorem of_edit (hf : WellFormed f) (ed : Edit S j L f g)
    (hp : g.dfg.ebbParams = f.dfg.ebbParams) (hwf : WellFormed g) (ht : WellTyped g)
    (hr : RunsAs ext f g) : Refines ext f g :=
  ⟨hwf, ht, ed.value_count, fun _ => ArgsFit.of_edit hf ed hp, hr⟩

end Refines

/-! ## The edits of one turn -/

section Turn

variable {pos : FuncCursor} {e₀ : Ebb}

theorem simplify_refines (hf : WellFormed pos.func) (ht : WellTyped pos.func)
    (he₀ : e₀ ∈ pos.func.layout.ebbs) (hj : j ∈ pos.func.layout.ebbInsts e₀) :
    Refines ext pos.func (simplify j pos).2.func :=
  have hjm := List.mem_flatMap.2 ⟨e₀, he₀, hj⟩
  .of_edit hf (rewriteInst_edit simplifyData j pos).2 (rewriteInst_ebbParams _ _ _)
    (simplify_wellFormed hf hjm) (simplify_wellTyped hf ht hjm)
    (RunsAs.of_bodySim hf ht (by simp [simplify]) (rewriteInst_ebbParams _ _ _)
      (simplify_bodySim hf ht he₀ hj))

theorem branchOpt_refines (hf : WellFormed pos.func) (ht : WellTyped pos.func)
    (he₀ : e₀ ∈ pos.func.layout.ebbs) (hj : j ∈ pos.func.layout.ebbInsts e₀) :
    Refines ext pos.func (branchOpt j pos).2.func :=
  have hjm := List.mem_flatMap.2 ⟨e₀, he₀, hj⟩
  .of_edit hf (rewriteInst_edit branchOptData j pos).2 (rewriteInst_ebbParams _ _ _)
    (branchOpt_wellFormed hf hjm) (branchOpt_wellTyped hf ht hjm)
    (RunsAs.of_bodySim hf ht (by simp [branchOpt]) (rewriteInst_ebbParams _ _ _)
      (branchOpt_bodySim hf ht he₀ hj))

theorem branchOrder_refines (pos : FuncCursor) (cfg : ControlFlowGraph) (ebb : Ebb) (J : Inst)
    (hf : WellFormed pos.func) (ht : WellTyped pos.func) :
    Refines ext pos.func (branchOrder pos cfg ebb J).1.func :=
  .of_edit hf (branchOrder_edit pos cfg ebb J) (branchOrder_sameShape pos cfg ebb J).ebbParams
    (branchOrder_wellFormed pos cfg ebb J hf) (branchOrder_wellTyped pos cfg ebb J hf ht)
    (branchOrder_runsAs pos cfg ebb J hf ht)

theorem doDivremTransformation_refines (mn : MagicNumbers) (hmn : mn.Contract)
    {info : DivRemByConstInfo} (hpos : pos.position = .At j) (he₀ : e₀ ∈ pos.func.layout.ebbs)
    (hj : j ∈ pos.func.layout.ebbInsts e₀) (hf : WellFormed pos.func) (ht : WellTyped pos.func)
    (hinfo : getDivInfo j pos.func.dfg = some info) :
    Refines ext pos.func (doDivremTransformation mn info j pos).2.func := by
  have hjm := List.mem_flatMap.2 ⟨e₀, he₀, hj⟩
  obtain ⟨-, ⟨L, ed⟩, -⟩ := doDivremTransformation_builds mn info pos hpos (pos.func.wf.insts_lt j hjm)
  have hty := doDivremTransformation_wellTyped mn hpos hjm hf ht hinfo
  exact .of_edit hf ed hty.2 (doDivremTransformation_atWf mn hpos hjm hf hinfo).wf hty.1
    (doDivremTransformation_runsAs mn hmn hpos he₀ hj hf ht hinfo)

/-- One turn of the pass at an instruction of the layout refines the function:
`simplify`, then the div/rem rewrite, or `branch_opt` and `branch_order`. -/
theorem preoptInst_refines (mn : MagicNumbers) (hmn : mn.Contract) (ebb : Ebb) (pos : FuncCursor)
    (cfg : ControlFlowGraph) (hpos : pos.position = .At j) (he₀ : e₀ ∈ pos.func.layout.ebbs)
    (hj : j ∈ pos.func.layout.ebbInsts e₀) (hf : WellFormed pos.func) (ht : WellTyped pos.func) :
    Refines ext pos.func (preoptInst mn ebb j pos cfg).1.func := by
  have r₁ : Refines ext pos.func (simplify j pos).2.func := simplify_refines hf ht he₀ hj
  have hl : (simplify j pos).2.func.layout = pos.func.layout := by simp [simplify]
  have hpos₁ : (simplify j pos).2.position = .At j := by simpa [simplify] using hpos
  rw [← hl] at he₀ hj
  unfold preoptInst
  dsimp only
  split
  · exact r₁.trans (doDivremTransformation_refines mn hmn hpos₁ he₀ hj r₁.wf r₁.typed ‹_›)
  · have r₂ : Refines ext _ _ := branchOpt_refines r₁.wf r₁.typed he₀ hj
    exact r₁.trans (r₂.trans (branchOrder_refines _ cfg ebb j r₂.wf r₂.typed))

end Turn

/-! ## The whole pass -/

/-- `do_preopt` refines every function in SSA form that is well typed, when
the magic numbers meet their contract. -/
theorem doPreopt_refines (mn : MagicNumbers) (hmn : mn.Contract) (func : Function)
    (cfg : ControlFlowGraph) (hf : WellFormed func) (ht : WellTyped func) :
    Refines ext func (doPreopt mn func cfg).1 := by
  rw [doPreopt_eq_visitTurns]
  exact visitTurns_keeps mn (Refines ext func)
    (fun e _ pos c he hj hpos h => h.trans (preoptInst_refines mn hmn e pos c hpos he hj h.wf h.typed))
    _ _ _ (fun _ ht => Layout.mem_instOrder ht) (.refl hf ht)

/-- The pass keeps what a well-typed function in SSA form computes, whatever its loads and
calls do: a run of its result follows the same EBBs, ends alike, and leaves old values alike. -/
theorem doPreopt_runs_as (ext : External) (mn : MagicNumbers) (hmn : mn.Contract) (func : Function)
    (cfg : ControlFlowGraph) (hwf : WellFormed func) (hty : WellTyped func) (fuel : Nat)
    (args : List Nat) (hargs : ArgsFit func args) :
    (run ext (doPreopt mn func cfg).1 fuel args).trace = (run ext func fuel args).trace ∧
    (run ext (doPreopt mn func cfg).1 fuel args).halt = (run ext func fuel args).halt ∧
    ∀ v : Value, v.idx < func.dfg.valueCount →
      (run ext (doPreopt mn func cfg).1 fuel args).env v = (run ext func fuel args).env v :=
  (doPreopt_refines mn hmn func cfg hwf hty).runs fuel args hargs

/-- `v1 = call v0; v2 = udiv_imm.i32 v1, 7; return v2`: a call the pass leaves alone, then
a division it expands. -/
def callThenUdiv : Function :=
  Function.ofLists [.Other 0 [⟨0⟩], .BinaryImm .UdivImm ⟨1⟩ 7, .MultiAry [⟨2⟩]]
    [.Param ⟨0⟩ 0, .Result ⟨0⟩ 0, .Result ⟨1⟩ 0] [.I32, .I32, .I32] [[0, 1, 2]]
    ⟨by decide, by decide, by decide⟩

/-- A callee that triples its argument. -/
def tripling : External := fun _ xs => some (3 * xs.headD 0)

theorem callThenUdiv_runs_as :
    roundUpMagic.Contract ∧ WellFormed callThenUdiv ∧ WellTyped callThenUdiv ∧
      ArgsFit callThenUdiv [100] ∧
      (run tripling (doPreopt roundUpMagic callThenUdiv ⟨fun _ => []⟩).1 2 [100]).trace =
        (run tripling callThenUdiv 2 [100]).trace ∧
      (run tripling (doPreopt roundUpMagic callThenUdiv ⟨fun _ => []⟩).1 2 [100]).halt =
        (run tripling callThenUdiv 2 [100]).halt ∧
      ∀ v : Value, v.idx < callThenUdiv.dfg.valueCount →
        (run tripling (doPreopt roundUpMagic callThenUdiv ⟨fun _ => []⟩).1 2 [100]).env v =
          (run tripling callThenUdiv 2 [100]).env v :=
  have hwf : WellFormed callThenUdiv := WellFormed.of_ssaCheck (by decide)
  have hty : WellTyped callThenUdiv := by decide
  have hargs : ArgsFit callThenUdiv [100] := fun e he => by
    cases he
    decide
  ⟨roundUpMagic_contract, hwf, hty, hargs,
    doPreopt_runs_as tripling roundUpMagic roundUpMagic_contract callThenUdiv _ hwf hty 2 [100] hargs⟩

example : (run tripling callThenUdiv 2 [100]).halt = .ret [42] := by decide

end simple_preopt
