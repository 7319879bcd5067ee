import SimplePreopt.SsaEdits
-- The pass keeps SSA form: each div/rem rewrite by the builder rules it is put together
-- from, then one turn, then the walk over the instructions.

namespace simple_preopt

open FuncCursor

/-! ## Builder programs that keep SSA form -/

/-- A state of a div/rem rewrite at `j` from `f₀`: in SSA form, with `vs` available at `j`,
and every new instruction defining a value. -/
structure AtWf (f₀ : Function) (j : Inst) (vs : List Value) (pos : FuncCursor) : Prop where
  position : pos.position = .At j
  mem : j ∈ pos.func.layout.allInsts
  value : (pos.func.dfg.insts j).definesValue = true
  wf : WellFormed pos.func
  avail : ∀ a ∈ vs, Available pos.func a j
  added : ∀ i ∈ pos.func.layout.allInsts, f₀.dfg.instCount ≤ i.idx →
    (pos.func.dfg.insts i).definesValue = true

theorem AtWf.mono {f₀ : Function} {j : Inst} {vs vs' : List Value} {pos : FuncCursor}
    (h : AtWf f₀ j vs pos) (hs : ∀ a ∈ vs', a ∈ vs) : AtWf f₀ j vs' pos :=
  { h with avail := fun a ha => h.avail a (hs a ha) }

/-- `prog` keeps the values `vs` available at `j` and adds those `out` picks. -/
def Scoped {α : Type} (j : Inst) (vs : List Value) (out : α → List Value)
    (prog : StateM FuncCursor α) : Prop :=
  ∀ f₀ pos, AtWf f₀ j vs pos → AtWf f₀ j (out (prog pos).1 ++ vs) (prog pos).2

namespace Scoped

variable {j : Inst} {vs : List Value}

theorem pure {α : Type} {out : α → List Value} (a : α) (h : ∀ x ∈ out a, x ∈ vs) :
    Scoped j vs out (Pure.pure a : StateM FuncCursor α) :=
  fun _ _ hp => hp.mono fun x hx => (List.mem_append.1 hx).elim (h x) id

theorem bind {α β : Type} {out₁ : α → List Value} {out₂ : β → List Value}
    {p : StateM FuncCursor α} {q : α → StateM FuncCursor β} (hp : Scoped j vs out₁ p)
    (hq : ∀ a, Scoped j (out₁ a ++ vs) out₂ (q a)) : Scoped j vs out₂ (p >>= q) :=
  fun f₀ pos h => (hq _ f₀ _ (hp f₀ pos h)).mono fun x hx => by
    simp only [List.mem_append] at hx ⊢; tauto

theorem ite {α : Type} {out : α → List Value} {c : Prop} [Decidable c] {p q : StateM FuncCursor α}
    (hp : Scoped j vs out p) (hq : Scoped j vs out q) : Scoped j vs out (if c then p else q) := by
  split
  · exact hp
  · exact hq

/-- `pos.ins()` with one result, from operands in scope: the new value joins them. -/
theorem ins (d : InstructionData) (ty : FuncCursor → Ty) (hd : d.definesValue = true)
    (hargs : ∀ a ∈ d.args, a ∈ vs) :
    Scoped j vs (fun v => [v]) (fun pos => FuncCursor.ins d (ty pos) pos) := by
  intro f₀ pos h
  obtain ⟨hwf, hkeep, hnew⟩ :=
    h.wf.ins h.position h.mem (ty pos) hd fun a ha => h.avail a (hargs a ha)
  have hmem := ins_allInsts d (ty pos) pos h.position h.mem
  have hjk := pos.func.wf.ne_of_mem h.mem
  refine ⟨h.position, (hmem j).2 (.inr h.mem), by rw [ins_insts, if_neg hjk]; exact h.value, hwf,
    fun a ha => ?_, fun i hi hidx => ?_⟩
  · rcases List.mem_append.1 ha with ha | ha
    · rw [List.mem_singleton.1 ha]; exact hnew
    · exact hkeep a (h.avail a ha)
  · rw [ins_insts]
    split
    · exact hd
    · rename_i hik
      exact h.added i (((hmem i).1 hi).resolve_left hik) hidx

/-- `replace(j)` with data that defines a value from operands in scope. -/
theorem replace (d : InstructionData) (hd : d.definesValue = true) (hargs : ∀ a ∈ d.args, a ∈ vs) :
    Scoped j vs (fun _ => []) (FuncCursor.replace j d) := by
  intro f₀ pos h
  have hfl := InstructionData.fallsThrough_of_definesValue hd
  have hfl₀ := InstructionData.fallsThrough_of_definesValue h.value
  have hdest : d.branchDestination = (pos.func.dfg.insts j).branchDestination := by
    rw [hfl.2, hfl₀.2]
  have hfall : d.fallsThrough = (pos.func.dfg.insts j).fallsThrough := by rw [hfl.1, hfl₀.1]
  refine ⟨h.position, h.mem, by simp [FuncCursor.replace, hd],
    h.wf.setInst hdest hfall (by rw [hd, h.value]) fun a ha => h.avail a (hargs a ha),
    fun a ha => (h.avail a ha).setInst hdest hfall, fun i hi hidx => ?_⟩
  by_cases hij : i = j
  · simp [FuncCursor.replace, hij, hd]
  · simpa [FuncCursor.replace, hij] using h.added i hi hidx

end Scoped

/-! ## The div/rem rewrites keep SSA form -/

section Divrem

variable {inst : Inst} {vs : List Value}

theorem finishDivrem_scoped (is_rem : Bool) {n1 qf : Value} (d : Imm64) (hn : n1 ∈ vs)
    (hq : qf ∈ vs) : Scoped inst vs (fun _ => []) (finishDivrem is_rem inst n1 qf d) := by
  unfold finishDivrem
  split
  · exact Scoped.bind (Scoped.ins _ _ rfl (by simp [InstructionData.args, hq])) fun _ =>
      Scoped.replace _ rfl (by simp [InstructionData.args, hn])
  · exact Scoped.replace _ rfl (by simp [InstructionData.args, hq])

theorem unsignedQuotient_scoped {w : Nat} (ty : Ty) (m : MU w) {n1 : Value} (hn : n1 ∈ vs) :
    Scoped inst vs (fun v => [v]) (unsignedQuotient ty m n1) := by
  unfold unsignedQuotient
  refine Scoped.bind (Scoped.ins _ (fun _ => ty) rfl (by simp [InstructionData.args])) fun q0 =>
    Scoped.bind (Scoped.ins _ _ rfl (by simp [InstructionData.args, hn])) fun q1 =>
      Scoped.ite ?_ (Scoped.ite (Scoped.ins _ _ rfl (by simp [InstructionData.args]))
        (Scoped.pure _ (by simp)))
  exact Scoped.bind (Scoped.ins _ _ rfl (by simp [InstructionData.args, hn])) fun t1 =>
    Scoped.bind (Scoped.ins _ _ rfl (by simp [InstructionData.args])) fun t2 =>
      Scoped.bind (Scoped.ins _ _ rfl (by simp [InstructionData.args])) fun t3 =>
        Scoped.ins _ _ rfl (by simp [InstructionData.args])

theorem divremUnsigned_scoped (w : Nat) (ty : Ty) (magic : BitVec w → MU w) (is_rem : Bool)
    {n1 : Value} (d : BitVec w) (hn : n1 ∈ vs) :
    Scoped inst vs (fun _ => []) (divremUnsigned w ty magic is_rem n1 d inst) := by
  unfold divremUnsigned
  refine Scoped.ite (Scoped.pure _ (by simp)) (Scoped.ite (Scoped.ite
    (Scoped.replace _ rfl (by simp [InstructionData.args]))
    (Scoped.replace _ rfl (by simp [InstructionData.args, hn]))) (Scoped.ite (Scoped.ite
      (Scoped.replace _ rfl (by simp [InstructionData.args, hn]))
      (Scoped.replace _ rfl (by simp [InstructionData.args, hn]))) ?_))
  exact Scoped.bind (unsignedQuotient_scoped _ _ hn) fun _ =>
    finishDivrem_scoped _ _ (by simp [hn]) (by simp)

theorem signedBias_scoped (w : Nat) {n1 : Value} (k : Nat) (hn : n1 ∈ vs) :
    Scoped inst vs (fun v => [v]) (signedBias w n1 k) :=
  Scoped.bind (Scoped.ite (Scoped.pure _ (by simp [hn]))
    (Scoped.ins _ _ rfl (by simp [InstructionData.args, hn]))) fun _ =>
    Scoped.bind (Scoped.ins _ _ rfl (by simp [InstructionData.args])) fun _ =>
      Scoped.ins _ _ rfl (by simp [InstructionData.args, hn])

theorem signedQuotient_scoped {w : Nat} (ty : Ty) (m : MS w) (to_imm : BitVec w → Imm64)
    {n1 : Value} (d : BitVec w) (hn : n1 ∈ vs) :
    Scoped inst vs (fun v => [v]) (signedQuotient ty m to_imm n1 d) :=
  Scoped.bind (Scoped.ins _ (fun _ => ty) rfl (by simp [InstructionData.args])) fun _ =>
    Scoped.bind (Scoped.ins _ _ rfl (by simp [InstructionData.args, hn])) fun _ =>
      Scoped.bind (Scoped.ite (Scoped.ins _ _ rfl (by simp [InstructionData.args, hn]))
        (Scoped.ite (Scoped.ins _ _ rfl (by simp [InstructionData.args, hn]))
          (Scoped.pure _ (by simp)))) fun _ =>
        Scoped.bind (Scoped.ite (Scoped.pure _ (by simp))
          (Scoped.ins _ _ rfl (by simp [InstructionData.args]))) fun _ =>
          Scoped.bind (Scoped.ins _ _ rfl (by simp [InstructionData.args])) fun _ =>
            Scoped.ins _ _ rfl (by simp [InstructionData.args])

theorem divremSigned_scoped (w : Nat) (ty : Ty) (magic : BitVec w → MS w)
    (is_power_of_two : BitVec w → Option (Bool × Nat)) (to_imm : BitVec w → Imm64)
    (is_rem : Bool) {n1 : Value} (d : BitVec w) (hn : n1 ∈ vs) :
    Scoped inst vs (fun _ => [])
      (divremSigned w ty magic is_power_of_two to_imm is_rem n1 d inst) := by
  unfold divremSigned
  refine Scoped.ite (Scoped.pure _ (by simp)) (Scoped.ite (Scoped.ite
    (Scoped.replace _ rfl (by simp [InstructionData.args]))
    (Scoped.replace _ rfl (by simp [InstructionData.args, hn]))) ?_)
  split
  · exact Scoped.bind (signedBias_scoped _ _ hn) fun _ => Scoped.ite
      (Scoped.bind (Scoped.ins _ _ rfl (by simp [InstructionData.args])) fun _ =>
        Scoped.replace _ rfl (by simp [InstructionData.args, hn]))
      (Scoped.bind (Scoped.ins _ _ rfl (by simp [InstructionData.args])) fun _ =>
        Scoped.ite (Scoped.replace _ rfl (by simp [InstructionData.args]))
          (Scoped.replace _ rfl (by simp [InstructionData.args])))
  · exact Scoped.bind (signedQuotient_scoped _ _ _ _ hn) fun _ =>
      finishDivrem_scoped _ _ (by simp [hn]) (by simp)

theorem doDivremTransformation_scoped (mn : MagicNumbers) (info : DivRemByConstInfo)
    (hn : info.value ∈ vs) : Scoped inst vs (fun _ => []) (doDivremTransformation mn info inst) := by
  cases info <;> first
    | exact divremUnsigned_scoped _ _ _ _ _ hn
    | exact divremSigned_scoped _ _ _ _ _ _ _ hn

end Divrem

/-! ## One turn, and the walk -/

theorem getDivInfo_binaryImm {inst : Inst} {dfg : DataFlowGraph} {info : DivRemByConstInfo}
    (h : getDivInfo inst dfg = some info) :
    ∃ op arg imm, dfg.insts inst = .BinaryImm op arg imm := by
  unfold getDivInfo at h
  split at h
  · exact ⟨_, _, _, ‹_›⟩
  · cases h

/-- The state a div/rem rewrite at `j` starts from: the numerator is available at `j`. -/
theorem getDivInfo_atWf {j : Inst} {pos : FuncCursor} {info : DivRemByConstInfo}
    (hpos : pos.position = .At j) (hj : j ∈ pos.func.layout.allInsts) (hf : WellFormed pos.func)
    (hinfo : getDivInfo j pos.func.dfg = some info) : AtWf pos.func j [info.value] pos := by
  obtain ⟨op, arg, imm, hi⟩ := getDivInfo_binaryImm hinfo
  have hv : info.value = arg := (getDivInfo_fields hi hinfo).2.1
  refine ⟨hpos, hj, by rw [hi]; rfl, hf, fun a ha => ?_, fun i hi' hidx => ?_⟩
  · rw [List.mem_singleton.1 ha, hv]
    exact hf.uses j hj arg (by rw [hi]; exact List.mem_singleton_self _)
  · exact absurd (pos.func.wf.insts_lt i hi') (Nat.not_lt.2 hidx)

/-- A div/rem rewrite at `j` of a function in SSA form reaches one in SSA form
in which each instruction of the layout that was not there defines a value. -/
theorem doDivremTransformation_atWf (mn : MagicNumbers) {j : Inst} {pos : FuncCursor}
    {info : DivRemByConstInfo} (hpos : pos.position = .At j) (hj : j ∈ pos.func.layout.allInsts)
    (hf : WellFormed pos.func) (hinfo : getDivInfo j pos.func.dfg = some info) :
    AtWf pos.func j [] (doDivremTransformation mn info j pos).2 :=
  (@doDivremTransformation_scoped j [info.value] mn info (List.mem_singleton_self _) pos.func pos
    (getDivInfo_atWf hpos hj hf hinfo)).mono (by simp)

/-- One turn of the pass at an instruction of the layout keeps SSA form. -/
theorem preoptInst_wellFormed (mn : MagicNumbers) (ebb : Ebb) {j : Inst} (pos : FuncCursor)
    (cfg : ControlFlowGraph) (hpos : pos.position = .At j) (hj : j ∈ pos.func.layout.allInsts)
    (hf : WellFormed pos.func) : WellFormed (preoptInst mn ebb j pos cfg).1.func := by
  have h₁ := simplify_wellFormed hf hj
  have hj₁ : j ∈ (simplify j pos).2.func.layout.allInsts := by simpa [simplify] using hj
  have hpos₁ : (simplify j pos).2.position = .At j := by simpa [simplify] using hpos
  unfold preoptInst
  dsimp only
  split
  · exact (doDivremTransformation_atWf mn hpos₁ hj₁ h₁ ‹_›).wf
  · exact branchOrder_wellFormed _ cfg ebb j (branchOpt_wellFormed h₁ hj₁)

/-- What every turn at an instruction of the layout keeps, with the turns still to come,
holds once the turns are done. -/
theorem visitTurns_induct (mn : MagicNumbers)
    (R : List (Ebb × Inst) → Function → ControlFlowGraph → Prop)
    (hR : ∀ (e : Ebb) (j : Inst) (ts : List (Ebb × Inst)) (pos : FuncCursor)
      (cfg : ControlFlowGraph), e ∈ pos.func.layout.ebbs → j ∈ pos.func.layout.ebbInsts e →
      pos.position = .At j → R ((e, j) :: ts) pos.func cfg →
      R ts (preoptInst mn e j pos cfg).1.func (preoptInst mn e j pos cfg).2) :
    ∀ (ts : List (Ebb × Inst)) (pos : FuncCursor) (cfg : ControlFlowGraph),
      (∀ t ∈ ts, t.1 ∈ pos.func.layout.ebbs ∧ t.2 ∈ pos.func.layout.ebbInsts t.1) →
      R ts pos.func cfg → R [] (visitTurns mn ts pos cfg).1.func (visitTurns mn ts pos cfg).2
  | [], _, _, _, h => h
  | (e, j) :: ts, pos, cfg, hts, h => by
    obtain ⟨he, hj⟩ := hts (e, j) (List.mem_cons_self _ _)
    obtain ⟨-, L, ed⟩ := preoptInst_edit mn e { pos with position := .At j } cfg rfl
      (pos.func.wf.insts_lt j (List.mem_flatMap.2 ⟨e, he, hj⟩))
    have hx := Extends.of_edit ed
    exact visitTurns_induct mn R hR ts _ _ (fun t ht =>
      have ht' := hts t (List.mem_cons_of_mem _ ht)
      ⟨hx.ebbs ▸ ht'.1, hx.mem ht'.1 ht'.2⟩) (hR e j ts _ cfg he hj rfl h)

/-- What every turn at an instruction of the layout keeps, the turns keep. -/
theorem visitTurns_keeps (mn : MagicNumbers) (R : Function → Prop)
    (hR : ∀ (e : Ebb) (j : Inst) (pos : FuncCursor) (cfg : ControlFlowGraph),
      e ∈ pos.func.layout.ebbs → j ∈ pos.func.layout.ebbInsts e → pos.position = .At j →
      R pos.func → R (preoptInst mn e j pos cfg).1.func)
    (ts : List (Ebb × Inst)) (pos : FuncCursor) (cfg : ControlFlowGraph)
    (hts : ∀ t ∈ ts, t.1 ∈ pos.func.layout.ebbs ∧ t.2 ∈ pos.func.layout.ebbInsts t.1)
    (h : R pos.func) : R (visitTurns mn ts pos cfg).1.func :=
  visitTurns_induct mn (fun _ f _ => R f) (fun e j _ pos cfg he hj hpos => hR e j pos cfg he hj hpos)
    ts pos cfg hts h

/-- The walk keeps the type of each value there was. -/
theorem visitTurns_types (mn : MagicNumbers) (func : Function) (ts : List (Ebb × Inst))
    (pos : FuncCursor) (cfg : ControlFlowGraph)
    (hts : ∀ t ∈ ts, t.1 ∈ pos.func.layout.ebbs ∧ t.2 ∈ pos.func.layout.ebbInsts t.1)
    (h : func.dfg.valueCount ≤ pos.func.dfg.valueCount ∧
      ∀ v : Value, v.idx < func.dfg.valueCount → pos.func.dfg.valueTypes v = func.dfg.valueTypes v) :
    ∀ v : Value, v.idx < func.dfg.valueCount →
      (visitTurns mn ts pos cfg).1.func.dfg.valueTypes v = func.dfg.valueTypes v := by
  refine (visitTurns_keeps mn (fun f => func.dfg.valueCount ≤ f.dfg.valueCount ∧
    ∀ v : Value, v.idx < func.dfg.valueCount → f.dfg.valueTypes v = func.dfg.valueTypes v)
    (fun e j pos cfg he hj hpos h => ?_) ts pos cfg hts h).2
  obtain ⟨-, L, ed⟩ := preoptInst_edit mn e pos cfg hpos
    (pos.func.wf.insts_lt j (List.mem_flatMap.2 ⟨e, he, hj⟩))
  exact ⟨h.1.trans ed.value_count, fun v hv => (ed.types v (lt_of_lt_of_le hv h.1)).trans (h.2 v hv)⟩

/-- `do_preopt` keeps a function in SSA form: the old instructions keep their results, the
old values their types, and every value it adds is defined before its uses. -/
theorem doPreopt_keeps_ssa (mn : MagicNumbers) (func : Function) (cfg : ControlFlowGraph)
    (hwf : WellFormed func) :
    WellFormed (doPreopt mn func cfg).1 ∧
    (∀ i : Inst, i.idx < func.dfg.instCount →
      (doPreopt mn func cfg).1.dfg.results i = func.dfg.results i) ∧
    (∀ v : Value, v.idx < func.dfg.valueCount →
      (doPreopt mn func cfg).1.dfg.valueTypes v = func.dfg.valueTypes v) ∧
    (∀ (ebb : Ebb) (j : Inst) (pos : FuncCursor) (c : ControlFlowGraph), pos.position = .At j →
      j ∈ pos.func.layout.allInsts → WellFormed pos.func →
      WellFormed (preoptInst mn ebb j pos c).1.func) ∧
    (∀ (j : Inst) (pos : FuncCursor) (info : DivRemByConstInfo), pos.position = .At j →
      j ∈ pos.func.layout.allInsts → WellFormed pos.func → getDivInfo j pos.func.dfg = some info →
      ∃ L : List Inst,
        (∀ e ∈ pos.func.layout.ebbs,
          (doDivremTransformation mn info j pos).2.func.layout.ebbInsts e =
            insertBeforeAll (pos.func.layout.ebbInsts e) j L) ∧
        ∀ k ∈ L, pos.func.dfg.instCount ≤ k.idx ∧ ∃ w : Value,
          (doDivremTransformation mn info j pos).2.func.dfg.results k = some w ∧
          pos.func.dfg.valueCount ≤ w.idx ∧
          ∀ u ∈ (doDivremTransformation mn info j pos).2.func.layout.allInsts,
            w ∈ ((doDivremTransformation mn info j pos).2.func.dfg.insts u).args →
            SDom (doDivremTransformation mn info j pos).2.func (.inst k) (.inst u)) := by
  have hts : ∀ t ∈ func.layout.instOrder, t.1 ∈ (FuncCursor.new func).func.layout.ebbs ∧
      t.2 ∈ (FuncCursor.new func).func.layout.ebbInsts t.1 := fun _ ht => Layout.mem_instOrder ht
  rw [doPreopt_eq_visitTurns]
  refine ⟨visitTurns_keeps mn WellFormed (fun e j pos c he hj hpos hf =>
      preoptInst_wellFormed mn e pos c hpos (List.mem_flatMap.2 ⟨e, he, hj⟩) hf) _ _ _ hts hwf,
    (visitTurns_extends mn _ _ _ hts).results,
    visitTurns_types mn func _ _ _ hts ⟨le_rfl, fun _ _ => rfl⟩,
    fun ebb j pos c hpos hj hf => preoptInst_wellFormed mn ebb pos c hpos hj hf,
    fun j pos info hpos hj hf hinfo => ?_⟩
  have hat := doDivremTransformation_atWf mn hpos hj hf hinfo
  obtain ⟨-, ⟨L, ed⟩, -⟩ := doDivremTransformation_builds mn info pos hpos (pos.func.wf.insts_lt j hj)
  refine ⟨L, ed.layout, fun k hk => ⟨ed.fresh k hk, ?_⟩⟩
  obtain ⟨e, he, hje⟩ := List.mem_flatMap.1 hj
  have hkmem : k ∈ (doDivremTransformation mn info j pos).2.func.layout.allInsts :=
    List.mem_flatMap.2 ⟨e, ed.ebbs ▸ he, by
      rw [ed.layout e he]; exact List.mem_flatMap.2 ⟨j, hje, by simp [hk]⟩⟩
  obtain ⟨w, hw⟩ := hat.wf.has_result k hkmem (hat.added k hkmem (ed.fresh k hk))
  have hdef := hat.wf.result_def k w hw
  refine ⟨w, hw, Nat.not_lt.1 fun hlt => ?_, fun u hu hwu => ?_⟩
  · -- a value there was is defined by an instruction there was
    have h₀ := ed.defs w hlt
    rw [hdef] at h₀
    have := (hf.def_result w k 0 hlt h₀.symm).1
    have := ed.fresh k hk
    omega
  · have := (hat.wf.uses u hu w hwu).sdom
    rwa [DataFlowGraph.defPoint, hdef] at this

/-- `v1 = udiv_imm.i32 v0, 7; return v1`: a function in SSA form with a
division that the pass rewrites. -/
def udivBySeven : Function :=
  Function.ofLists [.BinaryImm .UdivImm ⟨0⟩ 7, .MultiAry [⟨1⟩]] [.Param ⟨0⟩ 0, .Result ⟨0⟩ 0]
    [.I32, .I32] [[0, 1]] ⟨by decide, by decide, by decide⟩

theorem udivBySeven_wellFormed : WellFormed udivBySeven := WellFormed.of_ssaCheck (by decide)

theorem udivBySeven_keeps_ssa :
    WellFormed udivBySeven ∧
      WellFormed (doPreopt ⟨fun _ => ⟨0, false, 0⟩, fun _ => ⟨0, false, 0⟩, fun _ => ⟨0, 0⟩,
        fun _ => ⟨0, 0⟩⟩ udivBySeven ⟨fun _ => []⟩).1 :=
  ⟨udivBySeven_wellFormed, (doPreopt_keeps_ssa _ udivBySeven _ udivBySeven_wellFormed).1⟩

end simple_preopt
