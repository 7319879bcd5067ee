import SimplePreopt.Equiv
import SimplePreopt.TypedEdits
import SimplePreopt.DivremExact
-- Each edit of one turn runs as the function it edits: the EBBs it leaves alone run as
-- before, and the segment it changes does what the old one did wherever a run reaches it.

namespace simple_preopt

variable {ext : External}

open FuncCursor

/-! ## Bodies that differ in one segment -/

section Bodies

variable {f f' : Function} {n : Nat}

theorem execBody_append_agree {env₁ env₂ : Env} {l₁ l₂ l₁' l₂' : List Inst}
    (h₁ : BodyAgree n (execBody ext f env₁ l₁) (execBody ext f' env₂ l₁'))
    (h₂ : ∀ e₁ e₂, execBody ext f env₁ l₁ = (e₁, none) → EnvAgree n e₁ e₂ →
      BodyAgree n (execBody ext f e₁ l₂) (execBody ext f' e₂ l₂')) :
    BodyAgree n (execBody ext f env₁ (l₁ ++ l₂)) (execBody ext f' env₂ (l₁' ++ l₂')) := by
  rw [execBody_append, execBody_append]
  generalize hr₁ : execBody ext f env₁ l₁ = r₁ at h₁ h₂
  generalize execBody ext f' env₂ l₁' = r₂ at h₁
  obtain ⟨e₁, o₁⟩ := r₁
  obtain ⟨e₂, o₂⟩ := r₂
  obtain ⟨ha, ho⟩ := h₁
  dsimp only at ha ho
  subst ho
  cases o₂ with
  | none => exact h₂ e₁ e₂ rfl ha
  | some x => exact ⟨ha, rfl⟩

/-- The same instructions, each stepping alike from agreeing values. -/
theorem execBody_frame (l : List Inst) {env₁ env₂ : Env}
    (h : ∀ i ∈ l, ∀ e₁ e₂, EnvAgree n e₁ e₂ → FlowAgree n (stepInst ext f e₁ i) (stepInst ext f' e₂ i))
    (he : EnvAgree n env₁ env₂) : BodyAgree n (execBody ext f env₁ l) (execBody ext f' env₂ l) :=
  execBody_sim l (fun _ i _ e₁ e₂ hl _ ha => h i (by rw [hl]; simp) e₁ e₂ ha) he

theorem execBody_single {e₁ e₂ : Env} {i : Inst} (he : EnvAgree n e₁ e₂)
    (h : FlowAgree n (stepInst ext f e₁ i) (stepInst ext f' e₂ i)) :
    BodyAgree n (execBody ext f e₁ [i]) (execBody ext f' e₂ [i]) := by
  simp only [execBody]
  generalize stepInst ext f e₁ i = s₁ at h ⊢
  generalize stepInst ext f' e₂ i = s₂ at h ⊢
  cases s₁ <;> cases s₂
  · exact ⟨h, rfl⟩
  · exact h.elim
  · exact h.elim
  · exact ⟨he, congrArg some h⟩

/-- Two EBB bodies that differ in one segment run alike when the rest steps alike and the
segments run alike. -/
theorem execBody_splice {env₁ env₂ : Env} (pre M M' suf : List Inst)
    (hout : ∀ i ∈ pre ++ suf, ∀ e₁ e₂, EnvAgree n e₁ e₂ →
      FlowAgree n (stepInst ext f e₁ i) (stepInst ext f' e₂ i))
    (hM : ∀ e₁ e₂, execBody ext f env₁ pre = (e₁, none) → EnvAgree n e₁ e₂ →
      BodyAgree n (execBody ext f e₁ M) (execBody ext f' e₂ M'))
    (he : EnvAgree n env₁ env₂) :
    BodyAgree n (execBody ext f env₁ (pre ++ M ++ suf)) (execBody ext f' env₂ (pre ++ M' ++ suf)) :=
  execBody_append_agree
    (execBody_append_agree (execBody_frame pre (fun i hi => hout i (List.mem_append_left _ hi)) he)
      hM)
    fun _ _ _ ha => execBody_frame suf (fun i hi => hout i (List.mem_append_right _ hi)) ha

end Bodies

/-! ## Edits that run alike -/

/-- An instruction an edit leaves alone steps alike in both functions. -/
theorem Edit.flowAgree {S : Inst → Prop} {j : Inst} {L : List Inst} {g g' : Function}
    (ed : Edit S j L g g') (hf : WellFormed g) {i : Inst} (hi : i ∈ g.layout.allInsts) (hS : ¬S i)
    {e₁ e₂ : Env} (he : EnvAgree g.dfg.valueCount e₁ e₂) :
    FlowAgree g.dfg.valueCount (stepInst ext g e₁ i) (stepInst ext g' e₂ i) := by
  have hlt := g.wf.insts_lt i hi
  rw [stepInst_congr e₂ (ed.insts i hlt hS) (ed.results i hlt)
    (fun a ha => ed.types a (hf.uses i hi a ha).lt) fun r hr => ed.types r (g.results_lt i r hr)]
  exact stepData_agree _ he fun a ha => he a (hf.uses i hi a ha).lt

theorem not_mem_of_nodup_splice {pre M suf : List Inst} (hnd : (pre ++ M ++ suf).Nodup)
    {i : Inst} (hi : i ∈ pre ++ suf) : i ∉ M := fun hiM => by
  rcases List.mem_append.1 hi with hp | hs
  · exact (List.nodup_append.1 (List.nodup_append.1 hnd).1).2.2 hp hiM
  · exact (List.nodup_append.1 hnd).2.2 (List.mem_append_right _ hiM) hs

/-- An edit of one segment of one EBB runs as the function it edits when the new segment
runs as the old one wherever a run reaches it. -/
theorem BodySim.of_segment {g g' : Function} {e₀ : Ebb} (he₀ : e₀ ∈ g.layout.ebbs) (pre M M' suf : List Inst)
    (hl : g.layout.ebbInsts e₀ = pre ++ M ++ suf) (hl' : g'.layout.ebbInsts e₀ = pre ++ M' ++ suf)
    (hother : ∀ e ∈ g.layout.ebbs, e ≠ e₀ → g'.layout.ebbInsts e = g.layout.ebbInsts e)
    (hkept : ∀ i ∈ g.layout.allInsts, i ∉ M → ∀ e₁ e₂, EnvAgree g.dfg.valueCount e₁ e₂ →
      FlowAgree g.dfg.valueCount (stepInst ext g e₁ i) (stepInst ext g' e₂ i))
    (hM : ∀ env₁ e₁ e₂, Entered ext g env₁ e₀ → execBody ext g env₁ pre = (e₁, none) →
      EnvAgree g.dfg.valueCount e₁ e₂ →
      BodyAgree g.dfg.valueCount (execBody ext g e₁ M) (execBody ext g' e₂ M')) :
    BodySim ext g g' := by
  intro e he env₁ env₂ hent hagr
  have hmem : ∀ i ∈ g.layout.ebbInsts e, i ∈ g.layout.allInsts :=
    fun i hi => List.mem_flatMap.2 ⟨e, he, hi⟩
  by_cases hee : e = e₀
  · subst hee
    have hnd := g.wf.ebbInsts_nodup he
    rw [hl] at hnd hmem
    rw [hl, hl']
    exact execBody_splice pre M M' suf
      (fun i hi => hkept i (hmem i (by simp only [List.mem_append] at hi ⊢; tauto))
        (not_mem_of_nodup_splice hnd hi))
      (fun e₁ e₂ => hM env₁ e₁ e₂ hent) hagr
  · rw [hother e he hee]
    refine execBody_frame _ (fun i hi => hkept i (hmem i hi) fun hiM => hee ?_) hagr
    exact g.wf.ebb_unique he he₀ hi (by rw [hl]; simp [hiM])

/-! ## `simplify` and `branch_opt` -/

/-- A rewrite in place runs as the function it edits when the new data does what the old did
wherever the operands hold what their definitions compute. -/
theorem rewriteInst_bodySim {rw : DataFlowGraph → InstructionData → Option InstructionData}
    {j : Inst} {pos : FuncCursor} (hf : WellFormed pos.func) (ht : WellTyped pos.func) {e₀ : Ebb}
    (he₀ : e₀ ∈ pos.func.layout.ebbs) (hj : j ∈ pos.func.layout.ebbInsts e₀)
    (hwf : WellFormed (rewriteInst rw j pos).2.func)
    (hsound : ∀ env, OperandsAgree ext pos.func.dfg env (pos.func.dfg.insts j).args →
      Typed pos.func.dfg.valueTypes (pos.func.dfg.results j) (pos.func.dfg.insts j) →
      stepInst ext (rewriteInst rw j pos).2.func env j = stepInst ext pos.func env j) :
    BodySim ext pos.func (rewriteInst rw j pos).2.func := by
  obtain ⟨-, ed⟩ := rewriteInst_edit rw j pos
  obtain ⟨pre, suf, hl⟩ := List.mem_iff_append.1 hj
  have hjm : j ∈ pos.func.layout.allInsts := List.mem_flatMap.2 ⟨e₀, he₀, hj⟩
  have hl₀ : pos.func.layout.ebbInsts e₀ = pre ++ [j] ++ suf := by simp [hl]
  refine BodySim.of_segment he₀ pre [j] [j] suf hl₀ (by simp [hl₀]) (fun _ _ _ => by simp)
    (fun i hi hni _ _ => ed.flowAgree hf hi (by simpa using hni)) fun env₁ e₁ e₂ hent hp ha => ?_
  have hc := hent.along hf ht he₀ hl hp
  have hstep := hsound e₁ (hc.operandsAgree hf hjm)
    (ht.typed (fun i hi hd => hf.has_result i hi hd) hjm)
  refine execBody_single ha ?_
  rw [← hstep]
  exact stepData_agree _ ha fun a ha' =>
    ha a (by simpa using (hwf.uses j (by simpa using hjm) a ha').lt)

theorem simplify_bodySim {j : Inst} {pos : FuncCursor} (hf : WellFormed pos.func)
    (ht : WellTyped pos.func) {e₀ : Ebb} (he₀ : e₀ ∈ pos.func.layout.ebbs)
    (hj : j ∈ pos.func.layout.ebbInsts e₀) : BodySim ext pos.func (simplify j pos).2.func :=
  rewriteInst_bodySim hf ht he₀ hj (simplify_wellFormed hf (List.mem_flatMap.2 ⟨e₀, he₀, hj⟩))
    fun _ hA hT => stepInst_simplify hA hT

theorem branchOpt_bodySim {j : Inst} {pos : FuncCursor} (hf : WellFormed pos.func)
    (ht : WellTyped pos.func) {e₀ : Ebb} (he₀ : e₀ ∈ pos.func.layout.ebbs)
    (hj : j ∈ pos.func.layout.ebbInsts e₀) : BodySim ext pos.func (branchOpt j pos).2.func :=
  rewriteInst_bodySim hf ht he₀ hj (branchOpt_wellFormed hf (List.mem_flatMap.2 ⟨e₀, he₀, hj⟩))
    fun _ hA _ => stepInst_branchOpt hA

/-! ## The swap of `branch_order` -/

/-- An instruction that defines no value keeps the values as they are when
control goes on past it. -/
theorem stepInst_cont_of_noValue {f : Function} {env env' : Env} {i : Inst}
    (hd : (f.dfg.insts i).definesValue = false) (h : stepInst ext f env i = .cont env') :
    env' = env := by
  rcases (stepInst_cont h).2 with ⟨-, rfl⟩ | ⟨r, x, -, hev, -⟩
  · rfl
  · -- data that defines no value computes nothing
    generalize f.dfg.insts i = d at hd hev
    cases d <;> simp_all [InstructionData.definesValue, evalData]

/-- Instructions that define no value keep the values as they are, and leave
where they send control. -/
theorem execBody_of_noValue {f : Function} {env : Env} :
    ∀ {l : List Inst}, (∀ i ∈ l, (f.dfg.insts i).definesValue = false) →
      execBody ext f env l = (env, match execInsts ext f env l with
        | .cont _ => none
        | .exit x => some x)
  | [], _ => rfl
  | i :: is, h => by
    cases hs : stepInst ext f env i with
    | cont env' =>
      obtain rfl := stepInst_cont_of_noValue (h i (List.mem_cons_self _ _)) hs
      rw [execBody_cons_cont _ hs, execBody_of_noValue fun k hk => h k (List.mem_cons_of_mem _ hk)]
      simp only [execInsts, hs]
    | exit x => rw [execBody_cons_exit _ hs]; simp only [execInsts, hs]

theorem listPrev_split {x p : Inst} : ∀ {l : List Inst}, listPrev l x = some p →
    ∃ pre suf, l = pre ++ p :: x :: suf
  | [], h | [_], h => by cases h
  | a :: b :: t, h => by
    unfold listPrev at h
    split at h
    · cases h; subst_vars; exact ⟨[], t, rfl⟩
    · obtain ⟨pre, suf, e⟩ := listPrev_split h
      exact ⟨a :: pre, suf, by rw [e]; rfl⟩

section Swap

variable {pos : FuncCursor} {cfg : ControlFlowGraph} {ebb : Ebb} {P J : Inst} {T D : Ebb}
  {argsJ : List Value}

/-- The conditional branch of a swappable pair sends control to `D` and
otherwise falls through; it is not the jump. -/
theorem condBranch_shape {d : InstructionData}
    (hP : (∃ op c vs, d = .Branch op D c vs) ∨ ∃ cond x y vs, d = .BranchIcmp cond D x y vs) :
    d.branchDestination = some D ∧ d.fallsThrough = true ∧ ∀ T args, d ≠ .Jump .Jump T args := by
  rcases hP with ⟨_, _, _, rfl⟩ | ⟨_, _, _, _, rfl⟩ <;> exact ⟨rfl, rfl, fun _ _ h => by cases h⟩

/-- An operand of `J` is available at the instruction `P` before it, when `P`
falls through and defines no value. -/
theorem Available.prev {f : Function} {v : Value} (hf : WellFormed f)
    (hprev : f.layout.prevInst J = some P) (hPv : (f.dfg.insts P).definesValue = false)
    (hfall : (f.dfg.insts P).fallsThrough = true) (h : Available f v J) : Available f v P :=
  ⟨h.lt, h.def_mem, SDom.of_succ h.sdom (Ne.symm (hf.defPoint_ne hPv h.lt))
    (mem_succs_inst.2 (.inr ⟨hfall, J, f.wf.nextInst_of_prevInst hprev, rfl⟩))⟩

/-- The swapped pair leaves the same way as the pair, from every environment
that holds the operands of both. -/
theorem branchOrder_execInsts (hprev : pos.func.layout.prevInst J = some P)
    (hJ : pos.func.dfg.insts J = .Jump .Jump T argsJ) (hn : pos.func.layout.nextEbb ebb = some D)
    (hT : T ≠ D)
    (hP : (∃ op c vs, pos.func.dfg.insts P = .Branch op D c vs) ∨
      ∃ cond x y vs, pos.func.dfg.insts P = .BranchIcmp cond D x y vs) {env : Env}
    (henv : ∀ v ∈ (pos.func.dfg.insts P).args ++ (pos.func.dfg.insts J).args, (env v).isSome) :
    execInsts ext (branchOrder pos cfg ebb J).1.func env [P, J] =
      execInsts ext pos.func env [P, J] := by
  have hsh := condBranch_shape hP
  obtain ⟨hJ', -, -⟩ := branchOrder_swapped pos cfg hprev (fun h => hsh.2.2 T argsJ (h ▸ hJ))
    hJ hn hT hP
  rw [hJ, InstructionData.args] at henv
  have hget : ∀ v ∈ (pos.func.dfg.insts P).args, ∃ z, env v = some z := fun v hv =>
    Option.isSome_iff_exists.1 (henv v (List.mem_append_left _ hv))
  refine execInsts_swapped hJ hJ' (fun v hv => ?_) (fun xs ys hxs hys => ?_) (by rw [hsh.1]; rfl) ?_
  · rcases List.mem_append.1 hv with hv | hv
    · exact henv v (List.mem_append_right _ hv)
    · exact henv v (List.mem_append_left _ (InstructionData.mem_args_of_mem_blockArgs hv))
  · rw [branchOrder_valueTypes]
    rcases hP with ⟨op, c, vs, hP⟩ | ⟨cond, x, y, vs, hP⟩
    · obtain ⟨z, hz⟩ := hget c (by simp [hP, InstructionData.args])
      rw [branchOrder_insts_branch cfg hprev hJ hn hT hP, if_pos rfl, hP]
      rw [hP] at hys
      exact (branchFlow_inverted hz hxs hys T D).1 op
    · obtain ⟨z, hz⟩ := hget x (by simp [hP, InstructionData.args])
      obtain ⟨u, hu⟩ := hget y (by simp [hP, InstructionData.args])
      rw [branchOrder_insts_branchIcmp cfg hprev hJ hn hT hP, if_pos rfl, hP]
      rw [hP] at hys
      exact (branchFlow_inverted hz hxs hys T D).2 cond y u hu
  · rcases hP with ⟨op, c, vs, hP⟩ | ⟨cond, x, y, vs, hP⟩
    · rw [branchOrder_insts_branch cfg hprev hJ hn hT hP, if_pos rfl]; rfl
    · rw [branchOrder_insts_branchIcmp cfg hprev hJ hn hT hP, if_pos rfl]; rfl

end Swap

/-- `branch_order` runs as the function it edits: the swapped pair leaves for the same EBB
with the same arguments. -/
theorem branchOrder_runsAs (pos : FuncCursor) (cfg : ControlFlowGraph) (ebb : Ebb) (J : Inst)
    (hf : WellFormed pos.func) (ht : WellTyped pos.func) :
    RunsAs ext pos.func (branchOrder pos cfg ebb J).1.func := by
  have hs := branchOrder_sameShape pos cfg ebb J
  cases hprev : pos.func.layout.prevInst J with
  | none =>
    cases hb : branchOrderInfo pos.func ebb J with
    | none => simpa [branchOrder, hb] using RunsAs.refl pos.func
    | some info =>
      have := (branchOrderInfo_insts hb).2
      rw [hprev] at this; cases this
  | some P =>
    by_cases hsw : SwapsAt pos.func ebb P J
    swap
    · rw [branchOrder_of_not_swapsAt cfg hprev hsw]; exact RunsAs.refl _
    obtain ⟨T, argsJ, D, hJ, hn, hT, hP⟩ := hsw
    obtain ⟨e₀, hje, hp⟩ := Option.bind_eq_some.1 hprev
    obtain ⟨he₀, -⟩ := Layout.instEbb_mem hje
    obtain ⟨pre, suf, hl⟩ := listPrev_split hp
    obtain ⟨hPb, hfall, hPJ⟩ := condBranch_shape hP
    obtain ⟨hJ', hT', -⟩ := branchOrder_swapped pos cfg hprev (fun h => hPJ T argsJ (h ▸ hJ))
      hJ hn hT hP
    refine RunsAs.of_bodySim hf ht (by simp) hs.ebbParams
      (BodySim.of_segment he₀ pre [P, J] [P, J] suf (by simp [hl]) (by simp [hl])
        (fun _ _ _ => by simp) (fun i hi hni _ _ => (branchOrder_edit pos cfg ebb J).flowAgree hf hi
          fun h => hni (h.elim (fun h => by simp [h]) fun h => by
            rw [hprev] at h; simp [Option.some.inj h]))
        fun env₁ e₁ e₂ hent hpre ha => ?_)
    -- every operand of the pair holds a value where a run reaches it
    have hc := hent.along hf ht he₀ (show _ = pre ++ P :: ([J] ++ suf) by simpa using hl) hpre
    obtain ⟨hPm, hJm⟩ := Layout.prevInst_mem hprev
    have hPv := InstructionData.definesValue_of_dest hPb
    have hdef : ∀ v ∈ (pos.func.dfg.insts P).args ++ (pos.func.dfg.insts J).args,
        (e₂ v).isSome := fun v hv => by
      have hav : Available pos.func v P := (List.mem_append.1 hv).elim (hf.uses P hPm v)
        fun hv => (hf.uses J hJm v hv).prev hf hprev hPv hfall
      obtain ⟨x, hx, -⟩ := hc.agree v hav.lt hav.sdom
      rw [ha v hav.lt, hx]; rfl
    -- the pair defines no value, before the swap or after
    have heq : execBody ext (branchOrder pos cfg ebb J).1.func e₂ [P, J] =
        execBody ext pos.func e₂ [P, J] := by
      rw [execBody_of_noValue, execBody_of_noValue, branchOrder_execInsts hprev hJ hn hT hP hdef]
      · intro i hi
        obtain h | h := List.mem_pair.1 hi <;> rw [h]
        exacts [hPv, by rw [hJ]; rfl]
      · intro i hi
        obtain h | h := List.mem_pair.1 hi <;> rw [h]
        exacts [InstructionData.definesValue_of_dest hT', by rw [hJ']; rfl]
    rw [heq]
    exact execBody_frame [P, J] (fun i hi e₁ e₂ ha =>
      (Edit.refl (fun _ => False) J pos.func).flowAgree hf
        (by rcases List.mem_pair.1 hi with rfl | rfl <;> assumption) not_false ha) ha

/-! ## The div/rem rewrite -/

/-- A div/rem rewrite runs as the function it edits: the new instructions define the result
as the old one did. -/
theorem doDivremTransformation_runsAs (mn : MagicNumbers) (hmn : mn.Contract) {j : Inst}
    {pos : FuncCursor} {info : DivRemByConstInfo} {e₀ : Ebb} (hpos : pos.position = .At j)
    (he₀ : e₀ ∈ pos.func.layout.ebbs) (hj : j ∈ pos.func.layout.ebbInsts e₀)
    (hf : WellFormed pos.func) (ht : WellTyped pos.func)
    (hinfo : getDivInfo j pos.func.dfg = some info) :
    RunsAs ext pos.func (doDivremTransformation mn info j pos).2.func := by
  obtain ⟨op, arg, imm, hi⟩ := getDivInfo_binaryImm hinfo
  obtain ⟨-, hv, hty, -⟩ := getDivInfo_fields hi hinfo
  obtain ⟨pre, suf, hl⟩ := List.mem_iff_append.1 hj
  have hjm : j ∈ pos.func.layout.allInsts := List.mem_flatMap.2 ⟨e₀, he₀, hj⟩
  have hs : At pos ⟨e₀, j, pre, suf⟩ := ⟨hpos, pos.func.wf.instEbb_eq he₀ hj, hl⟩
  rcases @doDivremTransformation_exact ext mn hmn pos ⟨e₀, j, pre, suf⟩ info op arg imm hi hinfo with
    hkeep | hrw
  · rw [hkeep]; exact RunsAs.refl _
  obtain ⟨-, ⟨L, ed⟩, -⟩ :=
    doDivremTransformation_builds mn info pos hpos (pos.func.wf.insts_lt j hjm)
  have hnd := pos.func.wf.ebbInsts_nodup he₀
  rw [hl, List.nodup_append] at hnd
  have hl' : (doDivremTransformation mn info j pos).2.func.layout.ebbInsts e₀ =
      pre ++ L ++ j :: suf := by
    rw [ed.layout e₀ he₀, hl, insertBeforeAll_middle L (fun h => hnd.2.2 h (List.mem_cons_self _ _))
      (List.nodup_cons.1 hnd.2.1).1]
  refine RunsAs.of_bodySim hf ht ed.ebbs (doDivremTransformation_wellTyped mn hpos hjm hf ht hinfo).2
    (BodySim.of_segment he₀ pre [j] (L ++ [j]) suf (by simp [hl]) (by simp [hl'])
      (fun e he hne => ?_) (fun i hi hni _ _ => ed.flowAgree hf hi (by simpa using hni))
      fun env₁ e₁ e₂ hent hp ha => ?_)
  · -- the other EBBs do not hold `j`
    rw [ed.layout e he, insertBeforeAll_of_not_mem L fun hje =>
      hne (pos.func.wf.ebb_unique he he₀ hje hj)]
  -- where a run reaches `j`, the numerator holds a pattern of its type
  have hc := hent.along hf ht he₀ hl hp
  have harg : arg ∈ (pos.func.dfg.insts j).args := by rw [hi]; exact List.mem_singleton_self _
  have hlt := (hf.uses j hjm arg harg).lt
  obtain ⟨x, hx, -⟩ := hc.operandsAgree hf hjm arg harg
  obtain ⟨r, hr⟩ := hf.has_result j hjm (by rw [hi]; rfl)
  have hrt : pos.func.dfg.valueTypes r = info.ty := by
    have := ht.result j hjm r hr
    rw [hi] at this
    rw [hty, ← this]; rfl
  obtain ⟨p, hp', L₂, env', hl₂, hx₂, hkeep⟩ := @hrw e₂ r x hs hr hrt
    ⟨hv ▸ hlt, by rw [hv, hty]; rfl, by rw [hv, ha arg hlt, hx]⟩
    (by rw [hty]; exact hc.fits arg x hx)
  have hL : L₂ = L := by simpa using hl₂.symm.trans hl'
  subst hL
  have hstep : stepInst ext pos.func e₁ j = .cont (e₁.set r p) := by
    rw [stepInst_value e₁ hi rfl, hr]
    simp [valueFlow, evalData, readVal, hx, hrt, hp']
  rw [execBody_of_execInsts hx₂, execBody_cons_cont _ hstep]
  exact ⟨EnvAgree.set (fun v hv => (hkeep v hv).trans (ha v hv)) r p, rfl⟩

end simple_preopt
