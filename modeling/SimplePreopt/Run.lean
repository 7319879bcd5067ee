import SimplePreopt.Typing
import SimplePreopt.SsaEdits
-- A run of a function, EBB after EBB, and what holds along it: in SSA form every value
-- whose definition strictly dominates the point holds what that definition computes.

namespace simple_preopt

variable {ext : External}

/-! ## Running a function -/

/-- Modelled from the spec: control entering an EBB gives its parameters the
values the branch passes, and is stuck when their numbers differ. -/
def enterEbb (env : Env) : List Value → List Nat → Option Env
  | [], [] => some env
  | v :: vs, x :: xs => enterEbb (env.set v x) vs xs
  | _, _ => none

/-- Modelled from the spec: the instructions of an EBB run until one leaves. -/
def execBody (ext : External) (f : Function) (env : Env) : List Inst → Env × Option Exit
  | [] => (env, none)
  | i :: is =>
    match stepInst ext f env i with
    | .cont env' => execBody ext f env' is
    | .exit x => (env, some x)

/-- How a run ends: it returns values, traps, is stuck, or runs out of fuel. -/
inductive Halt where
  | ret (args : List Nat)
  | trap
  | stuck
  | fuel
deriving DecidableEq, Repr

/-- What a run shows: each EBB it goes to with the arguments passed, how it
ends, and what the values hold at the end. -/
structure Run where
  trace : List (Ebb × List Nat)
  halt : Halt
  env : Env

/-- Modelled from the spec: a run from the top of `ebb`, through at most `fuel` EBBs. -/
def runFrom (ext : External) (f : Function) : Nat → Env → Ebb → Run
  | 0, env, _ => ⟨[], .fuel, env⟩
  | fuel + 1, env, ebb =>
    if ebb ∈ f.layout.ebbs then
      match execBody ext f env (f.layout.ebbInsts ebb) with
      | (env', some (.goto dest xs)) =>
        match enterEbb env' (f.dfg.ebbParams dest) xs with
        | some env'' =>
          let r := runFrom ext f fuel env'' dest
          ⟨(dest, xs) :: r.trace, r.halt, r.env⟩
        | none => ⟨[(dest, xs)], .stuck, env'⟩
      | (env', some (.ret xs)) => ⟨[], .ret xs, env'⟩
      | (env', some .trap) => ⟨[], .trap, env'⟩
      | (env', some .stuck) => ⟨[], .stuck, env'⟩
      | (env', none) => ⟨[], .stuck, env'⟩
    else ⟨[], .stuck, env⟩

/-- Modelled from the spec: a call of `f` with `args` for the parameters of its
entry EBB, the first of the layout, through at most `fuel` EBBs. -/
def run (ext : External) (f : Function) (fuel : Nat) (args : List Nat) : Run :=
  match f.layout.ebbs.head? with
  | some e =>
    match enterEbb (fun _ => none) (f.dfg.ebbParams e) args with
    | some env => runFrom ext f fuel env e
    | none => ⟨[], .stuck, fun _ => none⟩
  | none => ⟨[], .stuck, fun _ => none⟩

/-! ## Entering an EBB -/

theorem enterEbb_frame : ∀ {env env' : Env} {ps : List Value} {xs : List Nat},
    enterEbb env ps xs = some env' → ∀ v ∉ ps, env' v = env v
  | _, _, [], [], h, _, _ => by cases h; rfl
  | env, _, p :: ps, x :: xs, h, v, hv => by
    have h' : enterEbb (env.set p x) ps xs = some _ := h
    rw [enterEbb_frame h' v fun hm => hv (List.mem_cons_of_mem _ hm),
      Env.set_ne _ _ fun he => hv (List.mem_cons.2 (.inl he))]
  | _, _, [], _ :: _, h, _, _ | _, _, _ :: _, [], h, _, _ => by cases h

theorem enterEbb_defined : ∀ {env env' : Env} {ps : List Value} {xs : List Nat},
    enterEbb env ps xs = some env' → ∀ v ∈ ps, ∃ x, env' v = some x
  | _, _, [], [], _, _, hv => by cases hv
  | env, env', p :: ps, x :: xs, h, v, hv => by
    have h' : enterEbb (env.set p x) ps xs = some env' := h
    by_cases hm : v ∈ ps
    · exact enterEbb_defined h' v hm
    · rw [enterEbb_frame h' v hm, (List.mem_cons.1 hv).resolve_right hm, Env.set_same]
      exact ⟨x, rfl⟩
  | _, _, [], _ :: _, h, _, _ | _, _, _ :: _, [], h, _, _ => by cases h

/-- The parameters take patterns of their types when the arguments are. -/
theorem enterEbb_fits {tyOf : Value → Ty} : ∀ {env env' : Env} {ps : List Value} {xs : List Nat},
    (∀ v x, env v = some x → x < 2 ^ (tyOf v).bits) →
    List.Forall₂ (fun v x => x < 2 ^ (tyOf v).bits) ps xs →
    enterEbb env ps xs = some env' → ∀ v x, env' v = some x → x < 2 ^ (tyOf v).bits
  | _, _, [], [], h, _, he => by cases he; exact h
  | env, _, p :: ps, x :: xs, h, .cons hx hrest, he =>
    enterEbb_fits (fun v y hy => by
      by_cases hv : v = p
      · subst hv; rw [Env.set_same] at hy; cases hy; exact hx
      · rw [Env.set_ne _ _ hv] at hy; exact h v y hy) hrest he
  | _, _, [], _ :: _, _, _, he | _, _, _ :: _, [], _, _, he => by cases he

theorem readArgs_forall₂ {env : Env} : ∀ {vs : List Value} {xs : List Nat},
    readArgs env vs = some xs → List.Forall₂ (fun v x => env v = some x) vs xs
  | [], xs, h => by cases h; exact .nil
  | v :: vs, xs, h => by
    rw [readArgs_cons] at h
    obtain ⟨x, hx, h⟩ := Option.bind_eq_some.1 h
    obtain ⟨ys, hys, rfl⟩ := Option.map_eq_some'.1 h
    exact .cons hx (readArgs_forall₂ hys)

/-- Arguments read from values of the parameters' types fit the parameters. -/
theorem forall₂_fits {tyOf : Value → Ty} {env : Env}
    (hfit : ∀ v x, env v = some x → x < 2 ^ (tyOf v).bits) :
    ∀ {vs ps : List Value} {xs : List Nat}, vs.map tyOf = ps.map tyOf →
      List.Forall₂ (fun v x => env v = some x) vs xs →
      List.Forall₂ (fun v x => x < 2 ^ (tyOf v).bits) ps xs
  | [], [], _, _, .nil => .nil
  | v :: vs, p :: ps, x :: xs, hty, .cons hx hrest => by
    obtain ⟨h1, h2⟩ := List.cons_eq_cons.1 hty
    exact .cons (h1 ▸ hfit v x hx) (forall₂_fits hfit h2 hrest)
  | [], _ :: _, _, hty, _ | _ :: _, [], _, hty, _ => by cases hty

/-! ## Running the instructions of an EBB -/

theorem execBody_append (f : Function) (env : Env) (l₁ l₂ : List Inst) :
    execBody ext f env (l₁ ++ l₂) =
      match execBody ext f env l₁ with
      | (env', none) => execBody ext f env' l₂
      | r => r := by
  induction l₁ generalizing env with
  | nil => rfl
  | cons i is ih =>
    simp only [List.cons_append, execBody]
    split
    · exact ih _
    · rfl

/-- Where control leaves a run of instructions: at one of them, after the ones
before it ran through. -/
theorem execBody_exit {f : Function} {env env' : Env} {x : Exit} :
    ∀ {l : List Inst}, execBody ext f env l = (env', some x) →
      ∃ pre i suf, l = pre ++ i :: suf ∧ execBody ext f env pre = (env', none) ∧
        stepInst ext f env' i = .exit x
  | [], h => by cases h
  | i :: is, h => by
    simp only [execBody] at h
    split at h
    · rename_i env₁ h₁
      obtain ⟨pre, k, suf, rfl, hpre, hk⟩ := execBody_exit h
      exact ⟨i :: pre, k, suf, rfl, by simp only [execBody, h₁, hpre], hk⟩
    · simp only [Prod.mk.injEq, Option.some.injEq] at h
      obtain ⟨rfl, rfl⟩ := h
      exact ⟨[], i, is, rfl, rfl, ‹_›⟩

theorem execBody_cons_cont {f : Function} {env env' : Env} {i : Inst} (is : List Inst)
    (h : stepInst ext f env i = .cont env') :
    execBody ext f env (i :: is) = execBody ext f env' is := by
  simp only [execBody, h]

theorem execBody_cons_exit {f : Function} {env : Env} {i : Inst} {x : Exit} (is : List Inst)
    (h : stepInst ext f env i = .exit x) : execBody ext f env (i :: is) = (env, some x) := by
  simp only [execBody, h]

theorem execBody_of_execInsts {f : Function} {env env' : Env} :
    ∀ {l : List Inst}, execInsts ext f env l = .cont env' → execBody ext f env l = (env', none)
  | [], h => by cases h; rfl
  | i :: is, h => by
    cases h₁ : stepInst ext f env i with
    | cont env₁ =>
      simp only [execInsts, h₁] at h
      rw [execBody_cons_cont is h₁]
      exact execBody_of_execInsts h
    | exit x => simp only [execInsts, h₁, reduceCtorEq] at h

/-! ## Reachable points -/

/-- Modelled from the spec: the points control can reach from the entry. -/
inductive Reachable (f : Function) : ProgramPoint → Prop
  | entry {e : Ebb} : f.layout.ebbs.head? = some e → Reachable f (.ebb e)
  | step {p q : ProgramPoint} : Reachable f p → q ∈ succs f p → Reachable f q

section Reach

variable {f : Function} {d p q : ProgramPoint}

/-- A path to a reachable point avoids `d`, or one reaches `d` first. -/
theorem Reachable.reachAvoid (h : Reachable f q) (d : ProgramPoint) :
    ReachAvoid f d q ∨ ReachAvoid f d d := by
  induction h with
  | entry he => exact .inl (.entry he)
  | @step p q _ hq ih =>
    rcases ih with ih | ih
    · by_cases hpd : p = d
      · subst hpd; exact .inr ih
      · exact .inl (ih.step hpd hq)
    · exact .inr ih

/-- No reachable point strictly dominates itself. -/
theorem Reachable.not_sdom_self (h : Reachable f p) : ¬SDom f p p :=
  fun hs => (h.reachAvoid p).elim hs hs

theorem ReachAvoid.reachable (h : ReachAvoid f d p) : Reachable f p := by
  induction h with
  | entry he => exact .entry he
  | step _ _ hq ih => exact ih.step hq

/-- What strictly dominates a reachable point is reachable. -/
theorem Reachable.of_sdom (h : Reachable f p) (hs : SDom f d p) : Reachable f d :=
  ((h.reachAvoid d).resolve_left hs).reachable

/-- A strict dominator of a successor of `p`, other than `p`, strictly dominates `p`. -/
theorem SDom.of_succ (h : SDom f d q) (hpd : p ≠ d) (hq : q ∈ succs f p) : SDom f d p :=
  fun hp => h (hp.step hpd hq)

/-- An instruction control reaches is laid out. -/
theorem Reachable.mem_allInsts {i : Inst} (h : Reachable f (.inst i)) :
    i ∈ f.layout.allInsts := by
  cases h with
  | @step p _ _ hq =>
    cases p with
    | ebb e =>
      obtain ⟨he, i', hfi, hi⟩ := mem_succs_ebb.1 hq
      cases hi
      exact List.mem_flatMap.2 ⟨e, he, List.mem_of_mem_head? hfi⟩
    | inst k =>
      rcases mem_succs_inst.1 hq with ⟨D, -, hi⟩ | ⟨-, i', hn, hi⟩
      · cases hi
      · cases hi
        obtain ⟨e, he, -, hm, -⟩ := Layout.nextInst_mem hn
        exact List.mem_flatMap.2 ⟨e, he, hm⟩

end Reach

/-! ## What one instruction can do -/

theorem valueFlow_cont {t : Value → Ty} {env env' : Env} {res : Option Value}
    {d : InstructionData} (h : valueFlow ext t env res d = .cont env') :
    ∃ r x, res = some r ∧ evalData ext t env (t r) d = .value x ∧ env' = env.set r x := by
  unfold valueFlow at h
  split at h
  · cases h
  · split at h
    · cases h; exact ⟨_, _, rfl, ‹_›, rfl⟩
    all_goals cases h

theorem branchFlow_cont {t : Value → Ty} {env env' : Env} {d : InstructionData}
    (h : branchFlow t env d = .cont env') : env' = env := by
  unfold branchFlow at h
  repeat' split at h
  all_goals first | (cases h; rfl) | cases h

/-- Control goes on past an instruction that falls through, and only its
result changes, to what it computes. -/
theorem stepInst_cont {f : Function} {env env' : Env} {i : Inst}
    (h : stepInst ext f env i = .cont env') :
    (f.dfg.insts i).fallsThrough = true ∧
      ((f.dfg.insts i).definesValue = false ∧ env' = env ∨
        ∃ r x, f.dfg.results i = some r ∧
          evalData ext f.dfg.valueTypes env (f.dfg.valueTypes r) (f.dfg.insts i) = .value x ∧
          env' = env.set r x) := by
  unfold stepInst at h
  generalize f.dfg.insts i = d at h ⊢
  cases d with
  | CondTrap op a =>
    simp only [stepData] at h
    split at h
    · split at h
      · cases h
      · cases h; exact ⟨rfl, .inl ⟨rfl, rfl⟩⟩
    · cases h
  | MultiAry vs => simp only [stepData] at h; split at h <;> cases h
  | Branch | BranchIcmp => simp only [stepData] at h; exact ⟨rfl, .inl ⟨rfl, branchFlow_cont h⟩⟩
  | Jump op dest vs => simp only [stepData, branchFlow] at h; split at h <;> cases h
  | UnaryImm | Unary | Binary | BinaryImm | IntCompare | IntCompareImm | Ternary | Other =>
    exact ⟨rfl, .inr (valueFlow_cont h)⟩

theorem valueFlow_ne_goto {t : Value → Ty} {env : Env} {res : Option Value}
    {d : InstructionData} {D : Ebb} {xs : List Nat} :
    valueFlow ext t env res d ≠ .exit (.goto D xs) := by
  unfold valueFlow
  split
  · nofun
  · split <;> nofun

/-- A branch to `D` with the arguments `xs` is a branch or jump to `D`, whose
block arguments hold `xs`. -/
theorem stepInst_goto {f : Function} {env : Env} {i : Inst} {D : Ebb} {xs : List Nat}
    (h : stepInst ext f env i = .exit (.goto D xs)) :
    (f.dfg.insts i).branchDestination = some D ∧
      readArgs env (f.dfg.insts i).blockArgs = some xs ∧ (f.dfg.insts i).definesValue = false := by
  unfold stepInst at h
  generalize f.dfg.insts i = d at h ⊢
  cases d with
  | CondTrap op a =>
    simp only [stepData] at h
    split at h
    · split at h <;> cases h
    · cases h
  | MultiAry vs => simp only [stepData] at h; split at h <;> cases h
  | Branch | BranchIcmp =>
    simp only [stepData, branchFlow] at h
    split at h
    · split at h
      · cases h; exact ⟨rfl, ‹_›, rfl⟩
      · cases h
    · cases h
  | Jump op dest vs =>
    simp only [stepData, branchFlow] at h
    split at h
    · cases h; exact ⟨rfl, ‹_›, rfl⟩
    · cases h
  | UnaryImm | Unary | Binary | BinaryImm | IntCompare | IntCompareImm | Ternary | Other =>
    simp only [stepData] at h; exact absurd h valueFlow_ne_goto

/-! ## What the values hold along a run -/

/-- What the values hold at `p` in a run: each value whose definition strictly dominates `p`
holds what its definition computes, and fits its type. -/
structure Consistent (ext : External) (f : Function) (env : Env) (p : ProgramPoint) : Prop where
  reach : Reachable f p
  agree : ∀ v : Value, v.idx < f.dfg.valueCount → SDom f (f.dfg.defPoint v) p →
    ∃ x, env v = some x ∧ ∀ d, f.dfg.defData v = some d →
      evalData ext f.dfg.valueTypes env (f.dfg.valueTypes v) d = .value x
  fits : ∀ v x, env v = some x → x < 2 ^ (f.dfg.valueTypes v).bits

/-- What holds when control enters `ebb` with `env`: the values are consistent
at its top, and its parameters have patterns. -/
structure Entered (ext : External) (f : Function) (env : Env) (ebb : Ebb) : Prop where
  consistent : Consistent ext f env (.ebb ebb)
  params : ∀ v ∈ f.dfg.ebbParams ebb, ∃ x, env v = some x

section Consistent

variable {f : Function} {env env' : Env} {p q : ProgramPoint}

theorem DataFlowGraph.defData_inst {dfg : DataFlowGraph} {v : Value} {d : InstructionData}
    (h : dfg.defData v = some d) : ∃ k, dfg.defPoint v = .inst k ∧ dfg.insts k = d := by
  obtain ⟨k, hk, rfl⟩ := Option.map_eq_some'.1 h
  exact ⟨k, DataFlowGraph.defPoint_of_defInst hk, rfl⟩

/-- Only the operands of an instruction matter to what it computes. -/
theorem evalData_congr_env {t : Value → Ty} {env env' : Env} (ty : Ty) {d : InstructionData}
    (h : ∀ a ∈ d.args, env' a = env a) : evalData ext t env' ty d = evalData ext t env ty d := by
  cases d with
  | Unary op a => cases op <;> simp [evalData, readVal, h a (by simp [InstructionData.args])]
  | Binary op ab =>
    obtain ⟨a, b⟩ := ab
    simp [evalData, readVal, h a (by simp [InstructionData.args]),
      h b (by simp [InstructionData.args])]
  | BinaryImm op a imm => simp [evalData, readVal, h a (by simp [InstructionData.args])]
  | IntCompare c ab =>
    obtain ⟨a, b⟩ := ab
    simp [evalData, readVal, h a (by simp [InstructionData.args]),
      h b (by simp [InstructionData.args])]
  | IntCompareImm c a imm => simp [evalData, readVal, h a (by simp [InstructionData.args])]
  | Ternary cab =>
    obtain ⟨c, a, b⟩ := cab
    simp [evalData, readVal, h a (by simp [InstructionData.args]),
      h b (by simp [InstructionData.args]), h c (by simp [InstructionData.args])]
  | Other op vs => simp only [evalData, readArgs_congr (show ∀ a ∈ vs, env' a = env a from h)]
  | _ => rfl

/-- One step of control from `p` to `q` that changes only the values defined at `p` or `q`
keeps the values consistent. -/
theorem Consistent.succ (hf : WellFormed f) (h : Consistent ext f env p) (hq : q ∈ succs f p)
    (c : ProgramPoint) (hc : c = p ∨ c = q) (hframe : ∀ v, f.dfg.defPoint v ≠ c → env' v = env v)
    (hnew : ∀ v : Value, v.idx < f.dfg.valueCount → f.dfg.defPoint v = p →
      ∃ x, env' v = some x ∧ ∀ d, f.dfg.defData v = some d →
        evalData ext f.dfg.valueTypes env' (f.dfg.valueTypes v) d = .value x)
    (hfits : ∀ v x, env' v = some x → x < 2 ^ (f.dfg.valueTypes v).bits) :
    Consistent ext f env' q := by
  have hq' := h.reach.step hq
  refine ⟨hq', fun v hv hs => ?_, hfits⟩
  by_cases hvp : f.dfg.defPoint v = p
  · exact hnew v hv hvp
  have hsp : SDom f (f.dfg.defPoint v) p := hs.of_succ (fun e => hvp e.symm) hq
  -- a point strictly dominating both sides of the step is none of `c`
  have hnc : ∀ {d}, SDom f d p → SDom f d q → d ≠ c := fun hdp hdq hdc => by
    rcases hc with rfl | rfl
    · exact h.reach.not_sdom_self (hdc ▸ hdp)
    · exact hq'.not_sdom_self (hdc ▸ hdq)
  obtain ⟨x, hx, hd⟩ := h.agree v hv hsp
  refine ⟨x, (hframe v (hnc hsp hs)).trans hx, fun d hdv => ?_⟩
  obtain ⟨k, hk, rfl⟩ := DataFlowGraph.defData_inst hdv
  have hkm : k ∈ f.layout.allInsts := (hk ▸ h.reach.of_sdom hsp).mem_allInsts
  rw [evalData_congr_env _ fun a ha => ?_]
  · exact hd _ hdv
  · have hak := (hf.uses k hkm a ha).sdom
    rw [← hk] at hak
    exact hframe a (hnc (hak.trans hsp) (hak.trans hs))

/-- Control that goes on past an instruction keeps the values consistent. -/
theorem Consistent.next (hf : WellFormed f) (ht : WellTyped f) {i i' : Inst}
    (h : Consistent ext f env (.inst i)) (hi : i ∈ f.layout.allInsts)
    (hstep : stepInst ext f env i = .cont env') (hn : f.layout.nextInst i = some i') :
    Consistent ext f env' (.inst i') := by
  obtain ⟨hfall, hcase⟩ := stepInst_cont hstep
  have hq : ProgramPoint.inst i' ∈ succs f (.inst i) := mem_succs_inst.2 (.inr ⟨hfall, i', hn, rfl⟩)
  rcases hcase with ⟨hdv, rfl⟩ | ⟨r, x, hr, hev, rfl⟩
  · exact h.succ hf hq (.inst i) (.inl rfl) (fun _ _ => rfl)
      (fun v hv hvi => absurd hvi (hf.defPoint_ne hdv hv)) h.fits
  have hdr : f.dfg.defPoint r = .inst i := by
    simp only [DataFlowGraph.defPoint, hf.result_def i r hr]
  -- the operands of `i` are not its result
  have hargs : ∀ a ∈ (f.dfg.insts i).args, (env.set r x) a = env a := fun a ha => by
    refine Env.set_ne _ _ fun har => h.reach.not_sdom_self ?_
    have := (hf.uses i hi a ha).sdom
    rwa [har, hdr] at this
  refine h.succ hf hq (.inst i) (.inl rfl) (fun v hv => Env.set_ne _ _ fun hvr => hv (hvr ▸ hdr))
    (fun v hv hvi => ?_) fun v y hy => ?_
  · -- the value defined is the result
    obtain ⟨n, hk⟩ := DataFlowGraph.defPoint_eq_inst hvi
    obtain rfl : v = r := Option.some.inj ((hf.def_result v i n hv hk).2.symm.trans hr)
    refine ⟨x, Env.set_same _ _ _, fun d hd => ?_⟩
    obtain ⟨k, hk, rfl⟩ := DataFlowGraph.defData_inst hd
    rw [hdr] at hk; cases hk
    rw [evalData_congr_env _ hargs]; exact hev
  · by_cases hvr : v = r
    · subst hvr
      rw [Env.set_same] at hy; cases hy
      exact evalData_fits (ht.result i hi v hr) (fun a _ y hy => h.fits a y hy) hev
    · rw [Env.set_ne _ _ hvr] at hy; exact h.fits v y hy

/-- Control that branches to `D` keeps the values consistent at the top of `D`,
whose parameters take the arguments. -/
theorem Consistent.goto (hf : WellFormed f) (ht : WellTyped f) {i : Inst} {D : Ebb}
    {xs : List Nat} {env'' : Env} (h : Consistent ext f env (.inst i)) (hi : i ∈ f.layout.allInsts)
    (hstep : stepInst ext f env i = .exit (.goto D xs))
    (henter : enterEbb env (f.dfg.ebbParams D) xs = some env'') : Entered ext f env'' D := by
  obtain ⟨hdest, hread, hdv⟩ := stepInst_goto hstep
  have hq : ProgramPoint.ebb D ∈ succs f (.inst i) := mem_succs_inst.2 (.inl ⟨D, hdest, rfl⟩)
  have hfits := enterEbb_fits h.fits (forall₂_fits h.fits (ht.branch i hi D hdest)
    (readArgs_forall₂ hread)) henter
  refine ⟨h.succ hf hq (.ebb D) (.inr rfl) (fun v hv => enterEbb_frame henter v fun hm => hv ?_)
    (fun v hv hvi => absurd hvi (hf.defPoint_ne hdv hv)) hfits, enterEbb_defined henter⟩
  obtain ⟨-, n, hn⟩ := hf.param_def D v hm
  simp only [DataFlowGraph.defPoint, hn]

/-- Control at the top of an EBB whose parameters have patterns keeps the values
consistent at its first instruction. -/
theorem Entered.first (hf : WellFormed f) {e : Ebb} {i : Inst} (h : Entered ext f env e)
    (he : e ∈ f.layout.ebbs) (hfi : f.layout.firstInst e = some i) :
    Consistent ext f env (.inst i) := by
  have hq : ProgramPoint.inst i ∈ succs f (.ebb e) := mem_succs_ebb.2 ⟨he, i, hfi, rfl⟩
  refine h.consistent.succ hf hq (.ebb e) (.inl rfl) (fun _ _ => rfl) (fun v hv hve => ?_)
    h.consistent.fits
  obtain ⟨n, hd⟩ := DataFlowGraph.defPoint_eq_ebb hve
  obtain ⟨x, hx⟩ := h.params v (hf.def_param v e n hv hd)
  refine ⟨x, hx, fun d hdd => ?_⟩
  obtain ⟨k, hk, -⟩ := DataFlowGraph.defData_inst hdd
  rw [hve] at hk
  cases hk

/-- In an EBB of the layout, the instruction after `k` is the next in its list. -/
theorem LayoutOk.nextInst_of_split {n : Nat} {l : Layout} (h : LayoutOk n l) {e : Ebb}
    (he : e ∈ l.ebbs) {pre suf : List Inst} {k i : Inst} (hl : l.ebbInsts e = pre ++ k :: i :: suf) :
    l.nextInst k = some i := by
  have hnd := h.ebbInsts_nodup he
  rw [hl] at hnd
  have hk : k ∉ pre := fun hm => (List.nodup_append.1 hnd).2.2 hm (List.mem_cons_self _ _)
  rw [h.nextInst_eq he (by rw [hl]; simp), hl, listNext_append hk]
  rfl

/-- Control that runs through `k :: mid` from a consistent point reaches the next
instruction at one. -/
theorem Consistent.through (hf : WellFormed f) (ht : WellTyped f) {e : Ebb}
    (he : e ∈ f.layout.ebbs) :
    ∀ (pre mid : List Inst) {suf : List Inst} {k i : Inst} {env env' : Env},
    f.layout.ebbInsts e = pre ++ k :: (mid ++ i :: suf) → Consistent ext f env (.inst k) →
    execBody ext f env (k :: mid) = (env', none) → Consistent ext f env' (.inst i)
  | pre, mid, suf, k, i, env, env', hl, h, hx => by
    have hkm : k ∈ f.layout.allInsts := List.mem_flatMap.2 ⟨e, he, by rw [hl]; simp⟩
    cases hk : stepInst ext f env k with
    | exit x => rw [execBody_cons_exit _ hk] at hx; cases hx
    | cont env₁ =>
      rw [execBody_cons_cont _ hk] at hx
      cases mid with
      | nil => cases hx; exact h.next hf ht hkm hk (f.wf.nextInst_of_split he hl)
      | cons m mid =>
        have hm := h.next hf ht hkm hk (f.wf.nextInst_of_split he
          (show f.layout.ebbInsts e = pre ++ k :: m :: (mid ++ i :: suf) by rw [hl]; simp))
        exact Consistent.through hf ht he (pre ++ [k]) mid
          (show f.layout.ebbInsts e = pre ++ [k] ++ m :: (mid ++ i :: suf) by rw [hl]; simp) hm hx

/-- The values are consistent at each instruction of an EBB that control
reaches after entering it. -/
theorem Entered.along (hf : WellFormed f) (ht : WellTyped f) {e : Ebb} (h : Entered ext f env e)
    (he : e ∈ f.layout.ebbs) {pre suf : List Inst} {i : Inst}
    (hl : f.layout.ebbInsts e = pre ++ i :: suf) (hx : execBody ext f env pre = (env', none)) :
    Consistent ext f env' (.inst i) := by
  cases pre with
  | nil =>
    cases hx
    exact h.first hf he (by simp [Layout.firstInst, hl])
  | cons k mid =>
    exact (h.first hf he (by simp [Layout.firstInst, hl])).through hf ht he [] mid
      (by simpa using hl) hx

/-- Control that leaves an EBB for `D` enters `D` with the values consistent. -/
theorem Entered.goto (hf : WellFormed f) (ht : WellTyped f) {e D : Ebb} {xs : List Nat}
    {env'' : Env} (h : Entered ext f env e) (he : e ∈ f.layout.ebbs)
    (hx : execBody ext f env (f.layout.ebbInsts e) = (env', some (.goto D xs)))
    (henter : enterEbb env' (f.dfg.ebbParams D) xs = some env'') : Entered ext f env'' D := by
  obtain ⟨pre, i, suf, hl, hpre, hi⟩ := execBody_exit hx
  exact (h.along hf ht he hl hpre).goto hf ht (List.mem_flatMap.2 ⟨e, he, by rw [hl]; simp⟩) hi
    henter

/-- A call enters the entry EBB with the values consistent, when its arguments
fit the parameters' types: no point strictly dominates the entry. -/
theorem Entered.start {e : Ebb} {args : List Nat} (hhead : f.layout.ebbs.head? = some e)
    (hargs : List.Forall₂ (fun v x => x < 2 ^ (f.dfg.valueTypes v).bits) (f.dfg.ebbParams e) args)
    (henter : enterEbb (fun _ => none) (f.dfg.ebbParams e) args = some env) : Entered ext f env e :=
  ⟨⟨.entry hhead, fun _ _ hs => absurd (.entry hhead) hs,
    enterEbb_fits (fun _ _ h => by cases h) hargs henter⟩, enterEbb_defined henter⟩

/-- At a consistent point, the operands of an instruction hold what their
definitions compute: what `simplify` and `branch_opt` rely on. -/
theorem Consistent.operandsAgree (hf : WellFormed f) {i : Inst} (h : Consistent ext f env (.inst i))
    (hi : i ∈ f.layout.allInsts) : OperandsAgree ext f.dfg env (f.dfg.insts i).args := fun v hv =>
  have ha := hf.uses i hi v hv
  h.agree v ha.lt ha.sdom

end Consistent

end simple_preopt
