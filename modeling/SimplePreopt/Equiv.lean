import SimplePreopt.Run
-- Two functions run alike when every call goes through the same EBBs, ends the same way
-- and leaves the first one's values as it does; agreeing EBB by EBB is enough.

namespace simple_preopt

variable {ext : External}

/-! ## Agreement -/

/-- `env'` holds what `env` holds for each value numbered below `n`. -/
def EnvAgree (n : Nat) (env env' : Env) : Prop := ∀ v : Value, v.idx < n → env' v = env v

section Agree

variable {n : Nat} {env env' env'' : Env}

theorem EnvAgree.refl (n : Nat) (env : Env) : EnvAgree n env env := fun _ _ => rfl

theorem EnvAgree.trans (h₁ : EnvAgree n env env') (h₂ : EnvAgree n env' env'') :
    EnvAgree n env env'' := fun v hv => (h₂ v hv).trans (h₁ v hv)

theorem EnvAgree.mono {m : Nat} (h : EnvAgree n env env') (hm : m ≤ n) : EnvAgree m env env' :=
  fun v hv => h v (lt_of_lt_of_le hv hm)

theorem EnvAgree.set (h : EnvAgree n env env') (v : Value) (x : Nat) :
    EnvAgree n (env.set v x) (env'.set v x) := fun u hu => by
  by_cases huv : u = v
  · subst huv; simp
  · simp [huv, h u hu]

end Agree

/-- Control after one instruction agrees in two runs: both go on with agreeing
values, or both leave for the same place. -/
def FlowAgree (n : Nat) : Flow → Flow → Prop
  | .cont env, .cont env' => EnvAgree n env env'
  | .exit x, .exit x' => x' = x
  | _, _ => False

/-- Two runs of instructions agree: the same exit, and agreeing values where
control leaves or runs past the last. -/
def BodyAgree (n : Nat) (r r' : Env × Option Exit) : Prop := EnvAgree n r.1 r'.1 ∧ r'.2 = r.2

/-- Two runs of functions show the same: the same EBBs with the same
arguments, the same end, and agreeing values. -/
def Run.Agree (n : Nat) (r r' : Run) : Prop :=
  r'.trace = r.trace ∧ r'.halt = r.halt ∧ EnvAgree n r.env r'.env

/-! ## One instruction from agreeing values -/

@[simp] theorem flowAgree_cont {n : Nat} {env env' : Env} :
    FlowAgree n (.cont env) (.cont env') ↔ EnvAgree n env env' := Iff.rfl

@[simp] theorem flowAgree_exit {n : Nat} {x x' : Exit} : FlowAgree n (.exit x) (.exit x') ↔ x' = x :=
  Iff.rfl

section Step

variable {t : Value → Ty} {env env' : Env} {n : Nat} {d : InstructionData}

theorem valueFlow_agree (res : Option Value) (he : EnvAgree n env env')
    (ha : ∀ a ∈ d.args, env' a = env a) :
    FlowAgree n (valueFlow ext t env res d) (valueFlow ext t env' res d) := by
  cases res with
  | none => exact rfl
  | some r =>
    simp only [valueFlow, evalData_congr_env (t r) ha]
    cases evalData ext t env (t r) d with
    | value p => exact he.set r p
    | trap | stuck => exact rfl

theorem branchFlow_agree (he : EnvAgree n env env') (ha : ∀ a ∈ d.args, env' a = env a) :
    FlowAgree n (branchFlow t env d) (branchFlow t env' d) := by
  have hvs : ∀ {vs : List Value}, (∀ a ∈ vs, a ∈ d.args) → readArgs env' vs = readArgs env vs :=
    fun h => readArgs_congr fun a ha' => ha a (h a ha')
  cases d with
  | Branch op dest c vs =>
    simp only [branchFlow, ha c (by simp [InstructionData.args]),
      @hvs vs fun a h => by simp [InstructionData.args, h]]
    rcases env c with _ | x <;> rcases readArgs env vs with _ | xs <;> try exact rfl
    by_cases hx : op.taken x <;> simp [hx, he]
  | BranchIcmp cc dest a b vs =>
    simp only [branchFlow, ha a (by simp [InstructionData.args]),
      ha b (by simp [InstructionData.args]), @hvs vs fun a h => by simp [InstructionData.args, h]]
    rcases env a with _ | x <;> rcases env b with _ | y <;> rcases readArgs env vs with _ | xs <;>
      try exact rfl
    by_cases hx : cc.eval (t a).bits x y <;> simp [hx, he]
  | Jump op dest vs =>
    simp only [branchFlow, @hvs vs fun a h => by simpa [InstructionData.args] using h]
    cases readArgs env vs <;> exact rfl
  | _ => exact rfl

/-- An instruction whose operands hold the same in two environments does the
same in both, and keeps them agreeing. -/
theorem stepData_agree (res : Option Value) (he : EnvAgree n env env')
    (ha : ∀ a ∈ d.args, env' a = env a) :
    FlowAgree n (stepData ext t env res d) (stepData ext t env' res d) := by
  cases d with
  | CondTrap op a =>
    simp only [stepData, ha a (by simp [InstructionData.args])]
    cases env a with
    | none => exact rfl
    | some x => by_cases hx : op.traps x <;> simp [hx, he]
  | MultiAry vs =>
    simp only [stepData, @readArgs_congr env env' vs ha]
    cases readArgs env vs <;> exact rfl
  | Branch | BranchIcmp | Jump => exact @branchFlow_agree t _ _ _ _ he ha
  | _ => simp only [stepData]; exact valueFlow_agree res he ha

end Step

/-! ## Runs of instructions -/

/-- Two runs of the instructions `l` agree when each step agrees, from
agreeing values, where the run in `f` reaches it. -/
theorem execBody_sim {f f' : Function} {n : Nat} :
    ∀ (l : List Inst) {env₁ env₂ : Env},
    (∀ pre i suf e₁ e₂, l = pre ++ i :: suf → execBody ext f env₁ pre = (e₁, none) →
      EnvAgree n e₁ e₂ → FlowAgree n (stepInst ext f e₁ i) (stepInst ext f' e₂ i)) →
    EnvAgree n env₁ env₂ → BodyAgree n (execBody ext f env₁ l) (execBody ext f' env₂ l)
  | [], _, _, _, h => ⟨h, rfl⟩
  | i :: is, env₁, env₂, hstep, h => by
    have hi := hstep [] i is env₁ env₂ rfl rfl h
    generalize hs₁ : stepInst ext f env₁ i = s₁ at hi
    generalize hs₂ : stepInst ext f' env₂ i = s₂ at hi
    cases s₁ with
    | cont e₁ =>
      cases s₂ with
      | cont e₂ =>
        rw [execBody_cons_cont _ hs₁, execBody_cons_cont _ hs₂]
        exact execBody_sim is (fun pre k suf e₁' e₂' hl hx => hstep (i :: pre) k suf e₁' e₂'
          (by rw [hl]; rfl) (by rw [execBody_cons_cont _ hs₁]; exact hx)) hi
      | exit => exact hi.elim
    | exit x =>
      cases s₂ with
      | cont => exact hi.elim
      | exit x' =>
        rw [execBody_cons_exit _ hs₁, execBody_cons_exit _ hs₂]
        exact ⟨h, by rw [show x' = x from hi]⟩

/-- Each EBB of `g'` runs as that of `g`, from every state in which a run of
`g` enters it and from agreeing values. -/
def BodySim (ext : External) (g g' : Function) : Prop :=
  ∀ e ∈ g.layout.ebbs, ∀ env₁ env₂ : Env, Entered ext g env₁ e → EnvAgree g.dfg.valueCount env₁ env₂ →
    BodyAgree g.dfg.valueCount (execBody ext g env₁ (g.layout.ebbInsts e))
      (execBody ext g' env₂ (g'.layout.ebbInsts e))

/-! ## Runs of functions -/

theorem enterEbb_agree {n : Nat} : ∀ {env env' : Env} {ps : List Value} {xs : List Nat},
    EnvAgree n env env' →
    (enterEbb env ps xs = none ∧ enterEbb env' ps xs = none) ∨
      ∃ e e', enterEbb env ps xs = some e ∧ enterEbb env' ps xs = some e' ∧ EnvAgree n e e'
  | _, _, [], [], h => .inr ⟨_, _, rfl, rfl, h⟩
  | env, env', p :: ps, x :: xs, h => @enterEbb_agree n (env.set p x) (env'.set p x) ps xs (h.set p x)
  | _, _, [], _ :: _, _ | _, _, _ :: _, [], _ => .inl ⟨rfl, rfl⟩

section Sim

variable {g g' : Function}

/-- Runs that enter an EBB from agreeing values, the first as `g` enters it,
show the same through any fuel, when each EBB of `g'` runs as that of `g`. -/
theorem runFrom_sim (hf : WellFormed g) (ht : WellTyped g) (hl : g'.layout.ebbs = g.layout.ebbs)
    (hp : g'.dfg.ebbParams = g.dfg.ebbParams) (hs : BodySim ext g g') :
    ∀ (fuel : Nat) {env₁ env₂ : Env} {e : Ebb}, Entered ext g env₁ e →
      EnvAgree g.dfg.valueCount env₁ env₂ →
      (runFrom ext g fuel env₁ e).Agree g.dfg.valueCount (runFrom ext g' fuel env₂ e)
  | 0, _, _, _, _, h => ⟨rfl, rfl, h⟩
  | fuel + 1, env₁, env₂, e, hent, hagr => by
    simp only [runFrom, hl]
    by_cases he : e ∈ g.layout.ebbs
    · rw [if_pos he, if_pos he]
      obtain ⟨hx, ho⟩ := hs e he env₁ env₂ hent hagr
      generalize hr₁ : execBody ext g env₁ (g.layout.ebbInsts e) = r₁ at hx ho
      generalize hr₂ : execBody ext g' env₂ (g'.layout.ebbInsts e) = r₂ at hx ho
      obtain ⟨e₁, o⟩ := r₁
      obtain ⟨e₂, o₂⟩ := r₂
      dsimp only at hx ho
      subst ho
      rcases o₂ with _ | ⟨D, xs⟩ | xs | _ | _
      · exact ⟨rfl, rfl, hx⟩
      · rw [hp]
        rcases @enterEbb_agree _ e₁ e₂ (g.dfg.ebbParams D) xs hx with
          ⟨h₁, h₂⟩ | ⟨e₁', e₂', h₁, h₂, hx'⟩
        · simp only [h₁, h₂]; exact ⟨rfl, rfl, hx⟩
        · simp only [h₁, h₂]
          obtain ⟨htr, hh, henv⟩ :=
            runFrom_sim hf ht hl hp hs fuel (hent.goto hf ht he hr₁ h₁) hx'
          exact ⟨by rw [htr], hh, henv⟩
      all_goals exact ⟨rfl, rfl, hx⟩
    · rw [if_neg he, if_neg he]; exact ⟨rfl, rfl, hagr⟩

/-- The arguments of a call fit the parameters of the entry of `f`. -/
def ArgsFit (f : Function) (args : List Nat) : Prop :=
  ∀ e, f.layout.ebbs.head? = some e →
    List.Forall₂ (fun v x => x < 2 ^ (f.dfg.valueTypes v).bits) (f.dfg.ebbParams e) args

/-- `g'` runs as `g`: with any fuel, every call whose arguments fit shows the
same in both, and leaves the values of `g` as `g` does. -/
def RunsAs (ext : External) (g g' : Function) : Prop :=
  ∀ fuel args, ArgsFit g args → (run ext g fuel args).Agree g.dfg.valueCount (run ext g' fuel args)

theorem RunsAs.of_bodySim (hf : WellFormed g) (ht : WellTyped g)
    (hl : g'.layout.ebbs = g.layout.ebbs) (hp : g'.dfg.ebbParams = g.dfg.ebbParams)
    (hs : BodySim ext g g') : RunsAs ext g g' := by
  intro fuel args hargs
  unfold run
  rw [hl, hp]
  cases hh : g.layout.ebbs.head? with
  | none => exact ⟨rfl, rfl, EnvAgree.refl _ _⟩
  | some e =>
    dsimp only
    cases hen : enterEbb (fun _ => none) (g.dfg.ebbParams e) args with
    | none => exact ⟨rfl, rfl, EnvAgree.refl _ _⟩
    | some env =>
      exact runFrom_sim hf ht hl hp hs fuel (Entered.start hh (hargs e hh) hen) (EnvAgree.refl _ _)

theorem RunsAs.refl (g : Function) : RunsAs ext g g := fun _ _ _ => ⟨rfl, rfl, EnvAgree.refl _ _⟩

theorem RunsAs.trans {f h : Function} (h₁ : RunsAs ext f g) (h₂ : RunsAs ext g h)
    (hn : f.dfg.valueCount ≤ g.dfg.valueCount) (hfit : ∀ args, ArgsFit f args → ArgsFit g args) :
    RunsAs ext f h := fun fuel args hargs =>
  have a₁ := h₁ fuel args hargs
  have a₂ := h₂ fuel args (hfit args hargs)
  ⟨a₂.1.trans a₁.1, a₂.2.1.trans a₁.2.1, a₁.2.2.trans (a₂.2.2.mono hn)⟩

end Sim

end simple_preopt
