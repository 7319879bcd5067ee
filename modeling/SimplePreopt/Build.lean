import SimplePreopt.Eval
-- A run of the instruction builder at a cursor: the instructions it adds sit in order
-- just before the cursor's instruction and define their results one after another.

namespace simple_preopt

variable {ext : External}

open FuncCursor

/-! ## Instructions that keep their meaning -/

/-- `i` exists in `f` and reads and defines only values that exist. -/
structure Closed (f : Function) (i : Inst) : Prop where
  inst_lt : i.idx < f.dfg.instCount
  args_lt : ∀ a ∈ (f.dfg.insts i).args, a.idx < f.dfg.valueCount
  result_lt : ∀ r, f.dfg.results i = some r → r.idx < f.dfg.valueCount

/-- `f'` keeps everything `f` has: the data and result of each instruction and
the type of each value. -/
structure Grows (f f' : Function) : Prop where
  inst_count : f.dfg.instCount ≤ f'.dfg.instCount
  value_count : f.dfg.valueCount ≤ f'.dfg.valueCount
  insts : ∀ j : Inst, j.idx < f.dfg.instCount → f'.dfg.insts j = f.dfg.insts j
  results : ∀ j : Inst, j.idx < f.dfg.instCount → f'.dfg.results j = f.dfg.results j
  types : ∀ u : Value, u.idx < f.dfg.valueCount → f'.dfg.valueTypes u = f.dfg.valueTypes u

theorem Grows.trans {f g h : Function} (h₁ : Grows f g) (h₂ : Grows g h) : Grows f h where
  inst_count := h₁.inst_count.trans h₂.inst_count
  value_count := h₁.value_count.trans h₂.value_count
  insts j hj := (h₂.insts j (by have := h₁.inst_count; omega)).trans (h₁.insts j hj)
  results j hj := (h₂.results j (by have := h₁.inst_count; omega)).trans (h₁.results j hj)
  types u hu := (h₂.types u (by have := h₁.value_count; omega)).trans (h₁.types u hu)

theorem Closed.mono {f f' : Function} {i : Inst} (h : Closed f i) (g : Grows f f') :
    Closed f' i where
  inst_lt := by have := g.inst_count; have := h.inst_lt; omega
  args_lt a ha := by
    rw [g.insts i h.inst_lt] at ha
    have := g.value_count; have := h.args_lt a ha; omega
  result_lt r hr := by
    rw [g.results i h.inst_lt] at hr
    have := g.value_count; have := h.result_lt r hr; omega

/-- A run of instructions does the same in two functions that agree on each of
them: data, result, and the types it reads. -/
theorem execInsts_congr {f f' : Function} (env : Env) {L : List Inst}
    (h : ∀ i ∈ L, f'.dfg.insts i = f.dfg.insts i ∧ f'.dfg.results i = f.dfg.results i ∧
      (∀ a ∈ (f.dfg.insts i).args, f'.dfg.valueTypes a = f.dfg.valueTypes a) ∧
      ∀ r, f.dfg.results i = some r → f'.dfg.valueTypes r = f.dfg.valueTypes r) :
    execInsts ext f' env L = execInsts ext f env L := by
  induction L generalizing env with
  | nil => rfl
  | cons i is ih =>
    obtain ⟨h1, h2, h3, h4⟩ := h i (List.mem_cons_self _ _)
    simp only [execInsts, stepInst_congr env h1 h2 h3 h4]
    split
    · exact ih _ fun j hj => h j (List.mem_cons_of_mem _ hj)
    · rfl

theorem execInsts_grows {f f' : Function} (g : Grows f f') (env : Env) {L : List Inst}
    (hL : ∀ i ∈ L, Closed f i) : execInsts ext f' env L = execInsts ext f env L :=
  execInsts_congr env fun i hi =>
    have hc := hL i hi
    ⟨g.insts i hc.inst_lt, g.results i hc.inst_lt, fun a ha => g.types a (hc.args_lt a ha),
      fun r hr => g.types r (hc.result_lt r hr)⟩

/-! ## The builder -/

@[simp] theorem ins_fst (d : InstructionData) (ty : Ty) (pos : FuncCursor) :
    (ins d ty pos).1 = ⟨pos.func.dfg.valueCount⟩ := rfl

@[simp] theorem ins_position (d : InstructionData) (ty : Ty) (pos : FuncCursor) :
    (ins d ty pos).2.position = pos.position := rfl

theorem ins_grows (d : InstructionData) (ty : Ty) (pos : FuncCursor) :
    Grows pos.func (ins d ty pos).2.func where
  inst_count := Nat.le_succ _
  value_count := Nat.le_succ _
  insts j hj := if_neg fun h => by subst h; simp at hj
  results j hj := if_neg fun h => by subst h; simp at hj
  types u hu := if_neg fun h => by subst h; simp at hu

theorem insBinary_eq (op : BinaryOp) (x y : Value) (pos : FuncCursor) :
    insBinary op x y pos = ins (.Binary op (x, y)) (pos.func.dfg.valueType x) pos := rfl

theorem insBinaryImm_eq (op : BinaryImmOp) (x : Value) (imm : Imm64) (pos : FuncCursor) :
    insBinaryImm op x imm pos = ins (.BinaryImm op x imm) (pos.func.dfg.valueType x) pos := rfl

theorem bind_apply {σ α β : Type} (p : StateM σ α) (q : α → StateM σ β) (s : σ) :
    (p >>= q) s = q (p s).1 (p s).2 := rfl

theorem pure_apply {σ α : Type} (a : α) (s : σ) : (pure a : StateM σ α) s = (a, s) := rfl

/-! ## Runs of the builder -/

/-- Where a rewrite works: the instruction the cursor is on, its EBB, and the
instructions before and after it there. -/
structure Site where
  ebb : Ebb
  inst : Inst
  pre : List Inst
  suf : List Inst

/-- A value that exists, with its type and its pattern in `env`. -/
def Has (pos : FuncCursor) (env : Env) (a : Value) (ty : Ty) (x : Nat) : Prop :=
  a.idx < pos.func.dfg.valueCount ∧ pos.func.dfg.valueTypes a = ty ∧ env a = some x

/-- A builder run at `s` so far: the instructions `L` it added sit just before `s.inst`, and
run from `env₀` they reach `env`. -/
structure Runs (ext : External) (s : Site) (env₀ : Env) (pos : FuncCursor) (L : List Inst)
    (env : Env) : Prop where
  position : pos.position = .At s.inst
  inst_ebb : pos.func.layout.instEbb s.inst = some s.ebb
  layout : pos.func.layout.ebbInsts s.ebb = s.pre ++ L ++ s.inst :: s.suf
  inst_notin : s.inst ∉ s.pre ++ L
  closed : ∀ i ∈ L, Closed pos.func i
  exec : execInsts ext pos.func env₀ L = .cont env

/-- Each step of a run leaves the values that existed as they were. -/
structure Ext (pos : FuncCursor) (env : Env) (pos' : FuncCursor) (env' : Env) : Prop where
  grows : Grows pos.func pos'.func
  env_eq : ∀ u : Value, u.idx < pos.func.dfg.valueCount → env' u = env u

theorem Ext.trans {p₁ p₂ p₃ : FuncCursor} {e₁ e₂ e₃ : Env} (h₁ : Ext p₁ e₁ p₂ e₂)
    (h₂ : Ext p₂ e₂ p₃ e₃) : Ext p₁ e₁ p₃ e₃ :=
  ⟨h₁.grows.trans h₂.grows, fun u hu =>
    (h₂.env_eq u (by have := h₁.grows.value_count; omega)).trans (h₁.env_eq u hu)⟩

theorem Ext.refl (pos : FuncCursor) (env : Env) : Ext pos env pos env :=
  ⟨⟨le_refl _, le_refl _, fun _ _ => rfl, fun _ _ => rfl, fun _ _ => rfl⟩, fun _ _ => rfl⟩

theorem Has.mono {pos pos' : FuncCursor} {env env' : Env} {a : Value} {ty : Ty} {x : Nat}
    (h : Has pos env a ty x) (e : Ext pos env pos' env') : Has pos' env' a ty x :=
  ⟨by have := e.grows.value_count; have := h.1; omega, by rw [e.grows.types a h.1, h.2.1],
    by rw [e.env_eq a h.1, h.2.2]⟩

/-- The cursor is on `s.inst`, which sits in `s.ebb` between `s.pre` and `s.suf`. -/
structure At (pos : FuncCursor) (s : Site) : Prop where
  position : pos.position = .At s.inst
  inst_ebb : pos.func.layout.instEbb s.inst = some s.ebb
  layout : pos.func.layout.ebbInsts s.ebb = s.pre ++ s.inst :: s.suf

theorem Runs.start (ext : External) {pos : FuncCursor} {s : Site} (hs : At pos s) (env₀ : Env) :
    Runs ext s env₀ pos [] env₀ where
  position := hs.position
  inst_ebb := hs.inst_ebb
  layout := by simpa using hs.layout
  inst_notin := by
    have hn := pos.func.wf.ebbInsts_nodup (Layout.instEbb_mem hs.inst_ebb).1
    rw [hs.layout, List.nodup_append] at hn
    simpa using fun h => hn.2.2 h (List.mem_cons_self _ _)
  closed := by simp
  exec := rfl

theorem Runs.inst_lt {s : Site} {env₀ : Env} {pos : FuncCursor} {L : List Inst} {env : Env}
    (h : Runs ext s env₀ pos L env) : s.inst.idx < pos.func.dfg.instCount :=
  pos.func.wf.insts_lt s.inst (List.mem_flatMap.2 ⟨s.ebb, Layout.instEbb_mem h.inst_ebb⟩)

/-- The result of `s.inst` and its type stay as they were while a rewrite adds instructions. -/
theorem Runs.result_mono {s : Site} {env₀ : Env} {pos : FuncCursor} {L : List Inst} {env : Env}
    (h : Runs ext s env₀ pos L env) {pos' : FuncCursor} {env' : Env} (e : Ext pos env pos' env')
    {r : Value} (hr : pos.func.dfg.results s.inst = some r) :
    pos'.func.dfg.results s.inst = some r ∧
      pos'.func.dfg.valueTypes r = pos.func.dfg.valueTypes r :=
  ⟨(e.grows.results _ h.inst_lt).trans hr, e.grows.types r (pos.func.results_lt _ _ hr)⟩

/-- One builder call that defines a value: the run grows by the new
instruction, which defines the new value as its data computes. -/
theorem Runs.push {s : Site} {env₀ : Env} {pos : FuncCursor} {L : List Inst} {env : Env}
    (h : Runs ext s env₀ pos L env) {d : InstructionData} {ty : Ty} {p : Nat}
    (hd : d.definesValue = true) (ha : ∀ a ∈ d.args, a.idx < pos.func.dfg.valueCount)
    (he : evalData ext pos.func.dfg.valueTypes env ty d = .value p) :
    Runs ext s env₀ (ins d ty pos).2 (L ++ [⟨pos.func.dfg.instCount⟩])
        (env.set (ins d ty pos).1 p) ∧
      Ext pos env (ins d ty pos).2 (env.set (ins d ty pos).1 p) ∧
      Has (ins d ty pos).2 (env.set (ins d ty pos).1 p) (ins d ty pos).1 ty p := by
  have g := ins_grows d ty pos
  have hsel : (⟨pos.func.dfg.instCount⟩ : Inst) ≠ s.inst := fun hi => by
    have := pos.func.wf.insts_lt s.inst
      (List.mem_flatMap.2 ⟨s.ebb, Layout.instEbb_mem h.inst_ebb⟩)
    rw [← hi] at this; exact Nat.lt_irrefl _ this
  have hnew : Closed (ins d ty pos).2.func ⟨pos.func.dfg.instCount⟩ :=
    ⟨by simp [ins], by simpa [ins] using fun a h' => Nat.lt_succ_of_lt (ha a h'),
      by simp [ins]⟩
  refine ⟨⟨h.position, ?_, ?_, ?_, ?_, ?_⟩, ⟨g, fun u hu => ?_⟩, ?_, ?_, ?_⟩
  · simp only [ins, ins_position, h.position, Layout.insertAt]
    rw [Layout.instEbb_insertInst h.inst_ebb _ (Ne.symm hsel), h.inst_ebb]
  · simp only [ins, h.position, Layout.insertAt]
    rw [Layout.insertInst_ebbInsts h.inst_ebb, if_pos rfl, h.layout,
      insertBefore_middle _ h.inst_notin]
    simp
  · simpa [Ne.symm hsel] using h.inst_notin
  · intro i hi
    rcases List.mem_append.1 hi with hi | hi
    · exact (h.closed i hi).mono g
    · rw [List.mem_singleton.1 hi]; exact hnew
  · rw [execInsts_append, execInsts_grows g env₀ h.closed, h.exec]
    simp only [execInsts]
    rw [stepInst_value env (by simp [ins]) hd]
    simp only [valueFlow, ins, if_true]
    rw [evalData_congr env ty (fun a h' => if_neg fun hh => by
      subst hh; have := ha _ h'; simp at this), he]
  · exact Env.set_ne env p fun hh => by subst hh; simp at hu
  · simp [ins]
  · simp [ins]
  · simp

theorem Runs.pushBinary {s : Site} {env₀ : Env} {pos : FuncCursor} {L : List Inst} {env : Env}
    (h : Runs ext s env₀ pos L env) {op : BinaryOp} {a b : Value} {ty tb : Ty} {x y z : Nat}
    (ha : Has pos env a ty x) (hb : Has pos env b tb y) (he : binaryOp op ty.bits x y = .value z) :
    Runs ext s env₀ (insBinary op a b pos).2 (L ++ [⟨pos.func.dfg.instCount⟩])
        (env.set (insBinary op a b pos).1 z) ∧
      Ext pos env (insBinary op a b pos).2 (env.set (insBinary op a b pos).1 z) ∧
      Has (insBinary op a b pos).2 (env.set (insBinary op a b pos).1 z)
        (insBinary op a b pos).1 ty z := by
  rw [insBinary_eq, show pos.func.dfg.valueType a = ty from ha.2.1]
  exact h.push rfl (by simp [InstructionData.args, ha.1, hb.1])
    (by simp [evalData, readVal, ha.2.2, hb.2.2, he])

theorem Runs.pushBinaryImm {s : Site} {env₀ : Env} {pos : FuncCursor} {L : List Inst}
    {env : Env} (h : Runs ext s env₀ pos L env) {op : BinaryImmOp} {a : Value} {imm : Imm64}
    {ty : Ty} {x z : Nat} (ha : Has pos env a ty x) (he : binaryImmOp op ty.bits x imm = .value z) :
    Runs ext s env₀ (insBinaryImm op a imm pos).2 (L ++ [⟨pos.func.dfg.instCount⟩])
        (env.set (insBinaryImm op a imm pos).1 z) ∧
      Ext pos env (insBinaryImm op a imm pos).2 (env.set (insBinaryImm op a imm pos).1 z) ∧
      Has (insBinaryImm op a imm pos).2 (env.set (insBinaryImm op a imm pos).1 z)
        (insBinaryImm op a imm pos).1 ty z := by
  rw [insBinaryImm_eq, show pos.func.dfg.valueType a = ty from ha.2.1]
  exact h.push rfl (by simp [InstructionData.args, ha.1]) (by simp [evalData, readVal, ha.2.2, he])

theorem Runs.pushIconst {s : Site} {env₀ : Env} {pos : FuncCursor} {L : List Inst} {env : Env}
    (h : Runs ext s env₀ pos L env) (ty : Ty) (imm : Imm64) :
    Runs ext s env₀ (insIconst ty imm pos).2 (L ++ [⟨pos.func.dfg.instCount⟩])
        (env.set (insIconst ty imm pos).1 (immBits ty.bits imm)) ∧
      Ext pos env (insIconst ty imm pos).2 (env.set (insIconst ty imm pos).1 (immBits ty.bits imm)) ∧
      Has (insIconst ty imm pos).2 (env.set (insIconst ty imm pos).1 (immBits ty.bits imm))
        (insIconst ty imm pos).1 ty (immBits ty.bits imm) :=
  h.push rfl (by simp [InstructionData.args]) rfl

/-- The last step of a rewrite: new data for the cursor's instruction. The
added instructions then run into it, and it defines its result from them. -/
theorem Runs.finish {s : Site} {env₀ : Env} {pos : FuncCursor} {L : List Inst} {env : Env}
    (h : Runs ext s env₀ pos L env) {d : InstructionData} {r : Value} {p : Nat}
    (hd : d.definesValue = true) (hr : pos.func.dfg.results s.inst = some r)
    (he : evalData ext pos.func.dfg.valueTypes env (pos.func.dfg.valueTypes r) d = .value p) :
    (replace s.inst d pos).2.func.layout.ebbInsts s.ebb = s.pre ++ L ++ s.inst :: s.suf ∧
      execInsts ext (replace s.inst d pos).2.func env₀ (L ++ [s.inst]) = .cont (env.set r p) := by
  refine ⟨h.layout, ?_⟩
  have hL : execInsts ext (replace s.inst d pos).2.func env₀ L = .cont env := by
    rw [← h.exec]
    refine execInsts_congr env₀ fun i hi => ⟨?_, rfl, fun _ _ => rfl, fun _ _ => rfl⟩
    exact if_neg fun (hh : i = s.inst) => h.inst_notin (hh ▸ List.mem_append_right _ hi)
  rw [execInsts_append, hL]
  simp only [execInsts]
  rw [stepInst_value env (by simp [FuncCursor.replace]) hd]
  simp only [valueFlow, FuncCursor.replace, DataFlowGraph.setInst, hr, he]

/-! ## Builder programs

A rewrite is a builder program: calls that add instructions, then one
`replace`. `Emits` says what a program that returns a value does from a run,
`Rewrites` what a whole rewrite does; each has one bind rule, and the
rewrites' proofs go from these rules without unfolding the builder. -/

/-- `prog`, run at a builder run that has reached `pos` and `env`, extends the
run and returns a value of type `ty` whose pattern is `p`. -/
def Emits (ext : External) (s : Site) (env₀ : Env) (pos : FuncCursor) (env : Env)
    (prog : StateM FuncCursor Value) (ty : Ty) (p : Nat) : Prop :=
  ∃ L env', Runs ext s env₀ (prog pos).2 L env' ∧ Ext pos env (prog pos).2 env' ∧
    Has (prog pos).2 env' (prog pos).1 ty p

/-- The rewrite `prog` leaves instructions `L` before `s.inst`, which with the rewritten
`s.inst` define `r` as `p` and keep every value `env` has. -/
def Rewrites (ext : External) (s : Site) (env₀ : Env) (pos : FuncCursor) (env : Env)
    (prog : StateM FuncCursor Unit) (r : Value) (p : Nat) : Prop :=
  ∃ (L : List Inst) (env' : Env),
    (prog pos).2.func.layout.ebbInsts s.ebb = s.pre ++ L ++ s.inst :: s.suf ∧
    execInsts ext (prog pos).2.func env₀ (L ++ [s.inst]) = .cont (env'.set r p) ∧
    ∀ u : Value, u.idx < pos.func.dfg.valueCount → env' u = env u

section Rules

variable {s : Site} {env₀ env : Env} {pos : FuncCursor} {L : List Inst}

/-- Sequencing: what the rest of a program does from any run that the first
part reaches, with any value that has the first part's type and pattern. -/
theorem Emits.bind {prog : StateM FuncCursor Value} {ty : Ty} {p : Nat}
    (h : Emits ext s env₀ pos env prog ty p) {k : Value → StateM FuncCursor Value} {ty' : Ty} {p' : Nat}
    (hk : ∀ v pos' L' env', Runs ext s env₀ pos' L' env' → Ext pos env pos' env' →
      Has pos' env' v ty p → Emits ext s env₀ pos' env' (k v) ty' p') :
    Emits ext s env₀ pos env (prog >>= k) ty' p' := by
  obtain ⟨L₁, env₁, h₁, e₁, a₁⟩ := h
  obtain ⟨L₂, env₂, h₂, e₂, a₂⟩ := hk _ _ _ _ h₁ e₁ a₁
  exact ⟨L₂, env₂, h₂, e₁.trans e₂, a₂⟩

theorem Emits.bind_rewrites {prog : StateM FuncCursor Value} {ty : Ty} {p : Nat}
    (h : Emits ext s env₀ pos env prog ty p) {k : Value → StateM FuncCursor Unit} {r : Value}
    {q : Nat} (hk : ∀ v pos' L' env', Runs ext s env₀ pos' L' env' → Ext pos env pos' env' →
      Has pos' env' v ty p → Rewrites ext s env₀ pos' env' (k v) r q) :
    Rewrites ext s env₀ pos env (prog >>= k) r q := by
  obtain ⟨L₁, env₁, h₁, e₁, a₁⟩ := h
  obtain ⟨L₂, env₂, hl, hx, he⟩ := hk _ _ _ _ h₁ e₁ a₁
  exact ⟨L₂, env₂, hl, hx, fun u hu =>
    (he u (lt_of_lt_of_le hu e₁.grows.value_count)).trans (e₁.env_eq u hu)⟩

theorem Runs.emits_pure (h : Runs ext s env₀ pos L env) {v : Value} {ty : Ty} {p : Nat}
    (hv : Has pos env v ty p) : Emits ext s env₀ pos env (pure v) ty p :=
  ⟨L, env, h, Ext.refl pos env, hv⟩

theorem Runs.emits_binary (h : Runs ext s env₀ pos L env) {op : BinaryOp} {a b : Value} {ty tb : Ty}
    {x y z : Nat} (ha : Has pos env a ty x) (hb : Has pos env b tb y)
    (he : binaryOp op ty.bits x y = .value z) : Emits ext s env₀ pos env (insBinary op a b) ty z :=
  ⟨_, _, h.pushBinary ha hb he⟩

theorem Runs.emits_binaryImm (h : Runs ext s env₀ pos L env) {op : BinaryImmOp} {a : Value}
    {imm : Imm64} {ty : Ty} {x z : Nat} (ha : Has pos env a ty x)
    (he : binaryImmOp op ty.bits x imm = .value z) :
    Emits ext s env₀ pos env (insBinaryImm op a imm) ty z :=
  ⟨_, _, h.pushBinaryImm ha he⟩

theorem Runs.emits_iconst (h : Runs ext s env₀ pos L env) (ty : Ty) (imm : Imm64) :
    Emits ext s env₀ pos env (insIconst ty imm) ty (immBits ty.bits imm) :=
  ⟨_, _, h.pushIconst ty imm⟩

/-- The `replace` that ends a rewrite, with data computing `p` from the run's environment. -/
theorem Runs.rewrites_replace (h : Runs ext s env₀ pos L env) {d : InstructionData} {r : Value}
    {p : Nat} (hd : d.definesValue = true) (hr : pos.func.dfg.results s.inst = some r)
    (he : evalData ext pos.func.dfg.valueTypes env (pos.func.dfg.valueTypes r) d = .value p) :
    Rewrites ext s env₀ pos env (replace s.inst d) r p :=
  have hf := h.finish hd hr he
  ⟨L, env, hf.1, hf.2, fun _ _ => rfl⟩

end Rules

/-! ## A function of one instruction

The rewrite theorems hold of any function. This one, an EBB `ebb0` that holds
one instruction `inst0` with result `v1`, is where their hypotheses are shown
to hold together. -/

/-- `ebb0` holding `inst0`, with data `data` and result `v1`; `v0` and `v1` have type `ty`. -/
def oneInst (data : InstructionData) (ty : Ty) : Function where
  dfg :=
    { insts := fun _ => data
      results := fun i => if i.idx = 0 then some ⟨1⟩ else none
      valueDefs := fun v => if v.idx = 1 then .Result ⟨0⟩ 0 else .Param ⟨0⟩ 0
      valueTypes := fun _ => ty
      ebbParams := fun _ => [⟨0⟩]
      instCount := 1
      valueCount := 2 }
  layout := { ebbs := [⟨0⟩], ebbInsts := fun _ => [⟨0⟩] }
  wf := ⟨by simp, by simp [Layout.allInsts], by simp [Layout.allInsts]⟩
  results_lt i r h := by
    dsimp only at h ⊢
    split at h
    · cases h; decide
    · cases h

theorem oneInst_at (data : InstructionData) (ty : Ty) :
    At ⟨oneInst data ty, .At ⟨0⟩⟩ ⟨⟨0⟩, ⟨0⟩, [], []⟩ :=
  ⟨rfl, rfl, rfl⟩

/-- `v0` with pattern `x`, in an environment that defines only `v0`. -/
theorem oneInst_has (data : InstructionData) (ty : Ty) (x : Nat) :
    Has ⟨oneInst data ty, .At ⟨0⟩⟩ (fun v => if v = ⟨0⟩ then some x else none) ⟨0⟩ ty x :=
  ⟨Nat.zero_lt_two, rfl, rfl⟩

end simple_preopt
