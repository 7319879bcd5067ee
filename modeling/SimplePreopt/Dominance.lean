import SimplePreopt.Eval
-- Control flow between program points and the SSA form the pass keeps: each value defined
-- once, and each use strictly dominated by its definition, dominance stated by paths.

namespace simple_preopt

/-! ## Program points and control flow -/

/-- Modelled from the spec: `ExpandedProgramPoint`, the top of an EBB or an instruction. -/
inductive ProgramPoint where
  | ebb (e : Ebb)
  | inst (i : Inst)
deriving DecidableEq, Repr

/-- Control can go on from an instruction with data `d` to the next one of its
EBB: `d` is not a jump or a return. -/
def InstructionData.fallsThrough : InstructionData → Bool
  | .Jump .. | .MultiAry _ => false
  | _ => true

theorem InstructionData.fallsThrough_of_definesValue {d : InstructionData}
    (h : d.definesValue = true) : d.fallsThrough = true ∧ d.branchDestination = none := by
  cases d <;> simp_all [InstructionData.definesValue, InstructionData.fallsThrough,
    InstructionData.branchDestination]

/-- Modelled from the spec: the verifier's control flow, at the level of instructions. -/
def succs (f : Function) : ProgramPoint → List ProgramPoint
  | .ebb e => if e ∈ f.layout.ebbs then (f.layout.firstInst e).toList.map ProgramPoint.inst else []
  | .inst i => (f.dfg.insts i).branchDestination.toList.map ProgramPoint.ebb ++
      if (f.dfg.insts i).fallsThrough then (f.layout.nextInst i).toList.map ProgramPoint.inst
      else []

@[simp] theorem mem_succs_ebb {f : Function} {e : Ebb} {q : ProgramPoint} :
    q ∈ succs f (.ebb e) ↔ e ∈ f.layout.ebbs ∧ ∃ i, f.layout.firstInst e = some i ∧ q = .inst i := by
  by_cases he : e ∈ f.layout.ebbs <;> simp [succs, he, eq_comm]

@[simp] theorem mem_succs_inst {f : Function} {i : Inst} {q : ProgramPoint} :
    q ∈ succs f (.inst i) ↔
      (∃ D, (f.dfg.insts i).branchDestination = some D ∧ q = .ebb D) ∨
        ((f.dfg.insts i).fallsThrough = true ∧ ∃ i', f.layout.nextInst i = some i' ∧ q = .inst i') := by
  cases h : (f.dfg.insts i).fallsThrough <;> simp [succs, h, eq_comm]

/-- Two functions with one layout whose instructions branch and fall through
alike have the same control flow. -/
theorem succs_congr {f f' : Function} (hl : f'.layout = f.layout)
    (hd : ∀ i, (f'.dfg.insts i).branchDestination = (f.dfg.insts i).branchDestination ∧
      (f'.dfg.insts i).fallsThrough = (f.dfg.insts i).fallsThrough) :
    succs f' = succs f := by
  funext p
  cases p with
  | ebb e => simp only [succs, hl]
  | inst i => simp only [succs, hl, (hd i).1, (hd i).2]

/-! ## Dominance -/

/-- `p` is reached from the entry along a path that meets `d` nowhere before `p`. -/
inductive ReachAvoid (f : Function) (d : ProgramPoint) : ProgramPoint → Prop
  | entry {e : Ebb} : f.layout.ebbs.head? = some e → ReachAvoid f d (.ebb e)
  | step {p q : ProgramPoint} : ReachAvoid f d p → p ≠ d → q ∈ succs f p → ReachAvoid f d q

/-- Modelled from the spec: strict dominance, every path from the entry to `p` meeting `d`
first; a point no path reaches is dominated by every point. -/
def SDom (f : Function) (d p : ProgramPoint) : Prop := ¬ReachAvoid f d p

/-- A path to `p` that avoids `a` either avoids `b` too, or passes `b` first. -/
theorem ReachAvoid.split {f : Function} {a p : ProgramPoint} (h : ReachAvoid f a p)
    (b : ProgramPoint) : ReachAvoid f b p ∨ ReachAvoid f a b := by
  induction h with
  | entry he => exact .inl (.entry he)
  | @step p q hp hpa hq ih =>
    rcases ih with ih | ih
    · by_cases hpb : p = b
      · subst hpb; exact .inr hp
      · exact .inl (.step ih hpb hq)
    · exact .inr ih

theorem SDom.trans {f : Function} {a b c : ProgramPoint} (h₁ : SDom f a b) (h₂ : SDom f b c) :
    SDom f a c :=
  fun h => (h.split b).elim h₂ h₁

/-- Paths of `f'` map to paths of `f` that avoid the same point, when the entry
and each edge of `f'` do. -/
theorem ReachAvoid.lift {f f' : Function} {d : ProgramPoint} (φ : ProgramPoint → ProgramPoint)
    (hentry : ∀ e, f'.layout.ebbs.head? = some e → ReachAvoid f d (φ (.ebb e)))
    (hstep : ∀ p q, ReachAvoid f d (φ p) → p ≠ d → q ∈ succs f' p → ReachAvoid f d (φ q))
    {p : ProgramPoint} (h : ReachAvoid f' d p) : ReachAvoid f d (φ p) := by
  induction h with
  | entry he => exact hentry _ he
  | step _ hpd hq ih => exact hstep _ _ ih hpd hq

/-- Control flow that is the same keeps every path. -/
theorem ReachAvoid.of_succs_eq {f f' : Function} {d p : ProgramPoint}
    (he : f'.layout.ebbs = f.layout.ebbs) (hs : succs f' = succs f) (h : ReachAvoid f' d p) :
    ReachAvoid f d p :=
  h.lift id (fun _ h' => .entry (he ▸ h')) fun _ _ hp hpd hq => .step hp hpd (hs ▸ hq)

/-- A list of points that holds the entry and, from each of its points other
than `d`, every successor, holds every point reached while avoiding `d`. -/
theorem ReachAvoid.mem_of_closed {f : Function} {d : ProgramPoint} {S : List ProgramPoint}
    (hentry : ∀ e, f.layout.ebbs.head? = some e → ProgramPoint.ebb e ∈ S)
    (hclosed : ∀ p ∈ S, p ≠ d → ∀ q ∈ succs f p, q ∈ S) {p : ProgramPoint}
    (h : ReachAvoid f d p) : p ∈ S := by
  induction h with
  | entry he => exact hentry _ he
  | step _ hpd hq ih => exact hclosed _ ih hpd _ hq

/-! ## SSA form -/

/-- Where `v` is defined: the top of its EBB for a parameter, its instruction for a result. -/
def DataFlowGraph.defPoint (dfg : DataFlowGraph) (v : Value) : ProgramPoint :=
  match dfg.valueDefs v with
  | .Result i _ => .inst i
  | .Param e _ => .ebb e

/-- The points of the layout: its EBBs and their instructions. -/
def Layout.HasPoint (l : Layout) : ProgramPoint → Prop
  | .ebb e => e ∈ l.ebbs
  | .inst i => i ∈ l.allInsts

/-- `v` may be used at `i`: it is a value of `f`, defined at a point of the
layout that strictly dominates `i`. -/
structure Available (f : Function) (v : Value) (i : Inst) : Prop where
  lt : v.idx < f.dfg.valueCount
  def_mem : f.layout.HasPoint (f.dfg.defPoint v)
  sdom : SDom f (f.dfg.defPoint v) (.inst i)

/-- Modelled from the spec: SSA form as the verifier checks it, each value defined once and
each operand available where it is used. -/
structure WellFormed (f : Function) : Prop where
  result_def : ∀ i v, f.dfg.results i = some v → f.dfg.valueDefs v = .Result i 0
  def_result : ∀ v i n, v.idx < f.dfg.valueCount → f.dfg.valueDefs v = .Result i n →
    i.idx < f.dfg.instCount ∧ f.dfg.results i = some v
  param_def : ∀ e, ∀ v ∈ f.dfg.ebbParams e,
    v.idx < f.dfg.valueCount ∧ ∃ n, f.dfg.valueDefs v = .Param e n
  def_param : ∀ v e n, v.idx < f.dfg.valueCount → f.dfg.valueDefs v = .Param e n →
    v ∈ f.dfg.ebbParams e
  no_result : ∀ i, (f.dfg.insts i).definesValue = false → f.dfg.results i = none
  has_result : ∀ i ∈ f.layout.allInsts, (f.dfg.insts i).definesValue = true →
    ∃ v, f.dfg.results i = some v
  uses : ∀ i ∈ f.layout.allInsts, ∀ v ∈ (f.dfg.insts i).args, Available f v i

theorem DataFlowGraph.defPoint_eq_inst {dfg : DataFlowGraph} {v : Value} {i : Inst}
    (h : dfg.defPoint v = .inst i) : ∃ n, dfg.valueDefs v = .Result i n := by
  unfold DataFlowGraph.defPoint at h
  split at h <;> cases h
  exact ⟨_, ‹_›⟩

theorem DataFlowGraph.defPoint_eq_ebb {dfg : DataFlowGraph} {v : Value} {e : Ebb}
    (h : dfg.defPoint v = .ebb e) : ∃ n, dfg.valueDefs v = .Param e n := by
  unfold DataFlowGraph.defPoint at h
  split at h <;> cases h
  exact ⟨_, ‹_›⟩

/-- An instruction that defines no value is the definition of no value of the function. -/
theorem WellFormed.defPoint_ne {f : Function} (hf : WellFormed f) {i : Inst}
    (hi : (f.dfg.insts i).definesValue = false) {v : Value} (hv : v.idx < f.dfg.valueCount) :
    f.dfg.defPoint v ≠ .inst i := fun h => by
  obtain ⟨n, hn⟩ := DataFlowGraph.defPoint_eq_inst h
  have := (hf.def_result v i n hv hn).2
  rw [hf.no_result i hi] at this
  cases this

theorem DataFlowGraph.defPoint_of_defInst {dfg : DataFlowGraph} {v : Value} {k : Inst}
    (hk : dfg.defInst v = some k) : dfg.defPoint v = .inst k := by
  unfold DataFlowGraph.defInst at hk
  unfold DataFlowGraph.defPoint
  split at hk <;> simp_all [DataFlowGraph.valueDef]

/-- The instruction that defines `v` lies on every path to a use of `v`. -/
theorem Available.defInst {f : Function} {v : Value} {i k : Inst} (h : Available f v i)
    (hk : f.dfg.defInst v = some k) : SDom f (.inst k) (.inst i) :=
  DataFlowGraph.defPoint_of_defInst hk ▸ h.sdom

/-! ## Checking SSA form -/

instance (l : Layout) : DecidablePred l.HasPoint := fun p =>
  match p with
  | .ebb e => inferInstanceAs (Decidable (e ∈ l.ebbs))
  | .inst i => inferInstanceAs (Decidable (i ∈ l.allInsts))

/-- The points reached from the entry, meeting `d` nowhere before, in at most `n` steps. -/
def reachAvoidWithin (f : Function) (d : ProgramPoint) : Nat → List ProgramPoint
  | 0 => f.layout.ebbs.head?.toList.map ProgramPoint.ebb
  | n + 1 =>
    let S := reachAvoidWithin f d n
    ((S.filter (· ≠ d)).flatMap (succs f)).foldl (fun acc q => acc.insert q) S

theorem subset_foldl_insert : ∀ (qs S : List ProgramPoint),
    S ⊆ qs.foldl (fun acc q => acc.insert q) S ∧ ∀ q ∈ qs, q ∈ qs.foldl (fun acc q => acc.insert q) S
  | [], _ => ⟨fun _ h => h, fun _ h => by cases h⟩
  | q :: qs, S => by
    obtain ⟨h₁, h₂⟩ := subset_foldl_insert qs (S.insert q)
    refine ⟨fun x hx => h₁ (List.mem_insert_of_mem hx), fun x hx => ?_⟩
    rcases List.mem_cons.1 hx with rfl | hx
    · exact h₁ (List.mem_insert_self _ _)
    · exact h₂ x hx

theorem entry_mem_reachAvoidWithin {f : Function} {d : ProgramPoint} {e : Ebb}
    (he : f.layout.ebbs.head? = some e) : ∀ n, ProgramPoint.ebb e ∈ reachAvoidWithin f d n
  | 0 => by simp [reachAvoidWithin, he]
  | n + 1 => (subset_foldl_insert _ _).1 (entry_mem_reachAvoidWithin he n)

/-- Strict dominance, computed from the points reached while avoiding `d`. -/
def sdomCheck (f : Function) (d p : ProgramPoint) : Bool :=
  let S := reachAvoidWithin f d (f.layout.ebbs.length + f.layout.allInsts.length)
  decide (∀ q ∈ S, q ≠ d → ∀ r ∈ succs f q, r ∈ S) && decide (p ∉ S)

theorem SDom.of_check {f : Function} {d p : ProgramPoint} (h : sdomCheck f d p = true) :
    SDom f d p := by
  simp only [sdomCheck, Bool.and_eq_true, decide_eq_true_eq] at h
  exact fun hr => h.2 (hr.mem_of_closed (fun _ he => entry_mem_reachAvoidWithin he _) h.1)

/-- What the SSA check asks of `defs[v]` in a function written out as lists. -/
def defOk (insts : List InstructionData) (defs : List ValueDef) (v : Nat) : Bool :=
  match defs.getD v (.Param ⟨0⟩ 0) with
  | .Result i n => n == 0 && decide (i.idx < insts.length) &&
      (insts.getD i.idx default).definesValue &&
      ((List.range defs.length).find? fun v' => defs.getD v' (.Param ⟨0⟩ 0) == .Result i 0) == some v
  | .Param _ _ => true

/-- SSA form, checked on a function written out as lists. -/
def Function.ssaCheck (insts : List InstructionData) (defs : List ValueDef) (tys : List Ty)
    (ebbs : List (List Nat)) (h : LayoutOk insts.length (Layout.ofLists ebbs)) : Bool :=
  let f := Function.ofLists insts defs tys ebbs h
  (List.range defs.length).all (defOk insts defs) &&
  f.layout.allInsts.all fun i =>
    (!(f.dfg.insts i).definesValue || (f.dfg.results i).isSome) &&
    (f.dfg.insts i).args.all fun v =>
      decide (v.idx < defs.length) && decide (f.layout.HasPoint (f.dfg.defPoint v)) &&
        sdomCheck f (f.dfg.defPoint v) (.inst i)

theorem WellFormed.of_ssaCheck {insts : List InstructionData} {defs : List ValueDef}
    {tys : List Ty} {ebbs : List (List Nat)} {h : LayoutOk insts.length (Layout.ofLists ebbs)}
    (hc : Function.ssaCheck insts defs tys ebbs h = true) :
    WellFormed (Function.ofLists insts defs tys ebbs h) := by
  simp only [Function.ssaCheck, Bool.and_eq_true, List.all_eq_true] at hc
  obtain ⟨hdefs, hinsts⟩ := hc
  -- the definition of a value in range, whatever the default
  have hget : ∀ {v : Nat} (d : ValueDef), v < defs.length → defs.getD v d = defs.getD v (.Param ⟨0⟩ 0) :=
    fun d hv => by simp [List.getElem?_eq_getElem hv]
  -- a result is the first value defined by its instruction
  have hfind : ∀ {i : Inst} {v : Value},
      (Function.ofLists insts defs tys ebbs h).dfg.results i = some v →
      v.idx < defs.length ∧ defs.getD v.idx (.Param ⟨0⟩ 0) = .Result i 0 := fun hr => by
    obtain ⟨v', hv', rfl⟩ := Option.map_eq_some'.1 hr
    exact ⟨List.mem_range.1 (List.mem_of_find?_eq_some hv'), by simpa using List.find?_some hv'⟩
  have hok : ∀ {v : Nat} {i : Inst} {n : Nat}, v < defs.length →
      defs.getD v (.Param ⟨0⟩ 0) = .Result i n → n = 0 ∧ i.idx < insts.length ∧
        (insts.getD i.idx default).definesValue = true ∧
        ((List.range defs.length).find? fun v' => defs.getD v' (.Param ⟨0⟩ 0) == .Result i 0) =
          some v := fun hv hd => by
    have := hdefs _ (List.mem_range.2 hv)
    simp only [defOk, hd, Bool.and_eq_true, beq_iff_eq, decide_eq_true_eq] at this
    exact ⟨this.1.1.1, this.1.1.2, this.1.2, this.2⟩
  refine ⟨fun i v hr => (hfind hr).2, fun v i n hv hd => ?_, fun e v hv => ?_, fun v e n hv hd => ?_,
    fun i hi => ?_, fun i hi hd => ?_, fun i hi v hv => ?_⟩
  · obtain ⟨-, hi, -, hf⟩ := hok hv hd
    refine ⟨hi, ?_⟩
    show ((List.range defs.length).find? _).map Value.mk = some v
    rw [hf]; rfl
  · obtain ⟨v', hv', rfl⟩ := List.mem_map.1 hv
    obtain ⟨hr, hm⟩ := List.mem_filter.1 hv'
    have hr := List.mem_range.1 hr
    rw [hget _ hr] at hm
    refine ⟨hr, ?_⟩
    show ∃ n, defs.getD v' (.Param ⟨0⟩ 0) = .Param e n
    revert hm
    cases defs.getD v' (.Param ⟨0⟩ 0) with
    | Result _ _ => intro hm; cases hm
    | Param e' n => intro hm; exact ⟨n, by simpa using hm⟩
  · refine List.mem_map.2 ⟨v.idx, List.mem_filter.2 ⟨List.mem_range.2 hv, ?_⟩, rfl⟩
    rw [hget _ hv]
    show (match defs.getD v.idx (.Param ⟨0⟩ 0) with
      | .Param e' _ => e' == e | .Result _ _ => false) = true
    rw [show defs.getD v.idx (.Param ⟨0⟩ 0) = .Param e n from hd]
    simp
  · cases hr : (Function.ofLists insts defs tys ebbs h).dfg.results i with
    | none => rfl
    | some v =>
      obtain ⟨hv, hd⟩ := hfind hr
      have := (hok hv hd).2.2.1
      exact absurd this (by simpa [Function.ofLists, DataFlowGraph.ofLists] using hi)
  · have := (hinsts i hi).1
    simp only [Bool.or_eq_true, Bool.not_eq_true'] at this
    rcases this with h' | h'
    · exact absurd hd (by simp [h'])
    · exact Option.isSome_iff_exists.1 h'
  · have := (hinsts i hi).2 v hv
    simp only [Bool.and_eq_true, decide_eq_true_eq] at this
    exact ⟨this.1.1, this.1.2, SDom.of_check this.2⟩

end simple_preopt
