import SimplePreopt.Ir
import Mathlib.Data.List.Nodup
-- The cursor the pass walks a function with, and the builder it inserts and replaces
-- through; a function keeps the guarantees of its layout under every insertion.

namespace simple_preopt

/-! ## Inserting into a list of the layout -/

theorem mem_insertBefore {l : List Inst} {x y z : Inst} :
    z ∈ insertBefore l x y ↔ z ∈ l ∨ (x ∈ l ∧ z = y) := by
  induction l with
  | nil => simp [insertBefore]
  | cons a t ih =>
    unfold insertBefore
    split
    · subst_vars; simp only [List.mem_cons]; tauto
    · simp only [List.mem_cons, ih]; aesop

theorem insertBefore_of_not_mem {l : List Inst} {x : Inst} (y : Inst) (h : x ∉ l) :
    insertBefore l x y = l := by
  induction l with
  | nil => rfl
  | cons a t ih =>
    simp only [List.mem_cons, not_or] at h
    simp [insertBefore, Ne.symm h.1, ih h.2]

theorem insertBefore_perm {l : List Inst} {x : Inst} (y : Inst) (h : x ∈ l) :
    (insertBefore l x y).Perm (y :: l) := by
  induction l with
  | nil => simp at h
  | cons a t ih =>
    unfold insertBefore
    split
    · exact List.Perm.refl _
    · rename_i hax
      have hx : x ∈ t := by simpa [Ne.symm hax] using h
      exact ((ih hx).cons a).trans (List.Perm.swap y a t)

/-- Changing one EBB's list to a permutation of it with `y` added permutes the
whole layout the same way. -/
theorem flatMap_update_perm {ebbs : List Ebb} {f g : Ebb → List Inst} {e : Ebb} {y : Inst}
    (hn : ebbs.Nodup) (he : e ∈ ebbs) (hg : (g e).Perm (y :: f e))
    (hf : ∀ e', e' ≠ e → g e' = f e') :
    (ebbs.flatMap g).Perm (y :: ebbs.flatMap f) := by
  induction ebbs with
  | nil => simp at he
  | cons a t ih =>
    simp only [List.flatMap_cons]
    rw [List.nodup_cons] at hn
    by_cases hae : a = e
    · subst hae
      have ht : t.flatMap g = t.flatMap f :=
        List.flatMap_congr fun x hx => hf x fun h => hn.1 (h ▸ hx)
      rw [ht]
      exact hg.append_right _
    · have hte : e ∈ t := by simpa [Ne.symm hae] using he
      rw [hf a hae]
      exact ((ih hn.2 hte).append_left (f a)).trans List.perm_middle

theorem LayoutOk.mono {n : Nat} {l : Layout} (h : LayoutOk n l) : LayoutOk (n + 1) l :=
  ⟨h.ebbs_nodup, h.insts_nodup, fun i hi => Nat.lt_succ_of_lt (h.insts_lt i hi)⟩

theorem Layout.instEbb_mem {l : Layout} {i : Inst} {e : Ebb} (h : l.instEbb i = some e) :
    e ∈ l.ebbs ∧ i ∈ l.ebbInsts e := by
  unfold Layout.instEbb at h
  have := List.find?_some h
  exact ⟨List.mem_of_find?_eq_some h, by simpa using this⟩

/-- The new instruction `y` is laid out exactly once more, and nothing else moves. -/
theorem Layout.allInsts_insertInst_perm {l : Layout} (hn : l.ebbs.Nodup) (y cur : Inst)
    (h : l.instEbb cur ≠ none) :
    (l.insertInst y cur).allInsts.Perm (y :: l.allInsts) := by
  unfold Layout.insertInst
  split
  · rename_i e he
    obtain ⟨hmem, hcur⟩ := Layout.instEbb_mem he
    exact flatMap_update_perm hn hmem (by simpa using insertBefore_perm y hcur)
      fun e' h' => by simp [h']
  · contradiction

@[simp] theorem Layout.insertInst_ebbs (l : Layout) (y cur : Inst) :
    (l.insertInst y cur).ebbs = l.ebbs := by
  unfold Layout.insertInst; split <;> rfl

theorem LayoutOk.insertInst {n : Nat} {l : Layout} (h : LayoutOk n l) (y cur : Inst)
    (hy : y.idx = n) : LayoutOk (n + 1) (l.insertInst y cur) := by
  by_cases hc : l.instEbb cur = none
  · have : l.insertInst y cur = l := by simp [Layout.insertInst, hc]
    rw [this]; exact h.mono
  · have hp := Layout.allInsts_insertInst_perm h.ebbs_nodup y cur hc
    have hy' : y ∉ l.allInsts := fun hm => by have := h.insts_lt y hm; omega
    refine ⟨by simpa using h.ebbs_nodup,
      hp.nodup_iff.2 (List.nodup_cons.2 ⟨hy', h.insts_nodup⟩), fun i hi => ?_⟩
    rcases List.mem_cons.1 (hp.subset hi) with rfl | hi'
    · omega
    · exact Nat.lt_succ_of_lt (h.insts_lt i hi')

theorem LayoutOk.ebbInsts_nodup {n : Nat} {l : Layout} (h : LayoutOk n l) {e : Ebb}
    (he : e ∈ l.ebbs) : (l.ebbInsts e).Nodup :=
  (List.nodup_flatMap.1 h.insts_nodup).1 e he

theorem insertBefore_middle {l₁ l₂ : List Inst} {x : Inst} (y : Inst) (h : x ∉ l₁) :
    insertBefore (l₁ ++ x :: l₂) x y = l₁ ++ y :: x :: l₂ := by
  induction l₁ with
  | nil => simp [insertBefore]
  | cons a t ih =>
    simp only [List.mem_cons, not_or] at h
    simp [insertBefore, Ne.symm h.1, ih h.2]

theorem Layout.insertInst_ebbInsts {l : Layout} {cur : Inst} {e : Ebb}
    (h : l.instEbb cur = some e) (y : Inst) (e' : Ebb) :
    (l.insertInst y cur).ebbInsts e' =
      if e' = e then insertBefore (l.ebbInsts e) cur y else l.ebbInsts e' := by
  simp [Layout.insertInst, h]

/-- Inserting `y` moves no other instruction to another EBB. -/
theorem Layout.instEbb_insertInst {l : Layout} {cur z : Inst} {e : Ebb}
    (h : l.instEbb cur = some e) (y : Inst) (hz : z ≠ y) :
    (l.insertInst y cur).instEbb z = l.instEbb z := by
  have hp : (fun e' => decide (z ∈ (l.insertInst y cur).ebbInsts e')) =
      fun e' => decide (z ∈ l.ebbInsts e') := by
    funext e'
    rw [Layout.insertInst_ebbInsts h]
    split
    · subst_vars; simp [mem_insertBefore, hz]
    · rfl
  simp only [Layout.instEbb, Layout.insertInst_ebbs, hp]

/-! ## The cursor -/

inductive CursorPosition where
  | Nowhere
  | At (inst : Inst)
  | Before (ebb : Ebb)
  | After (ebb : Ebb)
deriving DecidableEq, Repr

/-- Where `insert_inst` puts `i` for a cursor at `p`: just before the cursor's instruction,
the only place the pass inserts; elsewhere `i` is left out of the layout. -/
def Layout.insertAt (l : Layout) (p : CursorPosition) (i : Inst) : Layout :=
  match p with
  | .At cur => l.insertInst i cur
  | _ => l

theorem LayoutOk.insertAt {n : Nat} {l : Layout} (h : LayoutOk n l) (p : CursorPosition)
    (i : Inst) (hi : i.idx = n) : LayoutOk (n + 1) (l.insertAt p i) := by
  unfold Layout.insertAt; split
  · exact h.insertInst i _ hi
  · exact h.mono

structure FuncCursor where
  func : Function
  position : CursorPosition

namespace FuncCursor

/-- `FuncCursor::new`: a cursor on the function, at no position yet. -/
def new (func : Function) : FuncCursor := ⟨func, .Nowhere⟩

/-- `current_ebb`. -/
def currentEbb (pos : FuncCursor) : Option Ebb :=
  match pos.position with
  | .Nowhere => none
  | .At i => pos.func.layout.instEbb i
  | .Before e => some e
  | .After e => some e

/-- `next_ebb`: move to the top of the next EBB in layout order, or to the entry EBB from nowhere. -/
def nextEbb : StateM FuncCursor (Option Ebb) := fun pos =>
  let next := match pos.currentEbb with
    | some e => pos.func.layout.nextEbb e
    | none => pos.func.layout.ebbs.head?
  match next with
  | some e => (some e, { pos with position := .Before e })
  | none => (none, { pos with position := .Nowhere })

/-- `next_inst`: move to the next instruction of the current EBB, or past its end. -/
def nextInst : StateM FuncCursor (Option Inst) := fun pos =>
  match pos.position with
  | .Nowhere => (none, pos)
  | .After _ => (none, pos)
  | .At i =>
    match pos.func.layout.nextInst i with
    | some j => (some j, { pos with position := .At j })
    | none =>
      match pos.func.layout.instEbb i with
      | some e => (none, { pos with position := .After e })
      | none => (none, { pos with position := .Nowhere })
  | .Before e =>
    match pos.func.layout.firstInst e with
    | some j => (some j, { pos with position := .At j })
    | none => (none, { pos with position := .After e })

/-! ## The instruction builder -/

/-- `pos.ins()` with a builder method that makes one result: `make_inst`,
`make_inst_results` with type `ty`, then `insert_inst` at the cursor. -/
def ins (data : InstructionData) (ty : Ty) : StateM FuncCursor Value := fun pos =>
  let f := pos.func
  let i : Inst := ⟨f.dfg.instCount⟩
  let v : Value := ⟨f.dfg.valueCount⟩
  let dfg : DataFlowGraph :=
    { f.dfg with
      insts := fun j => if j = i then data else f.dfg.insts j
      results := fun j => if j = i then some v else f.dfg.results j
      valueDefs := fun u => if u = v then .Result i 0 else f.dfg.valueDefs u
      valueTypes := fun u => if u = v then ty else f.dfg.valueTypes u
      instCount := f.dfg.instCount + 1
      valueCount := f.dfg.valueCount + 1 }
  (v, { pos with
    func := ⟨dfg, f.layout.insertAt pos.position i, f.wf.insertAt _ i rfl, fun j r h => by
      by_cases hj : j = i
      · simp only [dfg, hj, if_true, Option.some.injEq] at h; subst h; exact Nat.lt_succ_self _
      · simp only [dfg, hj, if_false] at h; exact Nat.lt_succ_of_lt (f.results_lt j r h)⟩ })

/-- `pos.ins().iconst(ty, imm)`. -/
def insIconst (ty : Ty) (imm : Imm64) : StateM FuncCursor Value := ins (.UnaryImm imm) ty

/-- `pos.ins()` with a binary builder method: the result has the type of `x`. -/
def insBinary (op : BinaryOp) (x y : Value) : StateM FuncCursor Value := fun pos =>
  ins (.Binary op (x, y)) (pos.func.dfg.valueType x) pos

/-- `pos.ins()` with a binary-immediate builder method: the result has the type of `x`. -/
def insBinaryImm (op : BinaryImmOp) (x : Value) (imm : Imm64) : StateM FuncCursor Value :=
  fun pos => ins (.BinaryImm op x imm) (pos.func.dfg.valueType x) pos

/-- `pos.func.dfg.replace(inst)` with a builder method: new data in place. The
instruction keeps its result value, and the value keeps its type. -/
def replace (inst : Inst) (data : InstructionData) : StateM FuncCursor Unit := fun pos =>
  ((), { pos with func := { pos.func with dfg := pos.func.dfg.setInst inst data } })

end FuncCursor

/-! ## The control-flow graph -/

/-- Modelled from the spec: the control-flow graph of `flowgraph.rs`, for each EBB its
branches and the EBB each goes to. -/
structure ControlFlowGraph where
  succs : Ebb → List (Inst × Ebb)

/-- The branches of `ebb` and where they go, as the function lays them out. -/
def ebbBranches (func : Function) (ebb : Ebb) : List (Inst × Ebb) :=
  (func.layout.ebbInsts ebb).filterMap fun i =>
    (func.dfg.insts i).branchDestination.map fun d => (i, d)

/-- Modelled from the spec: `recompute_ebb`, run after the successors of `ebb` changed. -/
def ControlFlowGraph.recomputeEbb (cfg : ControlFlowGraph) (func : Function) (ebb : Ebb) :
    ControlFlowGraph :=
  ⟨fun e => if e = ebb then ebbBranches func ebb else cfg.succs e⟩

end simple_preopt
