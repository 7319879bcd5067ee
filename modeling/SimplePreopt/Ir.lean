import Mathlib.Data.List.Basic
-- The IR the pass reads and rewrites: entities, value types, condition codes, the
-- instruction formats, and a function as a data-flow graph and a layout of EBBs.

namespace simple_preopt

/-! ## Entities -/

@[ext] structure Value where
  idx : Nat
deriving DecidableEq, Repr

@[ext] structure Inst where
  idx : Nat
deriving DecidableEq, Repr

@[ext] structure Ebb where
  idx : Nat
deriving DecidableEq, Repr

/-- The entity a builder creates next is numbered by the count, so it is none
of those already there. -/
theorem Value.ne_of_idx_lt {v : Value} {n : Nat} (h : v.idx < n) : v ≠ ⟨n⟩ := by
  rintro rfl; exact Nat.lt_irrefl n h

theorem Inst.ne_of_idx_lt {i : Inst} {n : Nat} (h : i.idx < n) : i ≠ ⟨n⟩ := by
  rintro rfl; exact Nat.lt_irrefl n h

theorem Value.idx_lt_of_ne {v : Value} {n : Nat} (h : v.idx < n + 1) (hne : v ≠ ⟨n⟩) :
    v.idx < n :=
  Nat.lt_of_le_of_ne (Nat.le_of_lt_succ h) fun e => hne (Value.ext e)

/-- The value types the pass meets: the integer types and the booleans that conditions produce. -/
inductive Ty where
  | B1 | I8 | I16 | I32 | I64
deriving DecidableEq, Repr

/-- The width of a value of the type, in bits. A boolean is one bit. -/
def Ty.bits : Ty → Nat
  | .B1 => 1
  | .I8 => 8
  | .I16 => 16
  | .I32 => 32
  | .I64 => 64

theorem Ty.bits_pos (t : Ty) : 0 < t.bits := by cases t <;> decide

/-- `Imm64`: the 64-bit immediate field of an instruction. -/
abbrev Imm64 := BitVec 64

/-! ## Integer condition codes -/

/-- Modelled from the spec: `IntCC` of `ir::condcodes`, which src/ uses but does
not hold. These are the ten integer comparisons of the IR. -/
inductive IntCC where
  | Equal | NotEqual
  | SignedLessThan | SignedGreaterThanOrEqual | SignedGreaterThan | SignedLessThanOrEqual
  | UnsignedLessThan | UnsignedGreaterThanOrEqual | UnsignedGreaterThan
  | UnsignedLessThanOrEqual
deriving DecidableEq, Repr

/-- Modelled from the spec: `CondCode::inverse`, the condition that holds exactly
when this one does not. -/
def IntCC.inverse : IntCC → IntCC
  | .Equal => .NotEqual
  | .NotEqual => .Equal
  | .SignedLessThan => .SignedGreaterThanOrEqual
  | .SignedGreaterThanOrEqual => .SignedLessThan
  | .SignedGreaterThan => .SignedLessThanOrEqual
  | .SignedLessThanOrEqual => .SignedGreaterThan
  | .UnsignedLessThan => .UnsignedGreaterThanOrEqual
  | .UnsignedGreaterThanOrEqual => .UnsignedLessThan
  | .UnsignedGreaterThan => .UnsignedLessThanOrEqual
  | .UnsignedLessThanOrEqual => .UnsignedGreaterThan

@[simp] theorem IntCC.inverse_inverse (c : IntCC) : c.inverse.inverse = c := by
  cases c <;> rfl

/-! ## Instruction formats

Each format of `InstructionData` that the pass matches on, with the opcodes the
IR gives that format. A value list keeps its fixed operands apart from the
block arguments that follow them: `inst_args` joins them again. -/

inductive UnaryOp where
  | Bint | Copy
deriving DecidableEq, Repr

inductive BinaryOp where
  | Iadd | Isub | Imul | Udiv | Sdiv | Urem | Srem | Band | Bor | Bxor
  | Rotl | Rotr | Ishl | Ushr | Sshr | Umulhi | Smulhi
deriving DecidableEq, Repr

inductive BinaryImmOp where
  | IaddImm | ImulImm | UdivImm | SdivImm | UremImm | SremImm | IrsubImm
  | BandImm | BorImm | BxorImm | RotlImm | RotrImm | IshlImm | UshrImm | SshrImm
deriving DecidableEq, Repr

inductive CondTrapOp where
  | Trapz | Trapnz
deriving DecidableEq, Repr

inductive BranchOp where
  | Brz | Brnz
deriving DecidableEq, Repr

inductive JumpOp where
  | Jump | Fallthrough
deriving DecidableEq, Repr

/-- The instruction data the pass reads and writes, by format: `UnaryImm` is `iconst`,
`Ternary` `select`, `MultiAry` `return`, and `Other` a `load`, a `call` or any format the
pass never matches that defines a value. -/
inductive InstructionData where
  | UnaryImm (imm : Imm64)
  | Unary (opcode : UnaryOp) (arg : Value)
  | Binary (opcode : BinaryOp) (args : Value × Value)
  | BinaryImm (opcode : BinaryImmOp) (arg : Value) (imm : Imm64)
  | IntCompare (cond : IntCC) (args : Value × Value)
  | IntCompareImm (cond : IntCC) (arg : Value) (imm : Imm64)
  | Ternary (args : Value × Value × Value)
  | CondTrap (opcode : CondTrapOp) (arg : Value)
  | Branch (opcode : BranchOp) (destination : Ebb) (arg : Value) (varargs : List Value)
  | BranchIcmp (cond : IntCC) (destination : Ebb) (x y : Value) (varargs : List Value)
  | Jump (opcode : JumpOp) (destination : Ebb) (args : List Value)
  | MultiAry (args : List Value)
  | Other (opcode : Nat) (args : List Value)
deriving DecidableEq, Repr

instance : Inhabited InstructionData := ⟨.MultiAry []⟩

namespace InstructionData

/-- `inst_args`: every value operand, fixed operands first. -/
def args : InstructionData → List Value
  | UnaryImm _ => []
  | Unary _ a => [a]
  | Binary _ (a, b) => [a, b]
  | BinaryImm _ a _ => [a]
  | IntCompare _ (a, b) => [a, b]
  | IntCompareImm _ a _ => [a]
  | Ternary (c, a, b) => [c, a, b]
  | CondTrap _ a => [a]
  | Branch _ _ c vs => c :: vs
  | BranchIcmp _ _ x y vs => x :: y :: vs
  | Jump _ _ vs => vs
  | MultiAry vs => vs
  | Other _ vs => vs

/-- `branch_destination`: the EBB a branch or jump goes to. -/
def branchDestination : InstructionData → Option Ebb
  | Branch _ d _ _ => some d
  | BranchIcmp _ d _ _ _ => some d
  | Jump _ d _ => some d
  | _ => none

end InstructionData

/-! ## Functions -/

/-- `ValueDef`: a value is the result of an instruction or a parameter of an EBB. -/
inductive ValueDef where
  | Result (inst : Inst) (num : Nat)
  | Param (ebb : Ebb) (num : Nat)
deriving DecidableEq, Repr

/-- The data-flow graph: every instruction has at most one result, and the two counts are
the next entity numbers. -/
structure DataFlowGraph where
  insts : Inst → InstructionData
  results : Inst → Option Value
  valueDefs : Value → ValueDef
  valueTypes : Value → Ty
  ebbParams : Ebb → List Value
  instCount : Nat
  valueCount : Nat

/-- The layout: the EBBs in layout order and the instructions of each. -/
structure Layout where
  ebbs : List Ebb
  ebbInsts : Ebb → List Inst

/-- Every instruction of the layout, EBB after EBB. -/
def Layout.allInsts (l : Layout) : List Inst := l.ebbs.flatMap l.ebbInsts

/-- What the linked lists of `Layout` guarantee: an EBB is laid out once, an
instruction sits in one place, and only instructions that exist are laid out. -/
structure LayoutOk (instCount : Nat) (l : Layout) : Prop where
  ebbs_nodup : l.ebbs.Nodup
  insts_nodup : l.allInsts.Nodup
  insts_lt : ∀ i ∈ l.allInsts, i.idx < instCount

theorem LayoutOk.ne_of_mem {n : Nat} {l : Layout} (h : LayoutOk n l) {i : Inst}
    (hi : i ∈ l.allInsts) : i ≠ ⟨n⟩ :=
  Inst.ne_of_idx_lt (h.insts_lt i hi)

/-- A function: its data-flow graph and its layout, with what the layout's
linked lists guarantee, and with every result a value the graph has. -/
structure Function where
  dfg : DataFlowGraph
  layout : Layout
  wf : LayoutOk dfg.instCount layout
  results_lt : ∀ i r, dfg.results i = some r → r.idx < dfg.valueCount

/-- `value_def`. -/
def DataFlowGraph.valueDef (dfg : DataFlowGraph) (v : Value) : ValueDef := dfg.valueDefs v

/-- `value_type`. -/
def DataFlowGraph.valueType (dfg : DataFlowGraph) (v : Value) : Ty := dfg.valueTypes v

/-- The instruction that defines `v`, when a result defines it. -/
def DataFlowGraph.defInst (dfg : DataFlowGraph) (v : Value) : Option Inst :=
  match dfg.valueDef v with
  | .Result i _ => some i
  | .Param _ _ => none

/-- `dfg[inst] = data`: every other instruction keeps its data. -/
def DataFlowGraph.setInst (dfg : DataFlowGraph) (i : Inst) (d : InstructionData) :
    DataFlowGraph :=
  { dfg with insts := fun j => if j = i then d else dfg.insts j }

@[simp] theorem DataFlowGraph.setInst_insts (dfg : DataFlowGraph) (i j : Inst)
    (d : InstructionData) :
    (dfg.setInst i d).insts j = if j = i then d else dfg.insts j := rfl

/-! ## Walking the layout -/

/-- The element after `x` in `l`. -/
def listNext : List Inst → Inst → Option Inst
  | [], _ => none
  | a :: t, x => if a = x then t.head? else listNext t x

/-- The element before `x` in `l`. -/
def listPrev : List Inst → Inst → Option Inst
  | a :: b :: t, x => if b = x then some a else listPrev (b :: t) x
  | _, _ => none

/-- The EBB after `e` in `l`. -/
def ebbNext : List Ebb → Ebb → Option Ebb
  | [], _ => none
  | a :: t, x => if a = x then t.head? else ebbNext t x

/-- `l` with `y` put just before `x`. -/
def insertBefore : List Inst → Inst → Inst → List Inst
  | [], _, _ => []
  | a :: t, x, y => if a = x then y :: a :: t else a :: insertBefore t x y

namespace Layout

/-- `inst_ebb`: the EBB that holds `i`. -/
def instEbb (l : Layout) (i : Inst) : Option Ebb := l.ebbs.find? (fun e => i ∈ l.ebbInsts e)

/-- `next_ebb`. -/
def nextEbb (l : Layout) (e : Ebb) : Option Ebb := ebbNext l.ebbs e

/-- `first_inst`. -/
def firstInst (l : Layout) (e : Ebb) : Option Inst := (l.ebbInsts e).head?

/-- `next_inst`. -/
def nextInst (l : Layout) (i : Inst) : Option Inst :=
  (l.instEbb i).bind fun e => listNext (l.ebbInsts e) i

/-- `prev_inst`. -/
def prevInst (l : Layout) (i : Inst) : Option Inst :=
  (l.instEbb i).bind fun e => listPrev (l.ebbInsts e) i

/-- `insert_inst(y, before)`: `y` goes just before `before`, in its EBB. -/
def insertInst (l : Layout) (y before : Inst) : Layout :=
  match l.instEbb before with
  | some e =>
    { l with ebbInsts := fun e' => if e' = e then insertBefore (l.ebbInsts e) before y
                                   else l.ebbInsts e' }
  | none => l

end Layout

/-! ## Functions written out as lists -/

/-- The layout of EBBs `0, 1, …`, EBB `e` holding the instructions numbered `ebbs[e]` in order. -/
def Layout.ofLists (ebbs : List (List Nat)) : Layout where
  ebbs := (List.range ebbs.length).map Ebb.mk
  ebbInsts e := (ebbs.getD e.idx []).map Inst.mk

/-- The data-flow graph of instructions `insts` and values defined by `defs` with types `tys`. -/
def DataFlowGraph.ofLists (insts : List InstructionData) (defs : List ValueDef) (tys : List Ty) :
    DataFlowGraph where
  insts i := insts.getD i.idx default
  results i := ((List.range defs.length).find? fun v =>
    defs.getD v (.Param ⟨0⟩ 0) == .Result i 0).map Value.mk
  valueDefs v := defs.getD v.idx (.Param ⟨0⟩ 0)
  valueTypes v := tys.getD v.idx .I64
  ebbParams e := ((List.range defs.length).filter fun v =>
    match defs.getD v (.Result ⟨0⟩ 0) with
    | .Param e' _ => e' == e
    | .Result _ _ => false).map Value.mk
  instCount := insts.length
  valueCount := defs.length

/-- A function written out as lists, as a test of the pass writes one. -/
def Function.ofLists (insts : List InstructionData) (defs : List ValueDef) (tys : List Ty)
    (ebbs : List (List Nat)) (h : LayoutOk insts.length (Layout.ofLists ebbs)) : Function where
  dfg := DataFlowGraph.ofLists insts defs tys
  layout := Layout.ofLists ebbs
  wf := h
  results_lt i r hr := by
    obtain ⟨v, hv, rfl⟩ := Option.map_eq_some'.1 hr
    exact List.mem_range.1 (List.mem_of_find?_eq_some hv)

end simple_preopt
