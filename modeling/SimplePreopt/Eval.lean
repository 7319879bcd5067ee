import SimplePreopt.Bits
import SimplePreopt.Cursor
-- What the instructions of a function compute: from an environment of bit patterns an
-- instruction defines its result, traps, leaves the EBB, or gets stuck.

namespace simple_preopt

/-! ## Arithmetic of one instruction -/

/-- The pattern an immediate gives at width `w`: its low `w` bits. -/
def immBits (w : Nat) (imm : Imm64) : Nat := imm.toNat % 2 ^ w

/-- An immediate made by `as i64` from a narrower unsigned integer. -/
theorem immBits_setWidth {v w : Nat} (x : BitVec v) (hv : v ≤ w) (hw : w ≤ 64) :
    immBits w (x.setWidth 64) = x.toNat := by
  have h1 : x.toNat < 2 ^ w := lt_of_lt_of_le x.isLt (Nat.pow_le_pow_right (by norm_num) hv)
  have h2 : 2 ^ w ≤ 2 ^ 64 := Nat.pow_le_pow_right (by norm_num) hw
  rw [immBits, BitVec.toNat_setWidth, Nat.mod_eq_of_lt (show x.toNat < 2 ^ 64 by omega),
    Nat.mod_eq_of_lt h1]

/-- An immediate made by `as i64` from a signed integer. -/
theorem immBits_signExtend {v w : Nat} (x : BitVec v) (hw : w ≤ 64) :
    immBits w (x.signExtend 64) = wrap w x.toInt := by
  rw [immBits, BitVec.signExtend, BitVec.toNat_ofInt]
  exact wrap_mod_two_pow hw x.toInt

/-- An immediate made by `as i64` from a small `u32`. -/
theorem immBits_ofNat {w k : Nat} (hk : k < 2 ^ w) (hw : w ≤ 64) :
    immBits w (BitVec.ofNat 64 k) = k := by
  have h2 : 2 ^ w ≤ 2 ^ 64 := Nat.pow_le_pow_right (by norm_num) hw
  rw [immBits, BitVec.toNat_ofNat, Nat.mod_eq_of_lt (show k < 2 ^ 64 by omega),
    Nat.mod_eq_of_lt hk]

/-- Rotation left by `k < w` places. -/
def rotl (w x k : Nat) : Nat := wrap w (x * 2 ^ k) + x / 2 ^ (w - k)

/-- `icmp` with condition `c` on two `w`-bit patterns. -/
def IntCC.eval (c : IntCC) (w x y : Nat) : Bool :=
  match c with
  | .Equal => decide (x = y)
  | .NotEqual => !decide (x = y)
  | .SignedLessThan => decide (sval w x < sval w y)
  | .SignedGreaterThanOrEqual => !decide (sval w x < sval w y)
  | .SignedGreaterThan => decide (sval w y < sval w x)
  | .SignedLessThanOrEqual => !decide (sval w y < sval w x)
  | .UnsignedLessThan => decide (x < y)
  | .UnsignedGreaterThanOrEqual => !decide (x < y)
  | .UnsignedGreaterThan => decide (y < x)
  | .UnsignedLessThanOrEqual => !decide (y < x)

/-- The inverse condition holds exactly when the condition does not. -/
@[simp] theorem IntCC.eval_inverse (c : IntCC) (w x y : Nat) :
    c.inverse.eval w x y = !c.eval w x y := by
  cases c <;> simp [IntCC.eval, IntCC.inverse]

/-- The outcome of an instruction that defines a value. -/
inductive Outcome where
  | value (p : Nat)
  | trap
  | stuck
deriving DecidableEq, Repr

/-- A binary opcode on two `w`-bit patterns. Shift amounts are taken modulo
`w`; division traps by zero, and `sdiv` also where the quotient overflows. -/
def binaryOp (op : BinaryOp) (w x y : Nat) : Outcome :=
  match op with
  | .Iadd => .value (wrap w (x + y))
  | .Isub => .value (wrap w ((x : Int) - y))
  | .Imul => .value (wrap w (x * y))
  | .Udiv => if y = 0 then .trap else .value (x / y)
  | .Urem => if y = 0 then .trap else .value (x % y)
  | .Sdiv =>
    if y = 0 ∨ (sval w x = -2 ^ (w - 1) ∧ sval w y = -1) then .trap
    else .value (wrap w ((sval w x).tdiv (sval w y)))
  | .Srem => if y = 0 then .trap else .value (wrap w ((sval w x).tmod (sval w y)))
  | .Band => .value (x &&& y)
  | .Bor => .value (x ||| y)
  | .Bxor => .value (x ^^^ y)
  | .Rotl => .value (rotl w x (y % w))
  | .Rotr => .value (rotl w x (w - y % w))
  | .Ishl => .value (wrap w (x * 2 ^ (y % w)))
  | .Ushr => .value (x / 2 ^ (y % w))
  | .Sshr => .value (wrap w (sval w x / 2 ^ (y % w)))
  | .Umulhi => .value (x * y / 2 ^ w)
  | .Smulhi => .value (wrap w (sval w x * sval w y / 2 ^ w))

/-- The binary opcode that an immediate opcode applies, with the immediate as
its right operand (its left one for `irsub_imm`). -/
def BinaryImmOp.binary : BinaryImmOp → BinaryOp
  | .IaddImm => .Iadd
  | .ImulImm => .Imul
  | .UdivImm => .Udiv
  | .SdivImm => .Sdiv
  | .UremImm => .Urem
  | .SremImm => .Srem
  | .IrsubImm => .Isub
  | .BandImm => .Band
  | .BorImm => .Bor
  | .BxorImm => .Bxor
  | .RotlImm => .Rotl
  | .RotrImm => .Rotr
  | .IshlImm => .Ishl
  | .UshrImm => .Ushr
  | .SshrImm => .Sshr

/-- A binary-immediate opcode: the binary opcode with the immediate's low
`w` bits as the other operand. -/
def binaryImmOp (op : BinaryImmOp) (w x : Nat) (imm : Imm64) : Outcome :=
  match op with
  | .IrsubImm => binaryOp .Isub w (immBits w imm) x
  | op => binaryOp op.binary w x (immBits w imm)

/-- An immediate opcode other than `irsub_imm` takes the immediate as its right operand. -/
theorem binaryImmOp_of_ne {op : BinaryImmOp} (h : op ≠ .IrsubImm) (w x : Nat) (imm : Imm64) :
    binaryImmOp op w x imm = binaryOp op.binary w x (immBits w imm) := by
  cases op <;> first | rfl | exact absurd rfl h

/-! ## Instructions in an environment -/

/-- The pattern of each value defined so far. -/
abbrev Env := Value → Option Nat

/-- `env` with `v` defined as `p`. -/
def Env.set (env : Env) (v : Value) (p : Nat) : Env := fun u => if u = v then some p else env u

@[simp] theorem Env.set_same (env : Env) (v : Value) (p : Nat) : env.set v p v = some p := by
  simp [Env.set]

@[simp] theorem Env.set_ne (env : Env) {u v : Value} (p : Nat) (h : u ≠ v) :
    env.set v p u = env u := by
  simp [Env.set, h]

/-- Read an operand, and get stuck when it has no value. -/
def readVal (env : Env) (v : Value) (k : Nat → Outcome) : Outcome :=
  match env v with
  | some x => k x
  | none => .stuck

/-- The patterns of a list of operands, when all have one. -/
def readArgs (env : Env) (vs : List Value) : Option (List Nat) := vs.mapM env

theorem readArgs_cons (env : Env) (v : Value) (vs : List Value) :
    readArgs env (v :: vs) = (env v).bind fun x => (readArgs env vs).map (x :: ·) := by
  unfold readArgs
  rw [List.mapM_cons]
  cases env v <;> cases vs.mapM env <;> rfl

theorem readArgs_congr {env env' : Env} :
    ∀ {vs : List Value}, (∀ a ∈ vs, env' a = env a) → readArgs env' vs = readArgs env vs
  | [], _ => rfl
  | v :: vs, h => by
    rw [readArgs_cons, readArgs_cons, h v (List.mem_cons_self _ _),
      readArgs_congr fun a ha => h a (List.mem_cons_of_mem _ ha)]

/-- What a `load` or a `call` computes from its opcode and operands, or `none` where it traps:
the IR does not fix it, so each run is given one. -/
abbrev External := Nat → List Nat → Option Nat

/-- The semantics for functions with no `load` or `call`, which never ask it. -/
def noExternal : External := fun _ _ => none

variable {ext : External}

/-- What an instruction that defines a value computes, its result having type
`ty`. `tyOf` gives the types of the operands, which `icmp` compares at. -/
def evalData (ext : External) (tyOf : Value → Ty) (env : Env) (ty : Ty) :
    InstructionData → Outcome
  | .UnaryImm imm => .value (immBits ty.bits imm)
  | .Unary .Bint a => readVal env a fun x => .value (if x = 0 then 0 else 1)
  | .Unary .Copy a => readVal env a .value
  | .Binary op (a, b) => readVal env a fun x => readVal env b fun y => binaryOp op ty.bits x y
  | .BinaryImm op a imm => readVal env a fun x => binaryImmOp op ty.bits x imm
  | .IntCompare c (a, b) => readVal env a fun x => readVal env b fun y =>
      .value (if c.eval (tyOf a).bits x y then 1 else 0)
  | .IntCompareImm c a imm => readVal env a fun x =>
      .value (if c.eval (tyOf a).bits x (immBits (tyOf a).bits imm) then 1 else 0)
  | .Ternary (c, a, b) => readVal env c fun z => readVal env a fun x => readVal env b fun y =>
      .value (if z = 0 then y else x)
  | .Other op vs =>
    match readArgs env vs with
    | some xs =>
      match ext op xs with
      | some p => .value (p % 2 ^ ty.bits)
      | none => .trap
    | none => .stuck
  | _ => .stuck

/-- Where control goes when it leaves a run of instructions. -/
inductive Exit where
  | goto (ebb : Ebb) (args : List Nat)
  | ret (args : List Nat)
  | trap
  | stuck
deriving DecidableEq, Repr

/-- Control after one instruction: on to the next one, or out. -/
inductive Flow where
  | cont (env : Env)
  | exit (x : Exit)

/-- `brz` is taken on zero, `brnz` on anything else. -/
def BranchOp.taken : BranchOp → Nat → Bool
  | .Brz, x => decide (x = 0)
  | .Brnz, x => !decide (x = 0)

/-- `trapz` traps on zero, `trapnz` on anything else. -/
def CondTrapOp.traps : CondTrapOp → Nat → Bool
  | .Trapz, x => decide (x = 0)
  | .Trapnz, x => !decide (x = 0)

/-- What the branch `d` does when control reaches it: leave for its destination, or go on. -/
def branchFlow (tyOf : Value → Ty) (env : Env) : InstructionData → Flow
  | .Branch op dest c vs =>
    match env c, readArgs env vs with
    | some x, some xs => if op.taken x then .exit (.goto dest xs) else .cont env
    | _, _ => .exit .stuck
  | .BranchIcmp cc dest a b vs =>
    match env a, env b, readArgs env vs with
    | some x, some y, some xs =>
      if cc.eval (tyOf a).bits x y then .exit (.goto dest xs) else .cont env
    | _, _, _ => .exit .stuck
  | .Jump _ dest vs =>
    match readArgs env vs with
    | some xs => .exit (.goto dest xs)
    | none => .exit .stuck
  | _ => .exit .stuck

/-- The formats whose instructions define a value. -/
def InstructionData.definesValue : InstructionData → Bool
  | .UnaryImm .. | .Unary .. | .Binary .. | .BinaryImm .. | .IntCompare .. | .IntCompareImm ..
  | .Ternary .. | .Other .. => true
  | _ => false

/-- What an instruction that defines a value does to the environment. -/
def valueFlow (ext : External) (tyOf : Value → Ty) (env : Env) (res : Option Value)
    (d : InstructionData) : Flow :=
  match res with
  | none => .exit .stuck
  | some r =>
    match evalData ext tyOf env (tyOf r) d with
    | .value p => .cont (env.set r p)
    | .trap => .exit .trap
    | .stuck => .exit .stuck

/-- What an instruction with data `d` and result `res` does when control reaches it. -/
def stepData (ext : External) (tyOf : Value → Ty) (env : Env) (res : Option Value) :
    InstructionData → Flow
  | .CondTrap op a =>
    match env a with
    | some x => if op.traps x then .exit .trap else .cont env
    | none => .exit .stuck
  | .MultiAry vs =>
    match readArgs env vs with
    | some xs => .exit (.ret xs)
    | none => .exit .stuck
  | .Branch op dest c vs => branchFlow tyOf env (.Branch op dest c vs)
  | .BranchIcmp cc dest a b vs => branchFlow tyOf env (.BranchIcmp cc dest a b vs)
  | .Jump op dest vs => branchFlow tyOf env (.Jump op dest vs)
  | d => valueFlow ext tyOf env res d

/-- One instruction of `f`. -/
def stepInst (ext : External) (f : Function) (env : Env) (i : Inst) : Flow :=
  stepData ext f.dfg.valueTypes env (f.dfg.results i) (f.dfg.insts i)

/-- A run of instructions of `f`, from the first until control leaves. -/
def execInsts (ext : External) (f : Function) (env : Env) : List Inst → Flow
  | [] => .cont env
  | i :: is =>
    match stepInst ext f env i with
    | .cont env' => execInsts ext f env' is
    | .exit x => .exit x

@[simp] theorem execInsts_nil (f : Function) (env : Env) : execInsts ext f env [] = .cont env := rfl

/-- Only the types of its operands matter to an instruction. -/
theorem evalData_congr {t t' : Value → Ty} (env : Env) (ty : Ty) {d : InstructionData}
    (h : ∀ a ∈ d.args, t' a = t a) : evalData ext t' env ty d = evalData ext t env ty d := by
  cases d with
  | IntCompare c ab => obtain ⟨a, b⟩ := ab; simp [evalData, h a (by simp [InstructionData.args])]
  | IntCompareImm c a imm => simp [evalData, h a (by simp [InstructionData.args])]
  | Unary op a => cases op <;> rfl
  | _ => rfl

theorem branchFlow_congr {t t' : Value → Ty} (env : Env) {d : InstructionData}
    (h : ∀ a ∈ d.args, t' a = t a) : branchFlow t' env d = branchFlow t env d := by
  cases d with
  | BranchIcmp cc dest a b vs => simp [branchFlow, h a (by simp [InstructionData.args])]
  | _ => rfl

theorem valueFlow_congr {t t' : Value → Ty} (env : Env) (res : Option Value)
    {d : InstructionData} (h : ∀ a ∈ d.args, t' a = t a) (hr : ∀ r, res = some r → t' r = t r) :
    valueFlow ext t' env res d = valueFlow ext t env res d := by
  cases res with
  | none => rfl
  | some r => simp only [valueFlow, hr r rfl, evalData_congr env _ h]

theorem stepInst_value {f : Function} (env : Env) {i : Inst} {d : InstructionData}
    (h : f.dfg.insts i = d) (hd : d.definesValue = true) :
    stepInst ext f env i = valueFlow ext f.dfg.valueTypes env (f.dfg.results i) d := by
  subst h; unfold stepInst stepData; split <;> simp_all [InstructionData.definesValue]

/-- Only the types of its operands and result matter to an instruction. -/
theorem stepData_congr {t t' : Value → Ty} (env : Env) (res : Option Value)
    {d : InstructionData} (h : ∀ a ∈ d.args, t' a = t a) (hr : ∀ r, res = some r → t' r = t r) :
    stepData ext t' env res d = stepData ext t env res d := by
  unfold stepData
  split
  all_goals first
    | rfl
    | exact valueFlow_congr env _ h hr
    | exact branchFlow_congr env h

/-- An instruction does the same in two functions that give it the same data, result and types. -/
theorem stepInst_congr {f f' : Function} (env : Env) {i : Inst}
    (hd : f'.dfg.insts i = f.dfg.insts i) (hr : f'.dfg.results i = f.dfg.results i)
    (ht : ∀ a ∈ (f.dfg.insts i).args, f'.dfg.valueTypes a = f.dfg.valueTypes a)
    (htr : ∀ r, f.dfg.results i = some r → f'.dfg.valueTypes r = f.dfg.valueTypes r) :
    stepInst ext f' env i = stepInst ext f env i := by
  unfold stepInst
  rw [hd, hr]
  exact stepData_congr env _ ht htr

theorem execInsts_append (f : Function) (env : Env) (l₁ l₂ : List Inst) :
    execInsts ext f env (l₁ ++ l₂) =
      match execInsts ext f env l₁ with
      | .cont env' => execInsts ext f env' l₂
      | .exit x => .exit x := by
  induction l₁ generalizing env with
  | nil => rfl
  | cons i is ih =>
    simp only [List.cons_append, execInsts]
    split <;> simp [ih]

end simple_preopt
