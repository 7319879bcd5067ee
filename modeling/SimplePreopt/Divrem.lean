import SimplePreopt.DivInfo
-- `do_divrem_transformation`: a division or remainder by a constant becomes a cheaper
-- sequence built before the instruction, whose last step replaces it in place.

namespace simple_preopt

open FuncCursor

/-! ## The magic numbers -/

/-- `MU32` and `MU64`. -/
structure MU (w : Nat) where
  mul_by : BitVec w
  do_add : Bool
  shift_by : BitVec 32

/-- `MS32` and `MS64`. -/
structure MS (w : Nat) where
  mul_by : BitVec w
  shift_by : BitVec 32

/-- `divconst_magic_numbers`, which src/ uses but does not hold: the four
magic-number functions, taken as parameters of the pass. -/
structure MagicNumbers where
  magic_u32 : BitVec 32 → MU 32
  magic_u64 : BitVec 64 → MU 64
  magic_s32 : BitVec 32 → MS 32
  magic_s64 : BitVec 64 → MS 64

/-! ## The rewrites

The `debug_assert!`s of the source check the ranges of `k` and `shift_by`;
they do nothing in a release build and are left out here. The pieces the
cases share are named: the quotient of each magic-number rewrite, the biased
numerator of the signed power-of-two one, and the common last step. -/

/-- The end of a magic-number rewrite, with `qf` holding the quotient:
`copy` it, or for a remainder subtract `qf * d` from the numerator. -/
def finishDivrem (is_rem : Bool) (inst : Inst) (n1 qf : Value) (d : Imm64) :
    StateM FuncCursor Unit :=
  if is_rem then do
    let tt ← insBinaryImm .ImulImm qf d
    replace inst (.Binary .Isub (n1, tt))
  else replace inst (.Unary .Copy qf)

/-- The final quotient `qf` of the unsigned magic-number rewrite. -/
def unsignedQuotient {w : Nat} (ty : Ty) (m : MU w) (n1 : Value) : StateM FuncCursor Value := do
  let q0 ← insIconst ty (m.mul_by.setWidth 64)
  let q1 ← insBinary .Umulhi n1 q0
  if m.do_add then do
    let t1 ← insBinary .Isub n1 q1
    let t2 ← insBinaryImm .UshrImm t1 1
    let t3 ← insBinary .Iadd t2 q1
    insBinaryImm .UshrImm t3 ((m.shift_by - 1).signExtend 64)
  else if m.shift_by.toInt > 0 then insBinaryImm .UshrImm q1 (m.shift_by.signExtend 64)
  else pure q1

/-- The unsigned cases at width `w`, shared by the 32- and 64-bit arms; `as i64` of an
unsigned integer is `setWidth 64`. -/
def divremUnsigned (w : Nat) (ty : Ty) (magic : BitVec w → MU w) (is_rem : Bool)
    (n1 : Value) (d : BitVec w) (inst : Inst) : StateM FuncCursor Unit :=
  if d = 0 then pure ()
  else if d = 1 then
    if is_rem then replace inst (.UnaryImm 0) else replace inst (.Unary .Copy n1)
  else if isPowerOfTwo d then
    let k := trailingZeros w d.toNat
    if is_rem then
      let mask : BitVec 64 := ((1 : BitVec 64) <<< k) - 1
      replace inst (.BinaryImm .BandImm n1 mask)
    else replace inst (.BinaryImm .UshrImm n1 (BitVec.ofNat 64 k))
  else do
    let qf ← unsignedQuotient ty (magic d) n1
    finishDivrem is_rem inst n1 qf (d.setWidth 64)

/-- `t3` of the signed power-of-two rewrite: the numerator, plus `2^k - 1`
when it is negative, taken from the top `k` bits of its sign fill. -/
def signedBias (w : Nat) (n1 : Value) (k : Nat) : StateM FuncCursor Value := do
  let t1 ← (if k - 1 = 0 then pure n1 else insBinaryImm .SshrImm n1 (BitVec.ofNat 64 (k - 1)))
  let t2 ← insBinaryImm .UshrImm t1 (BitVec.ofNat 64 (w - k))
  insBinary .Iadd n1 t2

/-- The final quotient `qf` of the signed magic-number rewrite. -/
def signedQuotient {w : Nat} (ty : Ty) (m : MS w) (to_imm : BitVec w → Imm64) (n1 : Value)
    (d : BitVec w) : StateM FuncCursor Value := do
  let q0 ← insIconst ty (to_imm m.mul_by)
  let q1 ← insBinary .Smulhi n1 q0
  let q2 ← (if d.toInt > 0 ∧ m.mul_by.toInt < 0 then insBinary .Iadd q1 n1
    else if d.toInt < 0 ∧ m.mul_by.toInt > 0 then insBinary .Isub q1 n1
    else pure q1)
  let q3 ← (if m.shift_by = 0 then pure q2
    else insBinaryImm .SshrImm q2 (m.shift_by.signExtend 64))
  let t1 ← insBinaryImm .UshrImm q3 (BitVec.ofNat 64 (w - 1))
  insBinary .Iadd q3 t1

/-- The signed cases at width `w`, shared by the 32- and 64-bit arms with their own magic
numbers and power-of-two test. -/
def divremSigned (w : Nat) (ty : Ty) (magic : BitVec w → MS w)
    (is_power_of_two : BitVec w → Option (Bool × Nat)) (to_imm : BitVec w → Imm64)
    (is_rem : Bool) (n1 : Value) (d : BitVec w) (inst : Inst) : StateM FuncCursor Unit :=
  if d = -1 ∨ d = 0 then pure ()
  else if d = 1 then
    if is_rem then replace inst (.UnaryImm 0) else replace inst (.Unary .Copy n1)
  else match is_power_of_two d with
  | some (is_negative, k) => do
    let t3 ← signedBias w n1 k
    if is_rem then do
      let t4 ← insBinaryImm .BandImm t3 (to_imm (-((1 : BitVec w) <<< k)))
      replace inst (.Binary .Isub (n1, t4))
    else do
      let t4 ← insBinaryImm .SshrImm t3 (BitVec.ofNat 64 k)
      if is_negative then replace inst (.BinaryImm .IrsubImm t4 0)
      else replace inst (.Unary .Copy t4)
  | none => do
    let qf ← signedQuotient ty (magic d) to_imm n1 d
    finishDivrem is_rem inst n1 qf (to_imm d)

/-- `do_divrem_transformation`, for the cursor at `inst`. -/
def doDivremTransformation (mn : MagicNumbers) (divrem_info : DivRemByConstInfo) (inst : Inst) :
    StateM FuncCursor Unit :=
  match divrem_info with
  | .DivU32 n1 d => divremUnsigned 32 .I32 mn.magic_u32 false n1 d inst
  | .RemU32 n1 d => divremUnsigned 32 .I32 mn.magic_u32 true n1 d inst
  | .DivU64 n1 d => divremUnsigned 64 .I64 mn.magic_u64 false n1 d inst
  | .RemU64 n1 d => divremUnsigned 64 .I64 mn.magic_u64 true n1 d inst
  | .DivS32 n1 d =>
    divremSigned 32 .I32 mn.magic_s32 i32IsPowerOfTwo (fun x => x.signExtend 64) false n1 d inst
  | .RemS32 n1 d =>
    divremSigned 32 .I32 mn.magic_s32 i32IsPowerOfTwo (fun x => x.signExtend 64) true n1 d inst
  | .DivS64 n1 d => divremSigned 64 .I64 mn.magic_s64 i64IsPowerOfTwo id false n1 d inst
  | .RemS64 n1 d => divremSigned 64 .I64 mn.magic_s64 i64IsPowerOfTwo id true n1 d inst

end simple_preopt
