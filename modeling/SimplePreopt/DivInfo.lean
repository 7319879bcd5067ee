import SimplePreopt.Eval
-- Recognising a division or remainder by a constant: the power-of-two tests,
-- `DivRemByConstInfo`, and `get_div_info` with its range check at 32 bits.

namespace simple_preopt

/-! ## Power-of-two tests -/

/-- `is_power_of_two` of an unsigned integer: exactly one bit is set. -/
def isPowerOfTwo {w : Nat} (x : BitVec w) : Bool := (List.range w).any fun k => x.toNat == 2 ^ k

/-- `trailing_zeros` of a `w`-bit unsigned integer: the zero bits below the
lowest set bit, or `w` for zero. -/
def trailingZeros : Nat → Nat → Nat
  | 0, _ => 0
  | w + 1, x => if x % 2 = 1 then 0 else trailingZeros w (x / 2) + 1

/-- `i32_is_power_of_two` and `i64_is_power_of_two` at width `w`: the power and
the sign when `x` is a power of two or the negation of one. -/
def iIsPowerOfTwo (w : Nat) (x : BitVec w) : Option (Bool × Nat) :=
  -- the special case: abs(x) isn't representable
  if x.toInt = -2 ^ (w - 1) then some (true, w - 1)
  else
    let abs_x : BitVec w := if x.toInt < 0 then -x else x
    if isPowerOfTwo abs_x then some (decide (x.toInt < 0), trailingZeros w abs_x.toNat)
    else none

/-- `i32_is_power_of_two`. -/
def i32IsPowerOfTwo (x : BitVec 32) : Option (Bool × Nat) := iIsPowerOfTwo 32 x

/-- `i64_is_power_of_two`. -/
def i64IsPowerOfTwo (x : BitVec 64) : Option (Bool × Nat) := iIsPowerOfTwo 64 x

theorem isPowerOfTwo_iff {w : Nat} (x : BitVec w) :
    isPowerOfTwo x = true ↔ ∃ k < w, x.toNat = 2 ^ k := by
  simp [isPowerOfTwo]

theorem trailingZeros_two_pow {w k : Nat} (h : k < w) : trailingZeros w (2 ^ k) = k := by
  induction k generalizing w with
  | zero => cases w <;> simp_all [trailingZeros]
  | succ k ih =>
    obtain ⟨w, rfl⟩ : ∃ w', w = w' + 1 := ⟨w - 1, by omega⟩
    have : 2 ^ (k + 1) % 2 = 0 := by simp [Nat.pow_succ]
    simp [trailingZeros, this, Nat.pow_succ, ih (show k < w by omega)]

/-- What `i32_is_power_of_two`/`i64_is_power_of_two` report: `x` is `2^k`, or
`-2^k` when the flag is set. -/
theorem iIsPowerOfTwo_spec {w : Nat} (hw : 1 ≤ w) {x : BitVec w} {b : Bool} {k : Nat}
    (h : iIsPowerOfTwo w x = some (b, k)) :
    k < w ∧ x.toInt = if b then -2 ^ k else 2 ^ k := by
  unfold iIsPowerOfTwo at h
  have hlt := x.isLt
  split at h
  · rename_i hmin
    cases h
    exact ⟨by omega, by simpa using hmin⟩
  · by_cases hneg : x.toInt < 0
    · simp only [hneg, if_true] at h
      split at h
      · rename_i hp
        cases h
        obtain ⟨j, hj, hjx⟩ := (isPowerOfTwo_iff _).1 hp
        rw [hjx, trailingZeros_two_pow hj, if_pos (by decide)]
        rw [BitVec.toInt_eq_sval, sval_neg_iff hlt] at hneg
        have h1 : 1 ≤ 2 ^ (w - 1) := Nat.one_le_two_pow
        rw [BitVec.toNat_neg, Nat.mod_eq_of_lt (by omega)] at hjx
        have h2 : ((x.toNat + 2 ^ j : Nat) : Int) = ((2 ^ w : Nat) : Int) := by congr 1; omega
        refine ⟨hj, ?_⟩
        rw [BitVec.toInt_eq_sval, sval, if_neg (by omega)]
        push_cast at h2 ⊢; omega
      · cases h
    · simp only [hneg, if_false] at h
      split at h
      · rename_i hp
        cases h
        obtain ⟨j, hj, hjx⟩ := (isPowerOfTwo_iff _).1 hp
        rw [hjx, trailingZeros_two_pow hj, if_neg (by decide)]
        rw [BitVec.toInt_eq_sval, sval_neg_iff hlt] at hneg
        refine ⟨hj, ?_⟩
        rw [BitVec.toInt_eq_sval, sval, if_pos (by omega), hjx]
        push_cast; rfl
      · cases h

/-- Every `±2^k` that fits is classified, with its sign and its power. -/
theorem iIsPowerOfTwo_of_pow {w k : Nat} (hw : 1 ≤ w) {x : BitVec w}
    (hx : x.toInt = 2 ^ k ∨ x.toInt = -2 ^ k) :
    iIsPowerOfTwo w x = some (decide (x.toInt < 0), k) := by
  have hlt := x.isLt
  obtain ⟨hb1, hb2⟩ := sval_bounds hw hlt
  rw [← BitVec.toInt_eq_sval] at hb1 hb2
  have hpos : (0 : Int) < 2 ^ k := by positivity
  have hkw : k ≤ w - 1 := by
    have : (2 : Int) ^ k ≤ 2 ^ (w - 1) := by omega
    exact (Nat.pow_le_pow_iff_right (show 1 < 2 by norm_num)).1 (by exact_mod_cast this)
  unfold iIsPowerOfTwo
  split
  · rename_i hmin
    have hk : k = w - 1 := by
      have : (2 : Int) ^ k = 2 ^ (w - 1) := by omega
      exact Nat.pow_right_injective (le_refl 2) (by exact_mod_cast this)
    rw [hk, decide_eq_true (by rw [hmin]; exact neg_neg_of_pos (by positivity))]
  · have h1 : 1 ≤ 2 ^ (w - 1) := Nat.one_le_two_pow
    have hk : 2 ^ k < 2 ^ w := Nat.pow_lt_pow_right (by norm_num) (by omega)
    have hkt := trailingZeros_two_pow (show k < w by omega)
    have e : (2 : Int) ^ w = 2 * 2 ^ (w - 1) := two_pow_eq_two_mul (by omega)
    rw [BitVec.toInt_eq_sval] at hx ⊢
    unfold sval at hx ⊢
    by_cases hneg : x.toNat < 2 ^ (w - 1)
    · simp only [hneg, if_true, Nat.cast_nonneg, not_lt.2, if_false, decide_False] at hx ⊢
      have : x.toNat = 2 ^ k := by
        rcases hx with hx | hx
        · exact_mod_cast hx
        · omega
      rw [if_pos ((isPowerOfTwo_iff x).2 ⟨k, by omega, this⟩), this, hkt]
    · have hn : (x.toNat : Int) - 2 ^ w < 0 := by
        have : ((x.toNat : Nat) : Int) < 2 ^ w := by exact_mod_cast hlt
        omega
      simp only [hneg, if_false, hn, if_true, decide_True] at hx ⊢
      have : (-x).toNat = 2 ^ k := by
        have h2 : x.toNat + 2 ^ k = 2 ^ w := by
          rcases hx with hx | hx
          · omega
          · have : ((x.toNat + 2 ^ k : Nat) : Int) = ((2 ^ w : Nat) : Int) := by
              push_cast; omega
            exact_mod_cast this
        rw [BitVec.toNat_neg, Nat.mod_eq_of_lt (by omega)]; omega
      rw [if_pos ((isPowerOfTwo_iff (-x)).2 ⟨k, by omega, this⟩), this, hkt]

/-- `i32_is_power_of_two` and `i64_is_power_of_two` at width `w` classify
exactly the `±2^k` that fit, with their sign. -/
theorem iIsPowerOfTwo_eq_some_iff {w : Nat} (hw : 1 ≤ w) (x : BitVec w) (b : Bool) (k : Nat) :
    iIsPowerOfTwo w x = some (b, k) ↔
      (x.toInt = 2 ^ k ∨ x.toInt = -2 ^ k) ∧ b = decide (x.toInt < 0) := by
  constructor
  · intro h
    obtain ⟨-, hx⟩ := iIsPowerOfTwo_spec hw h
    have hp : (0 : Int) < 2 ^ k := by positivity
    cases b <;> simp only [Bool.false_eq_true, if_false, if_true] at hx <;> rw [hx]
    · exact ⟨.inl rfl, by simp [hp.le]⟩
    · exact ⟨.inr rfl, by simp [hp]⟩
  · rintro ⟨hx, rfl⟩
    exact iIsPowerOfTwo_of_pow hw hx

/-- `i32_is_power_of_two`/`i64_is_power_of_two` give `(b, k)` exactly for `±2^k`, `b` the
sign, with `-2^(W-1)` as `(true, W-1)` and nothing for zero. -/
theorem signedIsPowerOfTwo_iff :
    (∀ (x : BitVec 32) (b : Bool) (k : Nat), i32IsPowerOfTwo x = some (b, k) ↔
      (x.toInt = 2 ^ k ∨ x.toInt = -2 ^ k) ∧ b = decide (x.toInt < 0)) ∧
    (∀ (x : BitVec 64) (b : Bool) (k : Nat), i64IsPowerOfTwo x = some (b, k) ↔
      (x.toInt = 2 ^ k ∨ x.toInt = -2 ^ k) ∧ b = decide (x.toInt < 0)) :=
  ⟨iIsPowerOfTwo_eq_some_iff (by norm_num), iIsPowerOfTwo_eq_some_iff (by norm_num)⟩

/-! ## The descriptor -/

/-- `DivRemByConstInfo`: a division or remainder of a value by a constant, by
width and signedness. -/
inductive DivRemByConstInfo where
  | DivU32 (n : Value) (d : BitVec 32)
  | DivU64 (n : Value) (d : BitVec 64)
  | DivS32 (n : Value) (d : BitVec 32)
  | DivS64 (n : Value) (d : BitVec 64)
  | RemU32 (n : Value) (d : BitVec 32)
  | RemU64 (n : Value) (d : BitVec 64)
  | RemS32 (n : Value) (d : BitVec 32)
  | RemS64 (n : Value) (d : BitVec 64)
deriving DecidableEq, Repr

namespace DivRemByConstInfo

/-- The numerator. -/
def value : DivRemByConstInfo → Value
  | DivU32 n _ | DivU64 n _ | DivS32 n _ | DivS64 n _
  | RemU32 n _ | RemU64 n _ | RemS32 n _ | RemS64 n _ => n

/-- The type the operation works at. -/
def ty : DivRemByConstInfo → Ty
  | DivU32 .. | DivS32 .. | RemU32 .. | RemS32 .. => .I32
  | DivU64 .. | DivS64 .. | RemU64 .. | RemS64 .. => .I64

def isSigned : DivRemByConstInfo → Bool
  | DivS32 .. | DivS64 .. | RemS32 .. | RemS64 .. => true
  | _ => false

def isRem : DivRemByConstInfo → Bool
  | RemU32 .. | RemU64 .. | RemS32 .. | RemS64 .. => true
  | _ => false

/-- The divisor as the operation reads it: unsigned or two's complement. -/
def divisor : DivRemByConstInfo → Int
  | DivU32 _ d | RemU32 _ d => d.toNat
  | DivU64 _ d | RemU64 _ d => d.toNat
  | DivS32 _ d | RemS32 _ d => d.toInt
  | DivS64 _ d | RemS64 _ d => d.toInt

end DivRemByConstInfo

/-! ## Reading the descriptor off an instruction -/

/-- `package_up_divrem_info`: pick the case, and at 32 bits check that the immediate fits. -/
def packageUpDivremInfo (value : Value) (value_type : Ty) (imm_i64 : Imm64)
    (is_signed is_rem : Bool) : Option DivRemByConstInfo :=
  let imm_u64 : BitVec 64 := imm_i64
  match is_signed, value_type with
  | false, .I32 =>
    if imm_u64.toNat < 0x100000000 then
      some (if is_rem then .RemU32 value (imm_u64.setWidth 32)
        else .DivU32 value (imm_u64.setWidth 32))
    else none
  | false, .I64 =>
    -- unsigned 64, no range constraint
    some (if is_rem then .RemU64 value imm_u64 else .DivU64 value imm_u64)
  | true, .I32 =>
    if imm_u64.toNat ≤ 0x7fffffff ∨ imm_u64.toNat ≥ 0xffffffff80000000 then
      some (if is_rem then .RemS32 value (imm_u64.setWidth 32)
        else .DivS32 value (imm_u64.setWidth 32))
    else none
  | true, .I64 =>
    -- signed 64, no range constraint
    some (if is_rem then .RemS64 value imm_u64 else .DivS64 value imm_u64)
  | _, _ => none

/-- The signedness and the div-or-rem of the four opcodes `get_div_info` accepts. -/
def divRemKind : BinaryImmOp → Option (Bool × Bool)
  | .UdivImm => some (false, false)
  | .UremImm => some (false, true)
  | .SdivImm => some (true, false)
  | .SremImm => some (true, true)
  | _ => none

/-- `get_div_info`. -/
def getDivInfo (inst : Inst) (dfg : DataFlowGraph) : Option DivRemByConstInfo :=
  match dfg.insts inst with
  | .BinaryImm opcode arg imm =>
    match divRemKind opcode with
    | some (is_signed, is_rem) =>
      packageUpDivremInfo arg (dfg.valueType arg) imm is_signed is_rem
    | none => none
  | _ => none

/-- What `package_up_divrem_info` packs: its arguments, and as divisor the immediate's low
bits, read as signed or unsigned. -/
theorem packageUpDivremInfo_fields {value : Value} {value_type : Ty} {imm : Imm64}
    {is_signed is_rem : Bool} {info : DivRemByConstInfo}
    (h : packageUpDivremInfo value value_type imm is_signed is_rem = some info) :
    info.isSigned = is_signed ∧ info.isRem = is_rem ∧ info.value = value ∧
      info.ty = value_type ∧
      info.divisor = if is_signed then sval value_type.bits (immBits value_type.bits imm)
        else immBits value_type.bits imm := by
  have hlt := imm.isLt
  cases is_signed <;> cases value_type <;> simp only [packageUpDivremInfo, reduceCtorEq] at h <;>
    split_ifs at h <;> cases h <;>
    simp_all [DivRemByConstInfo.isSigned, DivRemByConstInfo.isRem, DivRemByConstInfo.value,
      DivRemByConstInfo.ty, DivRemByConstInfo.divisor, immBits, Ty.bits, BitVec.toInt_eq_sval,
      Nat.mod_eq_of_lt hlt]

/-- What `get_div_info` reads off a `*div_imm`/`*rem_imm`: the opcode's kind, the operand,
its type, and the immediate's low bits as divisor. -/
theorem getDivInfo_fields {dfg : DataFlowGraph} {inst : Inst} {op : BinaryImmOp} {arg : Value}
    {imm : Imm64} {info : DivRemByConstInfo} (hi : dfg.insts inst = .BinaryImm op arg imm)
    (h : getDivInfo inst dfg = some info) :
    divRemKind op = some (info.isSigned, info.isRem) ∧ info.value = arg ∧
      info.ty = dfg.valueType arg ∧
      info.divisor = if info.isSigned then sval info.ty.bits (immBits info.ty.bits imm)
        else immBits info.ty.bits imm := by
  unfold getDivInfo at h
  rw [hi] at h
  cases hk : divRemKind op with
  | none => simp [hk] at h
  | some sr =>
    obtain ⟨s, r⟩ := sr
    simp only [hk] at h
    obtain ⟨hs, hr, hv, ht, hd⟩ := packageUpDivremInfo_fields h
    exact ⟨by rw [hs, hr], hv, ht, by rw [hs, ht, hd]⟩

end simple_preopt
