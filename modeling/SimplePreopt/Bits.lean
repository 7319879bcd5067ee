import Mathlib.Tactic.Linarith
import Mathlib.Tactic.Positivity
import Mathlib.Tactic.LinearCombination
-- Values of a `w`-bit integer type as the IR keeps them: a pattern below `2^w`, read as
-- unsigned or as two's complement, with every wrapping operation ending in `wrap`.

namespace simple_preopt

/-! ## Patterns and their readings -/

/-- The `w`-bit pattern of an integer: its residue modulo `2^w`. -/
def wrap (w : Nat) (x : Int) : Nat := (x % 2 ^ w).toNat

/-- The two's-complement reading of a `w`-bit pattern. -/
def sval (w : Nat) (p : Nat) : Int := if p < 2 ^ (w - 1) then p else p - 2 ^ w

theorem two_pow_eq_two_mul {w : Nat} (hw : 0 < w) : (2 : Int) ^ w = 2 * 2 ^ (w - 1) := by
  rw [← pow_succ']; congr 1; omega

@[simp] theorem coe_wrap (w : Nat) (x : Int) : (wrap w x : Int) = x % 2 ^ w :=
  Int.toNat_of_nonneg (Int.emod_nonneg _ (by positivity))

theorem wrap_lt (w : Nat) (x : Int) : wrap w x < 2 ^ w := by
  have h := Int.emod_lt_of_pos x (by positivity : (0 : Int) < 2 ^ w)
  rw [← coe_wrap] at h
  exact_mod_cast h

theorem wrap_eq_iff {w : Nat} {x y : Int} : wrap w x = wrap w y ↔ x % 2 ^ w = y % 2 ^ w := by
  rw [← coe_wrap, ← coe_wrap, Nat.cast_inj]

theorem wrap_natCast {w n : Nat} (h : n < 2 ^ w) : wrap w n = n := by
  have : (n : Int) < 2 ^ w := by exact_mod_cast h
  have h2 : (n : Int) % 2 ^ w = n := Int.emod_eq_of_lt (by omega) this
  rw [wrap, h2]; rfl

@[simp] theorem wrap_emod (w : Nat) (x : Int) : wrap w (x % 2 ^ w) = wrap w x :=
  wrap_eq_iff.2 (Int.emod_emod_of_dvd _ (dvd_refl _))

@[simp] theorem wrap_wrap (w : Nat) (x : Int) : wrap w (wrap w x) = wrap w x := by
  rw [coe_wrap, wrap_emod]

/-! The arithmetic of a result depends only on its operands modulo `2^w`. -/

@[simp] theorem wrap_emod_add (w : Nat) (a b : Int) : wrap w (a % 2 ^ w + b) = wrap w (a + b) :=
  wrap_eq_iff.2 (by rw [Int.add_emod, Int.emod_emod_of_dvd _ (dvd_refl _), ← Int.add_emod])

@[simp] theorem wrap_add_emod (w : Nat) (a b : Int) : wrap w (a + b % 2 ^ w) = wrap w (a + b) := by
  rw [add_comm, wrap_emod_add, add_comm]

@[simp] theorem wrap_emod_sub (w : Nat) (a b : Int) : wrap w (a % 2 ^ w - b) = wrap w (a - b) := by
  rw [sub_eq_add_neg, wrap_emod_add, ← sub_eq_add_neg]

@[simp] theorem wrap_sub_emod (w : Nat) (a b : Int) : wrap w (a - b % 2 ^ w) = wrap w (a - b) :=
  wrap_eq_iff.2 (by rw [Int.sub_emod, Int.emod_emod_of_dvd _ (dvd_refl _), ← Int.sub_emod])

@[simp] theorem wrap_neg_emod (w : Nat) (a : Int) : wrap w (-(a % 2 ^ w)) = wrap w (-a) := by
  rw [← zero_sub, wrap_sub_emod, zero_sub]

@[simp] theorem wrap_emod_mul (w : Nat) (a b : Int) : wrap w (a % 2 ^ w * b) = wrap w (a * b) :=
  wrap_eq_iff.2 (by rw [Int.mul_emod, Int.emod_emod_of_dvd _ (dvd_refl _), ← Int.mul_emod])

@[simp] theorem wrap_mul_emod (w : Nat) (a b : Int) : wrap w (a * (b % 2 ^ w)) = wrap w (a * b) := by
  rw [mul_comm, wrap_emod_mul, mul_comm]

/-- A pattern of a narrower width is read off a wider one by dropping bits. -/
theorem wrap_mod_two_pow {v w : Nat} (h : w ≤ v) (x : Int) : wrap v x % 2 ^ w = wrap w x := by
  have hd : (2 : Int) ^ w ∣ 2 ^ v := pow_dvd_pow 2 h
  have : ((wrap v x % 2 ^ w : Nat) : Int) = wrap w x := by
    push_cast
    rw [coe_wrap, coe_wrap, Int.emod_emod_of_dvd _ hd]
  exact_mod_cast this

theorem sval_emod (w p : Nat) : sval w p % 2 ^ w = p % 2 ^ w := by
  unfold sval; split
  · rfl
  · rw [Int.sub_emod, Int.emod_self, sub_zero, Int.emod_emod_of_dvd _ (dvd_refl _)]

theorem wrap_sval {w p : Nat} (hp : p < 2 ^ w) : wrap w (sval w p) = p := by
  rw [wrap_eq_iff.2 (sval_emod w p), wrap_natCast hp]

theorem sval_bounds {w p : Nat} (hw : 0 < w) (hp : p < 2 ^ w) :
    -2 ^ (w - 1) ≤ sval w p ∧ sval w p < 2 ^ (w - 1) := by
  have h2 := two_pow_eq_two_mul hw
  have : (p : Int) < 2 ^ w := by exact_mod_cast hp
  unfold sval; split
  · rename_i h
    have : (p : Int) < 2 ^ (w - 1) := by exact_mod_cast h
    constructor <;> omega
  · rename_i h
    have : ¬ (p : Int) < 2 ^ (w - 1) := by exact_mod_cast h
    constructor <;> omega

theorem sval_wrap {w : Nat} {x : Int} (hw : 0 < w) (h1 : -2 ^ (w - 1) ≤ x)
    (h2 : x < 2 ^ (w - 1)) : sval w (wrap w x) = x := by
  have h := two_pow_eq_two_mul hw
  have hc := coe_wrap w x
  rcases le_or_lt 0 x with hx | hx
  · have e : x % 2 ^ w = x := Int.emod_eq_of_lt hx (by omega)
    have : ((wrap w x : Nat) : Int) < 2 ^ (w - 1) := by omega
    unfold sval; rw [if_pos (by exact_mod_cast this)]; omega
  · have e : x % 2 ^ w = x + 2 ^ w := by
      rw [← Int.add_emod_self]; exact Int.emod_eq_of_lt (by omega) (by omega)
    have : ¬ ((wrap w x : Nat) : Int) < 2 ^ (w - 1) := by omega
    unfold sval; rw [if_neg (by exact_mod_cast this)]; omega

theorem sval_neg_iff {w p : Nat} (hp : p < 2 ^ w) : sval w p < 0 ↔ 2 ^ (w - 1) ≤ p := by
  have : (p : Int) < 2 ^ w := by exact_mod_cast hp
  unfold sval; split
  · constructor <;> intro <;> omega
  · constructor <;> intro <;> omega

/-- The two's-complement reading of a bit-vector is `sval` of its pattern. -/
theorem BitVec.toInt_eq_sval {w : Nat} (x : BitVec w) : x.toInt = sval w x.toNat := by
  rw [BitVec.toInt_eq_toNat_cond, sval]
  rcases Nat.eq_zero_or_pos w with rfl | hw
  · have := x.isLt; simp_all
  · have : (2 : Nat) ^ w = 2 * 2 ^ (w - 1) := by rw [← pow_succ']; congr 1; omega
    by_cases h : x.toNat < 2 ^ (w - 1)
    · rw [if_pos (by omega), if_pos h]
    · rw [if_neg (by omega), if_neg h]; push_cast; rfl

/-- A bit-vector whose two's-complement reading is a natural number `s` has
pattern `s`, below the sign bit. -/
theorem toNat_of_toInt_eq {w : Nat} {x : BitVec w} {s : Nat} (h : x.toInt = s) :
    x.toNat = s ∧ s < 2 ^ (w - 1) := by
  rw [BitVec.toInt_eq_sval, sval] at h
  have : (x.toNat : Int) < 2 ^ w := by exact_mod_cast x.isLt
  split at h
  · omega
  · omega

/-- `shift_by - 1` of an `i32` shift that is at least one. -/
theorem toInt_sub_one {x : BitVec 32} {s : Nat} (h : x.toInt = s) (h1 : 1 ≤ s) :
    (x - 1).toInt = (s - 1 : Nat) := by
  obtain ⟨hx, hs⟩ := toNat_of_toInt_eq h
  rw [BitVec.toInt_eq_sval, sval, BitVec.toNat_sub, hx]
  have : (2 ^ 32 - (1 : BitVec 32).toNat + s) % 2 ^ 32 = s - 1 := by
    rw [show (1 : BitVec 32).toNat = 1 from rfl]; omega
  rw [this, if_pos (by omega)]

/-- The two's-complement readings of `0`, `1` and `-1`. -/
theorem toInt_small {w : Nat} (hw : 2 ≤ w) :
    (0 : BitVec w).toInt = 0 ∧ (1 : BitVec w).toInt = 1 ∧ (-1 : BitVec w).toInt = -1 := by
  have e : 2 ^ w = 2 * 2 ^ (w - 1) := by rw [← pow_succ']; congr 1; omega
  have h1 : 2 ≤ 2 ^ (w - 1) := by
    calc 2 = 2 ^ 1 := rfl
      _ ≤ 2 ^ (w - 1) := Nat.pow_le_pow_right (by norm_num) (by omega)
  have h3 : (1 : BitVec w).toNat = 1 := by simp [Nat.mod_eq_of_lt (show 1 < 2 ^ w by omega)]
  refine ⟨by rw [BitVec.toInt_eq_sval]; simp [sval], ?_, ?_⟩
  · rw [BitVec.toInt_eq_sval, h3, sval, if_pos (by omega)]; rfl
  · rw [BitVec.toInt_eq_sval, BitVec.toNat_neg, h3, Nat.mod_eq_of_lt (by omega), sval,
      if_neg (by omega)]
    push_cast [Nat.cast_sub (show 1 ≤ 2 ^ w by omega)]; ring

/-- `-(1 << k)`: the bits from `k` up. -/
theorem toNat_neg_one_shiftLeft {w k : Nat} (hk : k < w) :
    (-((1 : BitVec w) <<< k)).toNat = 2 ^ w - 2 ^ k := by
  have h1 : 2 ^ k < 2 ^ w := Nat.pow_lt_pow_right (by norm_num) hk
  have h2 : 1 ≤ 2 ^ k := Nat.one_le_two_pow
  have h3 : (1 : BitVec w).toNat = 1 := by simp [Nat.mod_eq_of_lt (show 1 < 2 ^ w by omega)]
  rw [BitVec.toNat_neg, BitVec.toNat_shiftLeft, Nat.shiftLeft_eq, h3, one_mul,
    Nat.mod_eq_of_lt h1, Nat.mod_eq_of_lt (by omega)]

/-! ## Division facts -/

/-- Floor division read off its bounds. -/
theorem ediv_eq_of_bounds {a b q : Int} (hb : 0 < b) (h1 : q * b ≤ a) (h2 : a < (q + 1) * b) :
    a / b = q :=
  le_antisymm (Int.lt_add_one_iff.1 ((Int.ediv_lt_iff_lt_mul hb).2 h2))
    ((Int.le_ediv_iff_mul_le hb).2 h1)

/-- A shift right keeps a signed value within its bounds. -/
theorem ediv_two_pow_bounds {A a : Int} (hA : 0 < A) (h1 : -A ≤ a) (h2 : a < A) (sh : Nat) :
    -A ≤ a / 2 ^ sh ∧ a / 2 ^ sh < A := by
  have hs : (1 : Int) ≤ 2 ^ sh := one_le_pow₀ (by norm_num)
  have hm := mul_le_mul_of_nonneg_left hs hA.le
  exact ⟨(Int.le_ediv_iff_mul_le (by positivity)).2 (by linarith),
    (Int.ediv_lt_iff_lt_mul (by positivity)).2 (by linarith)⟩

/-- The high half of a product of a `w`-bit numerator and a multiplier below
`2^w` in magnitude is itself a `w`-bit signed integer. -/
theorem mul_ediv_two_pow_bounds {w : Nat} {n M : Int} (hn1 : -2 ^ (w - 1) ≤ n)
    (hn2 : n < 2 ^ (w - 1)) (hM1 : -(2 ^ w - 1) ≤ M) (hM2 : M ≤ 2 ^ w - 1) :
    -2 ^ (w - 1) ≤ n * M / 2 ^ w ∧ n * M / 2 ^ w < 2 ^ (w - 1) := by
  have hW : (0 : Int) < 2 ^ w := by positivity
  have hA : (0 : Int) < 2 ^ (w - 1) := by positivity
  constructor
  · refine (Int.le_ediv_iff_mul_le hW).2 ?_
    linarith [mul_nonneg (show 0 ≤ n + 2 ^ (w - 1) by linarith) (show 0 ≤ M + (2 ^ w - 1) by linarith),
      mul_nonneg (show 0 ≤ 2 ^ (w - 1) - n by linarith) (show 0 ≤ (2 ^ w - 1) - M by linarith)]
  · refine (Int.ediv_lt_iff_lt_mul hW).2 ?_
    linarith [mul_nonneg (show 0 ≤ n + 2 ^ (w - 1) by linarith) (show 0 ≤ (2 ^ w - 1) - M by linarith),
      mul_nonneg (show 0 ≤ 2 ^ (w - 1) - n by linarith) (show 0 ≤ M + (2 ^ w - 1) by linarith)]

/-- Floor division by `b` and then by `c` is floor division by `b * c`. -/
theorem ediv_ediv_of_pos (a : Int) {b c : Int} (hb : 0 < b) (hc : 0 < c) :
    a / b / c = a / (b * c) := by
  have h1 := Int.emod_add_ediv a b
  have h2 := Int.emod_add_ediv (a / b) c
  have r1 := Int.emod_nonneg a (ne_of_gt hb)
  have r2 := Int.emod_lt_of_pos a hb
  have r3 := Int.emod_nonneg (a / b) (ne_of_gt hc)
  have r4 := Int.emod_lt_of_pos (a / b) hc
  have hm := mul_le_mul_of_nonneg_left (Int.le_sub_one_of_lt r4) hb.le
  refine ((@Int.ediv_emod_unique a (b * c) (a % b + b * (a / b % c)) (a / b / c)
    (mul_pos hb hc)).2 ⟨?_, by positivity, by linarith⟩).1.symm
  linear_combination h1 + b * h2

theorem testBit_div_two_pow (p k i : Nat) : (p / 2 ^ k).testBit i = p.testBit (k + i) := by
  rw [← Nat.shiftRight_eq_div_pow, Nat.testBit_shiftRight]

/-- Masking with the high bits `k..w` clears the low `k` bits. -/
theorem land_high_mask {p w k : Nat} (hp : p < 2 ^ w) (hk : k ≤ w) :
    p &&& (2 ^ w - 2 ^ k) = p - p % 2 ^ k := by
  have e1 : 2 ^ w - 2 ^ k = 2 ^ k * (2 ^ (w - k) - 1) := by
    rw [Nat.mul_sub, ← pow_add, Nat.add_sub_cancel' hk, mul_one]
  have e2 : p - p % 2 ^ k = 2 ^ k * (p / 2 ^ k) := by
    have := Nat.mod_add_div p (2 ^ k); omega
  rw [e1, e2]
  apply Nat.eq_of_testBit_eq
  intro i
  simp only [Nat.testBit_and, Nat.testBit_mul_pow_two, Nat.testBit_two_pow_sub_one,
    testBit_div_two_pow]
  by_cases hi : k ≤ i
  · have hki : k + (i - k) = i := by omega
    by_cases hw : i < w
    · simp [hi, hw, show i - k < w - k by omega, hki]
    · have : p.testBit i = false := Nat.testBit_lt_two_pow
        (lt_of_lt_of_le hp (Nat.pow_le_pow_right (by norm_num) (by omega)))
      simp [hi, this, show ¬ i - k < w - k by omega, hki]
  · simp [hi]

end simple_preopt
