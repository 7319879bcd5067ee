import Mathlib.Data.Nat.Log
import SimplePreopt.DivremExact
-- Magic numbers that meet the contract the div/rem rewrites are proved under, for every
-- width and divisor: the contract the pass is given can be met.

namespace simple_preopt

/-! ## A rounded-up multiplier -/

/-- `⌊E / a⌋ + 1` overshoots `E` by at least one and at most `a`. -/
theorem succ_div_mul_bounds (E : Nat) {a : Nat} (ha : 0 < a) :
    E < (E / a + 1) * a ∧ (E / a + 1) * a ≤ E + a := by
  have := Nat.div_add_mod E a
  have := Nat.mod_lt E ha
  rw [add_mul, one_mul, mul_comm]
  omega

/-- A positive number that is no power of two lies strictly between two. -/
theorem pow_log_lt_lt {a : Nat} (ha : 0 < a) (hnp : ∀ k : Nat, a ≠ 2 ^ k) :
    2 ^ Nat.log 2 a < a ∧ a < 2 * 2 ^ Nat.log 2 a :=
  ⟨lt_of_le_of_ne (Nat.pow_log_le_self 2 ha.ne') (hnp _).symm, by
    rw [← pow_succ']; exact Nat.lt_pow_succ_log_self (by norm_num) a⟩

/-- For `A < a < 2A` and `a < B`, the multiplier `⌊2AB / a⌋ + 1` lies strictly
between `B` and `2B`: it takes one bit more than `B` to hold, and no more. -/
theorem succ_div_between {A a B : Nat} (hA : A < a) (ha : a < 2 * A) (haB : a < B) :
    B < B * (2 * A) / a + 1 ∧ B * (2 * A) / a + 1 < 2 * B := by
  obtain ⟨h1, h2⟩ := succ_div_mul_bounds (B * (2 * A)) (show 0 < a by omega)
  have hB : B * a < B * (2 * A) := Nat.mul_lt_mul_of_pos_left ha (by omega)
  have hA' : 2 * B * (A + 1) ≤ 2 * B * a := Nat.mul_le_mul_left _ hA
  constructor
  · exact Nat.lt_of_mul_lt_mul_right (by omega : B * a < _)
  · exact Nat.lt_of_mul_lt_mul_right (by linarith : _ < 2 * B * a)

/-! ## The signed quotient -/

/-- A multiplier overshooting `E` by `δ` with `N * δ < E` puts `m * M` between `E * (m / a)`
and `E * (m / a + 1)`. -/
theorem mul_magic_bounds {E a M N m : Int} (ha : 0 < a) (hE : 0 < E) (h1 : E < M * a)
    (h2 : N * (M * a - E) < E) (hm0 : 0 ≤ m) (hm : m ≤ N) :
    m / a * E ≤ m * M ∧ (0 < m → m / a * E < m * M) ∧ m * M < (m / a + 1) * E := by
  have hqr := Int.ediv_add_emod m a
  have hr0 := Int.emod_nonneg m ha.ne'
  have hra := Int.emod_lt_of_pos m ha
  have eM : a * (m * M) = m * E + m * (M * a - E) := by ring
  have eq : a * (m / a * E) = m * E - m % a * E := by linear_combination E * hqr
  have eq' : a * ((m / a + 1) * E) = m * E + (a - m % a) * E := by linear_combination E * hqr
  have hδ : 0 ≤ m * (M * a - E) := mul_nonneg hm0 (by linarith)
  have hrE := mul_nonneg hr0 hE.le
  refine ⟨le_of_mul_le_mul_left (by linarith) ha, fun hm' => lt_of_mul_lt_mul_left ?_ ha.le,
    lt_of_mul_lt_mul_left ?_ ha.le⟩
  · linarith [mul_pos hm' (show 0 < M * a - E by linarith)]
  · have hN : m * (M * a - E) ≤ N * (M * a - E) := mul_le_mul_of_nonneg_right hm (by linarith)
    have : 1 * E ≤ (a - m % a) * E := mul_le_mul_of_nonneg_right (by linarith) hE.le
    linarith

/-- The signed sequence's quotient from such a multiplier rounds toward zero. -/
theorem magic_ediv_tdiv {E a M N n : Int} (ha : 0 < a) (hE : 0 < E) (h1 : E < M * a)
    (h2 : N * (M * a - E) < E) (hn1 : -N ≤ n) (hn2 : n ≤ N) :
    n * M / E + (if n * M / E < 0 then 1 else 0) = n.tdiv a := by
  rcases le_or_lt 0 n with hn | hn
  · obtain ⟨hl, -, hu⟩ := mul_magic_bounds ha hE h1 h2 hn hn2
    rw [ediv_eq_of_bounds hE hl hu, if_neg (not_lt.2 (Int.ediv_nonneg hn ha.le)), add_zero,
      Int.tdiv_eq_ediv hn ha.le]
  · obtain ⟨-, hl, hu⟩ := @mul_magic_bounds E a M N (-n) ha hE h1 h2 (by linarith) (by linarith)
    have hq : n * M / E = -(-n / a) - 1 :=
      ediv_eq_of_bounds hE (by linarith) (by linarith [hl (by linarith)])
    have hq0 : 0 ≤ -n / a := Int.ediv_nonneg (by linarith) ha.le
    rw [hq, if_pos (by linarith), ← Int.tdiv_eq_ediv (by linarith) ha.le, Int.neg_tdiv]
    ring

/-! ## The tables -/

/-- Unsigned magic numbers at width `w`: `⌊2^(w + ℓ) / d⌋ + 1 - 2^w` on the add path and a
shift by `ℓ`, the bits of `d`. -/
def roundUpU (w : Nat) (d : BitVec w) : MU w :=
  let l := Nat.log 2 d.toNat + 1
  ⟨BitVec.ofNat w (2 ^ (w + l) / d.toNat + 1 - 2 ^ w), true, BitVec.ofNat 32 l⟩

/-- Signed magic numbers at width `w`: `⌊2^(w + ℓ - 1) / |d|⌋ + 1`, negated for a negative
divisor, and a shift by `ℓ - 1`. -/
def roundUpS (w : Nat) (d : BitVec w) : MS w :=
  let sh := Nat.log 2 d.toInt.natAbs
  let M := 2 ^ (w + sh) / d.toInt.natAbs + 1
  ⟨BitVec.ofNat w (if d.toInt < 0 then 2 ^ w - M else M), BitVec.ofNat 32 sh⟩

/-- The four tables, rounded up. -/
def roundUpMagic : MagicNumbers := ⟨roundUpU 32, roundUpU 64, roundUpS 32, roundUpS 64⟩

theorem toInt_ofNat_32 {l : Nat} (h : l < 2 ^ 31) : (BitVec.ofNat 32 l).toInt = l := by
  rw [BitVec.toInt_eq_sval, BitVec.toNat_ofNat, Nat.mod_eq_of_lt (by omega)]
  exact if_pos h

/-- The unsigned tables meet the contract at every divisor from 3 up that is no power of two. -/
theorem roundUpU_meets {w : Nat} (hw : w < 2 ^ 31) {d : BitVec w} (h3 : 3 ≤ d.toNat)
    (hnp : isPowerOfTwo d = false) : (roundUpU w d).Meets d.toNat := by
  have hnp' : ∀ k : Nat, d.toNat ≠ 2 ^ k := fun k hk => by
    have hkw : k < w := (Nat.pow_lt_pow_iff_right (by norm_num)).1 (hk ▸ d.isLt)
    rw [(isPowerOfTwo_iff d).2 ⟨k, hkw, hk⟩] at hnp
    cases hnp
  obtain ⟨hA1, hA2⟩ := pow_log_lt_lt (by omega) hnp'
  have hL : Nat.log 2 d.toNat < w := Nat.log_lt_of_lt_pow (by omega) d.isLt
  have hL1 : 0 < Nat.log 2 d.toNat := Nat.log_pos (by norm_num) (by omega)
  have hE : 2 ^ (w + (Nat.log 2 d.toNat + 1)) = 2 ^ w * (2 * 2 ^ Nat.log 2 d.toNat) := by
    rw [← pow_succ', ← pow_add]
  obtain ⟨hM1, hM2⟩ := succ_div_between hA1 hA2 d.isLt
  rw [← hE] at hM1 hM2
  obtain ⟨h1, h2⟩ := succ_div_mul_bounds (2 ^ (w + (Nat.log 2 d.toNat + 1))) (show 0 < d.toNat by omega)
  refine ⟨Nat.log 2 d.toNat + 1, toInt_ofNat_32 (by omega),
    show 2 ≤ _ ∧ _ ≤ w from ⟨by omega, by omega⟩, fun n hn => ?_⟩
  have hw2 : 2 ^ (w + 1) = 2 * 2 ^ w := pow_succ' 2 w
  simp only [roundUpU, BitVec.toNat_ofNat, if_true]
  rw [Nat.mod_eq_of_lt (by omega), Nat.sub_add_cancel hM1.le]
  refine mul_div_eq_div_of_bounds (by omega) (by omega) h1.le (h2.trans ?_) hn
  rw [Nat.add_sub_cancel_left, pow_succ']
  omega

/-- A multiplier between `2^(w-1)` and `2^w`, stored negated for a negative
divisor, is read back by the correction of the sequence as `±M`. -/
theorem correctedMul_ofNat {w M : Nat} (hw : 1 ≤ w) {d : Int} (hd : d ≠ 0)
    (h1 : 2 ^ (w - 1) < M) (h2 : M < 2 ^ w) :
    correctedMul w d (BitVec.ofNat w (if d < 0 then 2 ^ w - M else M)).toInt =
      if d < 0 then -(M : Int) else M := by
  have e : 2 ^ w = 2 * 2 ^ (w - 1) := by rw [← pow_succ']; congr 1; omega
  have e' : (2 : Int) ^ w = 2 * 2 ^ (w - 1) := by exact_mod_cast e
  have h1' : (2 : Int) ^ (w - 1) < M := by exact_mod_cast h1
  have h2' : (M : Int) < 2 ^ w := by exact_mod_cast h2
  rw [BitVec.toInt_eq_sval, BitVec.toNat_ofNat]
  unfold correctedMul
  split
  · rename_i hneg
    have hs : sval w ((2 ^ w - M) % 2 ^ w) = 2 ^ w - M := by
      rw [Nat.mod_eq_of_lt (by omega), sval, if_pos (show 2 ^ w - M < 2 ^ (w - 1) by omega),
        Nat.cast_sub h2.le]
      push_cast; rfl
    rw [hs, if_neg (fun h => by linarith [h.1]), if_pos ⟨hneg, by linarith⟩]
    ring
  · have hs : sval w (M % 2 ^ w) = M - 2 ^ w := by
      rw [Nat.mod_eq_of_lt h2, sval, if_neg (show ¬M < 2 ^ (w - 1) by omega)]
    rw [hs, if_pos ⟨by omega, by linarith⟩]
    ring

/-- The signed multiplier overshoots `2^(w + ℓ - 1)` by at least one and by little enough,
and lies strictly between `2^(w-1)` and `2^w`. -/
theorem signed_multiplier_bounds {w a : Nat} (hw : 1 ≤ w) (hA1 : 2 ^ Nat.log 2 a < a)
    (hA2 : a < 2 * 2 ^ Nat.log 2 a) (haN : a < 2 ^ (w - 1)) :
    (2 : Int) ^ (w + Nat.log 2 a) < ((2 ^ (w + Nat.log 2 a) / a + 1 : Nat) : Int) * a ∧
      (2 : Int) ^ (w - 1) * (((2 ^ (w + Nat.log 2 a) / a + 1 : Nat) : Int) * a -
        2 ^ (w + Nat.log 2 a)) < 2 ^ (w + Nat.log 2 a) ∧
      2 ^ (w - 1) < 2 ^ (w + Nat.log 2 a) / a + 1 ∧ 2 ^ (w + Nat.log 2 a) / a + 1 < 2 ^ w := by
  have hE : 2 ^ (w + Nat.log 2 a) = 2 ^ (w - 1) * (2 * 2 ^ Nat.log 2 a) := by
    rw [← pow_succ', ← pow_add]; congr 1; omega
  have hNa : 2 ^ (w - 1) * a < 2 ^ (w + Nat.log 2 a) := by
    rw [hE]; exact Nat.mul_lt_mul_of_pos_left hA2 (by positivity)
  obtain ⟨hM1, hM2⟩ := succ_div_between hA1 hA2 haN
  rw [← hE] at hM1 hM2
  obtain ⟨h1, h2⟩ := succ_div_mul_bounds (2 ^ (w + Nat.log 2 a)) (show 0 < a by omega)
  set M := 2 ^ (w + Nat.log 2 a) / a + 1
  have h2' : (M : Int) * a ≤ 2 ^ (w + Nat.log 2 a) + a := by exact_mod_cast h2
  refine ⟨by exact_mod_cast h1, ?_, hM1, by rw [← pow_succ'] at hM2; rwa [Nat.sub_add_cancel hw] at hM2⟩
  calc (2 : Int) ^ (w - 1) * (M * a - 2 ^ (w + Nat.log 2 a))
      ≤ 2 ^ (w - 1) * a := mul_le_mul_of_nonneg_left (by linarith) (by positivity)
    _ < 2 ^ (w + Nat.log 2 a) := by exact_mod_cast hNa

/-- The signed tables meet the contract at every divisor with `|d| ≥ 3` that is not `±2^k`. -/
theorem roundUpS_meets {w : Nat} (hw : 2 ≤ w) (hw' : w < 2 ^ 31) {d : BitVec w}
    (h3 : 3 ≤ |d.toInt|) (hnp : ∀ k : Nat, |d.toInt| ≠ 2 ^ k) :
    ∃ sh : Nat, (roundUpS w d).shift_by.toInt = sh ∧ sh ≤ w - 1 ∧
      ∀ n : Int, -2 ^ (w - 1) ≤ n → n < 2 ^ (w - 1) →
        magicQuotient w d.toInt (roundUpS w d).mul_by.toInt sh n = n.tdiv d.toInt := by
  have hb := sval_bounds (by omega : 0 < w) d.isLt
  rw [← BitVec.toInt_eq_sval] at hb
  have habs : (d.toInt.natAbs : Int) = |d.toInt| := (Int.abs_eq_natAbs _).symm
  have hnp' : ∀ k : Nat, d.toInt.natAbs ≠ 2 ^ k := fun k h => hnp k (by rw [← habs, h]; push_cast; rfl)
  have haN : d.toInt.natAbs < 2 ^ (w - 1) := by
    have := lt_of_le_of_ne (abs_le.2 ⟨hb.1, hb.2.le⟩) (hnp (w - 1))
    rw [← habs] at this
    exact_mod_cast this
  have ha0 : (0 : Int) < d.toInt.natAbs := by rw [habs]; linarith
  obtain ⟨hA1, hA2⟩ := pow_log_lt_lt (by omega) hnp'
  obtain ⟨h1, h2, hM1, hM2⟩ := signed_multiplier_bounds (by omega) hA1 hA2 haN
  have hEi : (0 : Int) < 2 ^ (w + Nat.log 2 d.toInt.natAbs) := by positivity
  have hL : Nat.log 2 d.toInt.natAbs < w - 1 := Nat.log_lt_of_lt_pow (by omega) haN
  refine ⟨Nat.log 2 d.toInt.natAbs, toInt_ofNat_32 (by omega), by omega, fun n hn1 hn2 => ?_⟩
  set M := 2 ^ (w + Nat.log 2 d.toInt.natAbs) / d.toInt.natAbs + 1
  unfold magicQuotient
  rw [show (roundUpS w d).mul_by = BitVec.ofNat w (if d.toInt < 0 then 2 ^ w - M else M) from rfl,
    correctedMul_ofNat (by omega) (fun h => by simp [h] at ha0) hM1 hM2]
  split
  · rename_i hneg
    rw [Int.ofNat_natAbs_of_nonpos hneg.le] at h1 h2 ha0
    rw [mul_neg, ← neg_mul, magic_ediv_tdiv ha0 hEi h1 h2 (by linarith) (by linarith),
      Int.neg_tdiv_neg]
  · rw [Int.natAbs_of_nonneg (by omega)] at h1 h2 ha0
    exact magic_ediv_tdiv ha0 hEi h1 h2 hn1 hn2.le

/-- The rounded-up tables meet the contract the div/rem rewrites are proved under. -/
theorem roundUpMagic_contract : roundUpMagic.Contract := by
  refine ⟨fun info => ?_, fun info hs h3 hnp => ?_⟩
  · cases info <;> first
      | exact fun h3 hp => roundUpU_meets (by norm_num) h3 hp
      | trivial
  · cases info <;> simp only [DivRemByConstInfo.isSigned, reduceCtorEq] at hs <;>
      simp only [DivRemByConstInfo.divisor] at h3 hnp <;>
      obtain ⟨sh, hsh, hle, hq⟩ := roundUpS_meets (by norm_num) (by norm_num) h3 hnp <;>
      refine ⟨sh, hsh, hle, fun n h1 h2 => ?_⟩ <;>
      simpa [MagicNumbers.signedMagic, roundUpMagic, hsh] using hq n h1 h2

end simple_preopt
