import SimplePreopt.DivremUnsigned
-- The signed rewrites compute the quotient rounded toward zero and the remainder with the
-- dividend's sign: a biased shift for `±2^k`, the magic-number sequence otherwise.

namespace simple_preopt

variable {ext : External}

open FuncCursor

/-! ## Division by `±2^k` -/

/-- `sshr` by `k - 1`, then `ushr` by `w - k`: the top `k` bits of the sign
fill, `2^k - 1` for a negative numerator and `0` otherwise. -/
theorem sign_fill_div {w k : Nat} {n : Int} (hk1 : 1 ≤ k) (hkw : k < w)
    (hn1 : -2 ^ (w - 1) ≤ n) (hn2 : n < 2 ^ (w - 1)) :
    wrap w (n / 2 ^ (k - 1)) / 2 ^ (w - k) = if n < 0 then 2 ^ k - 1 else 0 := by
  have hA : (0 : Int) < 2 ^ (k - 1) := by positivity
  have hB : (0 : Int) < 2 ^ (w - k) := by positivity
  have e1 : (2 : Int) ^ (w - 1) = 2 ^ (w - k) * 2 ^ (k - 1) := by
    rw [← pow_add]; congr 1; omega
  have e2 : (2 : Int) ^ w = 2 ^ k * 2 ^ (w - k) := by
    rw [← pow_add]; congr 1; omega
  have t1 : -2 ^ (w - k) ≤ n / 2 ^ (k - 1) := (Int.le_ediv_iff_mul_le hA).2 (by linarith)
  have t2 : n / 2 ^ (k - 1) < 2 ^ (w - k) := (Int.ediv_lt_iff_lt_mul hA).2 (by linarith)
  have hk : (1 : Int) ≤ 2 ^ k := one_le_pow₀ (by norm_num)
  have hBw : (2 : Int) ^ (w - k) ≤ 2 ^ w := by rw [e2]; exact le_mul_of_one_le_left hB.le hk
  apply Int.ofNat_inj.1
  rw [Int.ofNat_ediv, coe_wrap]
  push_cast
  split
  · rename_i hn
    have t3 : n / 2 ^ (k - 1) < 0 := Int.ediv_neg' hn hA
    have : n / 2 ^ (k - 1) % 2 ^ w = n / 2 ^ (k - 1) + 2 ^ w := by
      rw [← Int.add_emod_self]; exact Int.emod_eq_of_lt (by linarith) (by linarith)
    rw [this, Nat.cast_sub (Nat.one_le_two_pow), Nat.cast_pow]
    push_cast
    exact ediv_eq_of_bounds hB (by rw [e2, sub_mul, one_mul]; linarith)
      (by rw [e2, sub_add_cancel]; linarith)
  · rename_i hn
    have t3 : 0 ≤ n / 2 ^ (k - 1) := Int.ediv_nonneg (by linarith) hA.le
    rw [Int.emod_eq_of_lt t3 (by linarith)]
    exact Int.ediv_eq_zero_of_lt t3 t2

/-- Rounding toward zero by `2^k` is flooring after the bias: `n / 2^k` for a
non-negative `n`, `(n + 2^k - 1) / 2^k` for a negative one. -/
theorem bias_ediv (n : Int) (k : Nat) :
    (n + if n < 0 then (2 : Int) ^ k - 1 else 0) / 2 ^ k = n.tdiv (2 ^ k) := by
  have hB : (0 : Int) < 2 ^ k := by positivity
  split
  · rename_i hn
    have h1 := Int.emod_add_ediv (-n) (2 ^ k)
    have h2 := Int.emod_nonneg (-n) hB.ne'
    have h3 := Int.emod_lt_of_pos (-n) hB
    rw [← neg_neg n, Int.neg_tdiv, Int.tdiv_eq_ediv (by linarith) hB.le, neg_neg]
    exact ediv_eq_of_bounds hB (by rw [neg_mul]; linarith)
      (by rw [neg_add_eq_sub, sub_mul, one_mul]; linarith)
  · rename_i hn
    rw [add_zero, Int.tdiv_eq_ediv (by linarith) hB.le]

/-- The remainder by `±2^k`: the numerator less its biased value with the low `k` bits cleared. -/
theorem wrap_sub_clear_low {w k : Nat} {n b : Int} (hkw : k ≤ w)
    (hb : (n + b) / 2 ^ k = n.tdiv (2 ^ k)) :
    wrap w ((wrap w n : Int) - ((wrap w (n + b) - wrap w (n + b) % 2 ^ k : Nat) : Int)) =
      wrap w (n.tmod (2 ^ k)) := by
  have hd : (2 : Int) ^ k ∣ 2 ^ w := pow_dvd_pow 2 hkw
  rw [Nat.cast_sub (Nat.mod_le _ _), Int.natCast_mod, coe_wrap, coe_wrap, Nat.cast_pow,
    Nat.cast_ofNat, Int.emod_emod_of_dvd _ hd, wrap_emod_sub, sub_sub_eq_add_sub, wrap_sub_emod]
  congr 1
  rw [Int.tmod_def, ← hb]
  have := Int.emod_add_ediv (n + b) (2 ^ k)
  linarith

/-! ## The magic-number quotient -/

/-- The multiplier as the signed sequence applies it: `mul_by`, moved by `2^w` where its
sign disagrees with the divisor's. -/
def correctedMul (w : Nat) (d M0 : Int) : Int :=
  if d > 0 ∧ M0 < 0 then M0 + 2 ^ w else if d < 0 ∧ M0 > 0 then M0 - 2 ^ w else M0

theorem correctedMul_bounds {w : Nat} (hw : 1 ≤ w) (d : Int) {M0 : Int}
    (h1 : -2 ^ (w - 1) ≤ M0) (h2 : M0 < 2 ^ (w - 1)) :
    -(2 ^ w - 1) ≤ correctedMul w d M0 ∧ correctedMul w d M0 ≤ 2 ^ w - 1 := by
  have e := two_pow_eq_two_mul (w := w) (by omega)
  have : (1 : Int) ≤ 2 ^ (w - 1) := one_le_pow₀ (by norm_num)
  unfold correctedMul
  split_ifs <;> constructor <;> linarith

/-- The quotient the signed sequence computes: `q + [q < 0]`, `q = n * M / 2^(w + sh)` for
the corrected multiplier `M`. -/
def magicQuotient (w : Nat) (d M0 : Int) (sh : Nat) (n : Int) : Int :=
  n * correctedMul w d M0 / 2 ^ (w + sh) +
    if n * correctedMul w d M0 / 2 ^ (w + sh) < 0 then 1 else 0

/-- `ushr` by `w - 1` reads the sign bit. -/
theorem div_two_pow_pred {w p : Nat} (hw : 1 ≤ w) (hp : p < 2 ^ w) :
    p / 2 ^ (w - 1) = if sval w p < 0 then 1 else 0 := by
  have e : 2 ^ w = 2 * 2 ^ (w - 1) := by rw [← pow_succ']; congr 1; omega
  split
  · rename_i h
    exact Nat.div_eq_of_lt_le (by rw [one_mul]; exact (sval_neg_iff hp).1 h) (by omega)
  · rename_i h
    exact Nat.div_eq_of_lt ((not_le.1 fun h' => h ((sval_neg_iff hp).2 h')))

/-! ## The rewrites, step by step -/

section Run

variable {s : Site} {env₀ env : Env} {pos : FuncCursor} {L : List Inst}

/-- The biased numerator `t3` of the signed power-of-two rewrite. -/
theorem Runs.emits_signedBias (h : Runs ext s env₀ pos L env) {w : Nat} {ty : Ty} (hw : ty.bits = w)
    (h64 : w ≤ 64) {k : Nat} (hk1 : 1 ≤ k) (hkw : k < w) {n1 : Value} {n : Int}
    (hn : Has pos env n1 ty (wrap w n)) (hn1 : -2 ^ (w - 1) ≤ n) (hn2 : n < 2 ^ (w - 1)) :
    Emits ext s env₀ pos env (signedBias w n1 k) ty
      (wrap w (n + if n < 0 then (2 : Int) ^ k - 1 else 0)) := by
  subst hw
  have hwk : ∀ j ≤ ty.bits, j < 2 ^ ty.bits := fun j hj => lt_of_le_of_lt hj (Nat.lt_two_pow _)
  have ht1 : Emits ext s env₀ pos env
      (if k - 1 = 0 then pure n1 else insBinaryImm .SshrImm n1 (BitVec.ofNat 64 (k - 1))) ty
      (wrap ty.bits (n / 2 ^ (k - 1))) := by
    split
    · rename_i hk
      rw [hk, pow_zero, Int.ediv_one]
      exact h.emits_pure hn
    · refine h.emits_binaryImm hn ?_
      rw [binaryImmOp_of_ne (by decide), BinaryImmOp.binary, binaryOp,
        immBits_ofNat (hwk _ (by omega)) h64, Nat.mod_eq_of_lt (by omega),
        sval_wrap (by omega) hn1 hn2]
  unfold signedBias
  refine ht1.bind fun t1 pos₁ L₁ env₁ h₁ e₁ a₁ => ?_
  have e₂ : binaryImmOp .UshrImm ty.bits (wrap ty.bits (n / 2 ^ (k - 1))) (BitVec.ofNat 64 (ty.bits - k)) =
      .value (if n < 0 then 2 ^ k - 1 else 0) := by
    rw [binaryImmOp_of_ne (by decide), BinaryImmOp.binary, binaryOp,
      immBits_ofNat (hwk _ (by omega)) h64, Nat.mod_eq_of_lt (by omega),
      sign_fill_div hk1 hkw hn1 hn2]
  refine (h₁.emits_binaryImm a₁ e₂).bind fun t2 pos₂ L₂ env₂ h₂ e₂ a₂ => ?_
  refine h₂.emits_binary ((hn.mono e₁).mono e₂) a₂ ?_
  rw [binaryOp]
  congr 1
  split <;> simp [Nat.cast_sub Nat.one_le_two_pow]


/-- The final quotient of the signed magic-number rewrite; neither of its adds wraps. -/
theorem Runs.emits_signedQuotient (h : Runs ext s env₀ pos L env) {w : Nat} {ty : Ty}
    (hw : ty.bits = w) (h2 : 2 ≤ w) (h64 : w ≤ 64) {to_imm : BitVec w → Imm64}
    (hto : ∀ x, immBits w (to_imm x) = x.toNat) {m : MS w} {d : BitVec w} {sh : Nat}
    (hsh : m.shift_by.toInt = sh) (hsw : sh ≤ w - 1) {n1 : Value} {n : Int}
    (hn : Has pos env n1 ty (wrap w n)) (hn1 : -2 ^ (w - 1) ≤ n) (hn2 : n < 2 ^ (w - 1)) :
    Emits ext s env₀ pos env (signedQuotient ty m to_imm n1 d) ty
      (wrap w (magicQuotient w d.toInt m.mul_by.toInt sh n)) := by
  subst hw
  unfold magicQuotient
  have hw1 : 1 ≤ ty.bits := by omega
  obtain ⟨hM1, hM2⟩ := sval_bounds (by omega) m.mul_by.isLt
  rw [← BitVec.toInt_eq_sval] at hM1 hM2
  obtain ⟨hC1, hC2⟩ := correctedMul_bounds hw1 d.toInt hM1 hM2
  obtain ⟨hb1, hb2⟩ := mul_ediv_two_pow_bounds hn1 hn2 hC1 hC2
  unfold signedQuotient
  refine (h.emits_iconst ty _).bind fun q0 pos₁ L₁ env₁ h₁ e₁ a₁ => ?_
  rw [hto, ← wrap_sval m.mul_by.isLt, ← BitVec.toInt_eq_sval] at a₁
  have hn₁ := hn.mono e₁
  have e₁ : binaryOp .Smulhi ty.bits (wrap ty.bits n) (wrap ty.bits m.mul_by.toInt) =
      .value (wrap ty.bits (n * m.mul_by.toInt / 2 ^ ty.bits)) := by
    rw [binaryOp, sval_wrap (by omega) hn1 hn2, sval_wrap (by omega) hM1 hM2]
  refine (h₁.emits_binary hn₁ a₁ e₁).bind fun q1 pos₂ L₂ env₂ h₂ e₂ a₂ => ?_
  have hQ2 : Emits ext s env₀ pos₂ env₂
      (if d.toInt > 0 ∧ m.mul_by.toInt < 0 then insBinary .Iadd q1 n1
        else if d.toInt < 0 ∧ m.mul_by.toInt > 0 then insBinary .Isub q1 n1 else pure q1) ty
      (wrap ty.bits (n * correctedMul ty.bits d.toInt m.mul_by.toInt / 2 ^ ty.bits)) := by
    have hn₂ := hn₁.mono e₂
    unfold correctedMul
    split_ifs
    · refine h₂.emits_binary a₂ hn₂ ?_
      rw [binaryOp, mul_add, Int.add_mul_ediv_right _ _ (by positivity)]
      simp
    · refine h₂.emits_binary a₂ hn₂ ?_
      have : n * (m.mul_by.toInt - 2 ^ ty.bits) / 2 ^ ty.bits =
          n * m.mul_by.toInt / 2 ^ ty.bits - n := by
        rw [mul_sub, sub_eq_add_neg, ← neg_mul, Int.add_mul_ediv_right _ _ (by positivity),
          ← sub_eq_add_neg]
      rw [binaryOp, this]
      simp
    · exact h₂.emits_pure a₂
  refine hQ2.bind fun q2 pos₃ L₃ env₃ h₃ e₃ a₃ => ?_
  set q := n * correctedMul ty.bits d.toInt m.mul_by.toInt / 2 ^ (ty.bits + sh) with hq
  have hqe : q = n * correctedMul ty.bits d.toInt m.mul_by.toInt / 2 ^ ty.bits / 2 ^ sh := by
    rw [hq, ediv_ediv_of_pos _ (by positivity) (by positivity), pow_add]
  obtain ⟨hq3, hq4⟩ : -2 ^ (ty.bits - 1) ≤ q ∧ q < 2 ^ (ty.bits - 1) :=
    hqe ▸ ediv_two_pow_bounds (by positivity) hb1 hb2 sh
  have hQ3 : Emits ext s env₀ pos₃ env₃
      (if m.shift_by = 0 then pure q2 else insBinaryImm .SshrImm q2 (m.shift_by.signExtend 64)) ty
      (wrap ty.bits q) := by
    split
    · rename_i h0
      have : sh = 0 := by
        rw [h0, show (0 : BitVec 32).toInt = 0 from rfl] at hsh; omega
      rw [hq, this, add_zero]
      exact h₃.emits_pure a₃
    · refine h₃.emits_binaryImm a₃ ?_
      rw [binaryImmOp_of_ne (by decide), BinaryImmOp.binary, binaryOp, immBits_signExtend _ h64,
        hsh, wrap_natCast (by have := Nat.lt_two_pow ty.bits; omega), Nat.mod_eq_of_lt (by omega),
        sval_wrap (by omega) hb1 hb2, ← hqe]
  refine hQ3.bind fun q3 pos₄ L₄ env₄ h₄ e₄ a₄ => ?_
  have e₄ : binaryImmOp .UshrImm ty.bits (wrap ty.bits q) (BitVec.ofNat 64 (ty.bits - 1)) =
      .value (if q < 0 then 1 else 0) := by
    rw [binaryImmOp_of_ne (by decide), BinaryImmOp.binary, binaryOp,
      immBits_ofNat (by have := Nat.lt_two_pow ty.bits; omega) h64, Nat.mod_eq_of_lt (by omega),
      div_two_pow_pred hw1 (wrap_lt _ _), sval_wrap (by omega) hq3 hq4]
  refine (h₄.emits_binaryImm a₄ e₄).bind fun t1 pos₅ L₅ env₅ h₅ e₅ a₅ => ?_
  refine h₅.emits_binary (a₄.mono e₅) a₅ ?_
  rw [binaryOp]
  split <;> simp

end Run

/-- The signed cases at width `w` for a divisor `±2^k` with `k ≥ 1`. -/
theorem divremSigned_pow2 {w : Nat} {ty : Ty} (hw : ty.bits = w) (h2 : 2 ≤ w) (h64 : w ≤ 64)
    {magic : BitVec w → MS w} {to_imm : BitVec w → Imm64}
    (hto : ∀ x, immBits w (to_imm x) = x.toNat) {is_rem : Bool} {n1 : Value} {d : BitVec w}
    {k : Nat} (hk : 1 ≤ k) (hd : d.toInt = 2 ^ k ∨ d.toInt = -2 ^ k)
    {s : Site} {pos : FuncCursor} {env : Env} {r : Value} {n : Int}
    (hs : At pos s) (hr : pos.func.dfg.results s.inst = some r)
    (hrt : pos.func.dfg.valueTypes r = ty) (hn : Has pos env n1 ty (wrap w n))
    (hn1 : -2 ^ (w - 1) ≤ n) (hn2 : n < 2 ^ (w - 1)) :
    Rewrites ext s env pos env (divremSigned w ty magic (iIsPowerOfTwo w) to_imm is_rem n1 d s.inst) r
      (wrap w (if is_rem then n.tmod d.toInt else n.tdiv d.toInt)) := by
  have h := Runs.start ext hs env
  subst hw
  have hcls := iIsPowerOfTwo_of_pow (by omega) hd
  have hkw := (iIsPowerOfTwo_spec (by omega) hcls).1
  obtain ⟨t0, t1, tm1⟩ := toInt_small h2
  have h2k : (2 : Int) ≤ 2 ^ k := by
    calc (2 : Int) = 2 ^ 1 := rfl
      _ ≤ 2 ^ k := pow_le_pow_right₀ (by norm_num) hk
  have hskip : ¬(d = -1 ∨ d = 0) := by
    rintro (rfl | rfl) <;> rcases hd with hd | hd <;> simp only [tm1, t0] at hd <;> linarith
  have hone : ¬d = 1 := by rintro rfl; rcases hd with hd | hd <;> rw [t1] at hd <;> linarith
  unfold divremSigned
  rw [if_neg hskip, if_neg hone, hcls]
  dsimp only
  have hb := bias_ediv n k
  refine (h.emits_signedBias rfl h64 hk hkw hn hn1 hn2).bind_rewrites
    fun t3 pos' L' env' h' e' a' => ?_
  obtain ⟨hr', hrt'⟩ := h.result_mono e' hr
  have hkw' : 2 ^ k ≤ 2 ^ (ty.bits - 1) := Nat.pow_le_pow_right (by norm_num) (by omega)
  have hkw'' : ((2 ^ k : Nat) : Int) ≤ ((2 ^ (ty.bits - 1) : Nat) : Int) := by exact_mod_cast hkw'
  push_cast at hkw''
  have hnb1 : -2 ^ (ty.bits - 1) ≤ n + if n < 0 then (2 : Int) ^ k - 1 else 0 := by
    split <;> linarith
  have hnb2 : (n + if n < 0 then (2 : Int) ^ k - 1 else 0) < 2 ^ (ty.bits - 1) := by
    split <;> linarith
  cases is_rem
  · have e₄ : binaryImmOp .SshrImm ty.bits (wrap ty.bits (n + if n < 0 then (2 : Int) ^ k - 1 else 0))
        (BitVec.ofNat 64 k) = .value (wrap ty.bits (n.tdiv (2 ^ k))) := by
      rw [binaryImmOp_of_ne (by decide), BinaryImmOp.binary, binaryOp,
        immBits_ofNat (lt_trans hkw (Nat.lt_two_pow _)) h64, Nat.mod_eq_of_lt hkw,
        sval_wrap (by omega) hnb1 hnb2, hb]
    refine (h'.emits_binaryImm a' e₄).bind_rewrites fun t4 pos'' L'' env'' h'' e'' a'' => ?_
    obtain ⟨hr'', hrt''⟩ := h'.result_mono e'' hr'
    have hrt₃ := hrt''.trans (hrt'.trans hrt)
    rcases hd with hd | hd
    · rw [if_neg (by simp [hd]), hd]
      exact h''.rewrites_replace rfl hr'' (by simp [evalData, readVal, hrt₃, a''.2.2])
    · rw [if_pos (by simp [hd]), hd, Int.tdiv_neg]
      exact h''.rewrites_replace rfl hr'' (by
        simp [evalData, readVal, hrt₃, a''.2.2, binaryImmOp, binaryOp, immBits])
  · have e₄ : binaryImmOp .BandImm ty.bits (wrap ty.bits (n + if n < 0 then (2 : Int) ^ k - 1 else 0))
        (to_imm (-((1 : BitVec ty.bits) <<< k))) =
        .value (wrap ty.bits (n + if n < 0 then (2 : Int) ^ k - 1 else 0) -
          wrap ty.bits (n + if n < 0 then (2 : Int) ^ k - 1 else 0) % 2 ^ k) := by
      rw [binaryImmOp_of_ne (by decide), BinaryImmOp.binary, binaryOp, hto,
        toNat_neg_one_shiftLeft hkw, land_high_mask (wrap_lt _ _) hkw.le]
    refine (h'.emits_binaryImm a' e₄).bind_rewrites fun t4 pos'' L'' env'' h'' e'' a'' => ?_
    obtain ⟨hr'', hrt''⟩ := h'.result_mono e'' hr'
    have hrt₃ := hrt''.trans (hrt'.trans hrt)
    have hv : n.tmod d.toInt = n.tmod (2 ^ k) := by rcases hd with hd | hd <;> simp [hd]
    rw [if_pos rfl, hv, ← wrap_sub_clear_low hkw.le hb]
    exact h''.rewrites_replace rfl hr'' (by
      simp only [evalData, readVal, hrt₃, ((hn.mono e').mono e'').2.2, a''.2.2, binaryOp])

/-- The signed cases at width `w` for a divisor that is not `0`, `±1` or `±2^k`. -/
theorem divremSigned_magic {w : Nat} {ty : Ty} (hw : ty.bits = w) (h2 : 2 ≤ w) (h64 : w ≤ 64)
    {magic : BitVec w → MS w} {to_imm : BitVec w → Imm64}
    (hto : ∀ x, immBits w (to_imm x) = x.toNat) {is_rem : Bool} {n1 : Value} {d : BitVec w}
    (hd0 : d ≠ 0) (hnone : iIsPowerOfTwo w d = none) {sh : Nat}
    (hsh : (magic d).shift_by.toInt = sh) (hsw : sh ≤ w - 1)
    {s : Site} {pos : FuncCursor} {env : Env} {r : Value} {n : Int}
    (hs : At pos s) (hr : pos.func.dfg.results s.inst = some r)
    (hrt : pos.func.dfg.valueTypes r = ty) (hn : Has pos env n1 ty (wrap w n))
    (hn1 : -2 ^ (w - 1) ≤ n) (hn2 : n < 2 ^ (w - 1)) :
    Rewrites ext s env pos env (divremSigned w ty magic (iIsPowerOfTwo w) to_imm is_rem n1 d s.inst) r
      (wrap w (if is_rem then n - d.toInt * magicQuotient w d.toInt (magic d).mul_by.toInt sh n
        else magicQuotient w d.toInt (magic d).mul_by.toInt sh n)) := by
  have h := Runs.start ext hs env
  subst hw
  obtain ⟨_, t1, tm1⟩ := toInt_small h2
  have hone : ¬d = 1 := by
    rintro rfl
    rw [iIsPowerOfTwo_of_pow (by omega)
      (Or.inl (show (1 : BitVec ty.bits).toInt = 2 ^ 0 by rw [t1]; rfl))] at hnone
    cases hnone
  have hm1 : ¬d = -1 := by
    rintro rfl
    rw [iIsPowerOfTwo_of_pow (by omega)
      (Or.inr (show (-1 : BitVec ty.bits).toInt = -2 ^ 0 by rw [tm1]; rfl))] at hnone
    cases hnone
  unfold divremSigned
  rw [if_neg (by tauto), if_neg hone, hnone]
  dsimp only
  refine (h.emits_signedQuotient rfl h2 h64 hto hsh hsw hn hn1 hn2).bind_rewrites
    fun qf pos' L' env' h' e' a' => ?_
  obtain ⟨hr', hrt'⟩ := h.result_mono e' hr
  have := h'.rewrites_finishDivrem (hn.mono e') a' hr' (hrt'.trans hrt) is_rem (to_imm d)
  rw [hto, ← wrap_sval d.isLt, ← BitVec.toInt_eq_sval] at this
  cases is_rem
  · exact this
  · simpa [mul_comm] using this

/-! ## The four signed cases -/

/-- `to_imm` of the 32-bit cases, `as i64`, keeps the pattern. -/
theorem immBits_signExtend32 (x : BitVec 32) : immBits 32 (x.signExtend 64) = x.toNat := by
  rw [immBits_signExtend _ (by decide), BitVec.toInt_eq_sval, wrap_sval x.isLt]

/-- `to_imm` of the 64-bit cases, the identity, keeps the pattern. -/
theorem immBits_id64 (x : BitVec 64) : immBits 64 (id x) = x.toNat := Nat.mod_eq_of_lt x.isLt

/-- The signed power-of-two rewrites: for every divisor `±2^k`, `k ≥ 1`, the result is the
quotient rounded toward zero, or the remainder with the dividend's sign. -/
theorem doDivremTransformation_signed_pow2 (ext : External) (mn : MagicNumbers)
    (info : DivRemByConstInfo) (hsg : info.isSigned = true) {k : Nat} (hk : 1 ≤ k)
    (hd : info.divisor = 2 ^ k ∨ info.divisor = -2 ^ k)
    {s : Site} {pos : FuncCursor} {env : Env} {r : Value} {x : Nat}
    (hs : At pos s) (hr : pos.func.dfg.results s.inst = some r)
    (hrt : pos.func.dfg.valueTypes r = info.ty) (hn : Has pos env info.value info.ty x)
    (hx : x < 2 ^ info.ty.bits) :
    Rewrites ext s env pos env (doDivremTransformation mn info s.inst) r
      (wrap info.ty.bits (if info.isRem then (sval info.ty.bits x).tmod info.divisor
        else (sval info.ty.bits x).tdiv info.divisor)) := by
  rw [← wrap_sval hx] at hn
  have hb := sval_bounds info.ty.bits_pos hx
  cases info with
  | DivS32 n d | RemS32 n d =>
    exact divremSigned_pow2 (rfl : Ty.I32.bits = 32) (by decide) (by decide) immBits_signExtend32
      hk hd hs hr hrt hn hb.1 hb.2
  | DivS64 n d | RemS64 n d =>
    exact divremSigned_pow2 (rfl : Ty.I64.bits = 64) (by decide) (by decide) immBits_id64
      hk hd hs hr hrt hn hb.1 hb.2
  | _ => cases hsg

/-- `sdiv_imm v0, -4` at 32 bits on `v0 = -9`: the quotient is 2. -/
theorem sdiv_minus_four_rewrites :
    Rewrites noExternal ⟨⟨0⟩, ⟨0⟩, [], []⟩ (fun v => if v = ⟨0⟩ then some 4294967287 else none)
      ⟨oneInst (.BinaryImm .SdivImm ⟨0⟩ (-4)) .I32, .At ⟨0⟩⟩
      (fun v => if v = ⟨0⟩ then some 4294967287 else none)
      (doDivremTransformation ⟨fun _ => ⟨0, false, 0⟩, fun _ => ⟨0, false, 0⟩,
        fun _ => ⟨0, 0⟩, fun _ => ⟨0, 0⟩⟩ (.DivS32 ⟨0⟩ (-4)) ⟨0⟩) ⟨1⟩ 2 := by
  have h := doDivremTransformation_signed_pow2 noExternal
      ⟨fun _ => ⟨0, false, 0⟩, fun _ => ⟨0, false, 0⟩, fun _ => ⟨0, 0⟩, fun _ => ⟨0, 0⟩⟩
    (.DivS32 ⟨0⟩ (-4)) rfl (show 1 ≤ 2 by decide)
    (Or.inr (by decide)) (oneInst_at (.BinaryImm .SdivImm ⟨0⟩ (-4)) .I32) rfl rfl
    (oneInst_has _ _ 4294967287)
    (by decide)
  convert h using 1

/-- `mul_by` and `shift_by` of the signed magic numbers at the divisor of
`info`, read as the `i32`s or `i64`s they are. -/
def MagicNumbers.signedMagic (mn : MagicNumbers) : DivRemByConstInfo → Int × Int
  | .DivS32 _ d | .RemS32 _ d => ((mn.magic_s32 d).mul_by.toInt, (mn.magic_s32 d).shift_by.toInt)
  | .DivS64 _ d | .RemS64 _ d => ((mn.magic_s64 d).mul_by.toInt, (mn.magic_s64 d).shift_by.toInt)
  | _ => (0, 0)

/-- The contract of `magic_s32`/`magic_s64` at the divisor of `info`: the sequence rounds
toward zero for every `W`-bit numerator. -/
def MagicNumbers.SignedMeets (mn : MagicNumbers) (info : DivRemByConstInfo) : Prop :=
  ∀ n : Int, -2 ^ (info.ty.bits - 1) ≤ n → n < 2 ^ (info.ty.bits - 1) →
    magicQuotient info.ty.bits info.divisor (mn.signedMagic info).1
      (mn.signedMagic info).2.toNat n = n.tdiv info.divisor

/-- A divisor whose magnitude is not a power of two is not classified. -/
theorem iIsPowerOfTwo_eq_none {w : Nat} (hw : 1 ≤ w) {d : BitVec w}
    (hnp : ∀ k : Nat, |d.toInt| ≠ 2 ^ k) : iIsPowerOfTwo w d = none := by
  cases h : iIsPowerOfTwo w d with
  | none => rfl
  | some bk =>
    obtain ⟨-, hd⟩ := iIsPowerOfTwo_spec hw h
    exact absurd (by split at hd <;> simp [hd]) (hnp bk.2)

end simple_preopt
