import SimplePreopt.Divrem
import SimplePreopt.Build
-- The unsigned rewrites compute the quotient and the remainder: `copy` or `iconst 0`, a
-- shift or a mask for `2^k`, and the magic-number sequence, whose add path never wraps.

namespace simple_preopt

variable {ext : External}

open FuncCursor

/-! ## The magic-number contract -/

/-- The contract of `magic_u32`/`magic_u64` at `d`: `shift_by` in the asserted range, and the
multiply-and-shift dividing every `w`-bit numerator by `d`. -/
def MU.Meets {w : Nat} (m : MU w) (d : Nat) : Prop :=
  ∃ sh : Nat, m.shift_by.toInt = sh ∧ (if m.do_add then 2 ≤ sh ∧ sh ≤ w else sh ≤ w - 1) ∧
    ∀ n < 2 ^ w, n * (m.mul_by.toNat + if m.do_add then 2 ^ w else 0) / 2 ^ (w + sh) = n / d

/-- The contract at the divisor of an unsigned `info`, for the divisors the
rewrite takes the magic numbers for. -/
def MagicNumbers.UnsignedMeets (mn : MagicNumbers) : DivRemByConstInfo → Prop
  | .DivU32 _ d | .RemU32 _ d =>
    3 ≤ d.toNat → isPowerOfTwo d = false → (mn.magic_u32 d).Meets d.toNat
  | .DivU64 _ d | .RemU64 _ d =>
    3 ≤ d.toNat → isPowerOfTwo d = false → (mn.magic_u64 d).Meets d.toNat
  | _ => True

/-- A multiplier `M` with `2^e ≤ M * d ≤ 2^e + 2^(e - w)` turns division by `d`
of every `w`-bit numerator into a multiplication and a shift by `e`. -/
theorem mul_div_eq_div_of_bounds {w e d M : Nat} (hd : 0 < d) (hwe : w ≤ e) (h1 : 2 ^ e ≤ M * d)
    (h2 : M * d ≤ 2 ^ e + 2 ^ (e - w)) {n : Nat} (hn : n < 2 ^ w) : n * M / 2 ^ e = n / d := by
  have hsplit : 2 ^ e = 2 ^ w * 2 ^ (e - w) := by rw [← pow_add, Nat.add_sub_cancel' hwe]
  have hnd : n + 1 ≤ (n / d + 1) * d := by
    have := Nat.div_add_mod n d; have := Nat.mod_lt n hd; rw [add_mul, one_mul, mul_comm]; omega
  apply Nat.div_eq_of_lt_le
  · refine Nat.le_of_mul_le_mul_right ?_ hd
    calc n / d * 2 ^ e * d = d * (n / d) * 2 ^ e := by ring
      _ ≤ n * 2 ^ e := Nat.mul_le_mul_right _ (Nat.mul_div_le n d)
      _ ≤ n * (M * d) := Nat.mul_le_mul_left _ h1
      _ = n * M * d := by ring
  · refine Nat.lt_of_mul_lt_mul_right (show n * M * d < (n / d).succ * 2 ^ e * d from ?_)
    have h3 : n * 2 ^ (e - w) < 2 ^ w * 2 ^ (e - w) :=
      Nat.mul_lt_mul_of_pos_right hn (Nat.two_pow_pos _)
    calc n * M * d = n * (M * d) := by ring
      _ ≤ n * (2 ^ e + 2 ^ (e - w)) := Nat.mul_le_mul_left _ h2
      _ < n * 2 ^ e + 2 ^ e := by rw [mul_add, hsplit]; omega
      _ = (n + 1) * 2 ^ e := by ring
      _ ≤ (n / d).succ * d * 2 ^ e := Nat.mul_le_mul_right _ hnd
      _ = (n / d).succ * 2 ^ e * d := by ring

/-- The quotient of the add path, `(n + q1) / 2^s` with `q1 = umulhi n m`. -/
theorem add_umulhi_div {w : Nat} (n m s : Nat) :
    (n + n * m / 2 ^ w) / 2 ^ s = n * (m + 2 ^ w) / 2 ^ (w + s) := by
  rw [pow_add, ← Nat.div_div_eq_div_mul, mul_add, Nat.add_mul_div_right _ _ (by positivity),
    add_comm]

/-- The add path wraps nowhere: `q1 = umulhi n, m` is at most `n`, so `isub n, q1` does not
underflow, and `(n - q1) >> 1` plus `q1` stays below `2^w`, so the `iadd` does not overflow. -/
theorem addPath_noWrap {w x m : Nat} (hx : x < 2 ^ w) (hm : m < 2 ^ w) :
    x * m / 2 ^ w ≤ x ∧ (x - x * m / 2 ^ w) / 2 + x * m / 2 ^ w < 2 ^ w := by
  have hq : x * m / 2 ^ w ≤ x :=
    Nat.div_le_of_le_mul (by rw [Nat.mul_comm]; exact Nat.mul_le_mul_right x hm.le)
  exact ⟨hq, by omega⟩

/-- The remainder step of the unsigned rewrite: with `q = n / d`, neither
`q * d` nor `n - q * d` wraps. -/
theorem wrap_sub_div_mul {w x d : Nat} (hx : x < 2 ^ w) :
    wrap w ((x : Int) - wrap w ((x / d : Nat) * (d : Nat))) = x % d := by
  have h1 : x / d * d ≤ x := Nat.div_mul_le_self x d
  have h2 := Nat.div_add_mod x d
  rw [← Nat.cast_mul, wrap_natCast (by omega), ← Nat.cast_sub h1, wrap_natCast (by omega)]
  rw [Nat.mul_comm] at h2
  omega
/-- The mask of `urem` by `2^k`: `(1 << k) - 1`. -/
theorem immBits_mask {w k : Nat} (hk : k < w) (hw : w ≤ 64) :
    immBits w (((1 : BitVec 64) <<< k) - 1) = 2 ^ k - 1 := by
  have h1 : 2 ^ k < 2 ^ w := Nat.pow_lt_pow_right (by norm_num) hk
  have h2 : 2 ^ w ≤ 2 ^ 64 := Nat.pow_le_pow_right (by norm_num) hw
  have h3 := Nat.one_le_two_pow (n := k)
  have : (((1 : BitVec 64) <<< k) - 1).toNat = 2 ^ k - 1 := by
    rw [BitVec.toNat_sub, BitVec.toNat_shiftLeft, Nat.shiftLeft_eq,
      show (1 : BitVec 64).toNat = 1 from rfl, one_mul, Nat.mod_eq_of_lt (show 2 ^ k < 2 ^ 64 by omega)]
    omega
  rw [immBits, this, Nat.mod_eq_of_lt (by omega)]

/-! ## The rewrites, step by step -/

section Run

variable {s : Site} {env₀ env : Env} {pos : FuncCursor} {L : List Inst}

/-- The unsigned magic-number quotient, on either path; no step of the add path wraps. -/
theorem Runs.emits_unsignedQuotient (h : Runs ext s env₀ pos L env) {w : Nat} {ty : Ty}
    (hw : ty.bits = w) (h2 : 2 ≤ w) (h64 : w ≤ 64) {m : MU w} {sh : Nat}
    (hsh : m.shift_by.toInt = sh) (hr : if m.do_add then 2 ≤ sh ∧ sh ≤ w else sh ≤ w - 1)
    {n1 : Value} {x : Nat} (hn : Has pos env n1 ty x) (hx : x < 2 ^ w) :
    Emits ext s env₀ pos env (unsignedQuotient ty m n1) ty
      (x * (m.mul_by.toNat + if m.do_add then 2 ^ w else 0) / 2 ^ (w + sh)) := by
  subst hw
  obtain ⟨hq, hq'⟩ := addPath_noWrap hx m.mul_by.isLt
  rw [unsignedQuotient]
  refine (h.emits_iconst ty _).bind fun q0 pos₁ L₁ env₁ h₁ e₁ a₁ => ?_
  rw [immBits_setWidth _ le_rfl h64] at a₁
  have e₁' : binaryOp .Umulhi ty.bits x m.mul_by.toNat = .value (x * m.mul_by.toNat / 2 ^ ty.bits) :=
    rfl
  refine (h₁.emits_binary (hn.mono e₁) a₁ e₁').bind fun q1 pos₂ L₂ env₂ h₂ e₂ a₂ => ?_
  have hn₂ := (hn.mono e₁).mono e₂
  have hq₂ : x * m.mul_by.toNat / 2 ^ ty.bits < 2 ^ ty.bits := by omega
  cases hadd : m.do_add
  · rw [hadd, if_neg Bool.false_ne_true] at hr
    simp only [Bool.false_eq_true, if_false, add_zero]
    rcases Nat.eq_zero_or_pos sh with rfl | hpos
    · rw [if_neg (by omega)]
      simpa using h₂.emits_pure a₂
    · rw [if_pos (by omega)]
      refine h₂.emits_binaryImm a₂ ?_
      have hi : immBits ty.bits (m.shift_by.signExtend 64) % ty.bits = sh := by
        rw [immBits_signExtend _ h64, hsh, wrap_natCast (by have := Nat.lt_two_pow ty.bits; omega)]
        exact Nat.mod_eq_of_lt (by omega)
      rw [binaryImmOp_of_ne (by decide), BinaryImmOp.binary, binaryOp, hi, Nat.div_div_eq_div_mul,
        ← pow_add]
  · rw [hadd, if_pos rfl] at hr
    simp only [if_true]
    rw [← add_umulhi_div]
    generalize x * m.mul_by.toNat / 2 ^ ty.bits = q at *
    have e₃ : binaryOp .Isub ty.bits x q = .value (x - q) := by
      rw [binaryOp, ← Nat.cast_sub hq, wrap_natCast (by omega)]
    refine (h₂.emits_binary hn₂ a₂ e₃).bind fun t1 pos₃ L₃ env₃ h₃ e₃ a₃ => ?_
    have e₄ : binaryImmOp .UshrImm ty.bits (x - q) 1 = .value ((x - q) / 2) := by
      have : immBits ty.bits 1 = 1 := Nat.mod_eq_of_lt (Nat.one_lt_two_pow (by omega))
      rw [binaryImmOp_of_ne (by decide), BinaryImmOp.binary, binaryOp, this,
        Nat.mod_eq_of_lt (by omega), pow_one]
    refine (h₃.emits_binaryImm a₃ e₄).bind fun t2 pos₄ L₄ env₄ h₄ e₄ a₄ => ?_
    have e₅ : binaryOp .Iadd ty.bits ((x - q) / 2) q = .value ((x + q) / 2) := by
      rw [binaryOp, ← Nat.cast_add, wrap_natCast (by omega)]
      congr 1; omega
    refine (h₄.emits_binary a₄ ((a₂.mono e₃).mono e₄) e₅).bind fun t3 pos₅ L₅ env₅ h₅ e₅ a₅ => ?_
    refine h₅.emits_binaryImm a₅ ?_
    have hi : immBits ty.bits ((m.shift_by - 1).signExtend 64) % ty.bits = sh - 1 := by
      rw [immBits_signExtend _ h64, toInt_sub_one hsh (by omega),
        wrap_natCast (by have := Nat.lt_two_pow ty.bits; omega)]
      exact Nat.mod_eq_of_lt (by omega)
    rw [binaryImmOp_of_ne (by decide), BinaryImmOp.binary, binaryOp, hi, Nat.div_div_eq_div_mul,
      ← pow_succ', Nat.sub_add_cancel (by omega)]

/-- The common last step: `copy` the quotient, or subtract `qf * d` from the numerator. -/
theorem Runs.rewrites_finishDivrem (h : Runs ext s env₀ pos L env) {ty : Ty} {n1 qf r : Value}
    {x q : Nat} (hn : Has pos env n1 ty x) (hq : Has pos env qf ty q)
    (hr : pos.func.dfg.results s.inst = some r) (hrt : pos.func.dfg.valueTypes r = ty)
    (is_rem : Bool) (d : Imm64) :
    Rewrites ext s env₀ pos env (finishDivrem is_rem s.inst n1 qf d) r
      (if is_rem then wrap ty.bits ((x : Int) - wrap ty.bits (q * immBits ty.bits d)) else q) := by
  cases is_rem
  · exact h.rewrites_replace rfl hr (by simp [evalData, readVal, hrt, hq.2.2])
  · have e : binaryImmOp .ImulImm ty.bits q d = .value (wrap ty.bits (q * immBits ty.bits d)) :=
      rfl
    refine (h.emits_binaryImm hq e).bind_rewrites fun tt pos' L' env' h' e' a' => ?_
    obtain ⟨hr', hrt'⟩ := h.result_mono e' hr
    exact h'.rewrites_replace rfl hr'
      (by simp [evalData, readVal, hrt', hrt, (hn.mono e').2.2, a'.2.2, binaryOp])

end Run

/-- The unsigned cases at width `w`, for every divisor but zero. -/
theorem divremUnsigned_rewrites {w : Nat} {ty : Ty} (hw : ty.bits = w) (h2 : 2 ≤ w) (h64 : w ≤ 64)
    {magic : BitVec w → MU w} {is_rem : Bool} {n1 : Value} {d : BitVec w} (hd : d ≠ 0)
    (hm : 3 ≤ d.toNat → isPowerOfTwo d = false → (magic d).Meets d.toNat)
    {s : Site} {pos : FuncCursor} {env : Env} {r : Value} {x : Nat}
    (hs : At pos s) (hr : pos.func.dfg.results s.inst = some r)
    (hrt : pos.func.dfg.valueTypes r = ty) (hn : Has pos env n1 ty x) (hx : x < 2 ^ w) :
    Rewrites ext s env pos env (divremUnsigned w ty magic is_rem n1 d s.inst) r
      (if is_rem then x % d.toNat else x / d.toNat) := by
  have h := Runs.start ext hs env
  subst hw
  unfold divremUnsigned
  rw [if_neg hd]
  have hone : (1 : BitVec ty.bits).toNat = 1 := by
    simp [Nat.mod_eq_of_lt (Nat.one_lt_two_pow (show ty.bits ≠ 0 by omega))]
  by_cases h1 : d = 1
  · rw [if_pos h1]
    subst h1
    rw [hone, Nat.mod_one, Nat.div_one]
    cases is_rem
    · exact h.rewrites_replace rfl hr (by simp [evalData, readVal, hrt, hn.2.2])
    · exact h.rewrites_replace rfl hr (by simp [evalData, hrt, immBits])
  rw [if_neg h1]
  by_cases hp : isPowerOfTwo d = true
  · rw [if_pos hp]
    obtain ⟨k, hk, hdk⟩ := (isPowerOfTwo_iff d).1 hp
    simp only [hdk, trailingZeros_two_pow hk]
    cases is_rem
    · exact h.rewrites_replace rfl hr (by
        simp [evalData, readVal, hrt, hn.2.2, binaryImmOp_of_ne, BinaryImmOp.binary, binaryOp,
          immBits_ofNat (lt_trans hk (Nat.lt_two_pow _)) h64, Nat.mod_eq_of_lt hk])
    · exact h.rewrites_replace rfl hr (by
        simp only [evalData, readVal, hrt, hn.2.2, binaryImmOp_of_ne (by decide : BinaryImmOp.BandImm ≠ .IrsubImm), BinaryImmOp.binary, binaryOp,
          immBits_mask hk h64, Nat.and_pow_two_sub_one_eq_mod, if_true])
  · rw [if_neg hp]
    have hd1 : d.toNat ≠ 1 := fun e => h1 (BitVec.eq_of_toNat_eq (e.trans hone.symm))
    have hd0 : d.toNat ≠ 0 := fun e => hd (BitVec.eq_of_toNat_eq (by simpa using e))
    have hd2 : d.toNat ≠ 2 := fun e => hp ((isPowerOfTwo_iff d).2 ⟨1, by omega, by simpa using e⟩)
    obtain ⟨sh, hsh, hrange, hc⟩ := hm (by omega) (by simpa using hp)
    refine (h.emits_unsignedQuotient rfl h2 h64 hsh hrange hn hx).bind_rewrites
      fun qf pos' L' env' h' e' a' => ?_
    rw [hc x hx] at a'
    obtain ⟨hr', hrt'⟩ := h.result_mono e' hr
    have := h'.rewrites_finishDivrem (hn.mono e') a' hr' (hrt'.trans hrt) is_rem (d.setWidth 64)
    rw [immBits_setWidth _ le_rfl h64, wrap_sub_div_mul hx] at this
    cases is_rem <;> exact this

end simple_preopt
