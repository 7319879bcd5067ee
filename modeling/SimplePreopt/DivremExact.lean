import SimplePreopt.DivremSigned
import SimplePreopt.Preopt
-- A div/rem rewrite defines the result of the instruction it rewrites as the instruction
-- did; a divisor of `0`, or of `-1` for a signed opcode, is left alone to trap.

namespace simple_preopt

variable {ext : External}

open FuncCursor

/-! ## The contract of the magic numbers -/

/-- The contract of the magic-number functions at every divisor the rewrites take them for,
unsigned and signed. -/
def MagicNumbers.Contract (mn : MagicNumbers) : Prop :=
  (∀ info, mn.UnsignedMeets info) ∧
  ∀ info, info.isSigned = true → 3 ≤ |info.divisor| → (∀ k : Nat, |info.divisor| ≠ 2 ^ k) →
    ∃ sh : Nat, (mn.signedMagic info).2 = sh ∧ sh ≤ info.ty.bits - 1 ∧ mn.SignedMeets info

/-- The signed contract with the shift read as the natural number it is. -/
theorem MagicNumbers.Contract.signed {mn : MagicNumbers} (hmn : mn.Contract)
    {info : DivRemByConstInfo} (hs : info.isSigned = true) (h3 : 3 ≤ |info.divisor|)
    (hnp : ∀ k : Nat, |info.divisor| ≠ 2 ^ k) :
    ∃ sh : Nat, (mn.signedMagic info).2 = sh ∧ sh ≤ info.ty.bits - 1 ∧
      ∀ n : Int, -2 ^ (info.ty.bits - 1) ≤ n → n < 2 ^ (info.ty.bits - 1) →
        magicQuotient info.ty.bits info.divisor (mn.signedMagic info).1 sh n =
          n.tdiv info.divisor :=
  let ⟨sh, hsh, hsw, hm⟩ := hmn.2 info hs h3 hnp
  ⟨sh, hsh, hsw, fun n h1 h2 => by have := hm n h1 h2; rwa [hsh, Int.toNat_natCast] at this⟩

/-! ## What the instruction computes -/

/-- What `udiv_imm`, `urem_imm`, `sdiv_imm` and `srem_imm` compute, read off
the descriptor `get_div_info` makes of them, for a divisor that does not trap. -/
theorem getDivInfo_value {dfg : DataFlowGraph} {inst : Inst} {op : BinaryImmOp} {arg : Value}
    {imm : Imm64} {info : DivRemByConstInfo} (hi : dfg.insts inst = .BinaryImm op arg imm)
    (hinfo : getDivInfo inst dfg = some info)
    (htrap : ¬(info.divisor = 0 ∨ (info.isSigned = true ∧ info.divisor = -1))) (x : Nat) :
    binaryImmOp op info.ty.bits x imm = .value (if info.isSigned
      then wrap info.ty.bits (if info.isRem then (sval info.ty.bits x).tmod info.divisor
        else (sval info.ty.bits x).tdiv info.divisor)
      else if info.isRem then x % info.divisor.toNat else x / info.divisor.toNat) := by
  obtain ⟨hk, -, -, hdiv⟩ := getDivInfo_fields hi hinfo
  have hs0 : sval info.ty.bits 0 = 0 := by simp [sval]
  cases hsg : info.isSigned <;> cases hrm : info.isRem <;> rw [hsg, hrm] at hk <;>
    rw [hsg] at hdiv htrap <;> simp only [if_true, if_false, Bool.false_eq_true] at hdiv htrap ⊢ <;>
    rw [hdiv] at htrap ⊢ <;> (cases op <;> cases hk) <;>
    simp only [binaryImmOp, BinaryImmOp.binary, binaryOp, Int.toNat_natCast]
  · rw [if_neg fun h => htrap (.inl (by exact_mod_cast h))]
  · rw [if_neg fun h => htrap (.inl (by exact_mod_cast h))]
  · rw [if_neg (by rintro (h | ⟨-, h⟩) <;> simp_all)]
  · rw [if_neg (fun h => htrap (.inl (by rw [h, hs0])))]

/-! ## The signed rewrites by every divisor that does not trap -/

/-- The signed rewrites at width `w` by `1`: a `copy` of the numerator, or `iconst 0`. -/
theorem divremSigned_one {w : Nat} {ty : Ty} (h2 : 2 ≤ w)
    {magic : BitVec w → MS w} {is_power_of_two : BitVec w → Option (Bool × Nat)}
    {to_imm : BitVec w → Imm64} {is_rem : Bool} {n1 : Value}
    {s : Site} {pos : FuncCursor} {env : Env} {r : Value} {x : Nat}
    (hs : At pos s) (hr : pos.func.dfg.results s.inst = some r)
    (hrt : pos.func.dfg.valueTypes r = ty) (hn : Has pos env n1 ty x) :
    Rewrites ext s env pos env (divremSigned w ty magic is_power_of_two to_imm is_rem n1 1 s.inst) r
      (if is_rem then 0 else x) := by
  have h := Runs.start ext hs env
  obtain ⟨t0, t1, tm1⟩ := toInt_small h2
  have hskip : ¬((1 : BitVec w) = -1 ∨ (1 : BitVec w) = 0) := by
    rintro (h | h) <;> have := congrArg BitVec.toInt h <;> simp only [t0, t1, tm1] at this <;>
      omega
  unfold divremSigned
  rw [if_neg hskip, if_pos rfl]
  cases is_rem
  · exact h.rewrites_replace rfl hr (by simp [evalData, readVal, hrt, hn.2.2])
  · exact h.rewrites_replace rfl hr (by simp [evalData, hrt, immBits])

/-- The signed rewrites at width `w` for every divisor but `0` and `-1`, given magic numbers
that meet their contract. -/
theorem divremSigned_rewrites {w : Nat} {ty : Ty} (hw : ty.bits = w) (h2 : 2 ≤ w) (h64 : w ≤ 64)
    {magic : BitVec w → MS w} {to_imm : BitVec w → Imm64}
    (hto : ∀ x, immBits w (to_imm x) = x.toNat) {is_rem : Bool} {n1 : Value} {d : BitVec w}
    (hd0 : d ≠ 0) (hd1 : d ≠ -1)
    (hm : 3 ≤ |d.toInt| → (∀ k : Nat, |d.toInt| ≠ 2 ^ k) →
      ∃ sh : Nat, (magic d).shift_by.toInt = sh ∧ sh ≤ w - 1 ∧
        ∀ n : Int, -2 ^ (w - 1) ≤ n → n < 2 ^ (w - 1) →
          magicQuotient w d.toInt (magic d).mul_by.toInt sh n = n.tdiv d.toInt)
    {s : Site} {pos : FuncCursor} {env : Env} {r : Value} {x : Nat}
    (hs : At pos s) (hr : pos.func.dfg.results s.inst = some r)
    (hrt : pos.func.dfg.valueTypes r = ty) (hn : Has pos env n1 ty x) (hx : x < 2 ^ w) :
    Rewrites ext s env pos env (divremSigned w ty magic (iIsPowerOfTwo w) to_imm is_rem n1 d s.inst) r
      (wrap w (if is_rem then (sval w x).tmod d.toInt else (sval w x).tdiv d.toInt)) := by
  obtain ⟨t0, t1, tm1⟩ := toInt_small h2
  have hb := sval_bounds (by omega) hx
  by_cases h1 : d = 1
  · -- by `1`: a copy, or zero
    subst h1
    rw [t1, Int.tmod_one, Int.tdiv_one]
    cases is_rem
    · rw [if_neg Bool.false_ne_true, wrap_sval hx]
      exact divremSigned_one h2 hs hr hrt hn
    · rw [if_pos rfl, show wrap w 0 = 0 by simp [wrap]]
      exact divremSigned_one h2 hs hr hrt hn
  have hn' : Has pos env n1 ty (wrap w (sval w x)) := by rwa [wrap_sval hx]
  have hne0 : d.toInt ≠ 0 := fun h => hd0 (BitVec.eq_of_toInt_eq (h.trans t0.symm))
  have hne1 : d.toInt ≠ 1 := fun h => h1 (BitVec.eq_of_toInt_eq (h.trans t1.symm))
  have hnem1 : d.toInt ≠ -1 := fun h => hd1 (BitVec.eq_of_toInt_eq (h.trans tm1.symm))
  by_cases hp : ∃ k : Nat, |d.toInt| = 2 ^ k
  · -- by `±2^k`, `k ≥ 1`
    obtain ⟨k, hk⟩ := hp
    have hk1 : 1 ≤ k := Nat.one_le_iff_ne_zero.2 fun h0 => by
      rw [h0, pow_zero, abs_eq zero_le_one] at hk
      exact hk.elim hne1 hnem1
    exact divremSigned_pow2 hw h2 h64 hto hk1 ((abs_eq (by positivity)).1 hk) hs hr hrt hn'
      hb.1 hb.2
  · -- by any other divisor: the magic numbers
    push_neg at hp
    have h3 : 3 ≤ |d.toInt| := by
      have e0 := hp 0
      have e1 := hp 1
      rw [pow_zero] at e0
      rw [pow_one] at e1
      have := abs_nonneg d.toInt
      have := abs_ne_zero.2 hne0
      omega
    obtain ⟨sh, hsh, hsw, hq⟩ := hm h3 hp
    have key : (if is_rem then (sval w x).tmod d.toInt else (sval w x).tdiv d.toInt) =
        if is_rem then sval w x - d.toInt * magicQuotient w d.toInt (magic d).mul_by.toInt sh (sval w x)
        else magicQuotient w d.toInt (magic d).mul_by.toInt sh (sval w x) := by
      rw [hq _ hb.1 hb.2, Int.tmod_def]
    rw [key]
    exact divremSigned_magic hw h2 h64 hto hd0 (iIsPowerOfTwo_eq_none (by omega) hp) hsh hsw hs hr
      hrt hn' hb.1 hb.2

/-! ## Every rewrite -/

/-- A div/rem rewrite leaves the function as it is for a divisor it leaves to trap, or
defines the instruction's result as the instruction did. -/
theorem doDivremTransformation_exact (mn : MagicNumbers) (hmn : mn.Contract) {pos : FuncCursor}
    {s : Site} {info : DivRemByConstInfo} {op : BinaryImmOp} {arg : Value} {imm : Imm64}
    (hi : pos.func.dfg.insts s.inst = .BinaryImm op arg imm)
    (hinfo : getDivInfo s.inst pos.func.dfg = some info) :
    (doDivremTransformation mn info s.inst pos).2 = pos ∨
      ∀ {env : Env} {r : Value} {x : Nat}, At pos s → pos.func.dfg.results s.inst = some r →
        pos.func.dfg.valueTypes r = info.ty → Has pos env info.value info.ty x →
        x < 2 ^ info.ty.bits → ∃ p, binaryImmOp op info.ty.bits x imm = .value p ∧
          Rewrites ext s env pos env (doDivremTransformation mn info s.inst) r p := by
  by_cases htrap : info.divisor = 0 ∨ (info.isSigned = true ∧ info.divisor = -1)
  · exact .inl (doDivremTransformation_of_trapping mn htrap s.inst pos)
  refine .inr fun hs hr hrt hn hx => ⟨_, getDivInfo_value hi hinfo htrap _, ?_⟩
  have hd0 : info.divisor ≠ 0 := fun h => htrap (.inl h)
  have hd1 : info.isSigned = true → info.divisor ≠ -1 := fun hs h => htrap (.inr ⟨hs, h⟩)
  cases info with
  | DivU32 n d | RemU32 n d =>
    exact divremUnsigned_rewrites (rfl : Ty.I32.bits = 32) (by decide) (by decide)
      (fun h => hd0 (by rw [h]; rfl)) (hmn.1 (.DivU32 n d)) hs hr hrt hn hx
  | DivU64 n d | RemU64 n d =>
    exact divremUnsigned_rewrites (rfl : Ty.I64.bits = 64) (by decide) (by decide)
      (fun h => hd0 (by rw [h]; rfl)) (hmn.1 (.DivU64 n d)) hs hr hrt hn hx
  | DivS32 n d | RemS32 n d =>
    exact divremSigned_rewrites (rfl : Ty.I32.bits = 32) (by decide) (by decide)
      immBits_signExtend32 (fun h => hd0 (by rw [h]; rfl))
      (fun h => hd1 rfl (by rw [DivRemByConstInfo.divisor, h]; exact (toInt_small (by decide)).2.2))
      (fun h3 hnp => @MagicNumbers.Contract.signed mn hmn (.DivS32 n d) rfl h3 hnp) hs hr hrt hn hx
  | DivS64 n d | RemS64 n d =>
    exact divremSigned_rewrites (rfl : Ty.I64.bits = 64) (by decide) (by decide) immBits_id64
      (fun h => hd0 (by rw [h]; rfl))
      (fun h => hd1 rfl (by rw [DivRemByConstInfo.divisor, h]; exact (toInt_small (by decide)).2.2))
      (fun h3 hnp => @MagicNumbers.Contract.signed mn hmn (.DivS64 n d) rfl h3 hnp) hs hr hrt hn hx

end simple_preopt
