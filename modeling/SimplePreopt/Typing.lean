import SimplePreopt.Simplify
import SimplePreopt.BranchOrder
-- The types of the values a function computes: the verifier's rules for operands and block
-- arguments, under which every computed pattern fits the type of its result.

namespace simple_preopt

variable {ext : External}

/-! ## The type rules -/

/-- Modelled from the spec: the verifier's type rules for a result of type `t`: operands of
that type, a shift amount of any integer type, and `icmp` sides of one type. -/
def InstructionData.TypedAs (tyOf : Value → Ty) (t : Ty) : InstructionData → Prop
  | .Unary .Copy a => tyOf a = t
  | .Binary op (a, b) => tyOf a = t ∧ (tyOf b = t ∨ op.isShift ∧ 8 ≤ (tyOf b).bits)
  | .BinaryImm _ a _ => tyOf a = t
  | .IntCompare _ (a, b) => tyOf b = tyOf a
  | .Ternary (_, a, b) => tyOf a = t ∧ tyOf b = t
  | _ => True

instance InstructionData.decTypedAs (tyOf : Value → Ty) (t : Ty) :
    (d : InstructionData) → Decidable (d.TypedAs tyOf t)
  | .UnaryImm _ => isTrue trivial
  | .Unary .Bint _ => isTrue trivial
  | .Unary .Copy a => inferInstanceAs (Decidable (tyOf a = t))
  | .Binary op (a, b) =>
    inferInstanceAs (Decidable (tyOf a = t ∧ (tyOf b = t ∨ op.isShift ∧ 8 ≤ (tyOf b).bits)))
  | .BinaryImm _ a _ => inferInstanceAs (Decidable (tyOf a = t))
  | .IntCompare _ (a, b) => inferInstanceAs (Decidable (tyOf b = tyOf a))
  | .IntCompareImm .. => isTrue trivial
  | .Ternary (_, a, b) => inferInstanceAs (Decidable (tyOf a = t ∧ tyOf b = t))
  | .CondTrap .. => isTrue trivial
  | .Branch .. => isTrue trivial
  | .BranchIcmp .. => isTrue trivial
  | .Jump .. => isTrue trivial
  | .MultiAry _ => isTrue trivial
  | .Other .. => isTrue trivial

/-- Modelled from the spec: a branch passes its destination's parameters values of their types. -/
def InstructionData.ArgsTyped (dfg : DataFlowGraph) (d : InstructionData) : Prop :=
  ∀ D ∈ d.branchDestination, d.blockArgs.map dfg.valueTypes = (dfg.ebbParams D).map dfg.valueTypes

instance (dfg : DataFlowGraph) (d : InstructionData) : Decidable (d.ArgsTyped dfg) :=
  inferInstanceAs (Decidable (∀ D ∈ d.branchDestination, _))

/-- Modelled from the spec: the verifier's type check of a function, over each
instruction of the layout, with its result, and each branch. -/
structure WellTyped (f : Function) : Prop where
  result : ∀ i ∈ f.layout.allInsts, ∀ r ∈ f.dfg.results i,
    (f.dfg.insts i).TypedAs f.dfg.valueTypes (f.dfg.valueTypes r)
  branch : ∀ i ∈ f.layout.allInsts, (f.dfg.insts i).ArgsTyped f.dfg

instance (f : Function) : Decidable (WellTyped f) :=
  decidable_of_iff ((∀ i ∈ f.layout.allInsts, ∀ r ∈ f.dfg.results i,
      (f.dfg.insts i).TypedAs f.dfg.valueTypes (f.dfg.valueTypes r)) ∧
      ∀ i ∈ f.layout.allInsts, (f.dfg.insts i).ArgsTyped f.dfg)
    ⟨fun h => ⟨h.1, h.2⟩, fun h => ⟨h.1, h.2⟩⟩

/-- The type rules give `simplify` the operand types it needs, since an
instruction of the layout that defines a value has a result. -/
theorem WellTyped.typed {f : Function} (ht : WellTyped f)
    (hres : ∀ i ∈ f.layout.allInsts, (f.dfg.insts i).definesValue = true →
      ∃ v, f.dfg.results i = some v)
    {i : Inst} (hi : i ∈ f.layout.allInsts) :
    Typed f.dfg.valueTypes (f.dfg.results i) (f.dfg.insts i) := by
  have h := ht.result i hi
  cases hd : f.dfg.insts i with
  | Binary op ab =>
    obtain ⟨a, b⟩ := ab
    intro r hr
    simpa [hd, InstructionData.TypedAs] using h r hr
  | IntCompare c ab =>
    obtain ⟨a, b⟩ := ab
    obtain ⟨r, hr⟩ := hres i hi (by rw [hd]; rfl)
    simpa [hd, InstructionData.TypedAs] using h r hr
  | _ => trivial

/-! ## Patterns fit their types -/

/-- A rotation of a `w`-bit pattern is a `w`-bit pattern: the bits shifted
out at the top come back at the bottom. -/
theorem rotl_lt {w x : Nat} (k : Nat) (hx : x < 2 ^ w) : rotl w x k < 2 ^ w := by
  have hwrap : wrap w ((x * 2 ^ k : Nat) : Int) = x * 2 ^ k % 2 ^ w := by
    have : ((x * 2 ^ k : Nat) : Int) % 2 ^ w = ((x * 2 ^ k % 2 ^ w : Nat) : Int) := by
      push_cast; rfl
    rw [wrap, this, Int.toNat_natCast]
  unfold rotl
  rw [show ((x : Int) * 2 ^ k) = ((x * 2 ^ k : Nat) : Int) by push_cast; rfl, hwrap]
  by_cases hk : k ≤ w
  · have hw : 2 ^ (w - k) * 2 ^ k = 2 ^ w := by rw [← pow_add, Nat.sub_add_cancel hk]
    have hhigh : x / 2 ^ (w - k) < 2 ^ k := Nat.div_lt_of_lt_mul (by rw [hw]; exact hx)
    have hmod : (x % 2 ^ (w - k) + 1) * 2 ^ k ≤ 2 ^ (w - k) * 2 ^ k :=
      Nat.mul_le_mul_right _ (Nat.mod_lt _ (by positivity))
    rw [← hw, Nat.mul_mod_mul_right, hw]
    rw [hw, Nat.add_mul, one_mul] at hmod
    omega
  · -- all the bits go round: the rotation is the pattern itself
    have hk' : 2 ^ k = 2 ^ (k - w) * 2 ^ w := by rw [← pow_add, Nat.sub_add_cancel (by omega)]
    rw [Nat.sub_eq_zero_of_le (by omega), hk', ← Nat.mul_assoc, Nat.mul_mod_left]
    simpa using hx

/-- A binary opcode on `w`-bit patterns gives a `w`-bit pattern; only a shift
or rotate may take an amount of another width. -/
theorem binaryOp_fits {op : BinaryOp} {w x y p : Nat} (hx : x < 2 ^ w)
    (hy : op.isShift = false → y < 2 ^ w) (h : binaryOp op w x y = .value p) : p < 2 ^ w := by
  cases op <;> simp only [binaryOp] at h <;> (try split at h) <;> cases h
  any_goals exact wrap_lt _ _
  · exact (Nat.div_le_self _ _).trans_lt hx
  · exact (Nat.mod_le _ _).trans_lt hx
  · exact Nat.and_le_left.trans_lt hx
  · exact Nat.or_lt_two_pow hx (hy rfl)
  · exact Nat.xor_lt_two_pow hx (hy rfl)
  · exact rotl_lt _ hx
  · exact rotl_lt _ hx
  · exact (Nat.div_le_self _ _).trans_lt hx
  · exact Nat.div_lt_of_lt_mul (Nat.mul_lt_mul'' hx (hy rfl))

theorem readVal_eq_value {env : Env} {a : Value} {k : Nat → Outcome} {p : Nat}
    (h : readVal env a k = .value p) : ∃ x, env a = some x ∧ k x = .value p := by
  unfold readVal at h
  split at h
  · exact ⟨_, ‹_›, h⟩
  · cases h

/-- What a typed instruction computes from operands that fit their types fits
the type of its result. -/
theorem evalData_fits {tyOf : Value → Ty} {env : Env} {t : Ty} {d : InstructionData} {p : Nat}
    (ht : d.TypedAs tyOf t) (hargs : ∀ a ∈ d.args, ∀ x, env a = some x → x < 2 ^ (tyOf a).bits)
    (h : evalData ext tyOf env t d = .value p) : p < 2 ^ t.bits := by
  have h2 : 1 < 2 ^ t.bits := Nat.one_lt_two_pow (Nat.pos_iff_ne_zero.1 t.bits_pos)
  have hbool : ∀ b : Bool, (if b then 1 else 0) < 2 ^ t.bits := fun b => by split <;> omega
  have harg : ∀ {a}, a ∈ d.args → tyOf a = t → ∀ {x}, env a = some x → x < 2 ^ t.bits :=
    fun ha hat _ hx => hat ▸ hargs _ ha _ hx
  cases d with
  | UnaryImm imm => cases h; exact Nat.mod_lt _ (by positivity)
  | Unary op a =>
    cases op <;> simp only [evalData] at h <;> obtain ⟨x, hx, h⟩ := readVal_eq_value h <;>
      obtain rfl := Outcome.value.inj h
    · split <;> omega
    · exact harg (by simp [InstructionData.args]) ht hx
  | Binary op ab =>
    obtain ⟨a, b⟩ := ab
    obtain ⟨ha, hb⟩ := ht
    simp only [evalData] at h
    obtain ⟨x, hx, h⟩ := readVal_eq_value h
    obtain ⟨y, hy, h⟩ := readVal_eq_value h
    refine binaryOp_fits (harg (by simp [InstructionData.args]) ha hx) (fun hs => ?_) h
    exact harg (by simp [InstructionData.args]) (hb.resolve_right fun h' => by simp [hs] at h') hy
  | BinaryImm op a imm =>
    simp only [evalData] at h
    obtain ⟨x, hx, h⟩ := readVal_eq_value h
    have hxw := harg (by simp [InstructionData.args]) ht hx
    have himm : immBits t.bits imm < 2 ^ t.bits := Nat.mod_lt _ (by positivity)
    by_cases hop : op = .IrsubImm
    · subst hop
      simp only [binaryImmOp] at h
      exact binaryOp_fits himm (fun _ => hxw) h
    · rw [binaryImmOp_of_ne hop] at h
      exact binaryOp_fits hxw (fun _ => himm) h
  | IntCompare c ab =>
    simp only [evalData] at h
    obtain ⟨x, -, h⟩ := readVal_eq_value h
    obtain ⟨y, -, h⟩ := readVal_eq_value h
    obtain rfl := Outcome.value.inj h
    exact hbool _
  | IntCompareImm c a imm =>
    simp only [evalData] at h
    obtain ⟨x, -, h⟩ := readVal_eq_value h
    obtain rfl := Outcome.value.inj h
    exact hbool _
  | Ternary cab =>
    obtain ⟨c, a, b⟩ := cab
    obtain ⟨ha, hb⟩ := ht
    simp only [evalData] at h
    obtain ⟨z, -, h⟩ := readVal_eq_value h
    obtain ⟨x, hx, h⟩ := readVal_eq_value h
    obtain ⟨y, hy, h⟩ := readVal_eq_value h
    obtain rfl := Outcome.value.inj h
    split
    · exact harg (by simp [InstructionData.args]) hb hy
    · exact harg (by simp [InstructionData.args]) ha hx
  | Other op vs =>
    simp only [evalData] at h
    cases hx : readArgs env vs with
    | none => simp [hx] at h
    | some xs =>
      cases hq : ext op xs with
      | none => simp [hx, hq] at h
      | some q =>
        simp only [hx, hq, Outcome.value.injEq] at h
        exact h ▸ Nat.mod_lt _ (by positivity)
  | CondTrap | Branch | BranchIcmp | Jump | MultiAry => cases h

end simple_preopt
