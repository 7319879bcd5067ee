import SimplePreopt.Frame
import SimplePreopt.Build
-- What the div/rem rewrite writes: every instruction it adds, and the one it rewrites,
-- computes a value and never traps, so it adds no branch, no trap and no division.

namespace simple_preopt

variable {ext : External}

open FuncCursor

/-! ## Data that cannot trap -/

/-- The binary opcodes that trap on a zero divisor. -/
def BinaryOp.divides : BinaryOp → Bool
  | .Udiv | .Sdiv | .Urem | .Srem => true
  | _ => false

/-- Data that defines a value and never traps: every opcode that defines a
value but the divisions, by a register or by an immediate, and loads and calls. -/
def InstructionData.trapFree : InstructionData → Bool
  | .Binary op _ => !op.divides
  | .BinaryImm op _ _ => !op.binary.divides
  | .UnaryImm _ | .Unary .. | .IntCompare .. | .IntCompareImm .. | .Ternary _ => true
  | .CondTrap .. | .Branch .. | .BranchIcmp .. | .Jump .. | .MultiAry _ | .Other .. => false

/-- The data the div/rem rewrite leaves in the instruction it rewrites: data
that cannot trap, and of an `iconst` only `iconst 0`. -/
def InstructionData.replacesDivrem : InstructionData → Bool
  | .UnaryImm imm => imm == 0
  | d => d.trapFree

theorem InstructionData.trapFree_of_replacesDivrem {d : InstructionData}
    (h : d.replacesDivrem = true) : d.trapFree = true := by
  cases d <;> first | rfl | exact h

/-- A division or remainder, by a register or by an immediate. -/
def InstructionData.divides : InstructionData → Bool
  | .Binary op _ => op.divides
  | .BinaryImm op _ _ => op.binary.divides
  | _ => false

theorem binaryOp_ne_trap {op : BinaryOp} (h : op.divides = false) (w x y : Nat) :
    binaryOp op w x y ≠ .trap := by
  cases op <;> simp_all [binaryOp, BinaryOp.divides]

theorem readVal_ne_trap {env : Env} {v : Value} {k : Nat → Outcome} (h : ∀ x, k x ≠ .trap) :
    readVal env v k ≠ .trap := by
  unfold readVal
  split
  · exact h _
  · decide

/-- Trap-free data never traps, whatever its operands hold. -/
theorem evalData_ne_trap {d : InstructionData} (hd : d.trapFree = true) (tyOf : Value → Ty)
    (env : Env) (ty : Ty) : evalData ext tyOf env ty d ≠ .trap := by
  have hv : ∀ p, Outcome.value p ≠ .trap := fun _ => by simp
  cases d with
  | UnaryImm => exact hv _
  | Unary op a => cases op <;> exact readVal_ne_trap fun _ => hv _
  | Binary op ab =>
    exact readVal_ne_trap fun _ => readVal_ne_trap fun _ =>
      binaryOp_ne_trap (by simpa [InstructionData.trapFree] using hd) _ _ _
  | BinaryImm op a imm =>
    refine readVal_ne_trap fun x => ?_
    by_cases hop : op = .IrsubImm
    · subst hop; exact binaryOp_ne_trap (show BinaryOp.Isub.divides = false from rfl) _ _ _
    · rw [binaryImmOp_of_ne hop]
      exact binaryOp_ne_trap (by simpa [InstructionData.trapFree] using hd) _ _ _
  | IntCompare => exact readVal_ne_trap fun _ => readVal_ne_trap fun _ => hv _
  | IntCompareImm => exact readVal_ne_trap fun _ => hv _
  | Ternary => exact readVal_ne_trap fun _ => readVal_ne_trap fun _ => readVal_ne_trap fun _ => hv _
  | CondTrap | Branch | BranchIcmp | Jump | MultiAry | Other => cases hd

theorem InstructionData.definesValue_of_trapFree {d : InstructionData} (h : d.trapFree = true) :
    d.definesValue = true := by
  cases d <;> first | rfl | cases h

theorem InstructionData.branchDestination_of_trapFree {d : InstructionData}
    (h : d.trapFree = true) : d.branchDestination = none := by
  cases d <;> first | rfl | cases h

/-- `get_div_info` finds nothing at trap-free data. -/
theorem getDivInfo_of_trapFree {k : Inst} {dfg : DataFlowGraph} (h : (dfg.insts k).trapFree = true) :
    getDivInfo k dfg = none := by
  unfold getDivInfo
  cases hk : dfg.insts k with
  | BinaryImm op a imm =>
    rw [hk] at h
    have : divRemKind op = none := by
      cases op <;> simp_all [InstructionData.trapFree, BinaryImmOp.binary, BinaryOp.divides, divRemKind]
    simp only [this]
  | _ => rfl

/-! ## What a builder program writes -/

/-- Every instruction that `prog` adds, and every one it rewrites, has data
that `P` accepts; every other instruction there was keeps its data. -/
def Writes {α : Type} (P : InstructionData → Bool) (prog : StateM FuncCursor α) : Prop :=
  ∀ (pos : FuncCursor) (k : Inst), k.idx < (prog pos).2.func.dfg.instCount →
    (k.idx < pos.func.dfg.instCount ∧ (prog pos).2.func.dfg.insts k = pos.func.dfg.insts k) ∨
      P ((prog pos).2.func.dfg.insts k) = true

/-- `prog` leaves `j` with data that `P` accepts. -/
def Replaces {α : Type} (P : InstructionData → Bool) (j : Inst) (prog : StateM FuncCursor α) :
    Prop :=
  ∀ pos : FuncCursor, P ((prog pos).2.func.dfg.insts j) = true

namespace Writes

variable {P : InstructionData → Bool}

theorem pure {α : Type} (a : α) : Writes P (Pure.pure a : StateM FuncCursor α) :=
  fun _ _ hk => .inl ⟨hk, rfl⟩

theorem bind {α β : Type} {p : StateM FuncCursor α} {q : α → StateM FuncCursor β}
    (hp : Writes P p) (hq : ∀ a, Writes P (q a)) : Writes P (p >>= q) := by
  intro pos k hk
  rw [bind_apply] at hk ⊢
  rcases hq (p pos).1 (p pos).2 k hk with ⟨hk₁, e₂⟩ | h₂
  · rcases hp pos k hk₁ with ⟨hk₀, e₁⟩ | h₁
    · exact .inl ⟨hk₀, e₂.trans e₁⟩
    · exact .inr (e₂ ▸ h₁)
  · exact .inr h₂

theorem ite {α : Type} {c : Prop} [Decidable c] {p q : StateM FuncCursor α} (hp : Writes P p)
    (hq : Writes P q) : Writes P (if c then p else q) := by
  split
  · exact hp
  · exact hq

/-- `pos.ins()`: the new instruction has data `d`. -/
theorem ins {d : InstructionData} (hd : P d = true) (ty : FuncCursor → Ty) :
    Writes P (fun pos => FuncCursor.ins d (ty pos) pos) := by
  intro pos k hk
  by_cases h : k = ⟨pos.func.dfg.instCount⟩
  · subst h
    exact .inr (by simpa [FuncCursor.ins] using hd)
  · have hne : k.idx ≠ pos.func.dfg.instCount := fun e => h (Inst.ext e)
    exact .inl ⟨by simp [FuncCursor.ins] at hk; omega, if_neg h⟩

theorem replace {j : Inst} {d : InstructionData} (hd : P d = true) :
    Writes P (FuncCursor.replace j d) := by
  intro pos k hk
  by_cases h : k = j
  · subst h
    exact .inr (by simpa [FuncCursor.replace] using hd)
  · exact .inl ⟨hk, by simp [FuncCursor.replace, h]⟩

end Writes

namespace Replaces

variable {P : InstructionData → Bool} {j : Inst}

theorem replace {d : InstructionData} (hd : P d = true) : Replaces P j (FuncCursor.replace j d) :=
  fun _ => by simpa [FuncCursor.replace] using hd

/-- A program whose every continuation leaves `j` with such data does too. -/
theorem bind {α β : Type} {p : StateM FuncCursor α} {q : α → StateM FuncCursor β}
    (hq : ∀ a, Replaces P j (q a)) : Replaces P j (p >>= q) :=
  fun pos => hq (p pos).1 (p pos).2

theorem ite {α : Type} {c : Prop} [Decidable c] {p q : StateM FuncCursor α} (hp : Replaces P j p)
    (hq : Replaces P j q) : Replaces P j (if c then p else q) := by
  split
  · exact hp
  · exact hq

end Replaces

/-! ## The div/rem rewrite writes only trap-free data -/

section Divrem

variable {inst : Inst}

theorem finishDivrem_writes (is_rem : Bool) (n1 qf : Value) (d : Imm64) :
    Writes InstructionData.trapFree (finishDivrem is_rem inst n1 qf d) := by
  unfold finishDivrem
  split
  · exact Writes.bind (Writes.ins rfl _) fun _ => Writes.replace rfl
  · exact Writes.replace rfl

theorem finishDivrem_replaces (is_rem : Bool) (n1 qf : Value) (d : Imm64) :
    Replaces InstructionData.replacesDivrem inst (finishDivrem is_rem inst n1 qf d) := by
  unfold finishDivrem
  split
  · exact Replaces.bind fun _ => Replaces.replace rfl
  · exact Replaces.replace rfl

theorem unsignedQuotient_writes {w : Nat} (ty : Ty) (m : MU w) (n1 : Value) :
    Writes InstructionData.trapFree (unsignedQuotient ty m n1) := by
  unfold unsignedQuotient
  refine Writes.bind (Writes.ins rfl fun _ => ty) fun _ => Writes.bind (Writes.ins rfl _) fun _ =>
    Writes.ite ?_ (Writes.ite (Writes.ins rfl _) (Writes.pure _))
  exact Writes.bind (Writes.ins rfl _) fun _ => Writes.bind (Writes.ins rfl _) fun _ =>
    Writes.bind (Writes.ins rfl _) fun _ => Writes.ins rfl _

theorem signedBias_writes (w : Nat) (n1 : Value) (k : Nat) :
    Writes InstructionData.trapFree (signedBias w n1 k) :=
  Writes.bind (Writes.ite (Writes.pure _) (Writes.ins rfl _)) fun _ =>
    Writes.bind (Writes.ins rfl _) fun _ => Writes.ins rfl _

theorem signedQuotient_writes {w : Nat} (ty : Ty) (m : MS w) (to_imm : BitVec w → Imm64)
    (n1 : Value) (d : BitVec w) : Writes InstructionData.trapFree (signedQuotient ty m to_imm n1 d) :=
  Writes.bind (Writes.ins rfl fun _ => ty) fun _ => Writes.bind (Writes.ins rfl _) fun _ =>
    Writes.bind (Writes.ite (Writes.ins rfl _) (Writes.ite (Writes.ins rfl _) (Writes.pure _)))
      fun _ => Writes.bind (Writes.ite (Writes.pure _) (Writes.ins rfl _)) fun _ =>
        Writes.bind (Writes.ins rfl _) fun _ => Writes.ins rfl _

theorem divremUnsigned_writes (w : Nat) (ty : Ty) (magic : BitVec w → MU w) (is_rem : Bool)
    (n1 : Value) (d : BitVec w) :
    Writes InstructionData.trapFree (divremUnsigned w ty magic is_rem n1 d inst) := by
  unfold divremUnsigned
  refine Writes.ite (Writes.pure _) (Writes.ite (Writes.ite (Writes.replace rfl)
    (Writes.replace rfl)) (Writes.ite (Writes.ite (Writes.replace rfl) (Writes.replace rfl)) ?_))
  exact Writes.bind (unsignedQuotient_writes _ _ _) fun _ => finishDivrem_writes _ _ _ _

/-- Past the divisor `0`, every case of the unsigned rewrite ends by rewriting the instruction. -/
theorem divremUnsigned_replaces (w : Nat) (ty : Ty) (magic : BitVec w → MU w) (is_rem : Bool)
    (n1 : Value) {d : BitVec w} (hd : d ≠ 0) :
    Replaces InstructionData.replacesDivrem inst (divremUnsigned w ty magic is_rem n1 d inst) := by
  unfold divremUnsigned
  rw [if_neg hd]
  exact Replaces.ite (Replaces.ite (Replaces.replace rfl) (Replaces.replace rfl))
    (Replaces.ite (Replaces.ite (Replaces.replace rfl) (Replaces.replace rfl))
      (Replaces.bind fun _ => finishDivrem_replaces _ _ _ _))

theorem divremSigned_writes (w : Nat) (ty : Ty) (magic : BitVec w → MS w)
    (is_power_of_two : BitVec w → Option (Bool × Nat)) (to_imm : BitVec w → Imm64)
    (is_rem : Bool) (n1 : Value) (d : BitVec w) :
    Writes InstructionData.trapFree
      (divremSigned w ty magic is_power_of_two to_imm is_rem n1 d inst) := by
  unfold divremSigned
  refine Writes.ite (Writes.pure _)
    (Writes.ite (Writes.ite (Writes.replace rfl) (Writes.replace rfl)) ?_)
  split
  · exact Writes.bind (signedBias_writes _ _ _) fun _ =>
      Writes.ite (Writes.bind (Writes.ins rfl _) fun _ => Writes.replace rfl)
        (Writes.bind (Writes.ins rfl _) fun _ => Writes.ite (Writes.replace rfl) (Writes.replace rfl))
  · exact Writes.bind (signedQuotient_writes _ _ _ _ _) fun _ => finishDivrem_writes _ _ _ _

/-- Past the divisors `-1` and `0`, every case of the signed rewrite ends by
rewriting the instruction. -/
theorem divremSigned_replaces (w : Nat) (ty : Ty) (magic : BitVec w → MS w)
    (is_power_of_two : BitVec w → Option (Bool × Nat)) (to_imm : BitVec w → Imm64)
    (is_rem : Bool) (n1 : Value) {d : BitVec w} (hd : ¬(d = -1 ∨ d = 0)) :
    Replaces InstructionData.replacesDivrem inst
      (divremSigned w ty magic is_power_of_two to_imm is_rem n1 d inst) := by
  unfold divremSigned
  rw [if_neg hd]
  refine Replaces.ite (Replaces.ite (Replaces.replace rfl) (Replaces.replace rfl)) ?_
  split
  · exact Replaces.bind fun _ => Replaces.ite (Replaces.bind fun _ => Replaces.replace rfl)
      (Replaces.bind fun _ => Replaces.ite (Replaces.replace rfl) (Replaces.replace rfl))
  · exact Replaces.bind fun _ => finishDivrem_replaces _ _ _ _

theorem doDivremTransformation_writes (mn : MagicNumbers) (info : DivRemByConstInfo) :
    Writes InstructionData.trapFree (doDivremTransformation mn info inst) := by
  cases info with
  | DivU32 n d | RemU32 n d | DivU64 n d | RemU64 n d => exact divremUnsigned_writes _ _ _ _ _ _
  | DivS32 n d | RemS32 n d | DivS64 n d | RemS64 n d => exact divremSigned_writes _ _ _ _ _ _ _ _

/-- A division or remainder by a constant that cannot trap is rewritten into
data that cannot trap, an `iconst` only as `iconst 0`. -/
theorem doDivremTransformation_replaces (mn : MagicNumbers) {info : DivRemByConstInfo}
    (h : ¬(info.divisor = 0 ∨ (info.isSigned = true ∧ info.divisor = -1))) :
    Replaces InstructionData.replacesDivrem inst (doDivremTransformation mn info inst) := by
  have h32 := toInt_small (show 2 ≤ 32 by norm_num)
  have h64 := toInt_small (show 2 ≤ 64 by norm_num)
  cases info with
  | DivU32 n d | RemU32 n d | DivU64 n d | RemU64 n d =>
    exact divremUnsigned_replaces _ _ _ _ _ fun h0 =>
      h (.inl (by simp [DivRemByConstInfo.divisor, h0]))
  | DivS32 n d | RemS32 n d =>
    refine divremSigned_replaces _ _ _ _ _ _ _ fun hd => h ?_
    rcases hd with rfl | rfl
    · exact .inr ⟨rfl, h32.2.2⟩
    · exact .inl h32.1
  | DivS64 n d | RemS64 n d =>
    refine divremSigned_replaces _ _ _ _ _ _ _ fun hd => h ?_
    rcases hd with rfl | rfl
    · exact .inr ⟨rfl, h64.2.2⟩
    · exact .inl h64.1

end Divrem

/-! ## How many instructions a builder program adds -/

/-- `prog` adds at most `n` instructions. -/
def AddsAtMost {α : Type} (n : Nat) (prog : StateM FuncCursor α) : Prop :=
  ∀ pos : FuncCursor, (prog pos).2.func.dfg.instCount ≤ pos.func.dfg.instCount + n

namespace AddsAtMost

variable {n m : Nat}

theorem mono {α : Type} {p : StateM FuncCursor α} (h : AddsAtMost n p) (hnm : n ≤ m) :
    AddsAtMost m p :=
  fun pos => (h pos).trans (Nat.add_le_add_left hnm _)

theorem pure {α : Type} (a : α) : AddsAtMost 0 (Pure.pure a : StateM FuncCursor α) :=
  fun _ => le_refl _

theorem bind {α β : Type} {p : StateM FuncCursor α} {q : α → StateM FuncCursor β}
    (hp : AddsAtMost n p) (hq : ∀ a, AddsAtMost m (q a)) : AddsAtMost (n + m) (p >>= q) := by
  intro pos
  rw [bind_apply]
  have := hp pos
  have := hq (p pos).1 (p pos).2
  omega

theorem ite {α : Type} {c : Prop} [Decidable c] {p q : StateM FuncCursor α}
    (hp : AddsAtMost n p) (hq : AddsAtMost m q) : AddsAtMost (max n m) (if c then p else q) := by
  split
  · exact hp.mono (le_max_left n m)
  · exact hq.mono (le_max_right n m)

theorem ins (d : InstructionData) (ty : FuncCursor → Ty) :
    AddsAtMost 1 (fun pos => FuncCursor.ins d (ty pos) pos) :=
  fun _ => le_refl _

theorem replace (j : Inst) (d : InstructionData) : AddsAtMost 0 (FuncCursor.replace j d) :=
  fun _ => le_refl _

end AddsAtMost

section Divrem

variable {inst : Inst}

theorem finishDivrem_addsAtMost (is_rem : Bool) (n1 qf : Value) (d : Imm64) :
    AddsAtMost 1 (finishDivrem is_rem inst n1 qf d) :=
  AddsAtMost.ite (AddsAtMost.bind (AddsAtMost.ins _ _) fun _ => AddsAtMost.replace _ _)
    (AddsAtMost.replace _ _)

theorem unsignedQuotient_addsAtMost {w : Nat} (ty : Ty) (m : MU w) (n1 : Value) :
    AddsAtMost 6 (unsignedQuotient ty m n1) :=
  (AddsAtMost.bind (AddsAtMost.ins _ fun _ => ty) fun _ => AddsAtMost.bind (AddsAtMost.ins _ _)
    fun _ => AddsAtMost.ite (AddsAtMost.bind (AddsAtMost.ins _ _) fun _ =>
      AddsAtMost.bind (AddsAtMost.ins _ _) fun _ => AddsAtMost.bind (AddsAtMost.ins _ _) fun _ =>
        AddsAtMost.ins _ _) (AddsAtMost.ite (AddsAtMost.ins _ _) (AddsAtMost.pure _))).mono
    (by norm_num)

theorem signedBias_addsAtMost (w : Nat) (n1 : Value) (k : Nat) :
    AddsAtMost 3 (signedBias w n1 k) :=
  (AddsAtMost.bind (AddsAtMost.ite (AddsAtMost.pure _) (AddsAtMost.ins _ _)) fun _ =>
    AddsAtMost.bind (AddsAtMost.ins _ _) fun _ => AddsAtMost.ins _ _).mono (by norm_num)

theorem signedQuotient_addsAtMost {w : Nat} (ty : Ty) (m : MS w) (to_imm : BitVec w → Imm64)
    (n1 : Value) (d : BitVec w) : AddsAtMost 6 (signedQuotient ty m to_imm n1 d) :=
  (AddsAtMost.bind (AddsAtMost.ins _ fun _ => ty) fun _ => AddsAtMost.bind (AddsAtMost.ins _ _)
    fun _ => AddsAtMost.bind (AddsAtMost.ite (AddsAtMost.ins _ _)
      (AddsAtMost.ite (AddsAtMost.ins _ _) (AddsAtMost.pure _))) fun _ =>
        AddsAtMost.bind (AddsAtMost.ite (AddsAtMost.pure _) (AddsAtMost.ins _ _)) fun _ =>
          AddsAtMost.bind (AddsAtMost.ins _ _) fun _ => AddsAtMost.ins _ _).mono (by norm_num)

theorem divremUnsigned_addsAtMost (w : Nat) (ty : Ty) (magic : BitVec w → MU w) (is_rem : Bool)
    (n1 : Value) (d : BitVec w) : AddsAtMost 7 (divremUnsigned w ty magic is_rem n1 d inst) := by
  unfold divremUnsigned
  exact (AddsAtMost.ite (AddsAtMost.pure _) (AddsAtMost.ite
    (AddsAtMost.ite (AddsAtMost.replace _ _) (AddsAtMost.replace _ _))
    (AddsAtMost.ite (AddsAtMost.ite (AddsAtMost.replace _ _) (AddsAtMost.replace _ _))
      (AddsAtMost.bind (unsignedQuotient_addsAtMost _ _ _) fun _ =>
        finishDivrem_addsAtMost _ _ _ _)))).mono (by norm_num)

theorem divremSigned_addsAtMost (w : Nat) (ty : Ty) (magic : BitVec w → MS w)
    (is_power_of_two : BitVec w → Option (Bool × Nat)) (to_imm : BitVec w → Imm64)
    (is_rem : Bool) (n1 : Value) (d : BitVec w) :
    AddsAtMost 7 (divremSigned w ty magic is_power_of_two to_imm is_rem n1 d inst) := by
  unfold divremSigned
  split
  · exact (AddsAtMost.pure _).mono (Nat.zero_le 7)
  split
  · exact (AddsAtMost.ite (AddsAtMost.replace _ _) (AddsAtMost.replace _ _)).mono (Nat.zero_le 7)
  split
  · exact (AddsAtMost.bind (signedBias_addsAtMost _ _ _) fun _ =>
      AddsAtMost.ite (AddsAtMost.bind (AddsAtMost.ins _ _) fun _ => AddsAtMost.replace _ _)
        (AddsAtMost.bind (AddsAtMost.ins _ _) fun _ =>
          AddsAtMost.ite (AddsAtMost.replace _ _) (AddsAtMost.replace _ _))).mono (by norm_num)
  · exact AddsAtMost.bind (signedQuotient_addsAtMost _ _ _ _ _) fun _ =>
      finishDivrem_addsAtMost _ _ _ _

/-- The longest div/rem rewrite, a remainder through the magic numbers, adds seven instructions. -/
theorem doDivremTransformation_addsAtMost (mn : MagicNumbers) (info : DivRemByConstInfo) :
    AddsAtMost 7 (doDivremTransformation mn info inst) := by
  cases info with
  | DivU32 n d | RemU32 n d | DivU64 n d | RemU64 n d => exact divremUnsigned_addsAtMost _ _ _ _ _ _
  | DivS32 n d | RemS32 n d | DivS64 n d | RemS64 n d =>
    exact divremSigned_addsAtMost _ _ _ _ _ _ _ _

end Divrem

end simple_preopt
