import SimplePreopt.Frame
-- The loops of `do_preopt` as folds: the cursor only moves forward over the instructions
-- an EBB had when the walk entered it, and the fuel of each loop is always enough.

namespace simple_preopt

/-! ## The folds -/

/-- The turns of the inner loop over the instructions `is` of `ebb`, in order:
the cursor goes to each one and the pass runs there. -/
def visitInsts (mn : MagicNumbers) (ebb : Ebb) :
    List Inst → FuncCursor → ControlFlowGraph → FuncCursor × ControlFlowGraph
  | [], pos, cfg => (pos, cfg)
  | j :: is, pos, cfg =>
    let s := preoptInst mn ebb j { pos with position := .At j } cfg
    visitInsts mn ebb is s.1 s.2

/-- The walk over the EBBs `es`, each with the instructions it has when the walk enters it. -/
def visitEbbs (mn : MagicNumbers) :
    List Ebb → FuncCursor → ControlFlowGraph → FuncCursor × ControlFlowGraph
  | [], pos, cfg => (pos, cfg)
  | e :: es, pos, cfg =>
    let s := visitInsts mn e (pos.func.layout.ebbInsts e) { pos with position := .Before e } cfg
    visitEbbs mn es { s.1 with position := .After e } s.2

theorem visitInsts_append (mn : MagicNumbers) (ebb : Ebb) (l₁ l₂ : List Inst) (pos : FuncCursor)
    (cfg : ControlFlowGraph) :
    visitInsts mn ebb (l₁ ++ l₂) pos cfg =
      visitInsts mn ebb l₂ (visitInsts mn ebb l₁ pos cfg).1 (visitInsts mn ebb l₁ pos cfg).2 := by
  induction l₁ generalizing pos cfg with
  | nil => rfl
  | cons j l ih => exact ih _ _

theorem visitEbbs_append (mn : MagicNumbers) (l₁ l₂ : List Ebb) (pos : FuncCursor)
    (cfg : ControlFlowGraph) :
    visitEbbs mn (l₁ ++ l₂) pos cfg =
      visitEbbs mn l₂ (visitEbbs mn l₁ pos cfg).1 (visitEbbs mn l₁ pos cfg).2 := by
  induction l₁ generalizing pos cfg with
  | nil => rfl
  | cons e l ih => exact ih _ _

/-! ## Moving along a list of the layout -/

theorem listNext_append {done rest : List Inst} {i : Inst} (h : i ∉ done) :
    listNext (done ++ i :: rest) i = rest.head? := by
  induction done with
  | nil => simp [listNext]
  | cons a t ih =>
    simp only [List.mem_cons, not_or] at h
    simp [listNext, Ne.symm h.1, ih h.2]

theorem ebbNext_append {done rest : List Ebb} {e : Ebb} (h : e ∉ done) :
    ebbNext (done ++ e :: rest) e = rest.head? := by
  induction done with
  | nil => simp [ebbNext]
  | cons a t ih =>
    simp only [List.mem_cons, not_or] at h
    simp [ebbNext, Ne.symm h.1, ih h.2]

/-! ## The inner loop -/

/-- The walk is in `ebb` with the instructions `rest` still to visit: the
cursor is at the top of `ebb`, or on the instruction just before `rest`. -/
structure WalkAt (pos : FuncCursor) (ebb : Ebb) (rest : List Inst) : Prop where
  mem : ebb ∈ pos.func.layout.ebbs
  cursor : (pos.position = .Before ebb ∧ pos.func.layout.ebbInsts ebb = rest) ∨
    ∃ done i, pos.position = .At i ∧ pos.func.layout.ebbInsts ebb = done ++ i :: rest

theorem WalkAt.layout {pos : FuncCursor} {ebb : Ebb} {rest : List Inst} (h : WalkAt pos ebb rest) :
    ∃ done, pos.func.layout.ebbInsts ebb = done ++ rest := by
  rcases h.cursor with ⟨-, hl⟩ | ⟨done, i, -, hl⟩
  · exact ⟨[], hl⟩
  · exact ⟨done ++ [i], by simp [hl]⟩

theorem WalkAt.next {pos : FuncCursor} {ebb : Ebb} {rest : List Inst} (h : WalkAt pos ebb rest) :
    (pos.position = .Before ebb ∧ pos.func.layout.firstInst ebb = rest.head?) ∨
      ∃ i, pos.position = .At i ∧ pos.func.layout.instEbb i = some ebb ∧
        pos.func.layout.nextInst i = rest.head? := by
  rcases h.cursor with ⟨hp, hl⟩ | ⟨done, i, hp, hl⟩
  · exact .inl ⟨hp, by rw [Layout.firstInst, hl]⟩
  · have hnd := pos.func.wf.ebbInsts_nodup h.mem
    rw [hl] at hnd
    have hi : i ∉ done := fun hm => by simpa using (List.nodup_append.1 hnd).2.2 hm
    have he : pos.func.layout.instEbb i = some ebb := pos.func.wf.instEbb_eq h.mem (by simp [hl])
    exact .inr ⟨i, hp, he, by simp only [Layout.nextInst, he, Option.some_bind, hl, listNext_append hi]⟩

theorem WalkAt.nextInst_nil {pos : FuncCursor} {ebb : Ebb} (h : WalkAt pos ebb []) :
    FuncCursor.nextInst pos = (none, { pos with position := .After ebb }) := by
  rcases h.next with ⟨hp, hf⟩ | ⟨i, hp, he, hn⟩
  · simp only [FuncCursor.nextInst, hp, hf, List.head?_nil]
  · simp only [FuncCursor.nextInst, hp, he, hn, List.head?_nil]

theorem WalkAt.nextInst_cons {pos : FuncCursor} {ebb : Ebb} {j : Inst} {rest : List Inst}
    (h : WalkAt pos ebb (j :: rest)) :
    FuncCursor.nextInst pos = (some j, { pos with position := .At j }) := by
  rcases h.next with ⟨hp, hf⟩ | ⟨i, hp, -, hn⟩
  · simp only [FuncCursor.nextInst, hp, hf, List.head?_cons]
  · simp only [FuncCursor.nextInst, hp, hn, List.head?_cons]

/-- One turn keeps the walk going, one instruction further on. -/
theorem WalkAt.step (mn : MagicNumbers) {pos : FuncCursor} {ebb : Ebb} {j : Inst} {rest : List Inst}
    (h : WalkAt pos ebb (j :: rest)) (cfg : ControlFlowGraph) :
    WalkAt (preoptInst mn ebb j { pos with position := .At j } cfg).1 ebb rest := by
  obtain ⟨done, hl⟩ := h.layout
  have hnd := pos.func.wf.ebbInsts_nodup h.mem
  rw [hl] at hnd
  have hjd : j ∉ done := fun hm => by simpa using (List.nodup_append.1 hnd).2.2 hm
  have hjr : j ∉ rest := (List.nodup_cons.1 (List.nodup_append.1 hnd).2.1).1
  have hjlt : j.idx < pos.func.dfg.instCount :=
    pos.func.wf.insts_lt j (List.mem_flatMap.2 ⟨ebb, h.mem, by simp [hl]⟩)
  obtain ⟨hp, L, e⟩ := preoptInst_edit mn ebb { pos with position := .At j } cfg rfl hjlt
  refine ⟨e.ebbs ▸ h.mem, .inr ⟨done ++ L, j, hp, ?_⟩⟩
  rw [e.layout ebb h.mem]
  simp only [hl, insertBeforeAll_middle L hjd hjr, List.append_assoc, List.cons_append]

/-- The inner loop, given more turns than the instructions still to visit,
visits them in order and leaves the cursor after the EBB. -/
theorem instLoop_eq (mn : MagicNumbers) {ebb : Ebb} :
    ∀ {rest : List Inst} {pos : FuncCursor} (cfg : ControlFlowGraph) {fuel : Nat},
      WalkAt pos ebb rest → rest.length < fuel →
      instLoop mn ebb fuel pos cfg =
        ({ (visitInsts mn ebb rest pos cfg).1 with position := .After ebb },
          (visitInsts mn ebb rest pos cfg).2)
  | _, _, _, 0, _, hf => absurd hf (Nat.not_lt_zero _)
  | [], pos, cfg, _ + 1, h, _ => by rw [instLoop, h.nextInst_nil]; rfl
  | j :: rest, pos, cfg, _ + 1, h, hf => by
    rw [instLoop, h.nextInst_cons]
    exact instLoop_eq mn _ (h.step mn cfg) (by simpa using hf)

/-! ## The outer loop -/

/-- The walk is between EBBs with the EBBs `rest` still to visit. -/
def EbbWalkAt (pos : FuncCursor) (rest : List Ebb) : Prop :=
  (pos.position = .Nowhere ∧ pos.func.layout.ebbs = rest) ∨
    ∃ done e, pos.position = .After e ∧ pos.func.layout.ebbs = done ++ e :: rest

theorem EbbWalkAt.next {pos : FuncCursor} {rest : List Ebb} (h : EbbWalkAt pos rest) :
    (pos.currentEbb = none ∧ pos.func.layout.ebbs.head? = rest.head?) ∨
      ∃ e, pos.currentEbb = some e ∧ pos.func.layout.nextEbb e = rest.head? := by
  rcases h with ⟨hp, hl⟩ | ⟨done, e, hp, hl⟩
  · exact .inl ⟨by simp only [FuncCursor.currentEbb, hp], by rw [hl]⟩
  · have hnd := pos.func.wf.ebbs_nodup
    rw [hl] at hnd
    have he : e ∉ done := fun hm => by simpa using (List.nodup_append.1 hnd).2.2 hm
    exact .inr ⟨e, by simp only [FuncCursor.currentEbb, hp],
      by rw [Layout.nextEbb, hl, ebbNext_append he]⟩

theorem EbbWalkAt.nextEbb_nil {pos : FuncCursor} (h : EbbWalkAt pos []) :
    FuncCursor.nextEbb pos = (none, { pos with position := .Nowhere }) := by
  rcases h.next with ⟨hc, hn⟩ | ⟨e, hc, hn⟩ <;>
    simp only [FuncCursor.nextEbb, hc, hn, List.head?_nil]

theorem EbbWalkAt.nextEbb_cons {pos : FuncCursor} {e : Ebb} {rest : List Ebb}
    (h : EbbWalkAt pos (e :: rest)) :
    FuncCursor.nextEbb pos = (some e, { pos with position := .Before e }) := by
  rcases h.next with ⟨hc, hn⟩ | ⟨e, hc, hn⟩ <;>
    simp only [FuncCursor.nextEbb, hc, hn, List.head?_cons]

/-- The inner loop's walk keeps the EBBs of the layout. -/
theorem visitInsts_ebbs (mn : MagicNumbers) {ebb : Ebb} :
    ∀ {rest : List Inst} {pos : FuncCursor} (cfg : ControlFlowGraph), WalkAt pos ebb rest →
      (visitInsts mn ebb rest pos cfg).1.func.layout.ebbs = pos.func.layout.ebbs
  | [], _, _, _ => rfl
  | j :: rest, pos, cfg, h => by
    have hjlt : j.idx < pos.func.dfg.instCount := by
      obtain ⟨done, hl⟩ := h.layout
      exact pos.func.wf.insts_lt j (List.mem_flatMap.2 ⟨ebb, h.mem, by simp [hl]⟩)
    obtain ⟨-, L, e⟩ := preoptInst_edit mn ebb { pos with position := .At j } cfg rfl hjlt
    exact (visitInsts_ebbs mn _ (h.step mn cfg)).trans e.ebbs

/-- The outer loop, given more turns than the EBBs still to visit, visits
them in order, each with the instructions it has when the walk enters it. -/
theorem ebbLoop_eq (mn : MagicNumbers) :
    ∀ {rest : List Ebb} {pos : FuncCursor} (cfg : ControlFlowGraph) {fuel : Nat},
      EbbWalkAt pos rest → rest.length < fuel →
      ebbLoop mn fuel pos cfg =
        ({ (visitEbbs mn rest pos cfg).1 with position := .Nowhere }, (visitEbbs mn rest pos cfg).2)
  | _, _, _, 0, _, hf => absurd hf (Nat.not_lt_zero _)
  | [], pos, cfg, _ + 1, h, _ => by rw [ebbLoop, h.nextEbb_nil]; rfl
  | e :: rest, pos, cfg, _ + 1, h, hf => by
    rw [ebbLoop, h.nextEbb_cons]
    obtain ⟨done, hl⟩ : ∃ done, pos.func.layout.ebbs = done ++ e :: rest := by
      rcases h with ⟨-, hl⟩ | ⟨done, e', -, hl⟩
      · exact ⟨[], hl⟩
      · exact ⟨done ++ [e'], by simp [hl]⟩
    have hw : WalkAt { pos with position := .Before e } e (pos.func.layout.ebbInsts e) :=
      ⟨by simp [hl], .inl ⟨rfl, rfl⟩⟩
    dsimp only
    rw [instLoop_eq mn cfg hw (Nat.lt_succ_self _)]
    refine ebbLoop_eq mn _ (.inr ⟨done, e, rfl, ?_⟩) (by simpa using hf)
    rw [visitInsts_ebbs mn cfg hw]
    exact hl

/-- `do_preopt` is the walk over the EBBs of the layout, in order, and in each
over the instructions it has when the walk enters it. -/
theorem doPreopt_eq (mn : MagicNumbers) (func : Function) (cfg : ControlFlowGraph) :
    doPreopt mn func cfg =
      ((visitEbbs mn func.layout.ebbs (FuncCursor.new func) cfg).1.func,
        (visitEbbs mn func.layout.ebbs (FuncCursor.new func) cfg).2) := by
  unfold doPreopt
  rw [@ebbLoop_eq mn func.layout.ebbs (FuncCursor.new func) cfg _ (.inl ⟨rfl, rfl⟩)
    (Nat.lt_succ_self _)]

/-! ## What the walk leaves alone -/

theorem listPrev_of_not_mem {l : List Inst} {x : Inst} (h : x ∉ l) : listPrev l x = none := by
  induction l with
  | nil => rfl
  | cons a t ih =>
    cases t with
    | nil => rfl
    | cons b t' =>
      simp only [List.mem_cons, not_or] at h ih
      simp [listPrev, Ne.symm h.2.1, ih h.2]

/-- The instruction before `j` is the last of those before it. -/
theorem listPrev_append_cons {done rest : List Inst} {j : Inst} (h₁ : j ∉ done) (h₂ : j ∉ rest) :
    listPrev (done ++ j :: rest) j = done.getLast? := by
  induction done with
  | nil =>
    cases rest with
    | nil => rfl
    | cons b t =>
      have hb : b ≠ j := fun h => h₂ (h ▸ List.mem_cons_self _ _)
      simp [listPrev, hb, listPrev_of_not_mem h₂]
  | cons a d ih =>
    simp only [List.mem_cons, not_or] at h₁
    cases d with
    | nil => simp [listPrev]
    | cons b d' =>
      simp only [List.mem_cons, not_or] at h₁
      simp only [List.cons_append, listPrev, Ne.symm h₁.2.1, if_false, List.getLast?_cons_cons]
        at ih ⊢
      exact ih (by simp [h₁.2.1, h₁.2.2])

theorem WalkAt.nodup {pos : FuncCursor} {ebb : Ebb} {rest : List Inst} (h : WalkAt pos ebb rest) :
    rest.Nodup := by
  obtain ⟨done, hl⟩ := h.layout
  have hnd := pos.func.wf.ebbInsts_nodup h.mem
  rw [hl] at hnd
  exact (List.nodup_append.1 hnd).2.1

/-- The instruction before the next one to visit is not still to be visited. -/
theorem WalkAt.prevInst {pos : FuncCursor} {ebb : Ebb} {j i : Inst} {rest : List Inst}
    (h : WalkAt pos ebb (j :: rest)) (hp : pos.func.layout.prevInst j = some i) : i ∉ j :: rest := by
  obtain ⟨done, hl⟩ := h.layout
  have hnd := pos.func.wf.ebbInsts_nodup h.mem
  rw [hl] at hnd
  have hjd : j ∉ done := fun hm => by simpa using (List.nodup_append.1 hnd).2.2 hm
  have hjr : j ∉ rest := (List.nodup_cons.1 (List.nodup_append.1 hnd).2.1).1
  have he : pos.func.layout.instEbb j = some ebb := pos.func.wf.instEbb_eq h.mem (by simp [hl])
  simp only [Layout.prevInst, he, Option.some_bind, hl, listPrev_append_cons hjd hjr] at hp
  exact fun hm => (List.nodup_append.1 hnd).2.2 (List.mem_of_getLast?_eq_some hp) hm

/-- With the cursor on `i`, the instructions still to visit follow `i`. -/
theorem WalkAt.at_layout {pos : FuncCursor} {ebb : Ebb} {i : Inst} {rest : List Inst}
    (h : WalkAt pos ebb rest) (hp : pos.position = .At i) :
    ∃ done, pos.func.layout.ebbInsts ebb = done ++ i :: rest := by
  rcases h.cursor with ⟨hb, -⟩ | ⟨done, i', hp', hl⟩
  · rw [hp] at hb; cases hb
  · rw [hp] at hp'; cases hp'; exact ⟨done, hl⟩

/-- Visiting `l` keeps the walk going, keeps the EBBs, and leaves the
instructions after `l` as they were. -/
theorem visitInsts_rest (mn : MagicNumbers) {ebb : Ebb} {r : List Inst} :
    ∀ {l : List Inst} {pos : FuncCursor} (cfg : ControlFlowGraph), WalkAt pos ebb (l ++ r) →
      WalkAt (visitInsts mn ebb l pos cfg).1 ebb r ∧
        (visitInsts mn ebb l pos cfg).1.func.layout.ebbs = pos.func.layout.ebbs ∧
        ∀ i ∈ r, (visitInsts mn ebb l pos cfg).1.func.dfg.insts i = pos.func.dfg.insts i
  | [], _, _, h => ⟨h, rfl, fun _ _ => rfl⟩
  | j :: l, pos, cfg, h => by
    obtain ⟨done, hl⟩ := h.layout
    have hjlt : j.idx < pos.func.dfg.instCount :=
      pos.func.wf.insts_lt j (List.mem_flatMap.2 ⟨ebb, h.mem, by simp [hl]⟩)
    obtain ⟨-, L, e⟩ := preoptInst_edit mn ebb { pos with position := .At j } cfg rfl hjlt
    obtain ⟨hw, hebbs, hi⟩ := visitInsts_rest mn _ (h.step mn cfg)
    refine ⟨hw, hebbs.trans e.ebbs, fun i hir => (hi i hir).trans (e.insts i ?_ ?_)⟩
    · exact pos.func.wf.insts_lt i (List.mem_flatMap.2 ⟨ebb, h.mem, by simp [hl, hir]⟩)
    · have hnd := h.nodup
      rintro (rfl | hp)
      · exact (List.nodup_cons.1 hnd).1 (by simp [hir])
      · exact h.prevInst hp (by simp [hir])

/-- `f'` has the EBBs of `f`, and gives `ebb` the same instructions with the same data. -/
structure Untouched (ebb : Ebb) (f f' : Function) : Prop where
  ebbs : f'.layout.ebbs = f.layout.ebbs
  layout : f'.layout.ebbInsts ebb = f.layout.ebbInsts ebb
  insts : ∀ i ∈ f.layout.ebbInsts ebb, f'.dfg.insts i = f.dfg.insts i

theorem Untouched.refl (ebb : Ebb) (f : Function) : Untouched ebb f f :=
  ⟨rfl, rfl, fun _ _ => rfl⟩

theorem Untouched.trans {ebb : Ebb} {f g h : Function} (h₁ : Untouched ebb f g)
    (h₂ : Untouched ebb g h) : Untouched ebb f h :=
  ⟨h₂.ebbs.trans h₁.ebbs, h₂.layout.trans h₁.layout,
    fun i hi => (h₂.insts i (h₁.layout ▸ hi)).trans (h₁.insts i hi)⟩

theorem LayoutOk.ebb_unique {n : Nat} {l : Layout} (h : LayoutOk n l) {e e' : Ebb} {i : Inst}
    (he : e ∈ l.ebbs) (he' : e' ∈ l.ebbs) (hi : i ∈ l.ebbInsts e) (hi' : i ∈ l.ebbInsts e') :
    e = e' :=
  Option.some.inj ((h.instEbb_eq he hi).symm.trans (h.instEbb_eq he' hi'))

/-- A turn at an instruction of another EBB leaves `ebb` alone. -/
theorem preoptInst_untouched (mn : MagicNumbers) {ebb e : Ebb} {j : Inst} {pos : FuncCursor}
    (cfg : ControlFlowGraph) (he : ebb ∈ pos.func.layout.ebbs) (he' : e ∈ pos.func.layout.ebbs)
    (hj : j ∈ pos.func.layout.ebbInsts e) (hne : e ≠ ebb) :
    Untouched ebb pos.func (preoptInst mn e j { pos with position := .At j } cfg).1.func := by
  have hjlt := pos.func.wf.insts_lt j (List.mem_flatMap.2 ⟨e, he', hj⟩)
  obtain ⟨-, L, ed⟩ := preoptInst_edit mn e { pos with position := .At j } cfg rfl hjlt
  have hjn : j ∉ pos.func.layout.ebbInsts ebb := fun h => hne (pos.func.wf.ebb_unique he' he hj h)
  refine ⟨ed.ebbs, (ed.layout ebb he).trans (insertBeforeAll_of_not_mem L hjn), fun i hi =>
    ed.insts i (pos.func.wf.insts_lt i (List.mem_flatMap.2 ⟨ebb, he, hi⟩)) ?_⟩
  rintro (rfl | hp)
  · exact hjn hi
  · have hie : i ∈ pos.func.layout.ebbInsts e := by
      simp only [Layout.prevInst, pos.func.wf.instEbb_eq he' hj, Option.some_bind] at hp
      exact listPrev_mem hp
    exact hne (pos.func.wf.ebb_unique he' he hie hi)

/-- The walk over another EBB leaves `ebb` alone. -/
theorem visitInsts_untouched (mn : MagicNumbers) {ebb e : Ebb} (hne : e ≠ ebb) :
    ∀ {l : List Inst} {pos : FuncCursor} (cfg : ControlFlowGraph), WalkAt pos e l →
      ebb ∈ pos.func.layout.ebbs → Untouched ebb pos.func (visitInsts mn e l pos cfg).1.func
  | [], pos, _, _, _ => Untouched.refl _ pos.func
  | j :: l, pos, cfg, h, he => by
    obtain ⟨done, hl⟩ := h.layout
    have h₁ := preoptInst_untouched mn cfg he h.mem (show j ∈ pos.func.layout.ebbInsts e by simp [hl]) hne
    exact h₁.trans (visitInsts_untouched mn hne _ (h.step mn cfg) (h₁.ebbs ▸ he))

theorem visitEbbs_cons (mn : MagicNumbers) (e : Ebb) (es : List Ebb) (pos : FuncCursor)
    (cfg : ControlFlowGraph) :
    visitEbbs mn (e :: es) pos cfg =
      visitEbbs mn es
        { (visitInsts mn e (pos.func.layout.ebbInsts e) { pos with position := .Before e } cfg).1 with
          position := .After e }
        (visitInsts mn e (pos.func.layout.ebbInsts e) { pos with position := .Before e } cfg).2 :=
  rfl

/-- The walk over EBBs other than `ebb` leaves `ebb` alone. -/
theorem visitEbbs_untouched (mn : MagicNumbers) {ebb : Ebb} :
    ∀ {es : List Ebb} (pos : FuncCursor) (cfg : ControlFlowGraph), ebb ∉ es →
      (∀ e ∈ es, e ∈ pos.func.layout.ebbs) → ebb ∈ pos.func.layout.ebbs →
      Untouched ebb pos.func (visitEbbs mn es pos cfg).1.func
  | [], pos, _, _, _, _ => Untouched.refl _ pos.func
  | e :: es, pos, cfg, hn, hes, he => by
    simp only [List.mem_cons, not_or] at hn
    have hw : WalkAt { pos with position := .Before e } e (pos.func.layout.ebbInsts e) :=
      ⟨hes e (List.mem_cons_self _ _), .inl ⟨rfl, rfl⟩⟩
    have h₁ := visitInsts_untouched mn (Ne.symm hn.1) cfg hw he
    obtain ⟨q, c, hq⟩ : ∃ q c, visitInsts mn e (pos.func.layout.ebbInsts e)
        { pos with position := .Before e } cfg = (q, c) := ⟨_, _, rfl⟩
    rw [hq] at h₁
    rw [visitEbbs_cons, hq]
    exact h₁.trans (visitEbbs_untouched mn { q with position := .After e } c hn.2
      (fun e' he' => h₁.ebbs ▸ hes e' (List.mem_cons_of_mem _ he')) (h₁.ebbs ▸ he))

/-- What `do_preopt` leaves in `ebb` is what the walk over `ebb` leaves there,
and that walk starts from `ebb` as the function has it. -/
theorem doPreopt_ebb (mn : MagicNumbers) (func : Function) (cfg : ControlFlowGraph) {ebb : Ebb}
    (he : ebb ∈ func.layout.ebbs) :
    ∃ pos c, pos.position = .Before ebb ∧ ebb ∈ pos.func.layout.ebbs ∧ Untouched ebb func pos.func ∧
      Untouched ebb (visitInsts mn ebb (pos.func.layout.ebbInsts ebb) pos c).1.func
        (doPreopt mn func cfg).1 := by
  obtain ⟨done, rest, hs⟩ := List.append_of_mem he
  have hnd := func.wf.ebbs_nodup
  rw [hs] at hnd
  have hd : ebb ∉ done := fun hm => by simpa using (List.nodup_append.1 hnd).2.2 hm
  have hr : ebb ∉ rest := (List.nodup_cons.1 (List.nodup_append.1 hnd).2.1).1
  obtain ⟨p₁, c₁, hp₁⟩ : ∃ p c, visitEbbs mn done (FuncCursor.new func) cfg = (p, c) := ⟨_, _, rfl⟩
  have h₁ : Untouched ebb func p₁.func := by
    have := visitEbbs_untouched mn (FuncCursor.new func) cfg hd
      (fun e he' => show e ∈ func.layout.ebbs by rw [hs]; simp [he']) he
    rwa [hp₁] at this
  have hw : WalkAt { p₁ with position := .Before ebb } ebb (p₁.func.layout.ebbInsts ebb) :=
    ⟨h₁.ebbs ▸ he, .inl ⟨rfl, rfl⟩⟩
  refine ⟨{ p₁ with position := .Before ebb }, c₁, rfl, hw.mem, h₁, ?_⟩
  have hebbs := visitInsts_ebbs mn c₁ hw
  rw [doPreopt_eq, hs, visitEbbs_append, hp₁, visitEbbs_cons]
  dsimp only
  obtain ⟨q, c, hq⟩ : ∃ q c, visitInsts mn ebb (p₁.func.layout.ebbInsts ebb)
      { p₁ with position := .Before ebb } c₁ = (q, c) := ⟨_, _, rfl⟩
  rw [hq] at hebbs ⊢
  exact visitEbbs_untouched mn { q with position := .After ebb } c hr
    (fun e he' => by rw [hebbs, h₁.ebbs, hs]; simp [he']) (by rw [hebbs]; exact hw.mem)

theorem doPreopt_ebbs (mn : MagicNumbers) (func : Function) (cfg : ControlFlowGraph) :
    (doPreopt mn func cfg).1.layout.ebbs = func.layout.ebbs := by
  cases hl : func.layout.ebbs with
  | nil => rw [doPreopt_eq, hl]; exact hl
  | cons e es =>
    obtain ⟨pos, c, hp, -, h₁, h₂⟩ :=
      doPreopt_ebb mn func cfg (by rw [hl]; exact List.mem_cons_self _ _)
    rw [h₂.ebbs, visitInsts_ebbs mn c ⟨by rw [h₁.ebbs, hl]; exact List.mem_cons_self _ _,
      .inl ⟨hp, rfl⟩⟩, h₁.ebbs, hl]

/-! ## The instructions the walk visits -/

/-- The instructions of the layout with their EBBs, in layout order. -/
def Layout.instOrder (l : Layout) : List (Ebb × Inst) :=
  l.ebbs.flatMap fun e => (l.ebbInsts e).map fun j => (e, j)

theorem Layout.instOrder_snd (l : Layout) : l.instOrder.map Prod.snd = l.allInsts := by
  simp [Layout.instOrder, Layout.allInsts, List.map_flatMap]

/-- The turns of the pass at the instructions `ts`, each in its EBB, in order:
the inner loop's body with the cursor on each in turn. -/
def visitTurns (mn : MagicNumbers) :
    List (Ebb × Inst) → FuncCursor → ControlFlowGraph → FuncCursor × ControlFlowGraph
  | [], pos, cfg => (pos, cfg)
  | (e, j) :: ts, pos, cfg =>
    let s := preoptInst mn e j { pos with position := .At j } cfg
    visitTurns mn ts s.1 s.2

theorem visitTurns_append (mn : MagicNumbers) (l₁ l₂ : List (Ebb × Inst)) (pos : FuncCursor)
    (cfg : ControlFlowGraph) :
    visitTurns mn (l₁ ++ l₂) pos cfg =
      visitTurns mn l₂ (visitTurns mn l₁ pos cfg).1 (visitTurns mn l₁ pos cfg).2 := by
  induction l₁ generalizing pos cfg with
  | nil => rfl
  | cons t l ih => exact ih _ _

theorem visitInsts_eq_visitTurns (mn : MagicNumbers) (ebb : Ebb) :
    ∀ (l : List Inst) (pos : FuncCursor) (cfg : ControlFlowGraph),
      visitInsts mn ebb l pos cfg = visitTurns mn (l.map fun j => (ebb, j)) pos cfg
  | [], _, _ => rfl
  | _ :: l, _, _ => visitInsts_eq_visitTurns mn ebb l _ _

/-- The turns read the cursor only through the function: each one puts the
cursor on its own instruction first. -/
theorem visitTurns_func (mn : MagicNumbers) :
    ∀ (ts : List (Ebb × Inst)) {p q : FuncCursor}, p.func = q.func → ∀ cfg : ControlFlowGraph,
      ((visitTurns mn ts p cfg).1.func, (visitTurns mn ts p cfg).2) =
        ((visitTurns mn ts q cfg).1.func, (visitTurns mn ts q cfg).2)
  | [], _, _, h, _ => by simp [visitTurns, h]
  | (_, j) :: _, p, q, h, _ => by
    have hc : ({ p with position := .At j } : FuncCursor) = { q with position := .At j } := by
      show (⟨p.func, .At j⟩ : FuncCursor) = ⟨q.func, .At j⟩
      rw [h]
    simp only [visitTurns, hc]

/-- The walk over the EBBs `es` is the turns at their instructions, in layout
order, as the function has them before the walk. -/
theorem visitEbbs_eq_visitTurns (mn : MagicNumbers) :
    ∀ (es : List Ebb) (pos : FuncCursor) (cfg : ControlFlowGraph), es.Nodup →
      (∀ e ∈ es, e ∈ pos.func.layout.ebbs) →
      ((visitEbbs mn es pos cfg).1.func, (visitEbbs mn es pos cfg).2) =
        ((visitTurns mn (es.flatMap fun e => (pos.func.layout.ebbInsts e).map fun j => (e, j))
            pos cfg).1.func,
          (visitTurns mn (es.flatMap fun e => (pos.func.layout.ebbInsts e).map fun j => (e, j))
            pos cfg).2)
  | [], _, _, _, _ => rfl
  | e :: es, pos, cfg, hnd, hes => by
    have hw : WalkAt { pos with position := .Before e } e (pos.func.layout.ebbInsts e) :=
      ⟨hes e (List.mem_cons_self _ _), .inl ⟨rfl, rfl⟩⟩
    obtain ⟨q, c, hq⟩ : ∃ q c, visitInsts mn e (pos.func.layout.ebbInsts e)
        { pos with position := .Before e } cfg = (q, c) := ⟨_, _, rfl⟩
    have hu : ∀ e' ∈ es, Untouched e' pos.func q.func := fun e' he' => by
      have := visitInsts_untouched mn (fun h => (List.nodup_cons.1 hnd).1 (by subst h; exact he'))
        cfg hw (hes e' (List.mem_cons_of_mem _ he'))
      rwa [hq] at this
    have hfirst := visitTurns_func mn ((pos.func.layout.ebbInsts e).map fun j => (e, j))
      (show ({ pos with position := .Before e } : FuncCursor).func = pos.func from rfl) cfg
    rw [← visitInsts_eq_visitTurns, hq] at hfirst
    dsimp only at hfirst
    obtain ⟨h₁, h₂⟩ := Prod.mk.inj hfirst
    have hrest : (es.flatMap fun e' => (pos.func.layout.ebbInsts e').map fun j => (e', j)) =
        es.flatMap fun e' => (q.func.layout.ebbInsts e').map fun j => (e', j) := by
      rw [List.flatMap_def, List.flatMap_def]
      congr 1
      exact List.map_congr_left fun e' he' => by rw [(hu e' he').layout]
    rw [visitEbbs_cons, hq]
    dsimp only
    rw [visitEbbs_eq_visitTurns mn es { q with position := .After e } c (List.nodup_cons.1 hnd).2
      (fun e' he' => by rw [show ({ q with position := .After e } : FuncCursor).func = q.func
        from rfl, (hu e' he').ebbs]; exact hes e' (List.mem_cons_of_mem _ he'))]
    dsimp only
    rw [List.flatMap_cons, visitTurns_append, hrest, ← h₂]
    exact visitTurns_func mn _
      (show ({ q with position := .After e } : FuncCursor).func = _ from h₁) c

/-- `do_preopt` is the turns at the function's instructions, in layout order. -/
theorem doPreopt_eq_visitTurns (mn : MagicNumbers) (func : Function) (cfg : ControlFlowGraph) :
    doPreopt mn func cfg =
      ((visitTurns mn func.layout.instOrder (FuncCursor.new func) cfg).1.func,
        (visitTurns mn func.layout.instOrder (FuncCursor.new func) cfg).2) := by
  rw [doPreopt_eq]
  exact visitEbbs_eq_visitTurns mn _ _ _ func.wf.ebbs_nodup fun _ h => h

/-! ## What the walk keeps of the instructions there were -/

theorem filter_insertBeforeAll {p : Inst → Bool} {l L : List Inst} {j : Inst} (hl : ∀ i ∈ l, p i)
    (hL : ∀ i ∈ L, ¬p i) : (insertBeforeAll l j L).filter p = l := by
  induction l with
  | nil => rfl
  | cons a t ih =>
    simp only [List.mem_cons, forall_eq_or_imp] at hl
    by_cases ha : a = j
    · subst ha
      simp [List.filter_append, hl.1, ih hl.2, List.filter_eq_nil_iff.2 hL]
    · simp [ha, hl.1, ih hl.2]

/-- `f'` keeps the EBBs of `f`, its instructions in order with new ones among them, and
their results. -/
structure Extends (f f' : Function) : Prop where
  ebbs : f'.layout.ebbs = f.layout.ebbs
  inst_count : f.dfg.instCount ≤ f'.dfg.instCount
  originals : ∀ e ∈ f.layout.ebbs,
    (f'.layout.ebbInsts e).filter (fun i => i.idx < f.dfg.instCount) = f.layout.ebbInsts e
  results : ∀ i : Inst, i.idx < f.dfg.instCount → f'.dfg.results i = f.dfg.results i

namespace Extends

variable {f g h : Function}

theorem mem (hx : Extends f g) {e : Ebb} {i : Inst} (he : e ∈ f.layout.ebbs)
    (hi : i ∈ f.layout.ebbInsts e) : i ∈ g.layout.ebbInsts e := by
  rw [← hx.originals e he] at hi
  exact List.mem_of_mem_filter hi

theorem trans (h₁ : Extends f g) (h₂ : Extends g h) : Extends f h where
  ebbs := h₂.ebbs.trans h₁.ebbs
  inst_count := h₁.inst_count.trans h₂.inst_count
  originals e he := by
    have hsub : ∀ i : Inst, i.idx < f.dfg.instCount → i.idx < g.dfg.instCount :=
      fun i hi => lt_of_lt_of_le hi h₁.inst_count
    rw [← h₁.originals e he, ← h₂.originals e (h₁.ebbs ▸ he), List.filter_filter]
    exact List.filter_congr fun i _ => by by_cases hi : i.idx < f.dfg.instCount <;> simp [hi, hsub]
  results i hi := (h₂.results i (lt_of_lt_of_le hi h₁.inst_count)).trans (h₁.results i hi)

/-- An edit that puts fresh instructions before `j` keeps the ones there were. -/
theorem of_edit {S : Inst → Prop} {j : Inst} {L : List Inst} (e : Edit S j L f g) : Extends f g where
  ebbs := e.ebbs
  inst_count := e.inst_count
  originals e' he := by
    rw [e.layout e' he]
    exact filter_insertBeforeAll
      (fun i hi => decide_eq_true (f.wf.insts_lt i (List.mem_flatMap.2 ⟨e', he, hi⟩)))
      (fun i hi => by simpa using e.fresh i hi)
  results := e.results

end Extends

/-- The turns at instructions of the layout keep the instructions there were. -/
theorem visitTurns_extends (mn : MagicNumbers) :
    ∀ (ts : List (Ebb × Inst)) (pos : FuncCursor) (cfg : ControlFlowGraph),
      (∀ t ∈ ts, t.1 ∈ pos.func.layout.ebbs ∧ t.2 ∈ pos.func.layout.ebbInsts t.1) →
      Extends pos.func (visitTurns mn ts pos cfg).1.func
  | [], pos, _, _ => ⟨rfl, le_refl _, fun e he => List.filter_eq_self.2 fun i hi =>
      decide_eq_true (pos.func.wf.insts_lt i (List.mem_flatMap.2 ⟨e, he, hi⟩)), fun _ _ => rfl⟩
  | (e, j) :: ts, pos, cfg, hts => by
    obtain ⟨he, hj⟩ := hts (e, j) (List.mem_cons_self _ _)
    obtain ⟨-, L, ed⟩ := preoptInst_edit mn e { pos with position := .At j } cfg rfl
      (pos.func.wf.insts_lt j (List.mem_flatMap.2 ⟨e, he, hj⟩))
    have h₁ := Extends.of_edit ed
    exact h₁.trans (visitTurns_extends mn ts _ _ fun t ht =>
      have ht' := hts t (List.mem_cons_of_mem _ ht)
      ⟨h₁.ebbs ▸ ht'.1, h₁.mem ht'.1 ht'.2⟩)

theorem Layout.mem_instOrder {l : Layout} {t : Ebb × Inst} (h : t ∈ l.instOrder) :
    t.1 ∈ l.ebbs ∧ t.2 ∈ l.ebbInsts t.1 := by
  obtain ⟨e, he, hm⟩ := List.mem_flatMap.1 h
  obtain ⟨j, hj, rfl⟩ := List.mem_map.1 hm
  exact ⟨he, hj⟩

/-! ## The walk of `do_preopt` -/

/-- `do_preopt` terminates, visiting each instruction the function had once, in layout
order, and never an inserted one; every old instruction stays in place. -/
theorem doPreopt_visits_originals (mn : MagicNumbers) (func : Function) (cfg : ControlFlowGraph) :
    (∀ fuel, func.layout.ebbs.length < fuel →
      ebbLoop mn fuel (FuncCursor.new func) cfg =
        (⟨(doPreopt mn func cfg).1, .Nowhere⟩, (doPreopt mn func cfg).2)) ∧
    doPreopt mn func cfg =
      ((visitTurns mn func.layout.instOrder (FuncCursor.new func) cfg).1.func,
        (visitTurns mn func.layout.instOrder (FuncCursor.new func) cfg).2) ∧
    func.layout.instOrder.map Prod.snd = func.layout.allInsts ∧ func.layout.allInsts.Nodup ∧
    (∀ (ebb : Ebb) (j : Inst) (pos : FuncCursor) (c : ControlFlowGraph), pos.position = .At j →
      j.idx < pos.func.dfg.instCount →
      (preoptInst mn ebb j pos c).1.position = .At j ∧
      ∃ L : List Inst, (∀ i ∈ L, pos.func.dfg.instCount ≤ i.idx) ∧ ∀ e ∈ pos.func.layout.ebbs,
        (preoptInst mn ebb j pos c).1.func.layout.ebbInsts e =
          insertBeforeAll (pos.func.layout.ebbInsts e) j L) ∧
    Extends func (doPreopt mn func cfg).1 := by
  refine ⟨fun fuel hf => ?_, doPreopt_eq_visitTurns mn func cfg, Layout.instOrder_snd _,
    func.wf.insts_nodup, fun ebb j pos c hp hj => ?_, ?_⟩
  · rw [ebbLoop_eq mn cfg (.inl ⟨rfl, rfl⟩ : EbbWalkAt (FuncCursor.new func) func.layout.ebbs) hf,
      doPreopt_eq]
  · obtain ⟨hp', L, e⟩ := preoptInst_edit mn ebb pos c hp hj
    exact ⟨hp', L, e.fresh, e.layout⟩
  · rw [doPreopt_eq_visitTurns]
    exact visitTurns_extends mn func.layout.instOrder (FuncCursor.new func) cfg
      fun _ ht => Layout.mem_instOrder ht

end simple_preopt
