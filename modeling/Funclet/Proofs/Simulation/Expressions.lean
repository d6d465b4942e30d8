import Funclet.Proofs.Simulation.Relation

/-!
# The code of expressions computes their values

* `Matches.define`, `Matches.spare`, `Matches.assign`, `Matches.declare` : what writing a value or a slot means;
* `Arrives` : where the code of an expression leads, with all values of before;
* `ExprCode.sim`, `ExprsCode.sim`, `BindingsCode.sim` : the code of a tree does what the evaluation of the tree says.
-/

namespace Funclet

open Evaluation Machine

section Writes

variable {b : Body} {q : Point} {Γ : Frames SlotId} {c : Counts} {σ : State} {C : Config}

theorem Matches.relayout (h : Matches b q Γ c σ C) {c' : Counts} (hl : Γ.Layout c'.slots) : Matches b q Γ c' σ C :=
  { h with layout := hl }

theorem Matches.mono (h : Matches b q Γ c σ C) {c' : Counts} (hc : c.Le c') : Matches b q Γ c' σ C :=
  h.relayout (h.layout.mono hc.slots)

/-- Goes elsewhere, or prints. -/
theorem Matches.move (h : Matches b q Γ c σ C) (q' : Point) (t : String) :
    Matches b q' Γ c { σ with printed := t } ⟨q', C.frame, t⟩ :=
  { h with point := rfl, text := rfl }

/-- Writes the next value. -/
theorem Matches.define (h : Matches b q Γ c σ C) (q' : Point) (x : Value) (t : String) :
    Matches b q' Γ c.next { σ with printed := t } ⟨q', C.frame.withValue c.values x, t⟩ where
  point := rfl
  text := rfl
  values := (Array.size_setIfInBounds ..).trans h.values
  slots := h.slots
  layout := h.layout
  cells := h.cells

theorem getElem?_withValue (f : Frame) {v : ValueId} (x : Value) (h : v < f.values.size) :
    (f.withValue v x).values[v]? = some x :=
  Array.getElem?_setIfInBounds_self_of_lt h

theorem keeps_withValue (C : Config) (n : Nat) (q : Point) (x : Value) (t : String) :
    Keeps n C ⟨q, C.frame.withValue n x, t⟩ :=
  fun _ hv => Array.getElem?_setIfInBounds_ne (Nat.ne_of_gt hv)

/-- Writes a slot that holds no variable. -/
theorem Matches.spare (h : Matches b q Γ c σ C) {s : SlotId} (hs : s ∉ Γ.slots) (q' : Point) (x : Value) :
    Matches b q' Γ c σ ⟨q', C.frame.withSlot s x, σ.printed⟩ where
  point := rfl
  text := rfl
  values := h.values
  slots := (Array.size_setIfInBounds ..).trans h.slots
  layout := h.layout
  cells := h.cells.outside hs x

/-- Writes the slot of a variable. -/
theorem Matches.assign (h : Matches b q Γ c σ C) (hc : c.Le b.counts) {name : String} {s : SlotId}
    (hs : Γ.lookup name = some s) (q' : Point) (x : Value) :
    Matches b q' Γ c { σ with env := σ.env.assign name x } ⟨q', C.frame.withSlot s x, σ.printed⟩ where
  point := rfl
  text := rfl
  values := h.values
  slots := (Array.size_setIfInBounds ..).trans h.slots
  layout := h.layout
  cells := by
    refine h.cells.assign h.layout.distinct hs ?_ x
    rw [h.slots]
    exact Nat.lt_of_lt_of_le (h.layout.bound s (Frames.mem_slots_of_lookup hs)) hc.slots

/-- Writes the next slot, for a new variable. -/
theorem Matches.declare (h : Matches b q Γ c σ C) (hc : c.withSlot.Le b.counts) (name : String) (q' : Point)
    (x : Value) :
    Matches b q' (Γ.declare name c.slots) c.withSlot { σ with env := σ.env.declare name x }
      ⟨q', C.frame.withSlot c.slots x, σ.printed⟩ where
  point := rfl
  text := rfl
  values := h.values
  slots := (Array.size_setIfInBounds ..).trans h.slots
  layout := h.layout.declare name
  cells := by
    refine (h.cells.outside h.layout.fresh _).declare ?_ name
    refine Array.getElem?_setIfInBounds_self_of_lt ?_
    rw [h.slots]
    exact hc.slots

theorem Matches.enter (h : Matches b q Γ c σ C) : Matches b q ([] :: Γ) c { σ with env := [] :: σ.env } C :=
  { h with layout := h.layout.enter, cells := h.cells.enter }

theorem Matches.leave {f : List (String × SlotId)} (h : Matches b q (f :: Γ) c σ C) :
    Matches b q Γ c { σ with env := σ.env.tail } C :=
  { h with layout := h.layout.leave, cells := h.cells.leave }

end Writes

/-- The run has arrived at the point `q`, and the first values are what they were in `C₀`. -/
structure Arrives (b : Body) (q : Point) (Γ : Frames SlotId) (c c' : Counts) (C₀ : Config) (σ : State) (C : Config) :
    Prop where
  state : Matches b q Γ c' σ C
  keeps : Keeps c.values C₀ C

theorem Arrives.trans {b : Body} {q q' : Point} {Γ Γ' : Frames SlotId} {c c₁ c₂ : Counts} {C₀ C₁ C₂ : Config}
    {σ₁ σ₂ : State} (h₁ : Arrives b q Γ c c₁ C₀ σ₁ C₁) (hc : c.Le c₁) (h₂ : Arrives b q' Γ' c₁ c₂ C₁ σ₂ C₂) :
    Arrives b q' Γ' c c₂ C₀ σ₂ C₂ :=
  ⟨h₂.state, h₁.keeps.trans hc.values h₂.keeps⟩

/-- The run has arrived, with `x` as the value `v`. -/
def Computed (b : Body) (q : Point) (Γ : Frames SlotId) (c c' : Counts) (C₀ : Config) (v : ValueId) (x : Value)
    (σ : State) (C : Config) : Prop :=
  Arrives b q Γ c c' C₀ σ C ∧ C.frame.values[v]? = some x

/-! ## Instructions and the operations they stand for -/

section Instructions

variable {M : String → Prop} {p : Program} {b : Body} {A : List Value} {link : Link} {call : Calls} {n : Nat}
  {q : Point} {Γ : Frames SlotId} {c : Counts} {σ : State} {C : Config}

theorem Matches.value_lt (hm : Matches b q Γ c σ C) (hc : c.next.Le b.counts) : c.values < C.frame.values.size := by
  rw [hm.values]
  exact hc.values

theorem Matches.config (hm : Matches b q Γ c σ C) : C = ⟨q, C.frame, σ.printed⟩ := by
  rw [← hm.point, ← hm.text]

/-- A step that writes the next value. -/
theorem Matches.step_define (hm : Matches b q Γ c σ C) (hc : c.next.Le b.counts) {x : Value}
    (hstep : Config.Step p b A ⟨q, C.frame, σ.printed⟩ ⟨q.plus 1, C.frame.withValue c.values x, σ.printed⟩) :
    ∃ C', C.Step p b A C' ∧ Arrives b (q.plus 1) Γ c c.next C σ C' ∧ C'.frame.values[c.values]? = some x := by
  rw [← hm.config] at hstep
  exact ⟨_, hstep, ⟨hm.define _ x _, keeps_withValue _ _ _ _ _⟩, getElem?_withValue _ x (hm.value_lt hc)⟩

theorem call_sim (hcall : CallSim M p link call n) {name : String} (xs : List Value) {g : FunctionId}
    {vs : List ValueId} (hlink : link name xs.length g) (hat : CodeAt b q [.call c.values g vs])
    (hc : c.next.Le b.counts) (hm : Matches b q Γ c σ C) (hvs : Config.Holds C.frame vs xs) :
    Sim M p b A n C (calling call name xs σ) (Computed b (q.plus 1) Γ c c.next C c.values) := by
  have hresult := hcall name xs g σ.printed hlink
  rw [hm.config]
  unfold calling
  cases hr : call name xs σ.printed with
  | ok x t =>
    rw [hr] at hresult
    exact ⟨_, Config.reaches_call hat hvs (hm.value_lt hc) hresult, ⟨hm.define _ _ t, keeps_withValue C _ _ _ _⟩,
      getElem?_withValue _ _ (hm.value_lt hc)⟩
  | error e t =>
    rw [hr] at hresult
    cases e with
    | fault e => exact ⟨hresult.1, Config.ends_call hat hvs hresult.2⟩
    | timeout => exact Config.exceeds_call hat hvs hresult
    | stuck => exact hresult

theorem blame_apply {op : Primitive} {x y : Float} {e : RuntimeError} (h : op.apply x y = .error e) : Blame M e := by
  cases op with
  | div =>
    simp only [Primitive.apply] at h
    split at h
    · cases h
      trivial
    · cases h
  | _ => cases h

theorem arithmetic_sim {op : Primitive} {l r : ValueId} {x y : Value} (hat : CodeAt b q [.primitive c.values op l r])
    (hc : c.next.Le b.counts) (hm : Matches b q Γ c σ C) (hl : C.frame.values[l]? = some x)
    (hr : C.frame.values[r]? = some y) :
    Sim M p b A n C (arithmetic op x y σ) (Computed b (q.plus 1) Γ c c.next C c.values) := by
  cases x with
  | text s =>
    rw [hm.config]
    exact ⟨trivial, Config.ends_primitive_text hat (.inl hl)⟩
  | number x =>
    cases y with
    | text s =>
      rw [hm.config]
      exact ⟨trivial, Config.ends_primitive_text hat (.inr ⟨x, hl, hr⟩)⟩
    | number y =>
      simp only [arithmetic, operand, pure_bind]
      cases hz : op.apply x y with
      | ok z =>
        obtain ⟨C', hstep, ha⟩ := hm.step_define hc (Config.step_primitive hat hl hr hz (hm.value_lt hc))
        exact ⟨C', hstep.reaches, ha⟩
      | error e =>
        rw [hm.config]
        exact ⟨blame_apply hz, Config.ends_primitive hat hl hr hz⟩

theorem assign_sim {name : String} {s : SlotId} {v : ValueId} {x : Value} (hat : CodeAt b q [.store s v])
    (hc : c.Le b.counts) (hm : Matches b q Γ c σ C) (hs : Γ.lookup name = some s)
    (hv : C.frame.values[v]? = some x) :
    Sim M p b A n C (assign name x σ) fun _ => Computed b (q.plus 1) Γ c c C v x := by
  obtain ⟨y, hy, hslot⟩ := hm.cells.lookup hs
  rw [assign, hy, hm.config]
  have hlt := (Array.getElem?_eq_some_iff.mp hslot).1
  exact ⟨_, (Config.step_store hat hv hlt).reaches, ⟨hm.assign hc hs _ x, .refl _ _⟩, hv⟩

/-- A step that writes the next slot, for a new variable. -/
theorem Matches.step_declare (hm : Matches b q Γ c σ C) (hc : c.withSlot.Le b.counts) (name : String) {v : ValueId}
    {x : Value} (hat : CodeAt b q [.store c.slots v]) (hv : C.frame.values[v]? = some x) :
    ∃ C', C.Step p b A C' ∧
      Arrives b (q.plus 1) (Γ.declare name c.slots) c c.withSlot C { σ with env := σ.env.declare name x } C' := by
  have hlt : c.slots < C.frame.slots.size := by
    rw [hm.slots]
    exact hc.slots
  rw [hm.config]
  exact ⟨_, Config.step_store hat hv hlt, hm.declare hc name _ x, .refl _ _⟩

theorem declare_sim {name : String} {v : ValueId} {x : Value} (hat : CodeAt b q [.store c.slots v])
    (hc : c.withSlot.Le b.counts) (hm : Matches b q Γ c σ C) (hv : C.frame.values[v]? = some x) :
    Sim M p b A n C (declare name x σ) fun _ σ' C' =>
      Arrives b (q.plus 1) (Γ.declare name c.slots) c c.withSlot C σ' C' := by
  obtain ⟨C', hstep, ha⟩ := hm.step_declare hc name hat hv
  exact ⟨C', hstep.reaches, ha⟩

end Instructions

/-! ## Trees -/

section Trees

variable {M : String → Prop} {p : Program} {b : Body} {A : List Value} {link : Link} {call : Calls} {n : Nat}

theorem BindingsCode.frames {Γ : Frames SlotId} {f : List (String × SlotId)} {c c' : Counts} {is : List Inst}
    {Γ' : Frames SlotId} : ∀ {bs : List Binding}, BindingsCode link (f :: Γ) c bs is c' Γ' → ∃ f', Γ' = f' :: Γ
  | _, .nil => ⟨f, rfl⟩
  | _, .zero h => h.frames
  | _, .init _ h => h.frames

theorem computed_inScope {part : Eval Value} {q : Point} {Γ : Frames SlotId} {f : List (String × SlotId)}
    {c c' : Counts} {v : ValueId} {σ : State} {C C₀ : Config}
    (h : Sim M p b A n C (part { σ with env := [] :: σ.env }) (Computed b q (f :: Γ) c c' C₀ v)) :
    Sim M p b A n C (inScope part σ) (Computed b q Γ c c' C₀ v) := by
  refine h.inScope ?_
  rintro x σ' C' ⟨h', hx⟩
  exact ⟨⟨h'.state.leave, h'.keeps⟩, hx⟩

/-- Two operands, from left to right, and what is done with their values. -/
theorem operands_sim {l r : Eval Value} {f : Value → Value → Eval Value} {q q₁ q₂ : Point} {Γ : Frames SlotId}
    {c c₁ c₂ c₃ : Counts} {v w u : ValueId} {σ : State} {C : Config}
    (hl : Sim M p b A n C (l σ) (Computed b q Γ c c₁ C v))
    (hr : ∀ {σ C}, Matches b q Γ c₁ σ C → Sim M p b A n C (r σ) (Computed b q₁ Γ c₁ c₂ C w))
    (hv : c.Le c₁ ∧ v < c₁.values) (hc : c₁.Le c₂)
    (hf : ∀ x y σ C, Matches b q₁ Γ c₂ σ C → C.frame.values[v]? = some x →
      C.frame.values[w]? = some y → Sim M p b A n C (f x y σ) (Computed b q₂ Γ c₂ c₃ C u)) :
    Sim M p b A n C ((do let x ← l; let y ← r; f x y : Eval Value) σ) (Computed b q₂ Γ c c₃ C u) := by
  refine hl.bind ?_
  rintro x σ₁ C₁ ⟨h₁, hx⟩
  refine (hr h₁.state).bind ?_
  rintro y σ₂ C₂ ⟨h₂, hy⟩
  refine (hf x y σ₂ C₂ h₂.state ((h₂.keeps v hv.2).trans hx) hy).mono ?_
  rintro z σ₃ C₃ ⟨h₃, hz⟩
  exact ⟨(h₁.trans hv.1 h₂).trans (hv.1.trans hc) h₃, hz⟩

mutual

/-- The code of an expression computes its value. -/
theorem ExprCode.sim (hcall : CallSim M p link call n) {q : Point} {Γ : Frames SlotId} {c c' : Counts} {is : List Inst}
    {v : ValueId} {σ : State} {C : Config} :
    ∀ {e : Expr}, ExprCode link Γ c e is c' v → CodeAt b q is → c'.Le b.counts → Matches b q Γ c σ C →
      Sim M p b A n C (evalExpr call e σ) (Computed b (q.plus is.length) Γ c c' C v)
  | _, .number => by
    intro hat hc hm
    obtain ⟨C', hstep, ha⟩ := hm.step_define hc (Config.step_const hat (hm.value_lt hc))
    rw [evalExpr]
    exact ⟨C', hstep.reaches, ha⟩
  | _, .text => by
    intro hat hc hm
    obtain ⟨C', hstep, ha⟩ := hm.step_define hc (Config.step_const hat (hm.value_lt hc))
    rw [evalExpr]
    exact ⟨C', hstep.reaches, ha⟩
  | _, .var hslot => by
    intro hat hc hm
    obtain ⟨x, hx, hload⟩ := hm.cells.lookup hslot
    obtain ⟨C', hstep, ha⟩ := hm.step_define hc (Config.step_load hat hload (hm.value_lt hc))
    rw [evalExpr, lookup, hx]
    exact ⟨C', hstep.reaches, ha⟩
  | _, .unary h hf => by
    intro hat hc hm
    obtain ⟨hat₁, hat₂⟩ := hat.append
    rw [evalExpr, List.length_append, ← Point.plus_plus]
    refine (h.sim hcall hat₁ ((Counts.le_next _).trans hc) hm).bind ?_
    rintro x σ₁ C₁ ⟨h₁, hx⟩
    refine (call_sim hcall [x] hf hat₂ hc h₁.state (.cons hx .nil)).mono ?_
    rintro y σ₂ C₂ ⟨h₂, hy⟩
    exact ⟨h₁.trans h.le.1 h₂, hy⟩
  | _, .assign h hslot => by
    intro hat hc hm
    obtain ⟨hat₁, hat₂⟩ := hat.append
    rw [evalExpr, if_pos rfl, List.length_append, ← Point.plus_plus]
    refine (h.sim hcall hat₁ hc hm).bind ?_
    rintro x σ₁ C₁ ⟨h₁, hx⟩
    refine (assign_sim hat₂ hc h₁.state hslot hx).bind ?_
    rintro _ σ₂ C₂ ⟨h₂, hx₂⟩
    exact .pure ⟨h₁.trans h.le.1 h₂, hx₂⟩
  | _, .primitive hop hl hr hp => by
    intro hat hc hm
    obtain ⟨hat₁₂, hat₃⟩ := hat.append
    obtain ⟨hat₁, hat₂⟩ := hat₁₂.append
    have hc₂ := (Counts.le_next _).trans hc
    simp only [List.length_append, ← Point.plus_plus] at hat₃ ⊢
    rw [evalExpr_binary call hop, hp]
    refine operands_sim (hl.sim hcall hat₁ (hr.le.1.trans hc₂) hm) (hr.sim hcall hat₂ hc₂) hl.le hr.le.1 ?_
    intro x y σ' C' hm' hx hy
    exact arithmetic_sim hat₃ hc hm' hx hy
  | _, .binary hop hl hr hp hf => by
    intro hat hc hm
    obtain ⟨hat₁₂, hat₃⟩ := hat.append
    obtain ⟨hat₁, hat₂⟩ := hat₁₂.append
    have hc₂ := (Counts.le_next _).trans hc
    simp only [List.length_append, ← Point.plus_plus] at hat₃ ⊢
    rw [evalExpr_binary call hop, hp]
    refine operands_sim (hl.sim hcall hat₁ (hr.le.1.trans hc₂) hm) (hr.sim hcall hat₂ hc₂) hl.le hr.le.1 ?_
    intro x y σ' C' hm' hx hy
    exact call_sim hcall [x, y] hf hat₃ hc hm' (.cons hx (.cons hy .nil))
  | _, .call h hf => by
    intro hat hc hm
    obtain ⟨hat₁, hat₂⟩ := hat.append
    rw [evalExpr, List.length_append, ← Point.plus_plus]
    refine (h.sim hcall hat₁ ((Counts.le_next _).trans hc) hm).bind ?_
    rintro xs σ₁ C₁ ⟨h₁, hxs⟩
    have hlen : xs.length = _ := hxs.length_eq.symm.trans h.length.symm
    refine (call_sim hcall xs (hlen ▸ hf) hat₂ hc h₁.state hxs).mono ?_
    rintro y σ₂ C₂ ⟨h₂, hy⟩
    exact ⟨h₁.trans h.le.1 h₂, hy⟩
  | _, .letIn hb h => by
    intro hat hc hm
    obtain ⟨hat₁, hat₂⟩ := hat.append
    obtain ⟨f', rfl⟩ := hb.frames
    rw [evalExpr, List.length_append, ← Point.plus_plus]
    refine computed_inScope (f := f') ((hb.sim hcall hat₁ (h.le.1.trans hc) hm.enter).bind ?_)
    rintro _ σ₁ C₁ h₁
    refine (h.sim hcall hat₂ hc h₁.state).mono ?_
    rintro x σ₂ C₂ ⟨h₂, hx⟩
    exact ⟨h₁.trans hb.le h₂, hx⟩

/-- The code of expressions computes their values, from left to right. -/
theorem ExprsCode.sim (hcall : CallSim M p link call n) {q : Point} {Γ : Frames SlotId} {c c' : Counts} {is : List Inst}
    {vs : List ValueId} {σ : State} {C : Config} :
    ∀ {es : List Expr}, ExprsCode link Γ c es is c' vs → CodeAt b q is → c'.Le b.counts → Matches b q Γ c σ C →
      Sim M p b A n C (evalExprs call es σ) fun xs σ' C' =>
        Arrives b (q.plus is.length) Γ c c' C σ' C' ∧ Config.Holds C'.frame vs xs
  | _, .nil => by
    intro _ _ hm
    rw [evalExprs]
    exact .pure ⟨⟨hm, .refl _ _⟩, .nil⟩
  | _, .cons h hs => by
    intro hat hc hm
    obtain ⟨hat₁, hat₂⟩ := hat.append
    rw [evalExprs, List.length_append, ← Point.plus_plus]
    refine (h.sim hcall hat₁ (hs.le.1.trans hc) hm).bind ?_
    rintro x σ₁ C₁ ⟨h₁, hx⟩
    refine (hs.sim hcall hat₂ hc h₁.state).bind ?_
    rintro xs σ₂ C₂ ⟨h₂, hxs⟩
    exact .pure ⟨h₁.trans h.le.1 h₂, .cons ((h₂.keeps _ h.le.2).trans hx) hxs⟩

/-- The code of a `VAR` list binds its variables. -/
theorem BindingsCode.sim (hcall : CallSim M p link call n) {q : Point} {Γ Γ' : Frames SlotId} {c c' : Counts}
    {is : List Inst} {σ : State} {C : Config} :
    ∀ {bs : List Binding}, BindingsCode link Γ c bs is c' Γ' → CodeAt b q is → c'.Le b.counts → Matches b q Γ c σ C →
      Sim M p b A n C (evalBindings call bs σ) fun _ σ' C' => Arrives b (q.plus is.length) Γ' c c' C σ' C'
  | _, .nil => by
    intro _ _ hm
    rw [evalBindings]
    exact .pure ⟨hm, .refl _ _⟩
  | _, .zero h => by
    intro hat hc hm
    obtain ⟨hat₁₂, hat₃⟩ := hat.append
    obtain ⟨hat₁, hat₂⟩ := CodeAt.cons hat₁₂
    have hc₁ := (Counts.le_withSlot _).trans (h.le.trans hc)
    obtain ⟨C₁, hstep, h₁, hx⟩ := hm.step_define hc₁ (Config.step_const hat₁ (hm.value_lt hc₁))
    rw [evalBindings, List.length_append, ← Point.plus_plus]
    refine .of_reaches hstep.reaches ((declare_sim (c := c.next) hat₂ (h.le.trans hc) h₁.state hx).bind ?_)
    rintro _ σ₂ C₂ h₂
    refine (h.sim hcall hat₃ hc h₂.state).mono ?_
    rintro _ σ₃ C₃ h₃
    exact h₁.trans (Counts.le_next _) (h₂.trans (Counts.le_withSlot _) h₃)
  | _, .init he h => by
    intro hat hc hm
    obtain ⟨hat₁₂, hat₃⟩ := hat.append
    obtain ⟨hat₁, hat₂⟩ := hat₁₂.append
    have hc₁ := h.le.trans hc
    rw [evalBindings, List.length_append, ← Point.plus_plus]
    refine (he.sim hcall hat₁ ((Counts.le_withSlot _).trans hc₁) hm).bind ?_
    rintro x σ₁ C₁ ⟨h₁, hx⟩
    refine (declare_sim hat₂ hc₁ h₁.state hx).bind ?_
    rintro _ σ₂ C₂ h₂
    rw [List.length_append, ← Point.plus_plus] at hat₃ ⊢
    refine (h.sim hcall hat₃ hc h₂.state).mono ?_
    rintro _ σ₃ C₃ h₃
    exact h₁.trans he.le.1 (h₂.trans (Counts.le_withSlot _) h₃)

end

end Trees

end Funclet
