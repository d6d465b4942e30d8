import Funclet.Proofs.Simulation.Expressions

/-!
# The code of statements goes where they say

* `Flows` : where the run is when control goes on behind a statement, with the next test, or with the caller;
* `TestCode.sim`, `BranchCode.sim` : conditions, up to the step that leaves their region;
* `loop_sim` : loops, by induction on the number of tests, each of which takes at least one step;
* `StmtCode.sim`, `StmtsCode.sim` : the code of a statement does what its evaluation says.
-/

namespace Funclet

open Evaluation Machine

/-- Where the run is when control goes on from a statement: behind it, at the point `q`, with the value of the statement
in `v`; at the test of the innermost loop; or where the body returns. -/
def Flows (b : Body) (again : Option RegionId) (Γ : Frames SlotId) (c : Counts) (q : Point) (v : ValueId) :
    Flow → State → Config → Prop
  | .next x, σ, C => Matches b q Γ c σ C ∧ C.frame.values[v]? = some x
  | .again, σ, C => ∃ target, again = some target ∧ Matches b ⟨target, 0⟩ Γ c σ C
  | .ret x, σ, C => ∃ w, ClosedAt b C.point (.ret w) ∧ C.frame.values[w]? = some x ∧ C.text = σ.printed

section Flows

variable {b : Body} {again : Option RegionId} {Γ : Frames SlotId} {c c' : Counts} {q q' : Point} {v v' : ValueId}
  {flow : Flow} {σ : State} {C : Config}

theorem Flows.leave {f : List (String × SlotId)} (h : Flows b again (f :: Γ) c q v flow σ C) :
    Flows b again Γ c q v flow { σ with env := σ.env.tail } C := by
  cases flow with
  | next x => exact ⟨h.1.leave, h.2⟩
  | again =>
    obtain ⟨target, hagain, hm⟩ := h
    exact ⟨target, hagain, hm.leave⟩
  | ret x => exact h

/-- What goes on elsewhere does not depend on what is behind the statement. -/
theorem Flows.elsewhere (h : Flows b again Γ c q v flow σ C) (hflow : ∀ x, flow ≠ .next x) (hc : c.Le c') :
    Flows b again Γ c' q' v' flow σ C := by
  cases flow with
  | next x => exact absurd rfl (hflow x)
  | again =>
    obtain ⟨target, hagain, hm⟩ := h
    exact ⟨target, hagain, hm.mono hc⟩
  | ret x => exact h

end Flows

section Steps

variable {M : String → Prop} {p : Program} {b : Body} {A : List Value} {link : Link} {call : Calls} {n : Nat}
  {q : Point} {Γ : Frames SlotId} {c c' : Counts} {σ : State} {C : Config}

/-- Steps that the run takes behind what is evaluated. -/
theorem Sim.andThen {α : Type} {r : EStateM.Result Stop State α} {P Q : α → State → Config → Prop}
    (h : Sim M p b A n C r P) (hPQ : ∀ a σ' C', P a σ' C' → ∃ C'', C'.Reaches p b A C'' ∧ Q a σ' C'') :
    Sim M p b A n C r Q := by
  cases r with
  | ok a σ =>
    obtain ⟨C', hC', hP⟩ := h
    obtain ⟨C'', hC'', hQ⟩ := hPQ a σ C' hP
    exact ⟨C'', hC'.trans hC'', hQ⟩
  | error e σ => cases e <;> exact h

/-- A step that writes a slot without a variable. -/
theorem Matches.step_spare (hm : Matches b q Γ c σ C) {s : SlotId} {v : ValueId} {x : Value}
    (hat : CodeAt b q [.store s v]) (hs : s ∉ Γ.slots) (hlt : s < b.slots.size) (hv : C.frame.values[v]? = some x) :
    ∃ C', C.Step p b A C' ∧ Matches b (q.plus 1) Γ c σ C' ∧ C'.frame.slots[s]? = some x ∧
      C'.frame.values = C.frame.values := by
  rw [← hm.slots] at hlt
  rw [hm.config]
  exact ⟨_, Config.step_store hat hv hlt, hm.spare hs _ x, Array.getElem?_setIfInBounds_self_of_lt hlt, rfl⟩

theorem truthValue_eq_zero (t : Bool) : (truthValue t == 0) = !t := by
  cases t <;> decide +kernel

/-- The comparison of a condition with zero. -/
theorem holds_sim {v : ValueId} {x : Value} (hat : CodeAt b q (truthCode v c.values)) (hc : c.next.next.Le b.counts)
    (hv : v < c.values) (hm : Matches b q Γ c σ C) (hx : C.frame.values[v]? = some x) :
    Sim M p b A n C (holds x σ) fun t σ' C' =>
      Matches b (q.plus 2) Γ c.next.next σ' C' ∧ C'.frame.values[c.values + 1]? = some (.number (truthValue t)) := by
  obtain ⟨hat₁, hat₂⟩ := CodeAt.cons hat
  have hc₁ := (Counts.le_next _).trans hc
  obtain ⟨C₁, hstep₁, h₁, hzero⟩ := hm.step_define hc₁ (Config.step_const hat₁ (hm.value_lt hc₁))
  have hx₁ := (h₁.keeps v hv).trans hx
  refine .of_reaches hstep₁.reaches ?_
  cases x with
  | text s =>
    rw [h₁.state.config]
    exact ⟨trivial, Config.ends_primitive_text hat₂ (.inl hx₁)⟩
  | number x =>
    obtain ⟨C₂, hstep₂, h₂, ht⟩ := h₁.state.step_define hc
      (Config.step_primitive hat₂ hx₁ hzero (z := truthValue (x != 0)) rfl (h₁.state.value_lt hc))
    exact ⟨C₂, hstep₂.reaches, h₂.state, ht⟩

/-- The step that leaves the region of a condition. -/
theorem Matches.step_branchIf (hm : Matches b q Γ c σ C) {v : ValueId} {yes no : RegionId} {t : Bool}
    (hat : ClosedAt b q (.branchIf v yes no)) (hv : C.frame.values[v]? = some (.number (truthValue t))) :
    ∃ C', C.Step p b A C' ∧ Matches b ⟨if t then yes else no, 0⟩ Γ c σ C' ∧ C'.frame.slots = C.frame.slots := by
  have hstep := Config.step_branchIf (p := p) (A := A) (t := σ.printed) hat hv
  rw [truthValue_eq_zero, ← hm.config] at hstep
  refine ⟨_, hstep, ⟨?_, rfl, hm.values, hm.slots, hm.layout, hm.cells⟩, rfl⟩
  cases t <;> rfl

end Steps

/-! ## Conditions -/

section Conditions

variable {M : String → Prop} {p : Program} {b : Body} {A : List Value} {link : Link} {call : Calls} {n : Nat}
  {q : Point} {Γ : Frames SlotId} {c c' : Counts} {yes no : RegionId} {test : Expr} {σ : State} {C : Config}

/-- A condition of a loop is computed, and the next step goes to the region that it chooses. -/
theorem TestCode.sim (hcall : CallSim M p link call n) {flag : SlotId} (h : TestCode link b Γ flag yes no c q test c')
    (hc : c'.Le b.counts) (hflag : flag ∉ Γ.slots) (hlt : flag < b.slots.size) (hm : Matches b q Γ c σ C) :
    Sim M p b A n C (evalTest call test σ) fun t σ' C' =>
      ∃ C'', C'.Step p b A C'' ∧ Matches b ⟨if t then yes else no, 0⟩ Γ c' σ' C'' := by
  cases h with
  | @intro is c₁ v h hat hclosed =>
    obtain ⟨hat₁₂, hat₃⟩ := hat.append
    obtain ⟨hat₁, hat₂⟩ := hat₁₂.append
    obtain ⟨hstore, hload⟩ := CodeAt.cons hat₃
    rw [List.length_append, ← Point.plus_plus] at hstore hload
    have hc₂ := (Counts.le_next _).trans hc
    have hc₁ := (Counts.le_next _).trans ((Counts.le_next _).trans hc₂)
    refine ((h.sim hcall hat₁ hc₁ hm).bind fun x σ₁ C₁ hx => holds_sim hat₂ hc₂ h.le.2 hx.1.state hx.2).andThen ?_
    rintro t σ₂ C₂ ⟨hm₂, ht⟩
    obtain ⟨C₃, hstep₃, hm₃, hslot, -⟩ := hm₂.step_spare (p := p) (A := A) hstore hflag hlt ht
    obtain ⟨C₄, hstep₄, h₄, ht₄⟩ := hm₃.step_define hc (Config.step_load hload hslot (hm₃.value_lt hc))
    have hat₄ : ClosedAt b _ (.branchIf c₁.next.next.values yes no) := hclosed
    obtain ⟨C₅, hstep₅, hm₅, -⟩ := h₄.state.step_branchIf (p := p) (A := A) hat₄ ht₄
    exact ⟨C₄, hstep₃.reaches.trans hstep₄.reaches, C₅, hstep₅, hm₅⟩

/-- The result of an `IF` has a slot of its own. -/
theorem BranchCode.result_fresh {result : SlotId} (h : BranchCode link b Γ yes no c q test result c')
    (hl : Γ.Layout c.slots) (hc : c'.Le b.counts) : result ∉ Γ.slots ∧ result < b.slots.size := by
  cases h with
  | intro h _ _ => exact ⟨(hl.mono h.le.1.slots).fresh, hc.slots⟩

/-- The condition of an `IF` is computed, its result is zero so far, and the next step goes to the region that the
condition chooses. -/
theorem BranchCode.sim (hcall : CallSim M p link call n) {result : SlotId}
    (h : BranchCode link b Γ yes no c q test result c') (hc : c'.Le b.counts) (hm : Matches b q Γ c σ C) :
    Sim M p b A n C (evalTest call test σ) fun t σ' C' =>
      ∃ C'', C'.Step p b A C'' ∧ Matches b ⟨if t then yes else no, 0⟩ Γ c' σ' C'' ∧
        C''.frame.slots[result]? = some (.number 0) := by
  cases h with
  | @intro is c₁ v h hat hclosed =>
    obtain ⟨hat₁₂, hat₃⟩ := hat.append
    obtain ⟨hat₁, hat₂⟩ := hat₁₂.append
    obtain ⟨hconst, hstore⟩ := CodeAt.cons hat₃
    rw [List.length_append, ← Point.plus_plus] at hconst hstore
    have hc₃ := (Counts.le_withSlot _).trans hc
    have hc₂ := (Counts.le_next _).trans hc₃
    have hc₁ := (Counts.le_next _).trans ((Counts.le_next _).trans hc₂)
    refine ((h.sim hcall hat₁ hc₁ hm).bind fun x σ₁ C₁ hx => holds_sim hat₂ hc₂ h.le.2 hx.1.state hx.2).andThen ?_
    rintro t σ₂ C₂ ⟨hm₂, ht⟩
    obtain ⟨C₃, hstep₃, h₃, hzero⟩ := hm₂.step_define hc₃ (Config.step_const hconst (hm₂.value_lt hc₃))
    have ht₃ := (h₃.keeps _ (Nat.lt_succ_self _)).trans ht
    obtain ⟨C₄, hstep₄, hm₄, hslot, hvalues⟩ := h₃.state.step_spare (p := p) (A := A) hstore h₃.state.layout.fresh
      hc.slots hzero
    rw [← hvalues] at ht₃
    obtain ⟨C₅, hstep₅, hm₅, hslots⟩ := hm₄.step_branchIf (p := p) (A := A) hclosed ht₃
    refine ⟨C₄, hstep₃.reaches.trans hstep₄.reaches, C₅, hstep₅, hm₅.mono (Counts.le_withSlot _), ?_⟩
    rw [hslots]
    exact hslot

end Conditions

/-! ## Statements -/

section Parts

variable {M : String → Prop} {p : Program} {b : Body} {A : List Value} {link : Link} {call : Calls} {n : Nat}
  {Γ : Frames SlotId}

theorem print_sim {again : Option RegionId} {c : Counts} {vs : List ValueId} {xs : List Value} {q : Point} {σ : State}
    {C : Config} (hat : CodeAt b q [.print vs, .const c.values (.number 0)]) (hc : c.next.Le b.counts)
    (hm : Matches b q Γ c σ C) (hxs : Config.Holds C.frame vs xs) :
    Sim M p b A n C
      ((do
        printLine (String.join (xs.map Value.render))
        pure (.next (.number 0)) : Eval Flow) σ)
      (Flows b again Γ c.next (q.plus 2) c.values) := by
  obtain ⟨hat₁, hat₂⟩ := CodeAt.cons hat
  have hstep := Config.step_print (p := p) (A := A) (t := σ.printed) hat₁ hxs
  rw [← hm.config] at hstep
  have hm₁ := hm.move (q.plus 1) (σ.printed ++ String.join (xs.map Value.render) ++ "\n")
  obtain ⟨C₂, hstep₂, h₂, hzero⟩ := hm₁.step_define hc (Config.step_const hat₂ (hm₁.value_lt hc))
  exact ⟨C₂, hstep.reaches.trans hstep₂.reaches, h₂.state, hzero⟩

/-- Behind an arm of an `IF`, the result of the arm is that of the whole. -/
theorem arm_sim {again : Option RegionId} {c c' : Counts} {q : Point} {result : SlotId} {merge : RegionId}
    {w : ValueId} {part : Eval Flow} {σ : State} {C : Config} (hend : ArmEnd b result merge q w)
    (hat : CodeAt b ⟨merge, 0⟩ [.load c'.values result]) (hc : c'.next.Le b.counts) (hle : c.Le c')
    (hresult : result ∉ Γ.slots) (hlt : result < b.slots.size)
    (h : Sim M p b A n C (part { σ with env := [] :: σ.env }) (Flows b again ([] :: Γ) c q w)) :
    Sim M p b A n C (inScope part σ) (Flows b again Γ c'.next ⟨merge, 1⟩ c'.values) := by
  refine (h.inScope fun flow σ' C' hflow => hflow.leave).andThen ?_
  intro flow σ' C' hflow
  cases flow with
  | next x =>
    obtain ⟨hm, hx⟩ := hflow
    obtain ⟨C₁, hstep₁, hm₁, hslot, -⟩ := hm.step_spare (p := p) (A := A) hend.store hresult hlt hx
    have hstep₂ := Config.step_branch (p := p) (A := A) (f := C₁.frame) (t := σ'.printed) hend.closed
    rw [← hm₁.config] at hstep₂
    have hm₂ := (hm₁.mono hle).move ⟨merge, 0⟩ σ'.printed
    obtain ⟨C₃, hstep₃, h₃, hx₃⟩ := hm₂.step_define hc (Config.step_load hat hslot (hm₂.value_lt hc))
    exact ⟨C₃, hstep₁.reaches.trans (hstep₂.reaches.trans hstep₃.reaches), h₃.state, hx₃⟩
  | again => exact ⟨C', Leads.refl _ _, hflow.elsewhere nofun (hle.trans (Counts.le_next _))⟩
  | ret x => exact ⟨C', Leads.refl _ _, hflow.elsewhere nofun (hle.trans (Counts.le_next _))⟩

/-- Loops, from any of their tests on. The last step of a test makes up for the bound that it uses. -/
theorem loop_sim (hcall : CallSim M p link call n) {again : Option RegionId} {c₁ c₂ c₃ : Counts} {q : Point}
    {flag : SlotId} {pass retest after : RegionId} {test : Expr} {w : ValueId} {part : Eval Flow}
    (hpass : ∀ {σ C}, Matches b ⟨pass, 0⟩ ([] :: Γ) c₁ σ C →
      Sim M p b A n C (part σ) (Flows b (some retest) ([] :: Γ) c₂ q w))
    (hend : ClosedAt b q (.branch retest)) (ht' : TestCode link b Γ flag pass after c₂ ⟨retest, 0⟩ test c₃)
    (hat : CodeAt b ⟨after, 0⟩ [.const c₃.values (.number 0)]) (hc : c₃.next.Le b.counts) (hflag : flag ∉ Γ.slots)
    (hlt : flag < b.slots.size) (hl : Γ.Layout c₁.slots) (hle : c₁.Le c₂) :
    ∀ j ≤ n, ∀ {q₀ c₀ c₀' σ C}, TestCode link b Γ flag pass after c₀ q₀ test c₀' → c₀'.Le b.counts →
      Matches b q₀ Γ c₀ σ C →
      Sim M p b A j C (loopFor (evalTest call test) (inScope part) j σ)
        (Flows b again Γ c₃.next ⟨after, 1⟩ c₃.values) := by
  intro j
  induction j with
  | zero => exact fun _ _ _ _ _ _ _ _ _ => Exceeds.zero _ _
  | succ j ih =>
    intro hj q₀ c₀ c₀' σ C ht hc₀ hm
    rw [loopFor]
    refine ((ht.sim hcall hc₀ hflag hlt hm).of_le hj).bind ?_
    rintro x σ₁ C₁ ⟨C₂, hstep, hm₂⟩
    refine .of_step hstep ?_
    have hc₃ : c₂.Le c₃ := ht'.le
    split
    · rename_i hx
      rw [if_pos hx] at hm₂
      have hpass₂ := (hpass (hm₂.relayout hl).enter).inScope fun flow σ' C' hflow => hflow.leave
      refine (hpass₂.of_le (Nat.le_of_succ_le hj)).bind ?_
      intro flow σ₃ C₃ hflow
      cases flow with
      | ret y => exact .pure hflow
      | again =>
        obtain ⟨target, htarget, hm₃⟩ := hflow
        cases htarget
        exact ih (Nat.le_of_succ_le hj) ht' ((Counts.le_next _).trans hc) hm₃
      | next y =>
        obtain ⟨hm₃, -⟩ := hflow
        have hback := Config.step_branch (p := p) (A := A) (f := C₃.frame) (t := σ₃.printed) hend
        rw [← hm₃.config] at hback
        exact .of_reaches hback.reaches
          (ih (Nat.le_of_succ_le hj) ht' ((Counts.le_next _).trans hc) (hm₃.move ⟨retest, 0⟩ σ₃.printed))
    · rename_i hx
      rw [if_neg hx] at hm₂
      have hm₃ : Matches b ⟨after, 0⟩ Γ c₃ σ₁ C₂ := hm₂.relayout (hl.mono (hle.trans hc₃).slots)
      obtain ⟨C₃, hstep₃, h₃, hzero⟩ := hm₃.step_define hc (Config.step_const hat (hm₃.value_lt hc))
      exact ⟨C₃, hstep₃.reaches, h₃.state, hzero⟩

end Parts

section Statements

variable {M : String → Prop} {p : Program} {b : Body} {A : List Value} {link : Link} {call : Calls} {n : Nat}

theorem flows_inScope {part : Eval Flow} {again : Option RegionId} {q : Point} {Γ : Frames SlotId}
    {f : List (String × SlotId)} {c : Counts} {v : ValueId} {σ : State} {C : Config}
    (h : Sim M p b A n C (part { σ with env := [] :: σ.env }) (Flows b again (f :: Γ) c q v)) :
    Sim M p b A n C (inScope part σ) (Flows b again Γ c q v) :=
  h.inScope fun _ _ _ hflow => hflow.leave

mutual

/-- The code of a statement does what its evaluation says. -/
theorem StmtCode.sim (hcall : CallSim M p link call n) {again : Option RegionId} {Γ : Frames SlotId} {c c' : Counts}
    {q q' : Point} {v : ValueId} {σ : State} {C : Config} :
    ∀ {s : Stmt}, StmtCode link b again Γ c q s q' c' v → c'.Le b.counts → Matches b q Γ c σ C →
      Sim M p b A n C (evalStmt call n s σ) (Flows b again Γ c' q' v)
  | _, .assign h hslot hat => by
    intro hc hm
    obtain ⟨hat₁, hat₂⟩ := hat.append
    rw [evalStmt, ← Point.plus_plus]
    refine (h.sim hcall hat₁ hc hm).bind ?_
    rintro x σ₁ C₁ ⟨h₁, hx⟩
    refine (assign_sim hat₂ hc h₁.state hslot hx).bind ?_
    rintro _ σ₂ C₂ ⟨h₂, hx₂⟩
    exact .pure ⟨h₂.state, hx₂⟩
  | _, .ret h hat hclosed => by
    intro hc hm
    rw [evalStmt]
    refine (h.sim hcall hat hc hm).bind ?_
    rintro x σ₁ C₁ ⟨h₁, hx⟩
    refine .pure ⟨_, ?_, hx, h₁.state.text⟩
    rw [h₁.state.point]
    exact hclosed
  | _, .print h hat => by
    intro hc hm
    obtain ⟨hat₁, hat₂⟩ := hat.append
    rw [evalStmt, ← Point.plus_plus]
    refine (h.sim hcall hat₁ ((Counts.le_next _).trans hc) hm).bind ?_
    rintro xs σ₁ C₁ ⟨h₁, hxs⟩
    exact print_sim hat₂ hc h₁.state hxs
  | _, .again hclosed => by
    intro hc hm
    have hstep := Config.step_branch (p := p) (A := A) (f := C.frame) (t := σ.printed) hclosed
    rw [← hm.config] at hstep
    rw [evalStmt]
    exact ⟨_, hstep.reaches, _, rfl, (hm.mono (Counts.le_next _)).move _ _⟩
  | _, .condThen ht hyes hend hat => by
    intro hc hm
    have hc₂ := (Counts.le_next _).trans hc
    have hc₁ := hyes.le.trans hc₂
    rw [evalStmt]
    refine (ht.sim hcall hc₁ hm).bind ?_
    rintro x σ₁ C₁ ⟨C₂, hstep, hm₂, hzero⟩
    refine .of_reaches hstep.reaches ?_
    obtain ⟨hfresh, hlt⟩ := ht.result_fresh hm.layout hc₁
    split
    · rename_i hx
      rw [if_pos hx] at hm₂
      exact arm_sim hend hat hc (.refl _) hfresh hlt (hyes.sim hcall hc₂ hm₂.enter)
    · rename_i hx
      rw [if_neg hx] at hm₂
      have hm₃ := hm₂.mono hyes.le
      obtain ⟨C₃, hstep₃, h₃, hx₃⟩ := hm₃.step_define hc (Config.step_load hat hzero (hm₃.value_lt hc))
      exact ⟨C₃, hstep₃.reaches, h₃.state, hx₃⟩
  | _, .condElse ht hyes hyesEnd hno hnoEnd hat => by
    intro hc hm
    have hc₃ := (Counts.le_next _).trans hc
    have hc₂ := hno.le.trans hc₃
    have hc₁ := hyes.le.trans hc₂
    rw [evalStmt]
    refine (ht.sim hcall hc₁ hm).bind ?_
    rintro x σ₁ C₁ ⟨C₂, hstep, hm₂, -⟩
    refine .of_reaches hstep.reaches ?_
    obtain ⟨hfresh, hlt⟩ := ht.result_fresh hm.layout hc₁
    split
    · rename_i hx
      rw [if_pos hx] at hm₂
      exact arm_sim hyesEnd hat hc hno.le hfresh hlt (hyes.sim hcall hc₂ hm₂.enter)
    · rename_i hx
      rw [if_neg hx] at hm₂
      exact arm_sim hnoEnd hat hc (.refl _) hfresh hlt (hno.sim hcall hc₃ (hm₂.mono hyes.le).enter)
  | _, .loop ht hbody hend ht' hat => by
    intro hc hm
    have hc₃ := (Counts.le_next _).trans hc
    have hc₂ := ht'.le.trans hc₃
    have hc₁ := hbody.le.trans hc₂
    have hlt : c.slots < b.slots.size := (ht.le.trans hc₁).slots
    rw [evalStmt]
    exact loop_sim hcall (hbody.sim hcall hc₂) hend ht' hat hc hm.layout.fresh hlt
      (hm.layout.mono ((Counts.le_withSlot _).trans ht.le).slots) hbody.le n (Nat.le_refl n) ht hc₁
      (hm.mono (Counts.le_withSlot _))
  | _, .emptyBlock hb hat => by
    intro hc hm
    obtain ⟨hat₁, hat₂⟩ := hat.append
    obtain ⟨f', rfl⟩ := hb.frames
    rw [evalStmt, ← Point.plus_plus]
    refine flows_inScope (f := f') ((hb.sim hcall hat₁ ((Counts.le_next _).trans hc) hm.enter).bind ?_)
    rintro _ σ₁ C₁ h₁
    obtain ⟨C₂, hstep, h₂, hzero⟩ := h₁.state.step_define hc (Config.step_const hat₂ (h₁.state.value_lt hc))
    rw [evalStmts]
    exact ⟨C₂, hstep.reaches, h₂.state, hzero⟩
  | _, .block hb hat h => by
    intro hc hm
    obtain ⟨f', rfl⟩ := hb.frames
    rw [evalStmt]
    refine flows_inScope (f := f') ((hb.sim hcall hat (h.le.trans hc) hm.enter).bind ?_)
    rintro _ σ₁ C₁ h₁
    exact h.sim hcall hc h₁.state
  | _, .letIn hb hat h => by
    intro hc hm
    obtain ⟨f', rfl⟩ := hb.frames
    rw [evalStmt]
    refine flows_inScope (f := f') ((hb.sim hcall hat (h.le.trans hc) hm.enter).bind ?_)
    rintro _ σ₁ C₁ h₁
    exact h.sim hcall hc h₁.state

/-- The code of statements does what they say, one after the other. -/
theorem StmtsCode.sim (hcall : CallSim M p link call n) {again : Option RegionId} {Γ : Frames SlotId} {c c' : Counts}
    {q q' : Point} {v : ValueId} {σ : State} {C : Config} :
    ∀ {ss : List Stmt}, StmtsCode link b again Γ c q ss q' c' v → c'.Le b.counts → Matches b q Γ c σ C →
      Sim M p b A n C (evalStmts call n ss σ) (Flows b again Γ c' q' v)
  | _, .single h => by
    intro hc hm
    rw [evalStmts]
    exact h.sim hcall hc hm
  | _, .cons h hs => by
    intro hc hm
    rw [evalStmts]
    · refine (h.sim hcall (hs.le.trans hc) hm).bind ?_
      intro flow σ₁ C₁ hflow
      cases flow with
      | next x => exact hs.sim hcall hc hflow.1
      | again => exact .pure (hflow.elsewhere nofun hs.le)
      | ret x => exact .pure hflow
    · nofun

end

end Statements

end Funclet
