import Funclet.Ast
import Funclet.Proofs.Evaluation
import Funclet.Proofs.Lowering.Drafts

/-!
# The code of a tree

Which code belongs to which tree, said without the lowering that writes it and without the machine that runs it.

* `ExprCode link Γ c e is c' v` : where the variables are in the slots that `Γ` says, the instructions `is` compute the
  expression `e` into the value `v`; `link` says which functions names mean;
* `StmtCode link b again Γ c p s p' c' v` : the code of the statement `s` leads from the point `p` of `b` to `p'`, with
  the value of the statement in `v`, unless control goes to the region `again` or leaves the body;
* `BodyCode link f b` : the body `b` is the code of the function `f`;
* `ExprCode.le`, `StmtCode.le` : nothing in use is used again.
-/

namespace Funclet

/-- Which functions a name means for a number of arguments. -/
abbrev Link := String → Nat → FunctionId → Prop

/-! ## Expressions -/

mutual

/-- The instructions of an expression, and the value that they compute it into. -/
inductive ExprCode (link : Link) :
    Frames SlotId → Counts → Expr → List Inst → Counts → ValueId → Prop
  | number {Γ c pos x} : ExprCode link Γ c (.number pos x) [.const c.values (.number x)] c.next c.values
  | text {Γ c pos s} : ExprCode link Γ c (.text pos s) [.const c.values (.text s)] c.next c.values
  | var {Γ c pos name slot} (hslot : Γ.lookup name = some slot) :
      ExprCode link Γ c (.var pos name) [.load c.values slot] c.next c.values
  | unary {Γ c pos op operand is c₁ v f} (h : ExprCode link Γ c operand is c₁ v) (hf : link (unaryName op) 1 f) :
      ExprCode link Γ c (.unary pos op operand) (is ++ [.call c₁.values f [v]]) c₁.next c₁.values
  | assign {Γ c pos target name rhs is c₁ v slot} (h : ExprCode link Γ c rhs is c₁ v)
      (hslot : Γ.lookup name = some slot) :
      ExprCode link Γ c (.binary pos '=' (.var target name) rhs) (is ++ [.store slot v]) c₁ v
  | primitive {Γ c pos op lhs rhs is c₁ l js c₂ r p} (hop : op ≠ '=') (hl : ExprCode link Γ c lhs is c₁ l)
      (hr : ExprCode link Γ c₁ rhs js c₂ r) (hp : Primitive.ofSymbol? op = some p) :
      ExprCode link Γ c (.binary pos op lhs rhs) (is ++ js ++ [.primitive c₂.values p l r]) c₂.next c₂.values
  | binary {Γ c pos op lhs rhs is c₁ l js c₂ r f} (hop : op ≠ '=') (hl : ExprCode link Γ c lhs is c₁ l)
      (hr : ExprCode link Γ c₁ rhs js c₂ r) (hp : Primitive.ofSymbol? op = none) (hf : link (binaryName op) 2 f) :
      ExprCode link Γ c (.binary pos op lhs rhs) (is ++ js ++ [.call c₂.values f [l, r]]) c₂.next c₂.values
  | call {Γ c pos name args is c₁ vs f} (h : ExprsCode link Γ c args is c₁ vs) (hf : link name args.length f) :
      ExprCode link Γ c (.call pos name args) (is ++ [.call c₁.values f vs]) c₁.next c₁.values
  | letIn {Γ c pos bindings body is c₁ Γ₁ js c₂ v} (hb : BindingsCode link ([] :: Γ) c bindings is c₁ Γ₁)
      (h : ExprCode link Γ₁ c₁ body js c₂ v) : ExprCode link Γ c (.letIn pos bindings body) (is ++ js) c₂ v

inductive ExprsCode (link : Link) :
    Frames SlotId → Counts → List Expr → List Inst → Counts → List ValueId → Prop
  | nil {Γ c} : ExprsCode link Γ c [] [] c []
  | cons {Γ c e es is c₁ v js c₂ vs} (h : ExprCode link Γ c e is c₁ v) (hs : ExprsCode link Γ c₁ es js c₂ vs) :
      ExprsCode link Γ c (e :: es) (is ++ js) c₂ (v :: vs)

/-- The instructions of a `VAR` list, and the frames behind it. -/
inductive BindingsCode (link : Link) :
    Frames SlotId → Counts → List Binding → List Inst → Counts → Frames SlotId → Prop
  | nil {Γ c} : BindingsCode link Γ c [] [] c Γ
  | zero {Γ c pos name bs is c₁ Γ₁}
      (h : BindingsCode link (Γ.declare name c.slots) c.next.withSlot bs is c₁ Γ₁) :
      BindingsCode link Γ c (⟨pos, name, none⟩ :: bs)
        ([.const c.values (.number 0), .store c.slots c.values] ++ is) c₁ Γ₁
  | init {Γ c pos name e bs is c₁ v js c₂ Γ₂} (he : ExprCode link Γ c e is c₁ v)
      (h : BindingsCode link (Γ.declare name c₁.slots) c₁.withSlot bs js c₂ Γ₂) :
      BindingsCode link Γ c (⟨pos, name, some e⟩ :: bs) (is ++ [.store c₁.slots v] ++ js) c₂ Γ₂

end

/-! ## Statements -/

/-- The instructions that compare the value `v` with zero, where `n` is the next value. -/
def truthCode (v n : ValueId) : List Inst := [.const n (.number 0), .primitive (n + 1) .ne v n]

/-- The code at `p` that computes a condition, by way of the slot `flag`, and goes to `yes` or `no`. -/
inductive TestCode (link : Link) (b : Body) (Γ : Frames SlotId) (flag : SlotId) (yes no : RegionId) :
    Counts → Point → Expr → Counts → Prop
  | intro {c p test is c₁ v} (h : ExprCode link Γ c test is c₁ v)
      (hat : CodeAt b p (is ++ truthCode v c₁.values ++
        [.store flag (c₁.values + 1), .load (c₁.values + 2) flag]))
      (hclosed : ClosedAt b (p.plus (is.length + 4)) (.branchIf (c₁.values + 2) yes no)) :
      TestCode link b Γ flag yes no c p test c₁.next.next.next

/-- The code at `p` that computes the condition of an `IF`, puts zero into the slot `result`, and goes to `yes` or
`no`. -/
inductive BranchCode (link : Link) (b : Body) (Γ : Frames SlotId) (yes no : RegionId) :
    Counts → Point → Expr → SlotId → Counts → Prop
  | intro {c p test is c₁ v} (h : ExprCode link Γ c test is c₁ v)
      (hat : CodeAt b p (is ++ truthCode v c₁.values ++
        [.const (c₁.values + 2) (.number 0), .store c₁.slots (c₁.values + 2)]))
      (hclosed : ClosedAt b (p.plus (is.length + 4)) (.branchIf (c₁.values + 1) yes no)) :
      BranchCode link b Γ yes no c p test c₁.slots c₁.next.next.next.withSlot

/-- At `p`, the value `v` of an arm of an `IF` goes to the slot `result`, and control to the region `merge`. -/
structure ArmEnd (b : Body) (result : SlotId) (merge : RegionId) (p : Point) (v : ValueId) : Prop where
  store : CodeAt b p [.store result v]
  closed : ClosedAt b (p.plus 1) (.branch merge)

mutual

/-- The code of a statement, from one point of a body to another. -/
inductive StmtCode (link : Link) (b : Body) :
    Option RegionId → Frames SlotId → Counts → Point → Stmt → Point → Counts → ValueId → Prop
  | assign {again Γ c p pos name value is c₁ v slot} (h : ExprCode link Γ c value is c₁ v)
      (hslot : Γ.lookup name = some slot) (hat : CodeAt b p (is ++ [.store slot v])) :
      StmtCode link b again Γ c p (.assign pos name value) (p.plus (is.length + 1)) c₁ v
  | ret {again Γ c p pos value is c₁ v p'} (h : ExprCode link Γ c value is c₁ v) (hat : CodeAt b p is)
      (hclosed : ClosedAt b (p.plus is.length) (.ret v)) : StmtCode link b again Γ c p (.ret pos value) p' c₁ v
  | print {again Γ c p pos items is c₁ vs} (h : ExprsCode link Γ c items is c₁ vs)
      (hat : CodeAt b p (is ++ [.print vs, .const c₁.values (.number 0)])) :
      StmtCode link b again Γ c p (.print pos items) (p.plus (is.length + 2)) c₁.next c₁.values
  | again {target Γ c p pos p'} (hclosed : ClosedAt b p (.branch target)) :
      StmtCode link b (some target) Γ c p (.again pos) p' c.next c.values
  | condThen {again Γ c p pos test yes yesRegion merge result c₁ q c₂ w}
      (ht : BranchCode link b Γ yesRegion merge c p test result c₁)
      (hyes : StmtCode link b again ([] :: Γ) c₁ ⟨yesRegion, 0⟩ yes q c₂ w) (hend : ArmEnd b result merge q w)
      (hat : CodeAt b ⟨merge, 0⟩ [.load c₂.values result]) :
      StmtCode link b again Γ c p (.cond pos test yes none) ⟨merge, 1⟩ c₂.next c₂.values
  | condElse {again Γ c p pos test yes no yesRegion noRegion merge result c₁ q c₂ w q' c₃ w'}
      (ht : BranchCode link b Γ yesRegion noRegion c p test result c₁)
      (hyes : StmtCode link b again ([] :: Γ) c₁ ⟨yesRegion, 0⟩ yes q c₂ w) (hyesEnd : ArmEnd b result merge q w)
      (hno : StmtCode link b again ([] :: Γ) c₂ ⟨noRegion, 0⟩ no q' c₃ w') (hnoEnd : ArmEnd b result merge q' w')
      (hat : CodeAt b ⟨merge, 0⟩ [.load c₃.values result]) :
      StmtCode link b again Γ c p (.cond pos test yes (some no)) ⟨merge, 1⟩ c₃.next c₃.values
  | loop {again Γ c p pos test body pass retest after c₁ q c₂ w c₃}
      (ht : TestCode link b Γ c.slots pass after c.withSlot p test c₁)
      (hbody : StmtCode link b (some retest) ([] :: Γ) c₁ ⟨pass, 0⟩ body q c₂ w)
      (hend : ClosedAt b q (.branch retest))
      (ht' : TestCode link b Γ c.slots pass after c₂ ⟨retest, 0⟩ test c₃)
      (hat : CodeAt b ⟨after, 0⟩ [.const c₃.values (.number 0)]) :
      StmtCode link b again Γ c p (.loop pos test body) ⟨after, 1⟩ c₃.next c₃.values
  | emptyBlock {again Γ c p pos declared is c₁ Γ₁} (hb : BindingsCode link ([] :: Γ) c declared is c₁ Γ₁)
      (hat : CodeAt b p (is ++ [.const c₁.values (.number 0)])) :
      StmtCode link b again Γ c p (.block pos declared []) (p.plus (is.length + 1)) c₁.next c₁.values
  | block {again Γ c p pos declared body is c₁ Γ₁ p' c₂ v} (hb : BindingsCode link ([] :: Γ) c declared is c₁ Γ₁)
      (hat : CodeAt b p is) (h : StmtsCode link b again Γ₁ c₁ (p.plus is.length) body p' c₂ v) :
      StmtCode link b again Γ c p (.block pos declared body) p' c₂ v
  | letIn {again Γ c p pos bindings body is c₁ Γ₁ p' c₂ v} (hb : BindingsCode link ([] :: Γ) c bindings is c₁ Γ₁)
      (hat : CodeAt b p is) (h : StmtCode link b again Γ₁ c₁ (p.plus is.length) body p' c₂ v) :
      StmtCode link b again Γ c p (.letIn pos bindings body) p' c₂ v

inductive StmtsCode (link : Link) (b : Body) :
    Option RegionId → Frames SlotId → Counts → Point → List Stmt → Point → Counts → ValueId → Prop
  | single {again Γ c p s p' c₁ v} (h : StmtCode link b again Γ c p s p' c₁ v) :
      StmtsCode link b again Γ c p [s] p' c₁ v
  | cons {again Γ c p s s' ss p₁ c₁ v₁ p₂ c₂ v₂} (h : StmtCode link b again Γ c p s p₁ c₁ v₁)
      (hs : StmtsCode link b again Γ c₁ p₁ (s' :: ss) p₂ c₂ v₂) : StmtsCode link b again Γ c p (s :: s' :: ss) p₂ c₂ v₂

end

/-! ## Functions -/

/-- The instructions that put the parameters, from the one with the given index on, into slots. -/
def paramCode : Nat → List String → List Inst
  | _, [] => []
  | i, _ :: names => .param i i :: .store i i :: paramCode (i + 1) names

/-- The body `b` is the code of the function `f`. -/
structure BodyCode (link : Link) (f : Function) (b : Body) : Prop where
  params : b.params = f.proto.arity
  paramsAt : CodeAt b ⟨0, 0⟩ (paramCode 0 f.proto.params)
  body : ∃ p c v, StmtCode link b none [f.proto.params.zipIdx.reverse] ⟨f.proto.arity, f.proto.arity⟩
    ⟨0, 2 * f.proto.arity⟩ f.body p c v ∧ ClosedAt b p (.ret v) ∧ c.Le ⟨b.valueCount, b.slots.size⟩

/-! ## Counts -/

mutual

theorem ExprCode.le {link : Link} {Γ : Frames SlotId} {c c' : Counts} {is : List Inst} {v : ValueId} :
    ∀ {e : Expr}, ExprCode link Γ c e is c' v → c.Le c' ∧ v < c'.values
  | _, .number => ⟨c.le_next, Nat.lt_succ_self _⟩
  | _, .text => ⟨c.le_next, Nat.lt_succ_self _⟩
  | _, .var _ => ⟨c.le_next, Nat.lt_succ_self _⟩
  | _, .unary h _ => ⟨h.le.1.trans (Counts.le_next _), Nat.lt_succ_self _⟩
  | _, .assign h _ => h.le
  | _, .primitive _ hl hr _ => ⟨(hl.le.1.trans hr.le.1).trans (Counts.le_next _), Nat.lt_succ_self _⟩
  | _, .binary _ hl hr _ _ => ⟨(hl.le.1.trans hr.le.1).trans (Counts.le_next _), Nat.lt_succ_self _⟩
  | _, .call h _ => ⟨h.le.1.trans (Counts.le_next _), Nat.lt_succ_self _⟩
  | _, .letIn hb h => ⟨hb.le.trans h.le.1, h.le.2⟩

theorem ExprsCode.le {link : Link} {Γ : Frames SlotId} {c c' : Counts} {is : List Inst} {vs : List ValueId} :
    ∀ {es : List Expr}, ExprsCode link Γ c es is c' vs → c.Le c' ∧ ∀ v ∈ vs, v < c'.values
  | _, .nil => ⟨.refl c, by simp⟩
  | _, .cons h hs => by
    refine ⟨h.le.1.trans hs.le.1, ?_⟩
    intro v hv
    rcases List.mem_cons.mp hv with rfl | hv
    · exact Nat.lt_of_lt_of_le h.le.2 hs.le.1.values
    · exact hs.le.2 v hv

theorem BindingsCode.le {link : Link} {Γ Γ' : Frames SlotId} {c c' : Counts} {is : List Inst} :
    ∀ {bs : List Binding}, BindingsCode link Γ c bs is c' Γ' → c.Le c'
  | _, .nil => .refl c
  | _, .zero h => (c.le_next.trans (Counts.le_withSlot _)).trans h.le
  | _, .init he h => (he.le.1.trans (Counts.le_withSlot _)).trans h.le

end

theorem ExprsCode.length {link : Link} {Γ : Frames SlotId} {c c' : Counts} {is : List Inst} {vs : List ValueId} :
    ∀ {es : List Expr}, ExprsCode link Γ c es is c' vs → es.length = vs.length
  | _, .nil => rfl
  | _, .cons _ hs => congrArg (· + 1) hs.length

section Statements

variable {link : Link} {b : Body} {Γ : Frames SlotId} {c c' : Counts} {p p' : Point} {again : Option RegionId}

theorem TestCode.le {flag : SlotId} {yes no : RegionId} {test : Expr}
    (h : TestCode link b Γ flag yes no c p test c') : c.Le c' := by
  cases h with
  | intro h _ _ => exact ((h.le.1.trans (Counts.le_next _)).trans (Counts.le_next _)).trans (Counts.le_next _)

theorem BranchCode.le {result : SlotId} {yes no : RegionId} {test : Expr}
    (h : BranchCode link b Γ yes no c p test result c') : c.Le c' := by
  cases h with
  | intro h _ _ =>
    exact (((h.le.1.trans (Counts.le_next _)).trans (Counts.le_next _)).trans (Counts.le_next _)).trans
      (Counts.le_withSlot _)

end Statements

mutual

theorem StmtCode.le {link : Link} {b : Body} {again : Option RegionId} {Γ : Frames SlotId} {c c' : Counts}
    {p p' : Point} {v : ValueId} : ∀ {s : Stmt}, StmtCode link b again Γ c p s p' c' v → c.Le c'
  | _, .assign h _ _ => h.le.1
  | _, .ret h _ _ => h.le.1
  | _, .print h _ => h.le.1.trans (Counts.le_next _)
  | _, .again _ => c.le_next
  | _, .condThen ht hyes _ _ => (ht.le.trans hyes.le).trans (Counts.le_next _)
  | _, .condElse ht hyes _ hno _ _ => ((ht.le.trans hyes.le).trans hno.le).trans (Counts.le_next _)
  | _, .loop ht hbody _ ht' _ =>
    (c.le_withSlot.trans ((ht.le.trans hbody.le).trans ht'.le)).trans (Counts.le_next _)
  | _, .emptyBlock hb _ => hb.le.trans (Counts.le_next _)
  | _, .block hb _ h => hb.le.trans h.le
  | _, .letIn hb _ h => hb.le.trans h.le

theorem StmtsCode.le {link : Link} {b : Body} {again : Option RegionId} {Γ : Frames SlotId} {c c' : Counts}
    {p p' : Point} {v : ValueId} : ∀ {ss : List Stmt}, StmtsCode link b again Γ c p ss p' c' v → c.Le c'
  | _, .single h => h.le
  | _, .cons h hs => h.le.trans hs.le

end

end Funclet
