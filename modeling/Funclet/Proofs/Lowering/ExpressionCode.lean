import Funclet.Proofs.Lowering.Code
import Funclet.Proofs.Lowering.Writing
import Funclet.Proofs.Reading.Names

/-!
# Lowering writes the code of expressions

* `Registry.Fitting` : every operator function that is defined has as many parameters as its operator has operands;
* `Covers link R` : `link` knows all that is registered in `R`;
* `lowerExpr_code` … `lowerBindings_code` : if lowering succeeds, the code that it has written is that of the tree.
-/

namespace Funclet

/-! ## Operator functions -/

def Fixity.functionName : Fixity → Char → String
  | .unary => unaryName
  | .binary => binaryName

/-- The functions that are defined bear proper names, and those behind operators have the right number of parameters. -/
def Registry.Fitting (R : Registry) : Prop :=
  ∀ name e, R.confirmed.get? name = some e → e.proto.name = name ∧ e.proto.WellNamed ∧
    ∀ fixity, Registry.fixity? e.proto.kind = some fixity → fixity.arity = e.proto.arity

theorem not_plainName_functionName (fixity : Fixity) {op : Char} (hop : Scan.isPunctuation op) :
    ¬ PlainName (fixity.functionName op) := by
  intro h
  have hmem : op ∈ (fixity.functionName op).toList := by
    cases fixity <;> simp [Fixity.functionName, unaryName, binaryName, Char.toString]
  have halnum := h op hmem
  simp only [Scan.isPunctuation, halnum, Bool.not_true, Bool.and_false] at hop
  cases hop

theorem functionName_inj {f g : Fixity} {op op' : Char} (h : f.functionName op = g.functionName op') : f = g := by
  have hl := congrArg String.toList h
  cases f with
  | unary =>
    cases g with
    | unary => rfl
    | binary => simp [Fixity.functionName, unaryName, binaryName] at hl
  | binary =>
    cases g with
    | unary => simp [Fixity.functionName, unaryName, binaryName] at hl
    | binary => rfl

/-- A function that bears the name of an operator is defined for such an operator. -/
theorem Prototype.WellNamed.fixity {p : Prototype} (h : p.WellNamed) {fixity : Fixity} {op : Char}
    (hop : Scan.isPunctuation op) (hname : p.name = fixity.functionName op) :
    Registry.fixity? p.kind = some fixity := by
  unfold WellNamed at h
  split at h
  · rw [hname] at h
    exact absurd h (not_plainName_functionName fixity hop)
  · rename_i op' hkind
    rw [hkind, functionName_inj (f := fixity) (g := .unary) (hname.symm.trans h.2)]
    rfl
  · rename_i op' p' hkind
    rw [hkind, functionName_inj (f := fixity) (g := .binary) (hname.symm.trans h.2)]
    rfl

theorem Registry.Fitting.arity {R : Registry} (h : R.Fitting) {fixity : Fixity} {op : Char}
    (hop : Scan.isPunctuation op) {e : Registry.Entry} (he : R.confirmed.get? (fixity.functionName op) = some e) :
    e.proto.arity = fixity.arity := by
  obtain ⟨hname, hnamed, hfix⟩ := h _ e he
  exact (hfix fixity (hnamed.fixity hop hname)).symm

theorem Registry.Fitting.congr {R R' : Registry} (h : R.Fitting) (hc : R'.confirmed = R.confirmed) : R'.Fitting := by
  intro name e he
  rw [hc] at he
  exact h name e he

namespace Lowering

/-- The function behind an operator is registered with the number of operands. -/
theorem operatorFunction_ok {pos : Pos} {fixity : Fixity} {op : Char} {s s' : Session} {f : FunctionId}
    (hfit : s.registry.Fitting) (hop : Scan.isPunctuation op)
    (h : operatorFunction pos fixity op s = .ok f s') :
    s' = s ∧ s.registry.Knows (fixity.functionName op) fixity.arity f := by
  have hdef : s' = s ∧ s.registry.defined? (fixity.functionName op) = some f := by
    unfold operatorFunction at h
    cases fixity
    all_goals
      dsimp only at h
      split at h
      · rename_i hsome
        cases h
        exact ⟨rfl, hsome⟩
      · cases h
  obtain ⟨rfl, hdef⟩ := hdef
  obtain ⟨e, he, rfl⟩ := Option.map_eq_some_iff.mp hdef
  exact ⟨rfl, e, Registry.find?_of_confirmed he, hfit.arity hop he, rfl⟩

/-! ## What the code relies on -/

/-- All that is registered is linked. -/
def Covers (link : Link) (R : Registry) : Prop := ∀ name n f, R.Knows name n f → link name n f

theorem Covers.before {link : Link} {D D' : Body} {R R' : Registry} (h : Covers link R') (hp : Progress D R D' R') :
    Covers link R :=
  fun name n f hk => h name n f (hp.known name n f hk)

theorem Written.fitting {id : FunctionId} {Γ : Frames SlotId} {D D' : Body} {r : Nat} {s s' : Session} {is : List Inst}
    (h : Written id D r s is Γ D' s') (hfit : s.registry.Fitting) : s'.registry.Fitting :=
  hfit.congr h.progress.confirmed

theorem Writing.resolve {id f : FunctionId} {Γ : Frames SlotId} {D : Body} {r : Nat} {s s' : Session} {pos : Pos}
    {name : String} {n : Nat} (h : Writing id Γ D r s) (hs : resolve pos name n s = .ok f s') :
    Writing id Γ D r s' ∧ s'.registry.confirmed = s.registry.confirmed := by
  rcases resolve_ok hs with ⟨rfl, -⟩ | ⟨-, -, ha, hreg, -, -, hsc, -⟩
  · exact ⟨h, rfl⟩
  · refine ⟨⟨⟨?_, ?_⟩, ?_, h.isOpen⟩, ?_⟩
    · rw [ha]
      exact h.draft
    · rw [hsc]
      exact h.scopes
    · rw [ha]
      exact h.cursor
    · rw [hreg]

theorem inScope_ok {α : Type} {step : Compile α} {s s' : Session} {a : α} (h : inScope step s = .ok a s') :
    ∃ s₁ s₂, rescope Scopes.enter s = .ok () s₁ ∧ step s₁ = .ok a s₂ ∧ rescope Scopes.leave s₂ = .ok () s' := by
  obtain ⟨⟨⟩, s₁, h₁, h⟩ := bind_ok h
  obtain ⟨b, s₂, h₂, h⟩ := bind_ok h
  obtain ⟨⟨⟩, s₃, h₃, h⟩ := bind_ok h
  obtain ⟨rfl, rfl⟩ := pure_ok h
  exact ⟨s₁, s₂, h₁, h₂, h₃⟩

theorem Writing.declare {id : FunctionId} {f : List (String × SlotId)} {Γ : Frames SlotId} {D : Body} {r : Nat}
    {s s' : Session} {entry : Place} {name : String} {v : ValueId} (hw : Writing id (f :: Γ) D r s)
    (hid : entry.function = id) (h : declare entry name v s = .ok () s') :
    ∃ D', Written id D r s [.store D.slots.size v] (((name, D.slots.size) :: f) :: Γ) D' s' ∧
      D'.counts = D.counts.withSlot := by
  obtain ⟨slot, s₁, h₁, h⟩ := bind_ok h
  obtain ⟨⟨⟩, s₂, h₂, h⟩ := bind_ok h
  obtain ⟨rfl, D₁, hr, hc₁⟩ := hw.reserves hid h₁
  obtain ⟨D₂, hst, hc₂⟩ := hr.writing.store h₂
  have hall := hr.trans hst
  obtain ⟨hw₃, hreg⟩ := hall.writing.bind h
  exact ⟨D₂, ⟨hw₃, hall.wrote, hreg ▸ hall.progress⟩, hc₂.trans hc₁⟩

/-! ## Expressions -/

variable {id : FunctionId} {r : Nat} {entry : Place}

/-- Straight code has been written, such that `code` holds of it, whatever is linked beside what is registered. -/
def Emits (id : FunctionId) (r : Nat) (D : Body) (s s' : Session) (Γ' : Frames SlotId)
    (code : Link → List Inst → Counts → Prop) : Prop :=
  ∃ is D', Written id D r s is Γ' D' s' ∧ ∀ link, Covers link s'.registry → code link is D'.counts

mutual

theorem lowerExpr_code (hid : entry.function = id) : ∀ (e : Expr) {Γ : Frames SlotId} {D : Body} {s s' : Session}
    {v : ValueId}, e.Spelled → s.registry.Fitting → Writing id Γ D r s → lowerExpr entry e s = .ok v s' →
    Emits id r D s s' Γ fun link is c => ExprCode link Γ D.counts e is c v
  | .number _ x, Γ, D, s, s', v, _, _, hw, h => by
    rw [lowerExpr] at h
    obtain ⟨rfl, D₁, h₁, hc⟩ := hw.constant h
    exact ⟨_, D₁, h₁, fun _ _ => hc ▸ .number⟩
  | .text _ x, Γ, D, s, s', v, _, _, hw, h => by
    rw [lowerExpr] at h
    obtain ⟨rfl, D₁, h₁, hc⟩ := hw.constant h
    exact ⟨_, D₁, h₁, fun _ _ => hc ▸ .text⟩
  | .var _ name, Γ, D, s, s', v, _, _, hw, h => by
    rw [lowerExpr] at h
    obtain ⟨slot, s₁, hs, hload⟩ := bind_ok h
    obtain ⟨hslot, rfl⟩ := hw.slotOf hs
    obtain ⟨rfl, D₁, h₁, hc⟩ := hw.load hload
    exact ⟨_, D₁, h₁, fun _ _ => hc ▸ .var hslot⟩
  | .unary _ op operand, Γ, D, s, s', v, hsp, hfit, hw, h => by
    rw [lowerExpr] at h
    obtain ⟨x, s₁, hx, h⟩ := bind_ok h
    obtain ⟨f, s₂, hf, hcall⟩ := bind_ok h
    obtain ⟨is, D₁, h₁, hcode⟩ := lowerExpr_code hid operand hsp.2 hfit hw hx
    obtain ⟨rfl, hk⟩ := operatorFunction_ok (h₁.fitting hfit) hsp.1 hf
    obtain ⟨rfl, D₂, h₂, hc⟩ := h₁.writing.call hk rfl hcall
    refine ⟨_, D₂, h₁.trans h₂, fun link hl => ?_⟩
    rw [hc]
    exact .unary (hcode link (hl.before h₂.progress)) (hl _ _ _ (h₂.progress.known _ _ _ hk))
  | .binary pos op lhs rhs, Γ, D, s, s', v, hsp, hfit, hw, h => by
    by_cases hop : op = '='
    · subst hop
      by_cases hl : ∃ target name, lhs = .var target name
      · obtain ⟨target, name, rfl⟩ := hl
        rw [lowerExpr_assign] at h
        obtain ⟨x, s₁, hx, h⟩ := bind_ok h
        obtain ⟨slot, s₂, hs, h⟩ := bind_ok h
        obtain ⟨⟨⟩, s₃, hst, hpure⟩ := bind_ok h
        obtain ⟨rfl, rfl⟩ := pure_ok hpure
        obtain ⟨is, D₁, h₁, hcode⟩ := lowerExpr_code hid rhs hsp.2.2 hfit hw hx
        obtain ⟨hslot, rfl⟩ := h₁.writing.slotOf hs
        obtain ⟨D₂, h₂, hc⟩ := h₁.writing.store hst
        refine ⟨_, D₂, h₁.trans h₂, fun link hl => ?_⟩
        rw [hc]
        exact .assign (hcode link (hl.before h₂.progress)) hslot
      · rw [lowerExpr_badDestination entry pos rhs fun target name h => hl ⟨target, name, h⟩] at h
        cases h
    · rw [lowerExpr_binary entry pos lhs rhs hop] at h
      obtain ⟨l, s₁, hl, h⟩ := bind_ok h
      obtain ⟨x, s₂, hx, h⟩ := bind_ok h
      obtain ⟨is, D₁, h₁, hcode₁⟩ := lowerExpr_code hid lhs hsp.2.1 hfit hw hl
      obtain ⟨js, D₂, h₂, hcode₂⟩ := lowerExpr_code hid rhs hsp.2.2 (h₁.fitting hfit) h₁.writing hx
      cases hp : Primitive.ofSymbol? op with
      | some p =>
        rw [hp] at h
        obtain ⟨rfl, D₃, h₃, hc⟩ := h₂.writing.primitive h
        refine ⟨_, D₃, (h₁.trans h₂).trans h₃, fun link hlink => ?_⟩
        have hlink₂ := hlink.before h₃.progress
        rw [hc]
        exact .primitive hop (hcode₁ link (hlink₂.before h₂.progress)) (hcode₂ link hlink₂) hp
      | none =>
        rw [hp] at h
        obtain ⟨f, s₃, hf, hcall⟩ := bind_ok h
        obtain ⟨rfl, hk⟩ := operatorFunction_ok (h₂.fitting (h₁.fitting hfit)) hsp.1 hf
        obtain ⟨rfl, D₃, h₃, hc⟩ := h₂.writing.call hk rfl hcall
        refine ⟨_, D₃, (h₁.trans h₂).trans h₃, fun link hlink => ?_⟩
        have hlink₂ := hlink.before h₃.progress
        rw [hc]
        exact .binary hop (hcode₁ link (hlink₂.before h₂.progress)) (hcode₂ link hlink₂) hp (hlink₂ _ _ _ hk)
  | .call _ name args, Γ, D, s, s', v, hsp, hfit, hw, h => by
    rw [lowerExpr] at h
    obtain ⟨f, s₁, hf, h⟩ := bind_ok h
    obtain ⟨vs, s₂, hvs, h⟩ := bind_ok h
    obtain ⟨hw₁, hconf⟩ := hw.resolve hf
    obtain ⟨is, D₁, h₁, hcode⟩ := lowerExprs_code hid args hsp (hfit.congr hconf) hw₁ hvs
    have hlen : args.length = vs.length := (hcode (fun _ _ _ => True) fun _ _ _ _ => trivial).length
    rw [hlen] at hf
    have hk := h₁.progress.known _ _ _ (knows_of_resolve hf)
    obtain ⟨rfl, D₂, h₂, hc⟩ := h₁.writing.call hk rfl h
    have hreg : s'.registry = s₂.registry := (h₁.writing.emit h).2.2
    refine ⟨_, D₂, ⟨h₂.writing, h₁.wrote.trans h₂.wrote, ?_⟩, fun link hl => ?_⟩
    · rw [hreg]
      exact .of_resolve hf h₁.progress h₂.wrote h₁.writing.isOpen
    · rw [hreg] at hl
      rw [hc]
      refine .call (hcode link hl) (hl _ _ _ ?_)
      rw [hlen]
      exact hk
  | .letIn _ bindings body, Γ, D, s, s', v, hsp, hfit, hw, h => by
    rw [lowerExpr] at h
    obtain ⟨s₁, s₂, henter, h, hleave⟩ := inScope_ok h
    obtain ⟨⟨⟩, t, hb, h⟩ := bind_ok h
    obtain ⟨hw₁, hreg₁⟩ := hw.enter henter
    obtain ⟨f, is, D₁, h₁, hcode₁⟩ := lowerBindings_code hid bindings hsp.1 (hreg₁ ▸ hfit) hw₁ hb
    obtain ⟨js, D₂, h₂, hcode₂⟩ := lowerExpr_code hid body hsp.2 (h₁.fitting (hreg₁ ▸ hfit)) h₁.writing h
    have h₁₂ := h₁.trans h₂
    obtain ⟨hw₃, hreg₃⟩ := h₂.writing.leave hleave
    refine ⟨_, D₂, ⟨hw₃, h₁₂.wrote, ?_⟩, fun link hl => ?_⟩
    · rw [hreg₃, ← hreg₁]
      exact h₁₂.progress
    · rw [hreg₃] at hl
      exact .letIn (hcode₁ link (hl.before h₂.progress)) (hcode₂ link hl)
termination_by structural e => e

theorem lowerExprs_code (hid : entry.function = id) : ∀ (es : List Expr) {Γ : Frames SlotId} {D : Body}
    {s s' : Session} {vs : List ValueId}, spelledExprs es → s.registry.Fitting → Writing id Γ D r s →
    lowerExprs entry es s = .ok vs s' → Emits id r D s s' Γ fun link is c => ExprsCode link Γ D.counts es is c vs
  | [], Γ, D, s, s', vs, _, _, hw, h => by
    rw [lowerExprs] at h
    obtain ⟨rfl, rfl⟩ := pure_ok h
    exact ⟨_, _, .refl hw, fun _ _ => .nil⟩
  | e :: es, Γ, D, s, s', vs, hsp, hfit, hw, h => by
    rw [lowerExprs] at h
    obtain ⟨v, s₁, hv, h⟩ := bind_ok h
    obtain ⟨ws, s₂, hws, h⟩ := bind_ok h
    obtain ⟨rfl, rfl⟩ := pure_ok h
    obtain ⟨is, D₁, h₁, hcode₁⟩ := lowerExpr_code hid e hsp.1 hfit hw hv
    obtain ⟨js, D₂, h₂, hcode₂⟩ := lowerExprs_code hid es hsp.2 (h₁.fitting hfit) h₁.writing hws
    exact ⟨_, _, h₁.trans h₂, fun link hl => .cons (hcode₁ link (hl.before h₂.progress)) (hcode₂ link hl)⟩
termination_by structural es => es

theorem lowerBindings_code (hid : entry.function = id) : ∀ (bs : List Binding) {f : List (String × SlotId)}
    {Γ : Frames SlotId} {D : Body} {s s' : Session}, spelledBindings bs → s.registry.Fitting →
    Writing id (f :: Γ) D r s → lowerBindings entry bs s = .ok () s' →
    ∃ f', Emits id r D s s' (f' :: Γ) fun link is c => BindingsCode link (f :: Γ) D.counts bs is c (f' :: Γ)
  | [], f, Γ, D, s, s', _, _, hw, h => by
    rw [lowerBindings] at h
    obtain ⟨-, rfl⟩ := pure_ok h
    exact ⟨f, _, _, .refl hw, fun _ _ => .nil⟩
  | ⟨_, name, none⟩ :: bs, f, Γ, D, s, s', hsp, hfit, hw, h => by
    rw [lowerBindings] at h
    obtain ⟨v, s₁, hv, h⟩ := bind_ok h
    obtain ⟨⟨⟩, s₂, hd, hrest⟩ := bind_ok h
    obtain ⟨rfl, D₁, h₁, hc₁⟩ := hw.constant hv
    obtain ⟨D₂, h₂, hc₂⟩ := h₁.writing.declare hid hd
    have hslot : D₁.slots.size = D.slots.size := congrArg Counts.slots hc₁
    rw [hslot] at h₂
    obtain ⟨f', is, D₃, h₃, hcode⟩ := lowerBindings_code hid bs hsp (h₂.fitting (h₁.fitting hfit)) h₂.writing hrest
    refine ⟨f', _, D₃, (h₁.trans h₂).trans h₃, fun link hl => .zero ?_⟩
    have hcode' := hcode link hl
    rw [hc₂, hc₁] at hcode'
    exact hcode'
  | ⟨_, name, some e⟩ :: bs, f, Γ, D, s, s', hsp, hfit, hw, h => by
    rw [lowerBindings] at h
    obtain ⟨v, s₁, hv, h⟩ := bind_ok h
    obtain ⟨⟨⟩, s₂, hd, h⟩ := bind_ok h
    obtain ⟨is, D₁, h₁, hcode₁⟩ := lowerExpr_code hid e hsp.1 hfit hw hv
    obtain ⟨D₂, h₂, hc₂⟩ := h₁.writing.declare hid hd
    obtain ⟨f', js, D₃, h₃, hcode₂⟩ :=
      lowerBindings_code hid bs hsp.2 (h₂.fitting (h₁.fitting hfit)) h₂.writing h
    refine ⟨f', _, _, (h₁.trans h₂).trans h₃, fun link hl => ?_⟩
    have hcode' := hcode₂ link hl
    rw [hc₂] at hcode'
    exact .init (hcode₁ link ((hl.before h₃.progress).before h₂.progress)) hcode'
termination_by structural bs => bs

end

end Lowering

end Funclet
