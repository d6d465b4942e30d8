import Funclet.Proofs.Lowering.Frame
import Funclet.Proofs.Lowering.Occurrences
import Funclet.Proofs.Scopes

/-!
# Lowering decides whether a tree is right

* `Sees s N` : the scopes of `s` bind the names `N`, frame by frame;
* `Decides N N' us cs step` : where the names `N` are bound, `step` succeeds if and only if `us` and `cs` fit, and then
  it leaves the names `N'` bound; it composes (`Decides.bind`);
* `lowerExpr_decides` … `lowerStmts_decides` : lowering decides whether the occurrences and the calls of its tree fit;
* `lowerCode_decides` : so it does for a whole function.
-/

namespace Funclet.Lowering

variable {α β : Type}

/-- The names that the scopes bind, frame by frame, innermost first. -/
def Sees (s : Session) (N : List (List String)) : Prop :=
  ∃ Γ : Frames SlotId, s.scopes.Represents [] Γ ∧ Γ.map (List.map Prod.fst) = N

theorem Sees.lookup {s : Session} {N : List (List String)} (h : Sees s N) (name : String) :
    (s.scopes.lookup name).isSome ↔ name ∈ N.flatten := by
  obtain ⟨Γ, hΓ, rfl⟩ := h
  rw [hΓ.lookup, Frames.lookup, List.flatten_append, List.flatten_singleton, List.append_nil, ← List.map_flatten,
    List.mem_map, Option.isSome_iff_ne_none, ne_eq, List.lookup_eq_none_iff]
  simp only [not_forall, Bool.not_eq_true, bne_eq_false_iff_eq]
  constructor
  · rintro ⟨p, hp, heq⟩
    exact ⟨p, hp, by simpa using heq.symm⟩
  · rintro ⟨p, hp, rfl⟩
    exact ⟨p, hp, by simp⟩

/-- A step from `s` to `t` that has found nothing wrong with the occurrences and the calls. -/
structure Accepts (N' : List (List String)) (us : List Occurrence) (cs : List Call) (s t : Session) : Prop where
  fits : Fits s.registry us cs
  sees : Sees t N'
  confirmed : t.registry.confirmed = s.registry.confirmed
  expects : ∀ name n,
    t.registry.Expects name n ↔ s.registry.Expects name n ∨ ∃ c ∈ cs, c.name = name ∧ c.argc = n

/-- Where the names `N` are bound, the step succeeds if and only if the occurrences and the calls fit, and then it
leaves the names `N'` bound. -/
def Decides (N N' : List (List String)) (us : List Occurrence) (cs : List Call) (step : Compile α) : Prop :=
  ∀ s, Sees s N → (∀ x t, step s = .ok x t → Accepts N' us cs s t) ∧
    ∀ d t, step s = .error d t → ¬ Fits s.registry us cs

/-! ## Sequences -/

namespace Decides

variable {N N' N'' : List (List String)} {us vs : List Occurrence} {cs ds : List Call} {x : Compile α}
  {f : α → Compile β}

theorem bind (hx : Decides N N' us cs x) (hf : ∀ a, Decides N' N'' vs ds (f a)) :
    Decides N N'' (us ++ vs) (cs ++ ds) (x >>= f) := by
  intro s hs
  obtain ⟨hok, herr⟩ := hx s hs
  rw [bind_apply]
  cases h : x s with
  | error d t => exact ⟨fun y u hy => (by cases hy), fun e u _ hfits => herr d t h hfits.left⟩
  | ok a t =>
    have h₁ := hok a t h
    have hiff : Fits s.registry (us ++ vs) (cs ++ ds) ↔ _ := Fits.append h₁.confirmed h₁.expects
    obtain ⟨hok', herr'⟩ := hf a t h₁.sees
    refine ⟨fun y u hy => ?_, fun e u he hfits => herr' e u he (hiff.mp hfits).2⟩
    have h₂ := hok' y u hy
    refine ⟨hiff.mpr ⟨h₁.fits, h₂.fits⟩, h₂.sees, h₂.confirmed.trans h₁.confirmed, fun name n => ?_⟩
    rw [h₂.expects, h₁.expects, or_assoc]
    simp only [List.mem_append, or_and_right, exists_or]

/-- A step that cannot fail adds nothing in front. -/
theorem andThen (hx : Decides N N' [] [] x) (hf : ∀ a, Decides N' N'' vs ds (f a)) : Decides N N'' vs ds (x >>= f) :=
  hx.bind hf

/-- A step that cannot fail adds nothing behind. -/
theorem before (hx : Decides N N' us cs x) (hf : ∀ a, Decides N' N'' [] [] (f a)) : Decides N N'' us cs (x >>= f) := by
  have h := hx.bind hf
  rwa [List.append_nil, List.append_nil] at h

/-- What the step decides depends on the occurrences only by whether all of them are right. -/
theorem congr (h : Decides N N' us cs x) (hus : ∀ r, (∀ u ∈ us, u.Valid r) ↔ ∀ u ∈ vs, u.Valid r) :
    Decides N N' vs cs x := by
  intro s hs
  obtain ⟨hok, herr⟩ := h s hs
  have hiff : Fits s.registry us cs ↔ Fits s.registry vs cs :=
    ⟨fun h => ⟨(hus _).mp h.valid, h.agree⟩, fun h => ⟨(hus _).mpr h.valid, h.agree⟩⟩
  refine ⟨fun y t hy => ?_, fun d t hd hfits => herr d t hd (hiff.mpr hfits)⟩
  have h := hok y t hy
  exact ⟨hiff.mp h.fits, h.sees, h.confirmed, h.expects⟩

/-- A step that cannot fail, and registers nothing. -/
theorem of_ok (h : ∀ s, Sees s N → ∃ y t, x s = .ok y t ∧ t.registry = s.registry ∧ Sees t N') :
    Decides N N' [] [] x := by
  intro s hs
  obtain ⟨y, t, hx, hreg, ht⟩ := h s hs
  rw [hx]
  refine ⟨fun z u hz => ?_, fun d u hd => by cases hd⟩
  cases hz
  exact ⟨.nil _, ht, by rw [hreg], by simp [hreg]⟩

theorem pure (a : α) : Decides N N [] [] (pure a : Compile α) := of_ok fun s hs => ⟨a, s, rfl, rfl, hs⟩

/-- A step that looks something up finds it if and only if the occurrence is right. -/
theorem of_lookup {u : Occurrence} (find : Session → Option α) (hok : ∀ s y, find s = some y → x s = .ok y s)
    (herr : ∀ s, find s = none → ∃ d, x s = .error d s)
    (hu : ∀ s, Sees s N → ((find s).isSome ↔ u.Valid s.registry)) : Decides N N [u] [] x := by
  intro s hs
  cases hfind : find s with
  | some y =>
    have hvalid : u.Valid s.registry := (hu s hs).mp (by rw [hfind]; rfl)
    rw [hok s y hfind]
    refine ⟨fun z t hz => ?_, fun d t hd => by cases hd⟩
    cases hz
    exact ⟨⟨by simpa using hvalid, (Fits.nil _).agree⟩, hs, rfl, by simp⟩
  | none =>
    obtain ⟨d, hd⟩ := herr s hfind
    rw [hd]
    refine ⟨fun z t hz => (by cases hz), fun e t _ hfits => ?_⟩
    have hsome := (hu s hs).mpr (hfits.valid u (List.mem_singleton_self u))
    rw [hfind] at hsome
    cases hsome

/-- A step that always fails has found something that is wrong in any session. -/
theorem throw {u : Occurrence} (hu : u ∈ us) (hwrong : ∀ r, ¬ u.Valid r) (d : Diagnostic) :
    Decides N N us cs (throw d : Compile α) := by
  intro s _
  exact ⟨fun y t h => (by cases h), fun e t _ hfits => hwrong s.registry (hfits.valid u hu)⟩

end Decides

/-! ## Steps that cannot fail -/

section Steps

variable {N : List (List String)} {f : List String}

theorem assemble_decides (g : Assembler → α × Assembler) : Decides N N [] [] (assemble g) :=
  .of_ok fun _ hs => ⟨_, _, rfl, rfl, hs⟩

theorem change_decides (g : Assembler → Assembler) : Decides N N [] [] (assemble_ g) :=
  .of_ok fun _ hs => ⟨_, _, rfl, rfl, hs⟩

theorem rescope_decides {N' : List (List String)} {g : Scopes SlotId → Scopes SlotId}
    (hg : ∀ s, Sees s N → Sees { s with scopes := g s.scopes } N') : Decides N N' [] [] (rescope g) :=
  .of_ok fun s hs => ⟨_, _, rfl, rfl, hg s hs⟩

theorem zero_decides : Decides N N [] [] zero := assemble_decides (·.emit (.const · (.number 0)))

theorem truth_decides (v : ValueId) : Decides N N [] [] (truth v) := zero_decides.andThen fun _ => assemble_decides _

theorem bindName_decides (name : String) (slot : SlotId) :
    Decides (f :: N) ((name :: f) :: N) [] [] (rescope (·.declare name slot)) := by
  refine rescope_decides fun s ⟨Γ, hΓ, hN⟩ => ?_
  obtain ⟨g, Γ, rfl, rfl, rfl⟩ := List.map_eq_cons_iff.mp hN
  exact ⟨_, hΓ.declare name slot, rfl⟩

theorem declare_decides (entry : Place) (name : String) (v : ValueId) :
    Decides (f :: N) ((name :: f) :: N) [] [] (declare entry name v) :=
  (assemble_decides _).andThen fun _ => (change_decides _).andThen fun _ => bindName_decides name _

/-- What is bound in a scope of its own is not bound behind it. -/
theorem inScope_decides {us : List Occurrence} {cs : List Call} {step : Compile α}
    (h : Decides ([] :: N) (f :: N) us cs step) : Decides N N us cs (inScope step) := by
  have henter : Decides N ([] :: N) [] [] (rescope Scopes.enter) :=
    rescope_decides fun s ⟨Γ, hΓ, hN⟩ => ⟨[] :: Γ, hΓ.enter, by rw [List.map_cons, hN, List.map_nil]⟩
  have hleave : Decides (f :: N) N [] [] (rescope Scopes.leave) := by
    refine rescope_decides fun s ⟨Γ, hΓ, hN⟩ => ?_
    obtain ⟨g, Γ, rfl, -, rfl⟩ := List.map_eq_cons_iff.mp hN
    exact ⟨Γ, hΓ.leave, rfl⟩
  exact henter.andThen fun _ => h.before fun _ => hleave.andThen fun _ => .pure _

theorem closeAfter_decides {before : Compile Unit} (h : Decides N N [] [] before) (t : Terminator) :
    Decides N N [] [] (closeAfter before t) := by
  have hclosed : Decides N N [] [] isClosed := .of_ok fun _ hs => ⟨_, _, rfl, rfl, hs⟩
  refine hclosed.andThen fun closed => ?_
  cases closed with
  | true => exact .pure _
  | false => exact h.andThen fun _ => change_decides _

theorem deadRegion_decides (entry : Place) (label : String) : Decides N N [] [] (deadRegion entry label) :=
  (assemble_decides _).andThen fun _ => change_decides _

/-! ## Steps that can fail -/

theorem slotOf_decides (pos : Pos) (name : String) : Decides N N [.mention N.flatten name] [] (slotOf pos name) := by
  refine .of_lookup (·.scopes.lookup name) (fun s slot h => ?_) (fun s h => ⟨⟨.unknownVariable name, pos⟩, ?_⟩)
    fun s hs => hs.lookup name
  · simp only [slotOf, h]
  · simp only [slotOf, h]

theorem operatorFunction_decides (pos : Pos) {fixity : Fixity} {op : Char}
    (hop : ¬ (fixity = .binary ∧ op ∈ builtIn)) :
    Decides N N [.operator fixity op] [] (operatorFunction pos fixity op) := by
  refine .of_lookup (·.registry.defined? (fixity.functionName op)) (fun s id h => ?_)
    (fun s h => ⟨⟨.unknownOperator fixity op, pos⟩, ?_⟩) fun s _ => ?_
  · cases fixity <;> simp only [Fixity.functionName] at h <;> simp only [operatorFunction, h]
  · cases fixity <;> simp only [Fixity.functionName] at h <;> simp only [operatorFunction, h]
  · rw [Occurrence.Valid, Registry.defined?, Option.isSome_map, OrderedMap.contains]
    exact (or_iff_right hop).symm

theorem resolve_decides (pos : Pos) (name : String) (n : Nat) :
    Decides N N [] [⟨pos, name, n⟩] (resolve pos name n) := by
  intro s hs
  have hiff := resolve_ok_iff pos name n s
  refine ⟨fun id t h => ?_, fun d t h hfits => ?_⟩
  · have hconf : t.registry.confirmed = s.registry.confirmed := by
      rcases resolve_ok h with ⟨rfl, -⟩ | ⟨-, -, -, hreg, -⟩
      · rfl
      · rw [hreg]
    refine ⟨⟨(Fits.nil _).valid, ?_, ?_⟩, ?_, hconf, fun j m => ?_⟩
    · simpa using hiff.mp ⟨id, t, h⟩
    · simp
    · obtain ⟨Γ, hΓ, hN⟩ := hs
      exact ⟨Γ, by rwa [(resolve_code h).1], hN⟩
    · rw [expects_resolve h]
      simp
  · obtain ⟨id, t', h'⟩ := hiff.mpr (hfits.agree.known _ (List.mem_singleton_self _))
    rw [h] at h'
    cases h'

end Steps

/-! ## Expressions and statements -/

mutual

theorem lowerExpr_decides (entry : Place) :
    ∀ (e : Expr) (N : List (List String)), Decides N N (e.occurrences N.flatten) e.calls (lowerExpr entry e)
  | .number _ _, N => by
    rw [lowerExpr, Expr.occurrences, Expr.calls]
    exact assemble_decides _
  | .text _ _, N => by
    rw [lowerExpr, Expr.occurrences, Expr.calls]
    exact assemble_decides _
  | .var _ _, N => by
    rw [lowerExpr, Expr.occurrences, Expr.calls]
    exact (slotOf_decides _ _).before fun _ => assemble_decides _
  | .unary pos op e, N => by
    rw [lowerExpr, Expr.occurrences, Expr.calls, ← List.append_nil e.calls]
    refine (lowerExpr_decides entry e N).bind fun _ => Decides.before ?_ fun _ => assemble_decides _
    exact operatorFunction_decides pos (by simp)
  | .binary pos op l r, N => by
    rw [Expr.occurrences, Expr.calls]
    by_cases hop : op = '='
    · subst hop
      rw [if_pos rfl]
      by_cases hl : ∃ target name, l = .var target name
      · -- the variable is looked up after the right side; that it is one, and that `=` is built in, needs no step
        obtain ⟨target, name, rfl⟩ := hl
        rw [lowerExpr_assign, Expr.calls, List.nil_append, Expr.occurrences, ← List.append_nil r.calls]
        refine ((lowerExpr_decides entry r N).bind fun _ => (slotOf_decides target name).before fun _ =>
          (change_decides _).andThen fun _ => .pure _).congr fun reg => ?_
        simp [Occurrence.Valid, builtIn, or_imp, forall_and, and_comm]
      · rw [lowerExpr_badDestination entry pos r fun target name h => hl ⟨target, name, h⟩]
        exact .throw (u := .destination l) (by simp) (fun _ => hl) _
    · rw [lowerExpr_binary entry pos l r hop, if_neg hop, List.nil_append]
      refine (lowerExpr_decides entry l N).bind fun v => ?_
      rw [← List.append_nil r.calls]
      refine (lowerExpr_decides entry r N).bind fun w => ?_
      have hbuiltIn := ofSymbol?_eq_none_iff hop
      cases hp : Primitive.ofSymbol? op with
      | some p =>
        have hmem : op ∈ builtIn := by
          by_contra hnot
          rw [hbuiltIn.mpr hnot] at hp
          cases hp
        refine (assemble_decides (·.emit (.primitive · p v w))).congr fun reg => ?_
        simp [Occurrence.Valid, hmem]
      | none =>
        have hnot := hbuiltIn.mp hp
        exact (operatorFunction_decides pos fun h => hnot h.2).before fun _ => assemble_decides _
  | .call pos name args, N => by
    rw [lowerExpr, Expr.occurrences, Expr.calls]
    exact (resolve_decides pos name args.length).bind fun _ =>
      (lowerExprs_decides entry args N).before fun _ => assemble_decides _
  | .letIn _ bs e, N => by
    rw [lowerExpr, Expr.occurrences, Expr.calls]
    refine inScope_decides (f := boundBy bs []) ((lowerBindings_decides entry bs [] N).bind fun _ => ?_)
    have h := lowerExpr_decides entry e (boundBy bs [] :: N)
    rwa [List.flatten_cons, boundBy_append] at h
termination_by structural e => e

theorem lowerExprs_decides (entry : Place) : ∀ (es : List Expr) (N : List (List String)),
    Decides N N (occurrencesOfExprs N.flatten es) (callsOfExprs es) (lowerExprs entry es)
  | [], N => by
    rw [lowerExprs, occurrencesOfExprs, callsOfExprs]
    exact .pure _
  | e :: es, N => by
    rw [lowerExprs, occurrencesOfExprs, callsOfExprs]
    exact (lowerExpr_decides entry e N).bind fun _ => (lowerExprs_decides entry es N).before fun _ => .pure _
termination_by structural es => es

theorem lowerBindings_decides (entry : Place) : ∀ (bs : List Binding) (f : List String) (N : List (List String)),
    Decides (f :: N) (boundBy bs f :: N) (occurrencesOfBindings (f ++ N.flatten) bs) (callsOfBindings bs)
      (lowerBindings entry bs)
  | [], f, N => by
    rw [lowerBindings, occurrencesOfBindings, callsOfBindings]
    exact .pure _
  | ⟨_, name, none⟩ :: bs, f, N => by
    rw [lowerBindings, occurrencesOfBindings, callsOfBindings, boundBy_cons]
    exact zero_decides.andThen fun _ => (declare_decides entry name _).andThen fun _ =>
      lowerBindings_decides entry bs (name :: f) N
  | ⟨_, name, some e⟩ :: bs, f, N => by
    rw [lowerBindings, occurrencesOfBindings, callsOfBindings, boundBy_cons]
    exact (lowerExpr_decides entry e (f :: N)).bind fun _ => (declare_decides entry name _).andThen fun _ =>
      lowerBindings_decides entry bs (name :: f) N
termination_by structural bs => bs

end

theorem lowerTest_decides (entry : Place) (test : Expr) (flag : SlotId) (yes no : Place) {N : List (List String)} :
    Decides N N (test.occurrences N.flatten) test.calls (lowerTest entry test flag yes no) :=
  (lowerExpr_decides entry test N).before fun _ => (truth_decides _).andThen fun _ =>
    (change_decides _).andThen fun _ => (assemble_decides _).andThen fun _ => change_decides _

theorem lowerArm_decides {start merge : Place} {result : SlotId} {arm : Compile ValueId} {N : List (List String)}
    {us : List Occurrence} {cs : List Call} (h : Decides ([] :: N) ([] :: N) us cs arm) :
    Decides N N us cs (lowerArm start result merge arm) :=
  (change_decides _).andThen fun _ => (inScope_decides h).before fun _ => closeAfter_decides (change_decides _) _

mutual

theorem lowerStmt_decides (entry : Place) : ∀ (st : Stmt) (retest : Option Place) (N : List (List String)),
    Decides N N (st.occurrences N.flatten retest.isSome) st.calls (lowerStmt entry retest st)
  | .assign _ name e, retest, N => by
    rw [lowerStmt, Stmt.occurrences, Stmt.calls, ← List.append_nil e.calls]
    exact (lowerExpr_decides entry e N).bind fun _ => (slotOf_decides _ name).before fun _ =>
      (change_decides _).andThen fun _ => .pure _
  | .ret _ e, retest, N => by
    rw [lowerStmt, Stmt.occurrences, Stmt.calls]
    exact (lowerExpr_decides entry e N).before fun _ => (change_decides _).andThen fun _ =>
      (deadRegion_decides _ _).andThen fun _ => .pure _
  | .print _ items, retest, N => by
    rw [lowerStmt, Stmt.occurrences, Stmt.calls]
    exact (lowerExprs_decides entry items N).before fun _ => (change_decides _).andThen fun _ => zero_decides
  | .again pos, none, N => by
    rw [lowerStmt, Stmt.occurrences, Stmt.calls]
    exact .throw (List.mem_singleton_self _) (fun _ h => by cases h) _
  | .again pos, some target, N => by
    rw [lowerStmt, Stmt.occurrences, Stmt.calls]
    refine Decides.congr (?_ : Decides N N [] [] _) ?_
    · exact (change_decides _).andThen fun _ => (deadRegion_decides _ _).andThen fun _ => zero_decides
    · simp [Occurrence.Valid]
  | .cond _ test yes none, retest, N => by
    rw [lowerStmt, Stmt.occurrences, Stmt.calls]
    refine (lowerExpr_decides entry test N).bind fun _ => ?_
    exact (truth_decides _).andThen fun _ => (assemble_decides _).andThen fun _ => zero_decides.andThen fun _ =>
      (change_decides _).andThen fun _ => (assemble_decides _).andThen fun _ => (assemble_decides _).andThen fun _ =>
      (change_decides _).andThen fun _ =>
      (lowerArm_decides (lowerStmt_decides entry yes retest ([] :: N))).before fun _ =>
      (change_decides _).andThen fun _ => assemble_decides _
  | .cond _ test yes (some no), retest, N => by
    rw [lowerStmt, Stmt.occurrences, Stmt.calls]
    refine (lowerExpr_decides entry test N).bind fun _ => ?_
    exact (truth_decides _).andThen fun _ => (assemble_decides _).andThen fun _ => zero_decides.andThen fun _ =>
      (change_decides _).andThen fun _ => (assemble_decides _).andThen fun _ => (assemble_decides _).andThen fun _ =>
      (assemble_decides _).andThen fun _ => (change_decides _).andThen fun _ =>
      (lowerArm_decides (lowerStmt_decides entry yes retest ([] :: N))).bind fun _ =>
      (lowerArm_decides (lowerStmt_decides entry no retest ([] :: N))).before fun _ =>
      (change_decides _).andThen fun _ => assemble_decides _
  | .loop _ test body, retest, N => by
    rw [lowerStmt, Stmt.occurrences, Stmt.calls]
    refine Decides.congr (?_ : Decides N N (test.occurrences N.flatten ++
      (body.occurrences N.flatten true ++ test.occurrences N.flatten)) _ _) ?_
    · exact (assemble_decides _).andThen fun _ => (assemble_decides _).andThen fun _ =>
        (assemble_decides _).andThen fun _ => (assemble_decides _).andThen fun _ =>
        (lowerTest_decides entry test _ _ _).bind fun _ => (change_decides _).andThen fun _ =>
        (inScope_decides (lowerStmt_decides entry body (some _) ([] :: N))).bind fun _ =>
        (closeAfter_decides (.pure _) _).andThen fun _ => (change_decides _).andThen fun _ =>
        (lowerTest_decides entry test _ _ _).before fun _ => (change_decides _).andThen fun _ => zero_decides
    · intro r
      simp only [List.forall_mem_append]
      tauto
  | .block _ bs body, retest, N => by
    rw [lowerStmt, Stmt.occurrences, Stmt.calls]
    refine Decides.before (inScope_decides (f := boundBy bs [])
      ((lowerBindings_decides entry bs [] N).bind fun _ => ?_)) fun last => ?_
    · have h := lowerStmts_decides entry body retest (boundBy bs [] :: N)
      rwa [List.flatten_cons, boundBy_append] at h
    · cases last with
      | none => exact zero_decides
      | some v => exact .pure v
  | .letIn _ bs body, retest, N => by
    rw [lowerStmt, Stmt.occurrences, Stmt.calls]
    refine inScope_decides (f := boundBy bs []) ((lowerBindings_decides entry bs [] N).bind fun _ => ?_)
    have h := lowerStmt_decides entry body retest (boundBy bs [] :: N)
    rwa [List.flatten_cons, boundBy_append] at h
termination_by structural st => st

theorem lowerStmts_decides (entry : Place) : ∀ (sts : List Stmt) (retest : Option Place) (N : List (List String)),
    Decides N N (occurrencesOfStmts N.flatten retest.isSome sts) (callsOfStmts sts) (lowerStmts entry retest sts)
  | [], retest, N => by
    rw [lowerStmts, occurrencesOfStmts, callsOfStmts]
    exact .pure _
  | st :: sts, retest, N => by
    rw [lowerStmts, occurrencesOfStmts, callsOfStmts]
    exact (lowerStmt_decides entry st retest N).bind fun _ =>
      (lowerStmts_decides entry sts retest N).before fun _ => .pure _
termination_by structural sts => sts

end

theorem lowerParams_decides (entry : Place) (N : List (List String)) (names : List String) (i : Nat)
    (f : List String) : Decides (f :: N) ((names.reverse ++ f) :: N) [] [] (lowerParams entry i names) := by
  induction names generalizing i f with
  | nil => exact .pure _
  | cons name names ih =>
    rw [lowerParams, List.reverse_cons, List.append_assoc, List.singleton_append]
    exact (assemble_decides _).andThen fun _ => (assemble_decides _).andThen fun _ =>
      (change_decides _).andThen fun _ => (bindName_decides name _).andThen fun _ => ih (i + 1) (name :: f)

/-- The code of a function can be written if and only if its occurrences and calls fit. -/
theorem lowerCode_decides (f : Function) (entry : Place) :
    Decides [] [] f.occurrences f.body.calls (lowerCode f entry) := by
  refine inScope_decides (f := f.proto.params.reverse) (Decides.andThen (?_ : Decides _ [f.proto.params.reverse] _ _ _)
    fun _ => Decides.before (?_ : Decides _ [f.proto.params.reverse] _ _ _) fun _ => closeAfter_decides (.pure _) _)
  · have h := lowerParams_decides entry [] f.proto.params 0 []
    rwa [List.append_nil] at h
  · have h := lowerStmt_decides entry f.body none [f.proto.params.reverse]
    rwa [List.flatten_singleton] at h

end Funclet.Lowering
