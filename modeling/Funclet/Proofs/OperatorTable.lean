import Funclet.Proofs.Lowering.Operators
import Funclet.Proofs.Rollback

/-!
# Operators and their functions

* `Operators.InStep t C` : the operators of the table `t` are those that the functions `C` define, and the built-in
  ones;
* `InStep.define` : a definition enters both at once;
* `Session.Attained` : the sessions between functions, where every function has been read from some text;
* `operators_inStep` : in all of them table and registry are in step; so no function that is read with the operators of
  its session fails because one of them has no meaning.
-/

namespace Funclet

open Grammar Lowering

/-! ## Names of operator functions -/

theorem unaryName_inj {c d : Char} : unaryName c = unaryName d ↔ c = d := by
  refine ⟨fun h => ?_, fun h => h ▸ rfl⟩
  simpa [unaryName, Char.toString] using congrArg String.toList h

theorem binaryName_inj {c d : Char} : binaryName c = binaryName d ↔ c = d := by
  refine ⟨fun h => ?_, fun h => h ▸ rfl⟩
  simpa [binaryName, Char.toString] using congrArg String.toList h

theorem unaryName_ne_binaryName (c d : Char) : unaryName c ≠ binaryName d := by
  intro h
  cases functionName_inj (f := .unary) (g := .binary) h

/-! ## Table and registry -/

namespace Operators

/-- The unary operators are those with a function. A binary operator with a function has the precedence that the
signature states, and any other one is built in. -/
structure InStep (t : Operators) (C : OrderedMap String Registry.Entry) : Prop where
  unary : ∀ c, t.isUnary (.symbol c) = true ↔ Scan.isPunctuation c = true ∧ C.contains (unaryName c) = true
  defined : ∀ c e, Scan.isPunctuation c = true → C.get? (binaryName c) = some e →
    ∃ p, e.proto.kind = .binary c p ∧ t.precedence? (.symbol c) = some p
  builtin : ∀ c, ¬ (Scan.isPunctuation c = true ∧ C.contains (binaryName c) = true) →
    t.precedence? (.symbol c) = builtin.lookup c

theorem inStep_initial : initial.InStep .empty where
  unary := fun c => by simp [initial, isUnary, OrderedMap.contains]
  defined := fun c e _ h => by cases h
  builtin := fun c _ => by
    have hnil : (⟨[]⟩ : OrderedMap Char Nat).get? c = none := rfl
    unfold precedence? initial builtin
    simp only [OrderedMap.get?_cons, List.lookup_cons, List.lookup_nil, hnil]
    grind

variable {t : Operators} {C : OrderedMap String Registry.Entry} {p : Prototype} {id : FunctionId}

theorem isUnary_define (t : Operators) (op c : Char) :
    (t.define (.unary op)).1.isUnary (.symbol c) = true ↔ c = op ∨ t.isUnary (.symbol c) = true := by
  change (t.define (.unary op)).1.unary.contains c = true ↔ c = op ∨ t.unary.contains c = true
  unfold define
  dsimp only
  split
  · rename_i hop
    refine ⟨Or.inr, ?_⟩
    rintro (rfl | h)
    · exact hop
    · exact h
  · simp

/-- A unary operator leaves the binary ones as they are. -/
theorem precedence?_define_unary (t : Operators) (op : Char) (u : Token) :
    (t.define (.unary op)).1.precedence? u = t.precedence? u := by
  unfold define
  dsimp only
  split <;> rfl

theorem precedence?_define_binary (t : Operators) (op c : Char) {k : Nat} (hk : 0 < k) :
    (t.define (.binary op k)).1.precedence? (.symbol c) = if op = c then some k else t.precedence? (.symbol c) := by
  change ((t.binary.insert op k).get? c).filter (0 < ·) = _
  rw [OrderedMap.get?_insert]
  split
  · simp [hk]
  · rfl

section Define

variable (h : t.InStep C)
include h

/-- A plain function is none of an operator. -/
theorem InStep.definePlain (hnamed : PlainName p.name) :
    t.InStep (C.insert p.name ⟨p, id⟩) := by
  have hother (fixity : Fixity) {c : Char} (hc : Scan.isPunctuation c = true) :
      (C.insert p.name ⟨p, id⟩).get? (fixity.functionName c) = C.get? (fixity.functionName c) := by
    rw [OrderedMap.get?_insert, if_neg]
    exact fun heq => not_plainName_functionName fixity hc (heq ▸ hnamed)
  refine ⟨fun c => ?_, fun c e hc he => ?_, fun c hnone => ?_⟩
  · refine (h.unary c).trans (and_congr_right fun hc => ?_)
    exact iff_of_eq (congrArg (fun o => Option.isSome o = true) (hother .unary hc).symm)
  · exact h.defined c e hc ((hother .binary hc).symm.trans he)
  · refine h.builtin c fun hdef => hnone ⟨hdef.1, ?_⟩
    exact (congrArg Option.isSome (hother .binary hdef.1)).trans hdef.2

theorem InStep.defineUnary {op : Char} (hop : Scan.isPunctuation op = true) (hname : p.name = unaryName op) :
    (t.define (.unary op)).1.InStep (C.insert p.name ⟨p, id⟩) := by
  have hother (c : Char) : (C.insert p.name ⟨p, id⟩).get? (binaryName c) = C.get? (binaryName c) := by
    rw [OrderedMap.get?_insert, if_neg]
    exact hname ▸ unaryName_ne_binaryName op c
  refine ⟨fun c => ?_, fun c e hc he => ?_, fun c hnone => ?_⟩
  · rw [isUnary_define, h.unary c, OrderedMap.contains, OrderedMap.contains, OrderedMap.get?_insert, hname]
    by_cases hc : op = c
    · subst hc
      simp [hop]
    · have hne : unaryName op ≠ unaryName c := fun heq => hc (unaryName_inj.1 heq)
      simp [hne, Ne.symm hc]
  · rw [precedence?_define_unary]
    exact h.defined c e hc ((hother c).symm.trans he)
  · rw [precedence?_define_unary]
    refine h.builtin c fun hdef => hnone ⟨hdef.1, ?_⟩
    exact (congrArg Option.isSome (hother c)).trans hdef.2

theorem InStep.defineBinary {op : Char} {k : Nat} (hkind : p.kind = .binary op k) (hk : 0 < k)
    (hop : Scan.isPunctuation op = true) (hname : p.name = binaryName op) :
    (t.define (.binary op k)).1.InStep (C.insert p.name ⟨p, id⟩) := by
  have hother (c : Char) (hc : op ≠ c) : (C.insert p.name ⟨p, id⟩).get? (binaryName c) = C.get? (binaryName c) := by
    rw [OrderedMap.get?_insert, if_neg]
    exact hname ▸ fun heq => hc (binaryName_inj.1 heq)
  refine ⟨fun c => ?_, fun c e hc he => ?_, fun c hnone => ?_⟩
  · refine (h.unary c).trans (and_congr_right fun hc => ?_)
    rw [OrderedMap.contains, OrderedMap.contains, OrderedMap.get?_insert, if_neg]
    exact hname ▸ (unaryName_ne_binaryName c op).symm
  · rw [precedence?_define_binary t op c hk]
    by_cases heq : op = c
    · subst heq
      rw [← hname, OrderedMap.get?_insert, if_pos rfl] at he
      cases he
      exact ⟨k, hkind, if_pos rfl⟩
    · rw [if_neg heq]
      exact h.defined c e hc ((hother c heq).symm.trans he)
  · have hc : op ≠ c := by
      rintro rfl
      refine hnone ⟨hop, ?_⟩
      rw [← hname, OrderedMap.contains, OrderedMap.get?_insert, if_pos rfl]
      rfl
    rw [precedence?_define_binary t op c hk, if_neg hc]
    refine h.builtin c fun hdef => hnone ⟨hdef.1, ?_⟩
    exact (congrArg Option.isSome (hother c hc)).trans hdef.2

/-- A definition enters its operator into the table, and its function into the registry. -/
theorem InStep.define (hnamed : p.WellNamed) (hpos : ∀ op k, p.kind = .binary op k → 0 < k) :
    (t.define p.kind).1.InStep (C.insert p.name ⟨p, id⟩) := by
  unfold Prototype.WellNamed at hnamed
  cases hkind : p.kind with
  | plain =>
    rw [hkind] at hnamed
    exact h.definePlain hnamed
  | unary op =>
    rw [hkind] at hnamed
    exact h.defineUnary hnamed.1 hnamed.2
  | binary op k =>
    rw [hkind] at hnamed
    exact h.defineBinary hkind (hpos op k hkind) hnamed.1 hnamed.2

end Define

end Operators

/-! ## Sessions -/

namespace Grammar

/-- The precedence of a binary operator that has been read is positive. -/
theorem Derives.precedence_pos {ops : Operators} {k : Nat} {items rest : List Item}
    (h : Derives ops (.precedence k) items rest) : 0 < k := by
  cases h with
  | statedPrecedence _ hp =>
    have hmem := List.mem_range'_1.1 (List.mem_of_find?_eq_some hp)
    exact hmem.1
  | defaultPrecedence _ => decide

theorem Produced.precedence_pos {f : Function} (h : Produced f) :
    ∀ op k, f.proto.kind = .binary op k → 0 < k := by
  obtain ⟨escapes, source, s, ops, hs, hf⟩ := h
  have hnext : s.nextFunction ops = (.function f, (s.nextFunction ops).2) := Prod.ext hf rfl
  obtain ⟨hderives, -⟩ := hs.derives hnext
  cases hderives with
  | function _ hproto _ =>
    cases hproto with
    | prototype hsig _ _ =>
      intro op k hkind
      cases hsig with
      | plainSignature _ => cases hkind
      | unarySignature _ _ _ => cases hkind
      | binarySignature _ _ _ hp =>
        cases hkind
        exact hp.precedence_pos

end Grammar

namespace Session

/-- The sessions between functions, where every function has been read from some text. -/
inductive Attained : Session → Prop
  | initial (entry : String) (strict : Bool) : Attained (.initial entry strict)
  | record {s : Session} (h : Attained s) (events : List Event) : Attained (s.record events)
  | function {s : Session} (h : Attained s) {f : Function} (hf : Produced f) : Attained (s.compileFunction f).2

variable {s s' : Session} {f : Function}

theorem Attained.reachable (h : s.Attained) : s.Reachable := by
  induction h with
  | initial entry strict => exact .initial entry strict
  | record _ events ih => exact ih.record events
  | function _ _ ih => exact ih.function _

/-- A function that is compiled is defined, and nothing else is. -/
theorem lowerFunction_confirmed {body : Body} (h : lowerFunction f s = .ok body s') :
    ∃ id, s'.registry.confirmed = s.registry.confirmed.insert f.proto.name ⟨f.proto, id⟩ := by
  obtain ⟨o, s₁, t, he, ht, -, -, rfl⟩ := lowerFunction_ok h
  obtain ⟨-, -, -, hreg, -⟩ := enroll_ok he
  refine ⟨o.id, ?_⟩
  change t.registry.confirmed = _
  rw [(kept_opened ht).confirmed]
  change s₁.registry.confirmed = _
  rw [hreg]

/-- A text is compiled function by function. -/
theorem Attained.compileText (h : s.Attained) (escapes : Bool) (source : String) :
    (s.compileText escapes source).2.Attained :=
  compileFor_induction (I := fun s _ => s.Attained) (fun _ _ events hs => hs.record events)
    (fun _ _ _ hf hs => hs.function hf) _ _ s [] .start h

/-- Table and registry are in step between functions. -/
theorem Attained.inStep (h : s.Attained) : s.operators.InStep s.registry.confirmed := by
  induction h with
  | initial entry strict => exact Operators.inStep_initial
  | record _ events ih => exact ih
  | @function s hs f hf ih =>
    unfold compileFunction
    cases hl : lowerFunction f s with
    | ok body s' =>
      obtain ⟨-, hops, -, -⟩ := lowerFunction_settings hl
      obtain ⟨id, hconf⟩ := lowerFunction_confirmed hl
      dsimp only
      rw [hops, hconf]
      exact ih.define hf.spelled.named hf.precedence_pos
    | error d s' =>
      -- A function that fails takes its operator and its definition back together.
      have hback := lowerFunction_reverted hs.reachable.orderly.linked hs.reachable.orderly.idle hl
      change s'.operators.InStep s'.registry.confirmed
      rw [hback.operators, hback.confirmed]
      exact ih

/-- What the table makes an operator has a meaning. -/
theorem Attained.meanings (h : s.Attained) :
    (∀ op, Unary s.operators op → HasUnary s.registry.confirmed op) ∧
      ∀ op, Binary s.operators op → HasBinary s.registry.confirmed op := by
  refine ⟨fun op hop => ((h.inStep.unary op).1 hop).2, fun op hop => ?_⟩
  by_cases hdef : Scan.isPunctuation op = true ∧ s.registry.confirmed.contains (binaryName op) = true
  · exact Or.inr (Or.inr hdef.2)
  · have hbuiltin := h.inStep.builtin op hdef
    rcases hop with hop | rfl
    · rw [hbuiltin] at hop
      unfold HasBinary Primitive.ofSymbol?
      simp only [Operators.builtin, List.lookup_cons, List.lookup_nil] at hop
      grind
    · exact Or.inr (Or.inl rfl)

/-- A function that is read with the operators of a session does not fail there because an operator has no meaning. -/
theorem Attained.knowsOperators (h : s.Attained) {escapes : Bool} {source : String} {r : State}
    (hr : Reached escapes source r) (hf : (r.nextFunction s.operators).1 = .function f) {d : Diagnostic}
    (hl : lowerFunction f s = .error d s') : d.KnowsOperators := by
  have hnext : r.nextFunction s.operators = (.function f, (r.nextFunction s.operators).2) := Prod.ext hf rfl
  obtain ⟨hunary, hbinary⟩ := h.meanings
  exact lowerFunction_equipped (Stmt.Uses.mono hunary hbinary f.body (hr.derives hnext).1.uses) hl

theorem knowsOperators_of_syntactic {d : Diagnostic} (h : d.Syntactic) : d.KnowsOperators := by
  intro fixity op hcause
  unfold Diagnostic.Syntactic Diagnostic.stage at h
  rw [hcause] at h
  rcases h with h | h <;> cases h

/-- All that has been reported since `s` has `P`. -/
def Adds (P : Diagnostic → Prop) (s s' : Session) : Prop :=
  ∃ ds, s'.diagnostics = s.diagnostics ++ ds ∧ ∀ d ∈ ds, P d

theorem Adds.refl (P : Diagnostic → Prop) (s : Session) : Adds P s s :=
  ⟨[], (List.append_nil _).symm, fun _ hd => by cases hd⟩

theorem Adds.trans {P : Diagnostic → Prop} {s t u : Session} (h : Adds P s t) (h' : Adds P t u) : Adds P s u := by
  obtain ⟨ds, hds, hP⟩ := h
  obtain ⟨es, hes, hP'⟩ := h'
  exact ⟨ds ++ es, by rw [hes, hds, List.append_assoc], fun d hd => (List.mem_append.1 hd).elim (hP d) (hP' d)⟩

theorem diagnostics_reports (s : Session) (ds : List Diagnostic) :
    (s.record (ds.map .report)).diagnostics = s.diagnostics ++ ds := by
  rw [diagnostics_record, List.filterMap_map]
  exact congrArg _ (List.filterMap_some (l := ds))

/-- A function adds nothing but the error that it fails with. -/
theorem diagnostics_compileFunction (hs : s.Reachable) (f : Function) :
    (s.compileFunction f).2.diagnostics = s.diagnostics ∨
      ∃ d s', lowerFunction f s = .error d s' ∧ (s.compileFunction f).2.diagnostics = s.diagnostics ++ [d] := by
  unfold compileFunction
  cases hl : lowerFunction f s with
  | ok body s' =>
    obtain ⟨-, -, -, hdiag⟩ := lowerFunction_settings hl
    exact .inl hdiag
  | error d s' =>
    have hback := lowerFunction_reverted hs.orderly.linked hs.orderly.idle hl
    refine .inr ⟨d, s', rfl, ?_⟩
    rw [← hback.diagnostics]
    exact diagnostics_reports s' [d]

theorem adds_compileFunction {P : Diagnostic → Prop} (hs : s.Reachable)
    (h : ∀ d s', lowerFunction f s = .error d s' → P d) : Adds P s (s.compileFunction f).2 := by
  rcases diagnostics_compileFunction hs f with hdiag | ⟨d, s', hl, hdiag⟩
  · exact ⟨[], by rw [hdiag, List.append_nil], fun _ hd => by cases hd⟩
  · exact ⟨[d], hdiag, fun e he => List.mem_singleton.1 he ▸ h d s' hl⟩

/-- Whatever is wrong with a text, it is not an operator without a meaning. -/
theorem compileFor_knowsOperators {escapes : Bool} {source : String} (n : Nat) : ∀ (r : State) (s : Session),
    Reached escapes source r → r.reports = [] → s.Attained →
    Adds Diagnostic.KnowsOperators s (compileFor n r s).2 := by
  induction n with
  | zero => exact fun r s _ _ _ => .refl _ s
  | succ n ih =>
    intro r s hr hreports hs
    obtain ⟨ds, hds, hsyn⟩ := nextFunction_reports s.operators r
    rw [hreports, List.nil_append] at hds
    have hnext : Reached escapes source { (r.nextFunction s.operators).2 with reports := [] } :=
      (hr.next s.operators).handOver
    have hrecord : Adds Diagnostic.KnowsOperators s (s.record (ds.map .report)) :=
      ⟨ds, diagnostics_reports s ds, fun d hd => knowsOperators_of_syntactic (hsyn d hd)⟩
    have hattained := hs.record (ds.map .report)
    simp only [compileFor, readFunction, hds]
    cases ha : (r.nextFunction s.operators).1 with
    | ended => exact hrecord
    | failed => exact hrecord.trans (ih _ _ hnext rfl hattained)
    | function f =>
      have hf : Produced f := ⟨escapes, source, r, s.operators, hr, ha⟩
      refine (hrecord.trans ?_).trans (ih _ _ hnext rfl (hattained.function hf))
      exact adds_compileFunction hattained.reachable fun d s' hl => hattained.knowsOperators hr ha hl

/-- Between functions, the operators of a session are those that its functions define, and the built-in ones. So a
function that is read with them cannot fail because an operator has no meaning, and no text is reported for it. -/
theorem operators_inStep (hs : s.Attained) :
    s.operators.InStep s.registry.confirmed ∧
      ∀ escapes source,
        (∀ r f d s', Reached escapes source r → (r.nextFunction s.operators).1 = .function f →
          lowerFunction f s = .error d s' → d.KnowsOperators) ∧
        Adds Diagnostic.KnowsOperators s (s.compileText escapes source).2 :=
  ⟨hs.inStep, fun _ _ => ⟨fun _ _ _ _ hr hf hl => hs.knowsOperators hr hf hl,
    compileFor_knowsOperators _ _ s .start rfl hs⟩⟩

/-- A function that fails withdraws its operator, and one that gives `+` a new precedence keeps it. -/
theorem operators_inStep_withdrawn :
    ∃ s : Session, s.Attained ∧ s.operators.precedence? (.symbol '|') = none ∧
      s.operators.precedence? (.symbol '+') = some 30 ∧ s.diagnostics.length = 1 ∧
      s.operators.InStep s.registry.confirmed := by
  refine ⟨((initial "main" true).compileText true
    "FUNC binary|(a, b) RETURN c FUNC binary+(a, b) RETURN a - b").2, ?_⟩
  have hs := (Attained.initial "main" true).compileText true
    "FUNC binary|(a, b) RETURN c FUNC binary+(a, b) RETURN a - b"
  exact ⟨hs, by decide +kernel, by decide +kernel, by decide +kernel, (operators_inStep hs).1⟩

end Session

end Funclet
