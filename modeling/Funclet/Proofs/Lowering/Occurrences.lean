import Funclet.Proofs.Lowering.Calls
import Funclet.Proofs.Lowering.ExpressionCode

/-!
# What can be wrong with a tree

* `Expr.occurrences`, `Stmt.occurrences` : the variables, operators, destinations and `CONTINUE`s of a tree, each with
  what can be seen from its place; `Occurrence.Valid` : such an occurrence is right;
* `Registry.Expects r name n` : calls of `name` have to have `n` arguments; `Agree r cs` : the calls `cs` have the
  arguments that are expected, and as many as one another;
* `Fits r us cs` : nothing is wrong with the occurrences `us` and the calls `cs`;
* `Fits.append` : to go through occurrences and calls one by one comes to the same as to look at all of them;
* `resolve_ok_iff`, `expects_resolve` : a call succeeds if it is as expected, and is what is expected from then on.

Occurrences are right or wrong each by itself, in the scope of their place. Calls are not: the first call of a name
settles how many arguments the later ones have.
-/

namespace Funclet

/-- Something in a tree that is right or wrong by itself. -/
inductive Occurrence where
  /-- A variable is read or assigned where the names in `scope` are bound. -/
  | mention (scope : List String) (name : String)
  | operator (fixity : Fixity) (op : Char)
  /-- The left side of `=`. -/
  | destination (lhs : Expr)
  /-- `CONTINUE`, in a loop or not. -/
  | again (inLoop : Bool)

/-- The scope behind a `VAR` list, latest binding first. -/
def boundBy (bs : List Binding) (scope : List String) : List String := (bs.map Binding.name).reverse ++ scope

theorem boundBy_cons (b : Binding) (bs : List Binding) (scope : List String) :
    boundBy (b :: bs) scope = boundBy bs (b.name :: scope) := by
  simp [boundBy]

theorem boundBy_append (bs : List Binding) (f scope : List String) :
    boundBy bs f ++ scope = boundBy bs (f ++ scope) := by
  simp [boundBy]

/-! ## Occurrences in trees -/

mutual

/-- The occurrences in an expression that stands in the given scope. -/
def Expr.occurrences (scope : List String) : Expr → List Occurrence
  | .number _ _ => []
  | .text _ _ => []
  | .var _ name => [.mention scope name]
  | .unary _ op operand => operand.occurrences scope ++ [.operator .unary op]
  | .binary _ op lhs rhs =>
    (if op = '=' then [.destination lhs] else []) ++
      (lhs.occurrences scope ++ (rhs.occurrences scope ++ [.operator .binary op]))
  | .call _ _ args => occurrencesOfExprs scope args
  | .letIn _ bindings body =>
    occurrencesOfBindings scope bindings ++ body.occurrences (boundBy bindings scope)
termination_by structural e => e

def occurrencesOfExprs (scope : List String) : List Expr → List Occurrence
  | [] => []
  | e :: es => e.occurrences scope ++ occurrencesOfExprs scope es
termination_by structural l => l

/-- The occurrences in the initial values of a `VAR` list, each of which sees the bindings before it. -/
def occurrencesOfBindings (scope : List String) : List Binding → List Occurrence
  | [] => []
  | ⟨_, name, none⟩ :: bs => occurrencesOfBindings (name :: scope) bs
  | ⟨_, name, some e⟩ :: bs => e.occurrences scope ++ occurrencesOfBindings (name :: scope) bs
termination_by structural l => l

end

mutual

/-- The occurrences in a statement that stands in the given scope, in a loop or not. -/
def Stmt.occurrences (scope : List String) (inLoop : Bool) : Stmt → List Occurrence
  | .assign _ name value => value.occurrences scope ++ [.mention scope name]
  | .ret _ value => value.occurrences scope
  | .print _ items => occurrencesOfExprs scope items
  | .again _ => [.again inLoop]
  | .cond _ test yes none => test.occurrences scope ++ yes.occurrences scope inLoop
  | .cond _ test yes (some no) =>
    test.occurrences scope ++ (yes.occurrences scope inLoop ++ no.occurrences scope inLoop)
  | .loop _ test body => test.occurrences scope ++ body.occurrences scope true
  | .block _ declared body =>
    occurrencesOfBindings scope declared ++ occurrencesOfStmts (boundBy declared scope) inLoop body
  | .letIn _ bindings body =>
    occurrencesOfBindings scope bindings ++ body.occurrences (boundBy bindings scope) inLoop
termination_by structural s => s

def occurrencesOfStmts (scope : List String) (inLoop : Bool) : List Stmt → List Occurrence
  | [] => []
  | s :: ss => s.occurrences scope inLoop ++ occurrencesOfStmts scope inLoop ss
termination_by structural l => l

end

/-- The occurrences in a function, whose body sees its parameters. -/
def Function.occurrences (f : Function) : List Occurrence := f.body.occurrences f.proto.params.reverse false

/-! ## What has to hold of them -/

/-- The binary operators that have a meaning without a function. -/
def builtIn : List Char := ['=', '+', '-', '*', '/', '<']

theorem ofSymbol?_eq_none_iff {op : Char} (h : op ≠ '=') : Primitive.ofSymbol? op = none ↔ op ∉ builtIn := by
  simp only [Primitive.ofSymbol?, builtIn, List.mem_cons, List.not_mem_nil]
  grind

def Occurrence.Valid (r : Registry) : Occurrence → Prop
  | .mention scope name => name ∈ scope
  | .operator fixity op =>
    (fixity = .binary ∧ op ∈ builtIn) ∨ r.confirmed.contains (fixity.functionName op) = true
  | .destination lhs => ∃ pos name, lhs = .var pos name
  | .again inLoop => inLoop = true

theorem Occurrence.Valid.congr {r r' : Registry} (h : r'.confirmed = r.confirmed) {u : Occurrence} :
    u.Valid r' ↔ u.Valid r := by
  cases u <;> simp only [Valid, h]

namespace Registry

/-- Calls of `name` have to have `n` arguments. -/
def Expects (r : Registry) (name : String) (n : Nat) : Prop :=
  (∃ e, r.find? name = some e ∧ e.proto.arity = n) ∨
    (r.find? name = none ∧ name = r.entry ∧ r.entryArity = some n)

theorem expects_of_find? {r : Registry} {name : String} {e : Entry} (h : r.find? name = some e) (n : Nat) :
    r.Expects name n ↔ e.proto.arity = n := by
  simp [Expects, h]

/-- What is expected once `name` is registered as `e`, and nothing else is. -/
theorem expects_sighted {r r' : Registry} {name : String} {e : Entry} (hentry : r'.entry = r.entry)
    (harity : r'.entryArity = r.sighted name e.proto.arity)
    (hfind : ∀ j, r'.find? j = if name = j then some e else r.find? j) (j : String) (m : Nat) :
    r'.Expects j m ↔ if name = j then e.proto.arity = m else r.Expects j m := by
  by_cases hj : name = j
  · rw [if_pos hj, expects_of_find? ((hfind j).trans (if_pos hj))]
  · have harity' : j = r.entry → r'.entryArity = r.entryArity := by
      rintro rfl
      rw [harity, sighted, if_neg hj]
    rw [if_neg hj, Expects, Expects, hfind, if_neg hj, hentry]
    refine or_congr_right (and_congr_right fun _ => and_congr_right fun hj' => ?_)
    rw [harity' hj']

theorem settleEntry_ok_iff (r : Registry) (name : String) (n : Nat) (pos : Pos) :
    (∃ r', r.settleEntry name n pos = .ok r') ↔ (name = r.entry → ∀ m, r.entryArity = some m → n = m) := by
  unfold settleEntry
  by_cases hn : name = r.entry
  · cases ha : r.entryArity with
    | none => simp [hn]
    | some m =>
      by_cases hm : m = n
      · simp [hn, hm]
      · simp [hn, hm, Ne.symm hm]
  · simp [hn]

end Registry

/-- A call succeeds if and only if it has the arguments that are expected. -/
theorem resolve_ok_iff (pos : Pos) (name : String) (n : Nat) (s : Session) :
    (∃ id t, resolve pos name n s = .ok id t) ↔ ∀ m, s.registry.Expects name m → n = m := by
  unfold resolve
  cases hf : s.registry.find? name with
  | some e =>
    simp only [Registry.expects_of_find? hf, forall_eq']
    by_cases he : e.proto.arity = n
    · simp [he]
    · simp [he, Ne.symm he]
  | none =>
    have hexp : (∀ m, s.registry.Expects name m → n = m) ↔
        (name = s.registry.entry → ∀ m, s.registry.entryArity = some m → n = m) := by
      simp only [Registry.Expects, hf]
      grind
    rw [hexp, ← Registry.settleEntry_ok_iff s.registry name n pos]
    cases s.registry.settleEntry name n pos with
    | ok r => simp
    | error d => simp

/-- A call that succeeds is what is expected from then on. -/
theorem expects_resolve {pos : Pos} {name : String} {n : Nat} {s t : Session} {id : FunctionId}
    (h : resolve pos name n s = .ok id t) (j : String) (m : Nat) :
    t.registry.Expects j m ↔ s.registry.Expects j m ∨ name = j ∧ n = m := by
  have hsame := (resolve_ok_iff pos name n s).mp ⟨id, t, h⟩
  have hif : t.registry.Expects j m ↔ if name = j then n = m else s.registry.Expects j m := by
    rcases resolve_ok h with ⟨rfl, e, hfind, rfl, -⟩ | ⟨hnone, -, -, hreg, -⟩
    · by_cases hj : name = j
      · rw [if_pos hj, ← hj, Registry.expects_of_find? hfind]
      · rw [if_neg hj]
    · have hfind : ∀ j, t.registry.find? j =
          if name = j then some ⟨.placeholder pos name n, id⟩ else s.registry.find? j := by
        rw [hreg]
        exact find?_expect _ _ _ _ hnone
      rw [Registry.expects_sighted (by rw [hreg]) (by rw [hreg, Prototype.arity_placeholder]) hfind,
        Prototype.arity_placeholder]
  rw [hif]
  by_cases hj : name = j
  · subst hj
    rw [if_pos rfl]
    exact ⟨fun hm => .inr ⟨rfl, hm⟩, fun h => h.elim (hsame m) And.right⟩
  · simp [hj]

/-- The calls have the arguments that are expected, and as many as one another. -/
structure Agree (r : Registry) (cs : List Call) : Prop where
  known : ∀ c ∈ cs, ∀ n, r.Expects c.name n → c.argc = n
  same : ∀ c ∈ cs, ∀ d ∈ cs, c.name = d.name → c.argc = d.argc

/-- Nothing is wrong with the occurrences and the calls. -/
structure Fits (r : Registry) (us : List Occurrence) (cs : List Call) : Prop where
  valid : ∀ u ∈ us, u.Valid r
  agree : Agree r cs

namespace Fits

variable {r r' : Registry} {us vs : List Occurrence} {cs ds : List Call}

theorem nil (r : Registry) : Fits r [] [] :=
  ⟨fun _ h => absurd h List.not_mem_nil, fun _ h => absurd h List.not_mem_nil, fun _ h => absurd h List.not_mem_nil⟩

theorem left (h : Fits r (us ++ vs) (cs ++ ds)) : Fits r us cs where
  valid u hu := h.valid u (List.mem_append_left vs hu)
  agree := ⟨fun c hc => h.agree.known c (List.mem_append_left ds hc),
    fun c hc d hd => h.agree.same c (List.mem_append_left ds hc) d (List.mem_append_left ds hd)⟩

/-- What comes first settles what comes after it. -/
theorem append (hconf : r'.confirmed = r.confirmed)
    (hexp : ∀ name n, r'.Expects name n ↔ r.Expects name n ∨ ∃ c ∈ cs, c.name = name ∧ c.argc = n) :
    Fits r (us ++ vs) (cs ++ ds) ↔ Fits r us cs ∧ Fits r' vs ds := by
  constructor
  · intro h
    refine ⟨h.left, fun u hu => ?_, fun d hd n hn => ?_, fun c hc d hd => ?_⟩
    · exact (Occurrence.Valid.congr hconf).mpr (h.valid u (List.mem_append_right us hu))
    · rcases (hexp d.name n).mp hn with hn | ⟨c, hc, hname, rfl⟩
      · exact h.agree.known d (List.mem_append_right cs hd) n hn
      · exact h.agree.same d (List.mem_append_right cs hd) c (List.mem_append_left ds hc) hname.symm
    · exact h.agree.same c (List.mem_append_right cs hc) d (List.mem_append_right cs hd)
  · rintro ⟨h₁, h₂⟩
    have hcross : ∀ c ∈ cs, ∀ d ∈ ds, c.name = d.name → d.argc = c.argc := fun c hc d hd hname =>
      h₂.agree.known d hd c.argc ((hexp _ _).mpr (.inr ⟨c, hc, hname, rfl⟩))
    refine ⟨fun u hu => ?_, fun c hc n hn => ?_, fun c hc d hd hname => ?_⟩
    · rcases List.mem_append.mp hu with hu | hu
      · exact h₁.valid u hu
      · exact (Occurrence.Valid.congr hconf).mp (h₂.valid u hu)
    · rcases List.mem_append.mp hc with hc | hc
      · exact h₁.agree.known c hc n hn
      · exact h₂.agree.known c hc n ((hexp _ _).mpr (.inl hn))
    · rcases List.mem_append.mp hc with hc | hc <;> rcases List.mem_append.mp hd with hd | hd
      · exact h₁.agree.same c hc d hd hname
      · exact (hcross c hc d hd hname).symm
      · exact hcross d hd c hc hname.symm
      · exact h₂.agree.same c hc d hd hname

end Fits

end Funclet
