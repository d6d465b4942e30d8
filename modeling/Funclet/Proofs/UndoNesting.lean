import Mathlib.Data.List.Sigma
import Funclet.Proofs.Lowering.Outcome

/-!
# Undoing definitions of operators

* `Operators.Call`, `Operators.Ledger` : definitions and reversals in any order; what each definition has returned is
  kept under its number, for a later reversal;
* `kept` : the definitions that have not been reversed; `Nested` : every reversal is of the latest of them that has
  returned anything;
* `Follows t calls` : the table is the one that the kept definitions make of `t`, and each of them has returned what it
  would return among them alone; kept by both kinds of calls (`Follows.define`, `Follows.undo`);
* `ledger_nested` : so the table answers as if what has been reversed had never been defined.
-/

namespace Funclet.Operators

/-- What can be done to a table: a definition, or the reversal of the definition with the given number. Definitions are
numbered from zero, those of plain functions included. -/
inductive Call where
  | define (kind : FunctionKind)
  | undo (n : Nat)
deriving DecidableEq

/-- A table, and what the definitions so far have returned, in order. -/
structure Ledger where
  table : Operators
  returned : List (Option Undo)

/-- The ledger behind a call. There is nothing to reverse where a definition has returned nothing. -/
def Ledger.perform (l : Ledger) : Call → Ledger
  | .define kind => ⟨(l.table.define kind).1, l.returned ++ [(l.table.define kind).2]⟩
  | .undo n => { l with table := l.returned[n]?.join.elim l.table l.table.undo }

/-- The ledger behind all the calls, the first one first. -/
def ledger (t : Operators) (calls : List Call) : Ledger := calls.foldl Ledger.perform ⟨t, []⟩

def defineAll (t : Operators) (kinds : List FunctionKind) : Operators := kinds.foldl (fun t kind => (t.define kind).1) t

def defined (calls : List Call) : List FunctionKind :=
  calls.filterMap fun
    | .define kind => some kind
    | .undo _ => none

/-- The definitions that have not been reversed, with their numbers. -/
def kept (calls : List Call) : List (FunctionKind × Nat) :=
  (defined calls).zipIdx.filter fun d => Call.undo d.2 ∉ calls

/-- The latest definition of an operator that has not been reversed. -/
def latest? (calls : List Call) : Option (FunctionKind × Nat) := ((kept calls).filter (·.1 ≠ .plain)).getLast?

/-- Each reversal is of the latest definition of an operator that has not been reversed before. -/
inductive Nested : List Call → Prop
  | nil : Nested []
  | define {calls : List Call} (h : Nested calls) (kind : FunctionKind) : Nested (calls ++ [.define kind])
  | undo {calls : List Call} (h : Nested calls) {d : FunctionKind × Nat} (hd : latest? calls = some d) :
    Nested (calls ++ [.undo d.2])

/-! ## Definitions alone -/

/-- Only the definition of an operator returns anything, and that takes it back. -/
theorem exists_undo (t : Operators) {kind : FunctionKind} (hkind : kind ≠ .plain) :
    ∃ u, (t.define kind).2 = some u ∧ (t.define kind).1.undo u = t := by
  have hundo := undo_define t kind
  cases hu : (t.define kind).2 with
  | some u =>
    rw [hu] at hundo
    exact ⟨u, rfl, hundo⟩
  | none =>
    cases kind with
    | plain => exact absurd rfl hkind
    | unary op =>
      unfold define at hu
      dsimp only at hu
      split at hu <;> cases hu
    | binary op precedence => cases hu

theorem defineAll_append (t : Operators) (ks ls : List FunctionKind) :
    t.defineAll (ks ++ ls) = (t.defineAll ks).defineAll ls := List.foldl_append

theorem defineAll_of_plain (t : Operators) {ks : List FunctionKind} (h : ∀ k ∈ ks, k = .plain) :
    t.defineAll ks = t := by
  induction ks with
  | nil => rfl
  | cons k ks ih =>
    obtain ⟨rfl, hks⟩ := List.forall_mem_cons.1 h
    exact ih hks

/-! ## Numbers -/

theorem defined_define (calls : List Call) (kind : FunctionKind) :
    defined (calls ++ [.define kind]) = defined calls ++ [kind] := by
  simp [defined]

theorem defined_undo (calls : List Call) (n : Nat) : defined (calls ++ [.undo n]) = defined calls := by
  simp [defined]

theorem lt_of_mem_kept {calls : List Call} {d : FunctionKind × Nat} (h : d ∈ kept calls) :
    d.2 < (defined calls).length :=
  List.snd_lt_of_mem_zipIdx (List.mem_of_mem_filter h)

theorem kept_nodup (calls : List Call) : ((kept calls).map Prod.snd).Nodup :=
  (List.nodup_zipIdx_map_snd _).sublist (List.filter_sublist.map _)

/-- What stands before and behind the latest operator: behind it there are plain functions only. -/
theorem latest?_split {calls : List Call} {d : FunctionKind × Nat} (h : latest? calls = some d) :
    d.1 ≠ .plain ∧ ∃ before after, kept calls = before ++ d :: after ∧ ∀ e ∈ after, e.1 = .plain := by
  obtain ⟨ops, hops⟩ := List.getLast?_eq_some_iff.1 h
  obtain ⟨before, tail, hkept, -, htail⟩ := List.filter_eq_append_iff.1 hops
  obtain ⟨plains, after, rfl, -, hd, hafter⟩ := List.filter_eq_cons_iff.1 htail
  refine ⟨by simpa using hd, before ++ plains, after, by rw [hkept, List.append_assoc], fun e he => ?_⟩
  simpa using List.filter_eq_nil_iff.1 hafter e he

theorem latest?_mem {calls : List Call} {d : FunctionKind × Nat} (h : latest? calls = some d) : d ∈ kept calls :=
  List.mem_of_mem_filter (List.mem_of_getLast? h)

/-- Only definitions that have been made are reversed. -/
theorem Nested.lt_of_mem {calls : List Call} (h : Nested calls) {n : Nat} (hn : .undo n ∈ calls) :
    n < (defined calls).length := by
  induction h with
  | nil => cases hn
  | define _ kind ih =>
    have hlt : n < (defined _).length := ih (by simpa using hn)
    rw [defined_define, List.length_append]
    exact Nat.lt_add_right _ hlt
  | undo _ hd ih =>
    rw [defined_undo]
    rcases List.mem_append.1 hn with hn | hn
    · exact ih hn
    · cases List.mem_singleton.1 hn
      exact lt_of_mem_kept (latest?_mem hd)

/-- A definition is kept until it is reversed. -/
theorem Nested.kept_define {calls : List Call} (h : Nested calls) (kind : FunctionKind) :
    kept (calls ++ [.define kind]) = kept calls ++ [(kind, (defined calls).length)] := by
  have hnew : Call.undo (defined calls).length ∉ calls := fun hn => Nat.lt_irrefl _ (h.lt_of_mem hn)
  rw [kept, defined_define, List.zipIdx_append, List.filter_append, kept]
  simp [hnew]

theorem kept_undo (calls : List Call) (n : Nat) : kept (calls ++ [.undo n]) = (kept calls).filter (·.2 ≠ n) := by
  rw [kept, defined_undo, kept, List.filter_filter]
  refine List.filter_congr fun d _ => ?_
  simp [and_comm]

/-- A reversal takes out one definition. -/
theorem kept_undo_of_split {calls : List Call} {before after : List (FunctionKind × Nat)} {d : FunctionKind × Nat}
    (h : kept calls = before ++ d :: after) : kept (calls ++ [.undo d.2]) = before ++ after := by
  have hnodup := kept_nodup calls
  rw [h, List.map_append, List.map_cons, List.nodup_middle, List.nodup_cons, ← List.map_append] at hnodup
  have hother (e) (he : e ∈ before ++ after) : e.2 ≠ d.2 := fun heq =>
    hnodup.1 (heq ▸ List.mem_map_of_mem he)
  rw [kept_undo, h, List.filter_append, List.filter_cons_of_neg (by simp), ← List.filter_append, List.filter_eq_self]
  exact fun e he => by simpa using hother e he

/-! ## What calls come to -/

/-- The ledger stands for the definitions that are kept: its table is the one they make, and what each of them has
returned is what it returns behind those before it. -/
structure Follows (t : Operators) (calls : List Call) : Prop where
  length : (ledger t calls).returned.length = (defined calls).length
  table : (ledger t calls).table = t.defineAll ((kept calls).map Prod.fst)
  returned : ∀ before d after, kept calls = before ++ d :: after →
    (ledger t calls).returned[d.2]? = some ((t.defineAll (before.map Prod.fst)).define d.1).2

variable {t : Operators} {calls : List Call}

theorem ledger_concat (t : Operators) (calls : List Call) (c : Call) :
    ledger t (calls ++ [c]) = (ledger t calls).perform c := List.foldl_concat _ _ _ _

theorem follows_nil (t : Operators) : Follows t [] :=
  ⟨rfl, rfl, fun before d after h => by simp [kept, defined] at h⟩

theorem Follows.define (h : Follows t calls) (hnested : Nested calls) (kind : FunctionKind) :
    Follows t (calls ++ [.define kind]) := by
  have hkept := hnested.kept_define kind
  refine ⟨?_, ?_, fun before d after hsplit => ?_⟩
  · rw [ledger_concat, defined_define]
    simp [Ledger.perform, h.length]
  · rw [ledger_concat, hkept, List.map_append, defineAll_append, ← h.table]
    rfl
  · rw [ledger_concat]
    change ((ledger t calls).returned ++ [((ledger t calls).table.define kind).2])[d.2]? = _
    rw [hkept] at hsplit
    rcases List.eq_nil_or_concat after with rfl | ⟨after, e, rfl⟩
    · obtain ⟨rfl, hd⟩ := List.append_inj' hsplit rfl
      cases hd
      rw [← h.length, List.getElem?_concat_length, h.table]
    · have hsplit' : kept calls ++ [(kind, (defined calls).length)] = (before ++ d :: after) ++ [e] := by
        simpa using hsplit
      have hold := (List.append_inj' hsplit' rfl).1
      have hlt : d.2 < (ledger t calls).returned.length := by
        rw [h.length]
        exact lt_of_mem_kept (hold ▸ List.mem_append_right _ List.mem_cons_self)
      rw [List.getElem?_append_left hlt]
      exact h.returned before d after hold

theorem Follows.undo (h : Follows t calls) {d : FunctionKind × Nat} (hd : latest? calls = some d) :
    Follows t (calls ++ [.undo d.2]) := by
  obtain ⟨hkind, before, after, hkept, hplain⟩ := latest?_split hd
  have hkept' := kept_undo_of_split hkept
  have hnone : ∀ k ∈ after.map Prod.fst, k = .plain := by simpa using hplain
  refine ⟨?_, ?_, fun before' e after' hsplit => ?_⟩
  · rw [ledger_concat, defined_undo]
    exact h.length
  · -- The plain functions behind the operator change nothing, so that it is the last thing in the table.
    obtain ⟨u, hu, hback⟩ := (t.defineAll (before.map Prod.fst)).exists_undo hkind
    have htable : (ledger t calls).table = ((t.defineAll (before.map Prod.fst)).define d.1).1 := by
      rw [h.table, hkept, List.map_append, List.map_cons, defineAll_append]
      exact defineAll_of_plain _ hnone
    rw [ledger_concat, hkept', List.map_append, defineAll_append, defineAll_of_plain _ hnone]
    change (ledger t calls).returned[d.2]?.join.elim _ (ledger t calls).table.undo = _
    rw [h.returned before d after hkept, hu, htable]
    exact hback
  · rw [ledger_concat]
    change (ledger t calls).returned[e.2]? = _
    rw [hkept'] at hsplit
    have hbehind (mid) (hafter : after = mid ++ e :: after') :
        (ledger t calls).returned[e.2]? = some ((t.defineAll (before'.map Prod.fst)).define e.1).2 := by
      have he : e.1 = .plain := hplain e (hafter ▸ List.mem_append_right _ List.mem_cons_self)
      rw [h.returned (before ++ d :: mid) e after' (by rw [hkept, hafter]; simp), he]
      rfl
    rcases List.append_eq_append_iff.1 hsplit with ⟨mid, -, hafter⟩ | ⟨mid, hbefore, hafter⟩
    · exact hbehind mid hafter
    · cases mid with
      | nil => exact hbehind [] hafter.symm
      | cons e' mid =>
        obtain ⟨rfl, -⟩ := List.cons.inj hafter
        exact h.returned before' e (mid ++ d :: after) (by rw [hkept, hbefore]; simp)

theorem Nested.follows (h : Nested calls) (t : Operators) : Follows t calls := by
  induction h with
  | nil => exact follows_nil t
  | define h kind ih => exact ih.define h kind
  | undo _ hd ih => exact ih.undo hd

/-- Whatever has been defined and reversed in a table, if the reversals nest, then every token means what it would mean
behind only the definitions that have not been reversed. -/
theorem ledger_nested (t : Operators) (h : Nested calls) (u : Token) :
    (ledger t calls).table.precedence? u = (t.defineAll ((kept calls).map Prod.fst)).precedence? u ∧
      (ledger t calls).table.isUnary u = (t.defineAll ((kept calls).map Prod.fst)).isUnary u := by
  rw [(h.follows t).table]
  exact ⟨rfl, rfl⟩

/-- The symbol of a built-in operator, defined anew again and again for both uses, with plain functions in between. -/
def reused : List Call :=
  [.define (.binary '+' 70), .define (.unary '+'), .define .plain, .define (.binary '+' 5), .define (.unary '+'),
    .define .plain, .undo 4, .undo 3, .define (.binary '|' 1), .undo 6, .undo 1]

theorem ledger_nested_reused :
    Nested reused ∧ (kept reused).map Prod.fst = [.binary '+' 70, .plain, .plain] ∧
      (ledger initial reused).table.precedence? (.symbol '+') = some 70 ∧
      (ledger initial reused).table.isUnary (.symbol '+') = false := by
  have hnested : Nested reused := by
    have h := (((Nested.nil.define (.binary '+' 70)).define (.unary '+')).define .plain).define (.binary '+' 5)
    have h := (h.define (.unary '+')).define .plain
    have h := (h.undo (d := (.unary '+', 4)) (by decide)).undo (d := (.binary '+' 5, 3)) (by decide)
    have h := (h.define (.binary '|' 1)).undo (d := (.binary '|' 1, 6)) (by decide)
    exact h.undo (d := (.unary '+', 1)) (by decide)
  obtain ⟨hprecedence, hunary⟩ := ledger_nested initial hnested (.symbol '+')
  exact ⟨hnested, by decide, hprecedence.trans (by decide), hunary.trans (by decide)⟩

end Funclet.Operators
