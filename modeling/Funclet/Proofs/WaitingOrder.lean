import Funclet.Proofs.Histories
import Funclet.Proofs.Linking

/-!
# The order in which a session waits for functions

* `firsts cs` : of the calls `cs`, the first of each name;
* `History.calls` : the calls of the functions that have been lowered; `History.uses` : the same calls, except that
  those of a name go behind all others when a definition of that name fails;
* `Asked.unresolved` : calls make a session wait for the names that are new to it, in the order of their first calls;
* `Session.Awaits` : a session waits for the names that are called and not defined, in the order of `History.uses`;
  kept by a function, whatever its fate (`Awaits.undergoes`);
* `unresolved_order` : so does every session, and the order is that of the first calls as long as no definition has
  failed of a name that was waited for.
-/

namespace Funclet

open Lowering

/-! ## First calls -/

def firsts : List Call → List Call
  | [] => []
  | c :: cs => c :: (firsts cs).filter fun d => d.name ≠ c.name

/-- First calls are the same in any choice of names. -/
theorem firsts_filter (p : String → Bool) (cs : List Call) :
    firsts (cs.filter fun c => p c.name) = (firsts cs).filter fun c => p c.name := by
  induction cs with
  | nil => rfl
  | cons c cs ih =>
    by_cases hc : p c.name = true
    · rw [List.filter_cons_of_pos (by exact hc), firsts, firsts, List.filter_cons_of_pos (by exact hc), ih,
        List.filter_filter, List.filter_filter]
      refine congrArg _ (List.filter_congr fun d _ => ?_)
      rw [Bool.and_comm]
    · rw [List.filter_cons_of_neg (by exact hc), firsts, List.filter_cons_of_neg (by exact hc), ih, List.filter_filter]
      refine List.filter_congr fun d _ => ?_
      by_cases hd : p d.name = true
      · have hne : d.name ≠ c.name := fun h => hc (h ▸ hd)
        simp [hd, hne]
      · simp [hd]

/-- Later calls count for the names that have not been called before. -/
theorem firsts_append (cs ds : List Call) :
    firsts (cs ++ ds) = firsts cs ++ (firsts ds).filter fun d => d.name ∉ cs.map Call.name := by
  induction cs with
  | nil => simp [firsts]
  | cons c cs ih =>
    rw [List.cons_append, firsts, ih, List.filter_append, List.filter_filter, firsts, List.cons_append]
    refine congrArg _ (congrArg _ (List.filter_congr fun d _ => ?_))
    simp [not_or]

theorem mem_firsts_names (cs : List Call) (name : String) :
    name ∈ (firsts cs).map Call.name ↔ name ∈ cs.map Call.name := by
  induction cs with
  | nil => rfl
  | cons c cs ih =>
    rw [firsts, List.map_cons, List.map_cons, List.mem_cons, List.mem_cons, ← ih]
    by_cases hc : name = c.name
    · simp [hc]
    · simp only [hc, false_or, List.mem_map, List.mem_filter, decide_eq_true_eq]
      constructor
      · rintro ⟨d, ⟨hd, -⟩, rfl⟩
        exact ⟨d, hd, rfl⟩
      · rintro ⟨d, hd, rfl⟩
        exact ⟨d, ⟨hd, hc⟩, rfl⟩

/-! ## What calls and definitions do to the order -/

namespace Lowering

variable {id : FunctionId} {s t : Session} {as : List (Call × FunctionId)}

/-- Calls make their names known, and no others. -/
theorem Asked.find?_eq_none (h : Asked id s as t) (name : String) :
    t.registry.find? name = none ↔
      s.registry.find? name = none ∧ name ∉ (as.map Prod.fst).map Call.name := by
  induction h with
  | refl => simp
  | code _ _ hr _ ih => rw [hr, ih]
  | @call t u as c callee _ hc ih =>
    rw [List.map_append, List.map_append, List.mem_append, not_or, ← and_assoc, ← ih]
    simp only [List.map_cons, List.map_nil, List.mem_singleton]
    rcases resolve_ok hc with ⟨rfl, e, he, -, -⟩ | ⟨hnone, -, -, hreg, -⟩
    · refine ⟨fun hn => ⟨hn, ?_⟩, And.left⟩
      rintro rfl
      rw [he] at hn
      cases hn
    · rw [hreg, find?_expect _ _ _ _ hnone]
      by_cases hn : c.name = name
      · simp [hn]
      · simp [hn, Ne.symm hn]

/-- Calls make a session wait for the names that are new to it, in the order of their first calls. -/
theorem Asked.unresolved (h : Asked id s as t) :
    t.registry.unresolved = s.registry.unresolved ++
      ((firsts (as.map Prod.fst)).filter fun c => (s.registry.find? c.name).isNone).map Call.placeholder := by
  induction h with
  | refl => simp [firsts]
  | code _ _ hr _ ih => rw [hr, ih]
  | @call t u as c callee hasked hc ih =>
    have hnew := hasked.find?_eq_none c.name
    rw [List.map_append, firsts_append, List.filter_append, List.map_append, ← List.append_assoc, ← ih]
    have hsingle : firsts [c] = [c] := rfl
    rcases resolve_ok hc with ⟨rfl, e, he, -, -⟩ | ⟨hnone, -, -, hreg, -⟩
    · have hknown : ¬ (s.registry.find? c.name = none ∧ c.name ∉ (as.map Prod.fst).map Call.name) := by
        rw [← hnew, he]
        exact Option.some_ne_none e
      rw [List.map_cons, List.map_nil, hsingle, List.filter_filter, List.filter_cons_of_neg]
      · simp
      · simpa using hknown
    · obtain ⟨hs, hc⟩ := hnew.mp hnone
      have hpending : t.registry.pending.get? c.name = none := ((Registry.find?_eq_none_iff _ _).mp hnone).2
      have hfirst : ((s.registry.find? c.name).isNone && decide (c.name ∉ (as.map Prod.fst).map Call.name)) = true := by
        rw [Bool.and_eq_true, Option.isNone_iff_eq_none, decide_eq_true_eq]
        exact ⟨hs, hc⟩
      rw [List.map_cons, List.map_nil, hsingle, List.filter_filter, List.filter_cons_of_pos (by exact hfirst), hreg]
      simp only [Registry.unresolved, OrderedMap.values, OrderedMap.entries_insert _ _ _ hpending, List.map_append]
      rfl

end Lowering

section Registry
variable {r : Registry} {a : Assembler} (hl : Linked r a)
include hl

theorem Linked.name_of_mem {e : String × Registry.Entry} (he : e ∈ r.pending.entries) : e.2.proto.name = e.1 :=
  hl.named _ _ (hl.find?_of_pending ((OrderedMap.get?_eq_some_iff hl.pending _ _).mpr he))

/-- Whether a session waits for a name can be read off the signature. -/
theorem Linked.unresolved_filter (p : String → Bool) :
    (r.pending.entries.filter fun e => p e.1).map (fun e => e.2.proto) = r.unresolved.filter fun q => p q.name := by
  rw [Registry.unresolved, OrderedMap.values, List.map_map, List.filter_map]
  refine congrArg (List.map _) (List.filter_congr fun e he => ?_)
  rw [Function.comp_apply, Function.comp_apply, hl.name_of_mem he]

theorem Linked.unresolved_erase (name : String) :
    (r.pending.erase name).values.map Registry.Entry.proto = r.unresolved.filter fun q => q.name ≠ name := by
  rw [OrderedMap.values, List.map_map]
  exact hl.unresolved_filter fun n => n ≠ name

/-- A definition that is taken back leaves a placeholder of its name behind all others. -/
theorem Linked.unresolved_reverted (p : Prototype) :
    (r.reverted p).unresolved =
      (r.unresolved.filter fun q => q.name ≠ p.name) ++ r.unresolved.filter fun q => q.name = p.name := by
  have hentries : (r.reverted p).pending.entries =
      (r.pending.entries.filter fun e => e.1 ≠ p.name) ++ r.pending.entries.filter fun e => e.1 = p.name := by
    rw [OrderedMap.filter_key hl.pending]
    unfold Registry.reverted
    cases hp : r.pending.get? p.name with
    | none =>
      have herase := congrArg OrderedMap.entries (OrderedMap.erase_of_get? _ _ hp)
      exact herase.symm.trans (List.append_nil _).symm
    | some e => exact OrderedMap.entries_insert _ _ _ (by simp)
  rw [← hl.unresolved_filter fun n => n ≠ p.name, ← hl.unresolved_filter fun n => n = p.name, ← List.map_append,
    ← hentries, Registry.unresolved, OrderedMap.values, List.map_map]
  rfl

end Registry

/-! ## Calls of a history -/

namespace History

def defined (h : History) : List String := h.lowered.map fun f => f.proto.name

def calls (h : History) : List Call := h.lowered.flatMap fun f => f.body.calls

/-- Adds the calls of a function that is lowered, and puts those of the name of one that fails behind all others. -/
def use (us : List Call) (c : Function × Fate) : List Call :=
  match c.2 with
  | .lowered _ => us ++ c.1.body.calls
  | .failed => (us.filter fun u => u.name ≠ c.1.proto.name) ++ us.filter fun u => u.name = c.1.proto.name
  | .refused => us

/-- The calls of the functions that have been lowered, in the order in which a session waits for their names. -/
def uses (h : History) : List Call := h.foldl use []

/-- Of the given calls, the first of each name that no function has been lowered of. -/
def awaited (h : History) (cs : List Call) : List Call := (firsts cs).filter fun c => c.name ∉ h.defined

theorem uses_concat (h : History) (c : Function × Fate) : uses (h ++ [c]) = use h.uses c := by
  rw [uses, List.foldl_append]
  rfl

theorem defined_lowered (h : History) (f : Function) (body : Body) :
    defined (h ++ [(f, .lowered body)]) = h.defined ++ [f.proto.name] := by
  rw [defined, lowered_append, List.map_append]
  rfl

theorem calls_lowered (h : History) (f : Function) (body : Body) :
    calls (h ++ [(f, .lowered body)]) = h.calls ++ f.body.calls := by
  rw [calls, lowered_append, List.flatMap_append]
  exact congrArg _ (List.append_nil _)

theorem lowered_of_body? {c : Function × Fate} (hc : c.2.body? = none) (h : History) :
    lowered (h ++ [c]) = h.lowered := by
  rw [lowered_append]
  simp [lowered, hc]

theorem defined_of_body? {c : Function × Fate} (hc : c.2.body? = none) (h : History) :
    defined (h ++ [c]) = h.defined := by
  rw [defined, lowered_of_body? hc]
  rfl

theorem calls_of_body? {c : Function × Fate} (hc : c.2.body? = none) (h : History) :
    calls (h ++ [c]) = h.calls := by
  rw [calls, lowered_of_body? hc]
  rfl

/-- A name that fails loses none of its calls. -/
theorem mem_use_failed (us : List Call) (f : Function) (name : String) :
    name ∈ (use us (f, .failed)).map Call.name ↔ name ∈ us.map Call.name := by
  simp only [use, List.map_append, List.mem_append, List.mem_map, List.mem_filter, decide_eq_true_eq]
  grind

theorem firsts_use_failed (us : List Call) (f : Function) :
    firsts (use us (f, .failed)) =
      ((firsts us).filter fun u => u.name ≠ f.proto.name) ++ (firsts us).filter fun u => u.name = f.proto.name := by
  simp only [use]
  rw [firsts_append, firsts_filter fun n => n ≠ f.proto.name, firsts_filter fun n => n = f.proto.name,
    List.filter_filter]
  refine congrArg _ (List.filter_congr fun u _ => ?_)
  by_cases hu : u.name = f.proto.name
  · simp [hu]
  · simp [hu]

/-- The order of `uses` is another order of the first calls. -/
theorem firsts_uses_perm (h : History) : (firsts h.uses).Perm (firsts h.calls) := by
  induction h using List.reverseRecOn with
  | nil => exact .refl _
  | append_singleton h c ih =>
    obtain ⟨f, fate⟩ := c
    rw [uses_concat]
    cases fate with
    | lowered body =>
      -- which calls of the body are first depends on the names before them, and not on their order
      have hnames : ∀ name, name ∈ (uses h).map Call.name ↔ name ∈ (calls h).map Call.name := by
        intro name
        rw [← mem_firsts_names, ← mem_firsts_names (calls h)]
        exact (ih.map Call.name).mem_iff
      rw [calls_lowered, firsts_append]
      change (firsts (uses h ++ f.body.calls)).Perm _
      rw [firsts_append]
      simp only [hnames]
      exact ih.append_right _
    | failed =>
      rw [calls_of_body? rfl, firsts_use_failed]
      refine List.Perm.trans ?_ ih
      simpa using List.filter_append_perm (fun u : Call => decide (u.name ≠ f.proto.name)) (firsts (uses h))
    | refused => exact (calls_of_body? (c := (f, .refused)) rfl h).symm ▸ ih

/-- Nothing is put behind as long as no definition fails of a name that has been called. -/
theorem uses_eq_calls (h : History)
    (hfail : ∀ (h₁ : History) f h₂, h = h₁ ++ (f, .failed) :: h₂ → f.proto.name ∉ h₁.calls.map Call.name) :
    h.uses = h.calls := by
  induction h using List.reverseRecOn with
  | nil => rfl
  | append_singleton h c ih =>
    have hh : uses h = calls h := ih fun h₁ f h₂ heq => hfail h₁ f (h₂ ++ [c]) (by rw [heq]; simp)
    obtain ⟨f, fate⟩ := c
    rw [uses_concat, hh]
    cases fate with
    | lowered body => exact (calls_lowered h f body).symm
    | refused => exact (calls_of_body? (c := (f, .refused)) rfl h).symm
    | failed =>
      have hname := hfail h f [] rfl
      rw [calls_of_body? rfl]
      have hne : ∀ u ∈ calls h, u.name ≠ f.proto.name := fun u hu heq => hname (heq ▸ List.mem_map_of_mem hu)
      simp only [use]
      rw [List.filter_eq_self.mpr (by simpa using hne), List.filter_eq_nil_iff.mpr (by simpa using hne),
        List.append_nil]

end History

/-! ## Sessions -/

namespace Session

variable {entry : String} {strict : Bool} {h : History} {s s' : Session} {f : Function}

/-- The session waits for what the functions in the history have called and none of them has defined. -/
structure Awaits (s : Session) (h : History) : Prop where
  known : ∀ name, s.registry.find? name = none ↔ name ∉ h.defined ∧ name ∉ h.uses.map Call.name
  unresolved : s.registry.unresolved = (h.awaited h.uses).map Call.placeholder

/-- The name of a placeholder is the name of its call. -/
theorem filter_placeholder (p : String → Bool) (cs : List Call) :
    (cs.map Call.placeholder).filter (fun q => p q.name) = (cs.filter fun c => p c.name).map Call.placeholder := by
  rw [List.filter_map]
  rfl

/-- A function that is lowered defines its name, and the session waits for the new names that it calls. -/
theorem Awaits.lowered {s₁ t : Session} {o : Registry.Opening} {as : List (Call × FunctionId)} (hs : s.Awaits h)
    (hl : Linked s.registry s.assembler) (he : enroll f.proto { s with scopes := .empty } = .ok o s₁)
    (has : Asked o.id (begun o.id (opened f s₁)) as t) (hcalls : as.map Prod.fst = f.body.calls)
    (hr : s'.registry = t.registry) (body : Body) : s'.Awaits (h ++ [(f, .lowered body)]) := by
  obtain ⟨-, -, -, hreg, -⟩ := enroll_ok he
  have hnew : ∀ name, s₁.registry.find? name = none ↔
      name ≠ f.proto.name ∧ name ∉ h.defined ∧ name ∉ h.uses.map Call.name := by
    intro name
    rw [hreg, find?_confirm, ← hs.known name]
    by_cases hn : f.proto.name = name
    · simp [hn]
    · simp [hn, Ne.symm hn]
  have huses : History.uses (h ++ [(f, .lowered body)]) = h.uses ++ f.body.calls := History.uses_concat _ _
  constructor
  · intro name
    rw [hr, has.find?_eq_none, hcalls, huses, History.defined_lowered, List.map_append]
    change s₁.registry.find? name = none ∧ _ ↔ _
    rw [hnew name]
    simp only [List.mem_append, List.mem_singleton, not_or]
    constructor
    · rintro ⟨⟨hf, hd, hu⟩, hc⟩
      exact ⟨⟨hd, hf⟩, hu, hc⟩
    · rintro ⟨⟨hd, hf⟩, hu, hc⟩
      exact ⟨⟨hf, hd, hu⟩, hc⟩
  · have hkept : s₁.registry.unresolved =
        ((h.awaited h.uses).filter fun c => c.name ≠ f.proto.name).map Call.placeholder := by
      rw [hreg, Registry.unresolved]
      change (s.registry.pending.erase f.proto.name).values.map _ = _
      rw [hl.unresolved_erase, hs.unresolved, filter_placeholder fun n => n ≠ f.proto.name]
    rw [hr, has.unresolved, hcalls, huses, History.awaited, firsts_append, List.filter_append, List.map_append,
      History.defined_lowered]
    change s₁.registry.unresolved ++ _ = _
    rw [hkept, History.awaited, List.filter_filter, List.filter_filter]
    congr 2
    · refine List.filter_congr fun c _ => ?_
      simp only [List.mem_append, List.mem_singleton, not_or, Bool.decide_and, ne_eq, Bool.and_comm]
    · refine List.filter_congr fun c _ => ?_
      change (s₁.registry.find? c.name).isNone = _
      rw [Bool.eq_iff_iff, Option.isNone_iff_eq_none, hnew c.name]
      simp only [List.mem_append, List.mem_singleton, not_or, Bool.and_eq_true, decide_eq_true_eq]
      constructor
      · rintro ⟨hf, hd, hu⟩
        exact ⟨⟨hd, hf⟩, hu⟩
      · rintro ⟨⟨hd, hf⟩, hu⟩
        exact ⟨hf, hd, hu⟩

/-- A function that fails makes the session wait for its name behind all others. -/
theorem Awaits.failed (hs : s.Awaits h) (hl : Linked s.registry s.assembler)
    (hr : s'.registry = s.registry.reverted f.proto) : s'.Awaits (h ++ [(f, .failed)]) := by
  have huses : History.uses (h ++ [(f, .failed)]) = History.use h.uses (f, .failed) := History.uses_concat _ _
  constructor
  · intro name
    rw [hr, Registry.find?_reverted, hs.known, huses, History.mem_use_failed, History.defined_of_body? rfl]
  · rw [hr, hl.unresolved_reverted, hs.unresolved, filter_placeholder fun n => n ≠ f.proto.name,
      filter_placeholder fun n => n = f.proto.name, huses, ← List.map_append, History.awaited, History.awaited,
      History.firsts_use_failed, List.filter_append, History.defined_of_body? rfl]
    simp only [List.filter_filter, Bool.and_comm]

theorem Awaits.undergoes {fate : Fate} (hs : s.Awaits h) (hl : Linked s.registry s.assembler)
    (hf : Undergoes f s fate s') : s'.Awaits (h ++ [(f, fate)]) := by
  cases hf with
  | lowered he has hcalls _ hr _ => exact hs.lowered hl he has hcalls hr _
  | @failed s₁ t _ o as he has _ hr _ =>
    have hkept := kept_opened has.effects
    refine hs.failed hl (hr.trans ?_)
    exact withdraw_enrolled (s := { s with scopes := .empty }) he hkept.confirmed hkept.pending hkept.entry
  | refused hr _ =>
    have huses : History.uses (h ++ [(f, .refused)]) = h.uses := History.uses_concat _ _
    constructor
    · intro name
      rw [hr, huses, History.defined_of_body? rfl]
      exact hs.known name
    · rw [hr, huses, History.awaited, History.defined_of_body? rfl]
      exact hs.unresolved

theorem Ran.awaits (hs : Ran entry strict h s) : s.Awaits h := by
  induction hs with
  | start => exact ⟨fun name => by simp [History.defined, History.lowered, History.uses]; rfl, rfl⟩
  | record _ _ ih => exact ⟨ih.known, ih.unresolved⟩
  | function hs f ih => exact ih.undergoes hs.reachable.orderly.linked (compileFunction_undergoes _ f)

/-- A session waits for the names that lowered functions call and none defines, each with its first call, and reports
them in that order. The order is that of the first calls, unless a definition has failed of a name called before it. -/
theorem unresolved_order (hs : Ran entry strict h s) :
    s.registry.unresolved = (h.awaited h.uses).map Call.placeholder ∧
    (h.awaited h.uses).Perm (h.awaited h.calls) ∧
    ((∀ (h₁ : History) f h₂, h = h₁ ++ (f, .failed) :: h₂ → f.proto.name ∉ h₁.calls.map Call.name) →
      s.registry.unresolved = (h.awaited h.calls).map Call.placeholder) ∧
    (strict = true → s.conclude.diagnostics =
      s.diagnostics ++ (h.awaited h.uses).map fun c => ⟨.undefinedFunction c.name, c.pos⟩) := by
  have horder := hs.awaits.unresolved
  refine ⟨horder, (History.firsts_uses_perm h).filter _, fun hfail => ?_, fun hstrict => ?_⟩
  · rw [horder, h.uses_eq_calls hfail]
  · rw [diagnostics_conclude (hs.settings.1.trans hstrict), horder, List.map_map]
    rfl

/-- While the session waits for `f` and `g`, the entry function is refused a second definition, and a definition of `f`
fails behind its call of `k`. -/
theorem unresolved_order_twice :
    let pos : Pos := default
    let main : Function := ⟨⟨pos, "main", [], .plain⟩, .ret pos (.binary pos '+' (.call pos "f" []) (.call pos "g" []))⟩
    let f : Function := ⟨⟨pos, "f", [], .plain⟩, .ret pos (.binary pos '+' (.call pos "k" []) (.var pos "y"))⟩
    let s₁ := ((initial "main" true).compileFunction main).2
    let s₂ := (s₁.compileFunction main).2
    let s := (s₂.compileFunction f).2
    let h : History := [(main, (initial "main" true).fate main), (main, s₁.fate main), (f, s₂.fate f)]
    Ran "main" true h s ∧ h.map (fun c => c.2.body?.isSome) = [true, false, false] ∧ s₂.fate f = .failed ∧
      s.registry.unresolved = (h.awaited h.uses).map Call.placeholder ∧
      (h.awaited h.uses).map Call.name = ["g", "f"] ∧
      s.conclude.diagnostics = s.diagnostics ++ (h.awaited h.uses).map fun c => ⟨.undefinedFunction c.name, c.pos⟩ := by
  intro pos main f s₁ s₂ s h
  have hs : Ran "main" true h s := ((Ran.start.function main).function main).function f
  obtain ⟨horder, -, -, hreports⟩ := unresolved_order hs
  refine ⟨hs, ?_, ?_, horder, ?_, hreports rfl⟩
  · decide +kernel +zetaReduce
  · decide +kernel +zetaReduce
  · decide +kernel +zetaReduce

/-- A session that waits for `f` and then for `g` waits for `g` and then for `f` once a definition of `f` has failed,
though no other call has been made. -/
theorem unresolved_behind_failure :
    let pos : Pos := default
    let main : Function := ⟨⟨pos, "main", [], .plain⟩, .ret pos (.binary pos '+' (.call pos "f" []) (.call pos "g" []))⟩
    let f : Function := ⟨⟨pos, "f", [], .plain⟩, .ret pos (.var pos "y")⟩
    let s₁ := ((initial "main" true).compileFunction main).2
    let s := (s₁.compileFunction f).2
    let h : History := [(main, (initial "main" true).fate main), (f, s₁.fate f)]
    Ran "main" true h s ∧ s₁.fate f = .failed ∧ (h.awaited h.calls).map Call.name = ["f", "g"] ∧
      s₁.registry.unresolved.map Prototype.name = ["f", "g"] ∧
      s.registry.unresolved.map Prototype.name = ["g", "f"] ∧
      s.conclude.diagnostics.map Diagnostic.cause =
        [.unknownVariable "y", .undefinedFunction "g", .undefinedFunction "f"] := by
  intro pos main f s₁ s h
  refine ⟨(Ran.start.function main).function f, ?_, ?_, ?_, ?_, ?_⟩
  · decide +kernel +zetaReduce
  · decide +kernel +zetaReduce
  · decide +kernel +zetaReduce
  · decide +kernel +zetaReduce
  · decide +kernel +zetaReduce

end Session

end Funclet
