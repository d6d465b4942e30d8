import Funclet.Code.Assembler

/-!
# Regions that have their terminator

* `Operation`, `Assembler.apply`, `Assembler.run` : everything that can be done to code under construction, one after
  the other and in any order;
* `Assembler.instruction?`, `Operation.terminator?` : the instruction that an operation appends at the insertion point,
  or the terminator it gives there;
* `region?_apply` : what one operation does to any region;
* `writtenAt` : the instructions that operations append while the insertion point is in a region; `behind` : those that
  they append behind a terminator;
* `run_closed` : a region with a terminator keeps it, and its instructions change only by what is written in it, all of
  which comes behind a terminator. It does not refuse that: `run_behind_ret`.
-/

namespace Funclet

/-- Something that can be done to code under construction. -/
inductive Operation where
  | declare (name : String) (params : Nat)
  | addRegion (function : FunctionId) (label : String)
  | moveTo (place : Place)
  | reserve (place : Place) (name : String)
  | constant (value : Constant)
  | param (index : Nat)
  | load (slot : SlotId)
  | primitive (op : Primitive) (lhs rhs : ValueId)
  | call (callee : FunctionId) (args : List ValueId)
  | store (slot : SlotId) (value : ValueId)
  | print (items : List ValueId)
  | close (terminator : Terminator)
  | finish (function : FunctionId)
  | discard (function : FunctionId)

namespace Operation

def terminator? : Operation → Option Terminator
  | close terminator => some terminator
  | _ => none

/-- The function whose body leaves construction. -/
def removes? : Operation → Option FunctionId
  | finish function => some function
  | discard function => some function
  | _ => none

end Operation

namespace Assembler

def apply (a : Assembler) : Operation → Assembler
  | .declare name params => (a.declare name params).2
  | .addRegion function label => (a.addRegion function label).2
  | .moveTo place => a.moveTo place
  | .reserve place name => (a.reserve place name).2
  | .constant value => (a.emit (.const · value)).2
  | .param index => (a.emit (.param · index)).2
  | .load slot => (a.emit (.load · slot)).2
  | .primitive op lhs rhs => (a.emit (.primitive · op lhs rhs)).2
  | .call callee args => (a.emit (.call · callee args)).2
  | .store slot value => a.append (.store slot value)
  | .print items => a.append (.print items)
  | .close terminator => a.close terminator
  | .finish function => (a.finish function).2
  | .discard function => a.discard function

def run (a : Assembler) (ops : List Operation) : Assembler := ops.foldl apply a

/-- The instruction that an operation appends at the insertion point. -/
def instruction? (a : Assembler) : Operation → Option Inst
  | .constant value => some (.const a.freshValue.1 value)
  | .param index => some (.param a.freshValue.1 index)
  | .load slot => some (.load a.freshValue.1 slot)
  | .primitive op lhs rhs => some (.primitive a.freshValue.1 op lhs rhs)
  | .call callee args => some (.call a.freshValue.1 callee args)
  | .store slot value => some (.store slot value)
  | .print items => some (.print items)
  | _ => none

def region? (a : Assembler) (p : Place) : Option Region :=
  (a.drafts.get? p.function).bind (·.regions[p.region]?)

/-- The instructions that operations append while the insertion point is at `p`. -/
def writtenAt (p : Place) : Assembler → List Operation → List Inst
  | _, [] => []
  | a, op :: ops => (if a.cursor = some p then (a.instruction? op).toList else []) ++ writtenAt p (a.apply op) ops

/-- The instructions that operations append behind a terminator, in whatever region. -/
def behind : Assembler → List Operation → List Inst
  | _, [] => []
  | a, op :: ops => (if a.isClosed then (a.instruction? op).toList else []) ++ behind (a.apply op) ops

/-! ## One operation -/

section Step

variable (a : Assembler) (p : Place)

theorem region?_setDraft (id : FunctionId) (b : Body) :
    (a.setDraft id b).region? p = if id = p.function then b.regions[p.region]? else a.region? p := by
  unfold region? setDraft
  rw [OrderedMap.get?_insert]
  split <;> rfl

/-- A body that has just been opened has no regions. -/
theorem regions_draft (id : FunctionId) (r : RegionId) : (a.draft id).regions[r]? = a.region? ⟨id, r⟩ := by
  unfold region? draft
  cases a.drafts.get? id <;> rfl

/-- What else is in a body does not matter. -/
theorem region?_setDraft_of_regions {id : FunctionId} {b : Body} (h : b.regions = (a.draft id).regions) :
    (a.setDraft id b).region? p = a.region? p := by
  rw [region?_setDraft]
  split
  · rename_i hid
    rw [h, regions_draft, hid]
  · rfl

/-- At the insertion point a region is changed, and nowhere else. -/
theorem region?_modifyRegion (f : Region → Region) :
    (a.modifyRegion f).region? p = if a.cursor = some p then (a.region? p).map f else a.region? p := by
  unfold modifyRegion
  split
  · rename_i hc
    rw [hc, if_neg (by simp)]
  · rename_i c hc
    rw [hc]
    split
    · rename_i hnone
      split
      · rename_i hp
        obtain rfl := Option.some.inj hp
        simp [region?, hnone]
      · rfl
    · rename_i b hb
      rw [region?_setDraft, Array.getElem?_modify]
      obtain ⟨cf, cr⟩ := c
      obtain ⟨pf, pr⟩ := p
      by_cases hf : cf = pf
      · subst hf
        by_cases hr : cr = pr <;> simp [region?, hb, hr]
      · simp [hf]

theorem region?_freshValue : a.freshValue.2.region? p = a.region? p := by
  unfold freshValue
  split
  · rfl
  · exact region?_setDraft_of_regions a p rfl

theorem cursor_freshValue : a.freshValue.2.cursor = a.cursor := by
  unfold freshValue
  split <;> rfl

theorem isClosed_iff : a.isClosed = true ↔ ∃ c g, a.cursor = some c ∧ a.region? c = some g ∧ g.terminator.isSome := by
  unfold isClosed
  split
  · rename_i hc
    simp [hc]
  · rename_i c hc
    simp only [hc, Option.some.injEq, region?]
    split
    · rename_i hnone
      simp [hnone]
    · rename_i g hg
      simp [hg]

/-- A new region changes none of the others. -/
theorem region?_addRegion {g : Region} (h : a.region? p = some g) (id : FunctionId) (label : String) :
    (a.addRegion id label).2.region? p = some g := by
  unfold addRegion
  dsimp only
  rw [region?_setDraft]
  split
  · rename_i hid
    have hdraft : (a.draft id).regions[p.region]? = some g := by
      rw [regions_draft, hid]
      exact h
    have hlt := (Array.getElem?_eq_some_iff.1 hdraft).1
    rw [Array.getElem?_push_lt hlt]
    exact (Array.getElem?_eq_getElem hlt).symm.trans hdraft
  · exact h

theorem region?_reserve (place : Place) (name : String) : (a.reserve place name).2.region? p = a.region? p :=
  region?_setDraft_of_regions a p rfl

theorem region?_append (i : Inst) :
    (a.append i).region? p = if a.cursor = some p then (a.region? p).map fun g => { g with insts := g.insts.push i }
      else a.region? p :=
  region?_modifyRegion a p _

theorem region?_emit (define : ValueId → Inst) :
    (a.emit define).2.region? p = (a.append (define a.freshValue.1)).region? p := by
  unfold emit
  dsimp only
  rw [region?_append, region?_append, cursor_freshValue, region?_freshValue]

theorem region?_discard {id : FunctionId} (h : id ≠ p.function) : (a.discard id).region? p = a.region? p := by
  unfold region? discard
  rw [OrderedMap.get?_erase, if_neg h]

/-- The region at the insertion point gets the instruction or the terminator of an operation, and no other region
does. -/
theorem region?_apply {g : Region} (h : a.region? p = some g) {op : Operation} (hop : op.removes? ≠ some p.function) :
    (a.apply op).region? p = some (if a.cursor = some p then
      { g with
        insts := g.insts ++ (a.instruction? op).toList.toArray
        terminator := g.terminator.or op.terminator? } else g) := by
  have hnone : some g = some (if a.cursor = some p then
      { g with insts := g.insts ++ #[], terminator := g.terminator.or none } else g) := by
    simp
  have hwrite (i : Inst) : (a.append i).region? p = some (if a.cursor = some p then
      { g with insts := g.insts ++ #[i], terminator := g.terminator.or none } else g) := by
    rw [region?_append, h]
    split <;> simp
  have hclose (t : Terminator) : (a.close t).region? p = some (if a.cursor = some p then
      { g with insts := g.insts ++ #[], terminator := g.terminator.or (some t) } else g) := by
    refine (region?_modifyRegion a p _).trans ?_
    rw [h]
    split <;> simp
  cases op with
  | declare name params => exact h.trans hnone
  | addRegion id label => exact (a.region?_addRegion p h id label).trans hnone
  | moveTo place => exact h.trans hnone
  | reserve place name => exact (a.region?_reserve p place name).trans (h.trans hnone)
  | constant value => exact (a.region?_emit p _).trans (hwrite _)
  | param index => exact (a.region?_emit p _).trans (hwrite _)
  | load slot => exact (a.region?_emit p _).trans (hwrite _)
  | primitive op lhs rhs => exact (a.region?_emit p _).trans (hwrite _)
  | call callee args => exact (a.region?_emit p _).trans (hwrite _)
  | store slot value => exact hwrite _
  | print items => exact hwrite _
  | close terminator => exact hclose _
  | finish id => exact (a.region?_discard p fun hid => hop (congrArg some hid)).trans (h.trans hnone)
  | discard id => exact (a.region?_discard p fun hid => hop (congrArg some hid)).trans (h.trans hnone)

end Step

/-! ## Runs -/

theorem run_append (a : Assembler) (ops more : List Operation) : a.run (ops ++ more) = (a.run ops).run more :=
  List.foldl_append

theorem behind_append (a : Assembler) (ops more : List Operation) :
    a.behind (ops ++ more) = a.behind ops ++ (a.run ops).behind more := by
  induction ops generalizing a with
  | nil => rfl
  | cons op ops ih =>
    change _ ++ (a.apply op).behind (ops ++ more) = _
    rw [ih, ← List.append_assoc]
    rfl

variable {a : Assembler} {p : Place} {g : Region}

/-- A region that has its terminator keeps it, whatever is done, as long as its body is under construction. Its
instructions change exactly by those that come while the insertion point is in the region, and each of them is one that
comes behind a terminator. -/
theorem run_closed (ops : List Operation) (hg : a.region? p = some g) (hclosed : g.terminator.isSome)
    (hkept : ∀ op ∈ ops, op.removes? ≠ some p.function) :
    (a.run ops).region? p = some { g with insts := g.insts ++ (a.writtenAt p ops).toArray } ∧
      ((a.run ops).region? p = some g ↔ a.writtenAt p ops = []) ∧ (a.writtenAt p ops).Sublist (a.behind ops) := by
  suffices h : (a.run ops).region? p = some { g with insts := g.insts ++ (a.writtenAt p ops).toArray } ∧
      (a.writtenAt p ops).Sublist (a.behind ops) by
    refine ⟨h.1, ?_, h.2⟩
    rw [h.1]
    obtain ⟨label, insts, terminator⟩ := g
    simp
  induction ops generalizing a g with
  | nil => simp [run, writtenAt, hg]
  | cons op ops ih =>
    have hstep := a.region?_apply p hg (hkept op List.mem_cons_self)
    have hrest : ∀ op ∈ ops, op.removes? ≠ some p.function := fun op hop => hkept op (List.mem_cons_of_mem _ hop)
    obtain ⟨t, ht⟩ := Option.isSome_iff_exists.1 hclosed
    change ((a.apply op).run ops).region? p = _ ∧ _
    unfold writtenAt behind
    by_cases hc : a.cursor = some p
    · have hisClosed : a.isClosed = true := a.isClosed_iff.2 ⟨p, g, hc, hg, hclosed⟩
      rw [if_pos hc, ht, Option.some_or] at hstep
      obtain ⟨hregion, hsub⟩ := ih hstep rfl hrest
      rw [if_pos hc, if_pos hisClosed, hregion]
      refine ⟨?_, (List.Sublist.refl _).append hsub⟩
      dsimp only
      rw [ht, Array.append_assoc, List.append_toArray (a.instruction? op).toList]
    · rw [if_neg hc] at hstep
      obtain ⟨hregion, hsub⟩ := ih hstep hclosed hrest
      rw [if_neg hc, List.nil_append]
      exact ⟨hregion, hsub.trans (List.sublist_append_right _ _)⟩

/-- A function whose entry region returns its parameter. -/
def returning : Assembler := empty.run [.declare "f" 1, .addRegion 0 "entry", .moveTo ⟨0, 0⟩, .param 0, .close (.ret 0)]

/-- The region keeps its terminator when it is offered another one, and what is written in a second region does not
reach it. -/
theorem run_closed_elsewhere :
    let ops := [.close (.ret 7), .addRegion 0 "next", .moveTo ⟨0, 1⟩, .print [0], .close (.ret 0), .moveTo ⟨0, 0⟩,
      .close (.branch 1)]
    returning.writtenAt ⟨0, 0⟩ ops = [] ∧
      (returning.run ops).region? ⟨0, 0⟩ = some ⟨"entry", #[.param 0 0], some (.ret 0)⟩ := by
  intro ops
  have hg : returning.region? ⟨0, 0⟩ = some ⟨"entry", #[.param 0 0], some (.ret 0)⟩ := by decide
  have hnone : returning.writtenAt ⟨0, 0⟩ ops = [] := by decide
  obtain ⟨-, hsame, -⟩ := run_closed ops hg rfl (by decide)
  exact ⟨hnone, hsame.mpr hnone⟩

/-- A region with a terminator does not refuse an instruction, and so does not stay as it is. -/
theorem run_behind_ret :
    returning.region? ⟨0, 0⟩ = some ⟨"entry", #[.param 0 0], some (.ret 0)⟩ ∧
      (returning.run [.print [0]]).region? ⟨0, 0⟩ = some ⟨"entry", #[.param 0 0, .print [0]], some (.ret 0)⟩ := by
  decide

end Assembler

end Funclet
