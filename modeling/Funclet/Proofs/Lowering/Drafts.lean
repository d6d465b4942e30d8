import Mathlib.Data.List.Basic
import Funclet.Code

/-!
# Growing bodies

What the code under construction for one function has in common with the code that comes of it.

* `Body.put`, `Body.define`, `Body.terminate`, `Body.addRegion`, `Body.addSlot` : one change of a body;
* `Counts` : the values and slots that are in use; all code counts them up;
* `Extends D b` : all that has been written in `D` is in `b`, and what has been closed in `D` is final;
* `Wrote D r is D'` : from `D` to `D'`, the instructions `is` have been added to the region `r`;
* `Grows D r D'` : from `D` to `D'`, of the regions there were only `r` has been written to;
* `CodeAt b p is`, `ClosedAt b p t` : the instructions, or the terminator, at the point `p` of `b`;
* `Body.Calls` : the calls in a body, and how each change adds to them.
-/

namespace Funclet

/-- A place between two instructions of a body. -/
structure Point where
  region : RegionId
  index : Nat

def Point.plus (p : Point) (n : Nat) : Point := ⟨p.region, p.index + n⟩

theorem Point.plus_plus (p : Point) (m n : Nat) : (p.plus m).plus n = p.plus (m + n) := by
  rw [plus, plus, plus, Nat.add_assoc]

/-- How many values and slots are in use. -/
structure Counts where
  values : Nat
  slots : Nat

namespace Counts

def next (c : Counts) : Counts := ⟨c.values + 1, c.slots⟩

def withSlot (c : Counts) : Counts := ⟨c.values, c.slots + 1⟩

/-- Neither of the two has become less. -/
structure Le (c d : Counts) : Prop where
  values : c.values ≤ d.values
  slots : c.slots ≤ d.slots

theorem Le.refl (c : Counts) : Le c c := ⟨Nat.le_refl _, Nat.le_refl _⟩

theorem Le.trans {c d e : Counts} (h₁ : Le c d) (h₂ : Le d e) : Le c e :=
  ⟨Nat.le_trans h₁.values h₂.values, Nat.le_trans h₁.slots h₂.slots⟩

theorem le_next (c : Counts) : Le c c.next := ⟨Nat.le_succ _, Nat.le_refl _⟩

theorem le_withSlot (c : Counts) : Le c c.withSlot := ⟨Nat.le_refl _, Nat.le_succ _⟩

end Counts

def Body.counts (D : Body) : Counts := ⟨D.valueCount, D.slots.size⟩

namespace Body

/-! ## Changes -/

def put (D : Body) (r : Nat) (i : Inst) : Body :=
  { D with regions := D.regions.modify r fun g => { g with insts := g.insts.push i } }

/-- Adds an instruction that defines the next value. -/
def define (D : Body) (r : Nat) (mk : ValueId → Inst) : Body :=
  { D.put r (mk D.valueCount) with valueCount := D.valueCount + 1 }

/-- Gives a region its terminator, unless it has one. -/
def terminate (D : Body) (r : Nat) (t : Terminator) : Body :=
  { D with regions := D.regions.modify r fun g => { g with terminator := g.terminator.or (some t) } }

def addRegion (D : Body) (label : String) : Body := { D with regions := D.regions.push ⟨label, #[], none⟩ }

def addSlot (D : Body) (slot : Slot) : Body := { D with slots := D.slots.push slot }

def Open (D : Body) (r : Nat) : Prop := ∃ g : Region, D.regions[r]? = some g ∧ g.terminator = none

def point (D : Body) (r : Nat) : Point := ⟨r, (D.regions[r]?.map (·.insts.size)).getD 0⟩

theorem point_of_region {D : Body} {r : Nat} {g : Region} (h : D.regions[r]? = some g) :
    D.point r = ⟨r, g.insts.size⟩ := by
  rw [point, h]
  rfl

theorem Open.lt {D : Body} {r : Nat} (h : D.Open r) : r < D.regions.size := by
  obtain ⟨g, hg, -⟩ := h
  exact (Array.getElem?_eq_some_iff.mp hg).1

theorem Open.congr {D D' : Body} {r : Nat} (h : D.Open r) (hr : D'.regions[r]? = D.regions[r]?) : D'.Open r := by
  obtain ⟨g, hg, ht⟩ := h
  exact ⟨g, hr.trans hg, ht⟩

/-! ## Bodies that extend others -/

/-- All that has been written in `D` is in `E`, and what has been closed in `D` is final. -/
structure Extends (D E : Body) : Prop where
  header : E.id = D.id ∧ E.name = D.name
  regions : ∀ (q : Nat) (g : Region), D.regions[q]? = some g →
    ∃ h : Region, E.regions[q]? = some h ∧ g.insts.toList <+: h.insts.toList ∧ (g.terminator ≠ none → h = g)

theorem Extends.refl (D : Body) : Extends D D :=
  ⟨⟨rfl, rfl⟩, fun _ g hg => ⟨g, hg, List.prefix_rfl, fun _ => rfl⟩⟩

theorem Extends.trans {D E F : Body} (h₁ : Extends D E) (h₂ : Extends E F) : Extends D F := by
  refine ⟨⟨h₂.header.1.trans h₁.header.1, h₂.header.2.trans h₁.header.2⟩, ?_⟩
  intro q g hg
  obtain ⟨g₁, hg₁, hp₁, ht₁⟩ := h₁.regions q g hg
  obtain ⟨g₂, hg₂, hp₂, ht₂⟩ := h₂.regions q g₁ hg₁
  refine ⟨g₂, hg₂, hp₁.trans hp₂, fun ht => ?_⟩
  obtain rfl := ht₁ ht
  exact ht₂ ht

theorem Extends.size_le {D E : Body} (h : Extends D E) : D.regions.size ≤ E.regions.size := by
  by_contra hlt
  obtain ⟨g, hg⟩ : ∃ g, D.regions[E.regions.size]? = some g :=
    ⟨_, Array.getElem?_eq_getElem (by omega)⟩
  obtain ⟨g', hg', -⟩ := h.regions _ g hg
  rw [Array.getElem?_eq_none (Nat.le_refl _)] at hg'
  cases hg'

/-- From `D` to `D'`, of the regions there were only `r` has been written to. -/
structure Grows (D : Body) (r : Nat) (D' : Body) : Prop extends Extends D D' where
  others : ∀ q : Nat, q < D.regions.size → q ≠ r → D'.regions[q]? = D.regions[q]?

theorem Grows.refl (D : Body) (r : Nat) : Grows D r D := ⟨.refl D, fun _ _ _ => rfl⟩

/-- Writing goes on in the same region or in a new one. -/
theorem Grows.trans {D D₁ D₂ : Body} {r r₁ : Nat} (h₁ : Grows D r D₁) (h₂ : Grows D₁ r₁ D₂)
    (hr : r₁ = r ∨ D.regions.size ≤ r₁) : Grows D r D₂ := by
  refine ⟨h₁.toExtends.trans h₂.toExtends, ?_⟩
  intro q hq hne
  have hle := h₁.size_le
  rw [h₂.others q (by omega) (by omega), h₁.others q hq hne]

theorem Grows.terminate {D : Body} {r : Nat} (h : D.Open r) (t : Terminator) : Grows D r (D.terminate r t) := by
  obtain ⟨g, hg, ht⟩ := h
  refine ⟨⟨⟨rfl, rfl⟩, ?_⟩, ?_⟩
  · intro q k hk
    by_cases hq : r = q
    · subst hq
      obtain rfl : g = k := Option.some.inj (hg.symm.trans hk)
      refine ⟨{ g with terminator := g.terminator.or (some t) }, ?_, List.prefix_rfl, fun hne => absurd ht hne⟩
      rw [Body.terminate, Array.getElem?_modify, if_pos rfl, hg]
      rfl
    · refine ⟨k, ?_, List.prefix_rfl, fun _ => rfl⟩
      rw [Body.terminate, Array.getElem?_modify, if_neg hq, hk]
  · intro q _ hne
    rw [Body.terminate, Array.getElem?_modify, if_neg (Ne.symm hne)]

theorem regions_addRegion (D : Body) (label : String) {q : Nat} (hq : q < D.regions.size) :
    (D.addRegion label).regions[q]? = D.regions[q]? := by
  rw [addRegion, Array.getElem?_push, if_neg (Nat.ne_of_lt hq)]

theorem Grows.addRegion (D : Body) (r : Nat) (label : String) : Grows D r (D.addRegion label) := by
  refine ⟨⟨⟨rfl, rfl⟩, ?_⟩, fun q hq _ => regions_addRegion D label hq⟩
  intro q g hg
  have hq : q < D.regions.size := (Array.getElem?_eq_some_iff.mp hg).1
  exact ⟨g, (regions_addRegion D label hq).trans hg, List.prefix_rfl, fun _ => rfl⟩

/-- A new region is empty and open. -/
theorem region_addRegion (D : Body) (label : String) :
    (D.addRegion label).regions[D.regions.size]? = some ⟨label, #[], none⟩ := by
  rw [addRegion, Array.getElem?_push, if_pos rfl]

/-! ## Instructions -/

/-- From `D` to `D'`, the instructions `is` have been added to the region `r`, and no other region has changed. -/
structure Wrote (D : Body) (r : Nat) (is : List Inst) (D' : Body) : Prop where
  header : D'.id = D.id ∧ D'.name = D.name
  region : D'.regions[r]? = D.regions[r]?.map fun g => { g with insts := g.insts ++ is.toArray }
  others : ∀ q : Nat, q ≠ r → D'.regions[q]? = D.regions[q]?

theorem Wrote.refl (D : Body) (r : Nat) : Wrote D r [] D := by
  refine ⟨⟨rfl, rfl⟩, ?_, fun _ _ => rfl⟩
  cases D.regions[r]? <;> simp

theorem Wrote.trans {D D₁ D₂ : Body} {r : Nat} {is js : List Inst} (h₁ : Wrote D r is D₁)
    (h₂ : Wrote D₁ r js D₂) : Wrote D r (is ++ js) D₂ := by
  refine ⟨⟨h₂.header.1.trans h₁.header.1, h₂.header.2.trans h₁.header.2⟩, ?_, ?_⟩
  · rw [h₂.region, h₁.region]
    cases D.regions[r]? <;> simp
  · intro q hq
    rw [h₂.others q hq, h₁.others q hq]

theorem Wrote.put (D : Body) (r : Nat) (i : Inst) : Wrote D r [i] (D.put r i) := by
  refine ⟨⟨rfl, rfl⟩, ?_, ?_⟩
  · rw [Body.put, Array.getElem?_modify, if_pos rfl]
    cases D.regions[r]? <;> simp
  · intro q hq
    rw [Body.put, Array.getElem?_modify, if_neg (Ne.symm hq)]

theorem Wrote.define (D : Body) (r : Nat) (mk : ValueId → Inst) : Wrote D r [mk D.valueCount] (D.define r mk) :=
  have h := Wrote.put D r (mk D.valueCount)
  ⟨h.header, h.region, h.others⟩

theorem Wrote.addSlot (D : Body) (r : Nat) (slot : Slot) : Wrote D r [] (D.addSlot slot) :=
  ⟨⟨rfl, rfl⟩, (Wrote.refl D r).region, fun _ _ => rfl⟩

section Wrote

variable {D D' : Body} {r : Nat} {is : List Inst} (h : Wrote D r is D')
include h

theorem Wrote.open (ho : D.Open r) : D'.Open r := by
  obtain ⟨g, hg, ht⟩ := ho
  refine ⟨{ g with insts := g.insts ++ is.toArray }, ?_, ht⟩
  rw [h.region, hg]
  rfl

theorem Wrote.grows (ho : D.Open r) : Grows D r D' := by
  obtain ⟨g, hg, ht⟩ := ho
  refine ⟨⟨h.header, ?_⟩, fun q _ hq => h.others q hq⟩
  intro q k hk
  by_cases hq : q = r
  · subst hq
    obtain rfl : g = k := Option.some.inj (hg.symm.trans hk)
    refine ⟨{ g with insts := g.insts ++ is.toArray }, ?_, ?_, fun hne => absurd ht hne⟩
    · rw [h.region, hg]
      rfl
    · simp
  · exact ⟨k, (h.others q hq).trans hk, List.prefix_rfl, fun _ => rfl⟩

theorem Wrote.point (ho : D.Open r) : D'.point r = (D.point r).plus is.length := by
  obtain ⟨g, hg, -⟩ := ho
  have hg' : D'.regions[r]? = some { g with insts := g.insts ++ is.toArray } := by
    rw [h.region, hg]
    rfl
  rw [point_of_region hg, point_of_region hg']
  simp [Point.plus]

end Wrote

end Body

/-! ## Code at a point -/

/-- The instructions at the point `p` of `b`, or the first of them. -/
def CodeAt (b : Body) (p : Point) (is : List Inst) : Prop :=
  ∃ g : Region, b.regions[p.region]? = some g ∧ is <+: g.insts.toList.drop p.index

/-- The terminator at the point `p` of `b`, which is the end of a region. -/
def ClosedAt (b : Body) (p : Point) (t : Terminator) : Prop :=
  ∃ g : Region, b.regions[p.region]? = some g ∧ g.insts.size = p.index ∧ g.terminator = some t

theorem CodeAt.append {b : Body} {p : Point} {is js : List Inst} (h : CodeAt b p (is ++ js)) :
    CodeAt b p is ∧ CodeAt b (p.plus is.length) js := by
  obtain ⟨g, hg, ks, hks⟩ := h
  refine ⟨⟨g, hg, js ++ ks, ?_⟩, g, hg, ks, ?_⟩
  · rw [← hks, List.append_assoc]
  · change js ++ ks = List.drop (p.index + is.length) g.insts.toList
    rw [← List.drop_drop, ← hks, List.append_assoc, List.drop_left]

theorem CodeAt.cons {b : Body} {p : Point} {i : Inst} {is : List Inst} (h : CodeAt b p (i :: is)) :
    CodeAt b p [i] ∧ CodeAt b (p.plus 1) is :=
  CodeAt.append (show CodeAt b p ([i] ++ is) from h)

theorem CodeAt.inst {b : Body} {p : Point} {i : Inst} (h : CodeAt b p [i]) :
    ∃ g, b.regions[p.region]? = some g ∧ g.insts[p.index]? = some i := by
  obtain ⟨g, hg, ks, hks⟩ := h
  refine ⟨g, hg, ?_⟩
  rw [← Array.getElem?_toList, ← List.head?_drop, ← hks]
  rfl

theorem CodeAt.of_append {b : Body} {p : Point} {is js : List Inst} (h : CodeAt b p is)
    (h' : CodeAt b (p.plus is.length) js) : CodeAt b p (is ++ js) := by
  obtain ⟨g, hg, ks, hks⟩ := h
  obtain ⟨g', hg', hp⟩ := h'
  obtain rfl : g = g' := Option.some.inj (hg.symm.trans hg')
  change js <+: List.drop (p.index + is.length) g.insts.toList at hp
  rw [← List.drop_drop, ← hks, List.drop_left] at hp
  refine ⟨g, hg, ?_⟩
  rw [← hks]
  exact (List.prefix_append_right_inj is).mpr hp

/-- What has been written in a body is at its place in every body that comes of it. -/
theorem Body.Wrote.codeAt {D D' b : Body} {r : Nat} {is : List Inst} (h : Wrote D r is D') (ho : D.Open r)
    (hb : Extends D' b) : CodeAt b (D.point r) is := by
  obtain ⟨g, hg, -⟩ := ho
  have hg' : D'.regions[r]? = some { g with insts := g.insts ++ is.toArray } := by
    rw [h.region, hg]
    rfl
  obtain ⟨k, hk, hp, -⟩ := hb.regions r _ hg'
  rw [point_of_region hg]
  obtain ⟨ks, hks⟩ := hp
  refine ⟨k, hk, ks, ?_⟩
  rw [← hks]
  simp

theorem Body.Open.closedAt {D b : Body} {r : Nat} (ho : D.Open r) {t : Terminator}
    (hb : Extends (D.terminate r t) b) : ClosedAt b (D.point r) t := by
  obtain ⟨g, hg, ht⟩ := ho
  have hg' : (D.terminate r t).regions[r]? = some { g with terminator := some t } := by
    rw [terminate, Array.getElem?_modify, if_pos rfl, hg]
    simp [ht]
  obtain ⟨k, hk, -, hfin⟩ := hb.regions r _ hg'
  obtain rfl := hfin (Option.some_ne_none t)
  rw [point_of_region hg]
  exact ⟨_, hk, rfl, rfl⟩

/-! ## Calls -/

def Body.Calls (b : Body) (f : FunctionId) (n : Nat) : Prop :=
  ∃ (q : Nat) (g : Region) (dest : ValueId) (args : List ValueId),
    b.regions[q]? = some g ∧ Inst.call dest f args ∈ g.insts.toList ∧ args.length = n

namespace Body

theorem Extends.calls {D E : Body} (h : Extends D E) {f : FunctionId} {n : Nat} (hc : D.Calls f n) : E.Calls f n := by
  obtain ⟨q, g, dest, args, hg, hmem, hn⟩ := hc
  obtain ⟨g', hg', hp, -⟩ := h.regions q g hg
  exact ⟨q, g', dest, args, hg', hp.subset hmem, hn⟩

theorem Wrote.calls {D D' : Body} {r : Nat} {is : List Inst} (h : Wrote D r is D') {f : FunctionId} {n : Nat}
    (hc : D'.Calls f n) : D.Calls f n ∨ ∃ dest args, Inst.call dest f args ∈ is ∧ args.length = n := by
  obtain ⟨q, g, dest, args, hg, hmem, hn⟩ := hc
  by_cases hq : q = r
  · subst hq
    rw [h.region] at hg
    obtain ⟨g₀, hg₀, rfl⟩ := Option.map_eq_some_iff.mp hg
    simp only [Array.toList_append, List.mem_append] at hmem
    rcases hmem with hmem | hmem
    · exact Or.inl ⟨q, g₀, dest, args, hg₀, hmem, hn⟩
    · exact Or.inr ⟨dest, args, hmem, hn⟩
  · rw [h.others q hq] at hg
    exact Or.inl ⟨q, g, dest, args, hg, hmem, hn⟩

theorem Wrote.calls_of_mem {D D' : Body} {r : Nat} {is : List Inst} (h : Wrote D r is D') (ho : D.Open r)
    {dest : ValueId} {f : FunctionId} {args : List ValueId} (hmem : Inst.call dest f args ∈ is) :
    D'.Calls f args.length := by
  obtain ⟨g, hg, -⟩ := ho
  refine ⟨r, { g with insts := g.insts ++ is.toArray }, dest, args, ?_, ?_, rfl⟩
  · rw [h.region, hg]
    rfl
  · simp only [Array.toList_append, List.mem_append]
    exact Or.inr hmem

theorem calls_terminate {D : Body} {r : Nat} {t : Terminator} {f : FunctionId} {n : Nat}
    (hc : (D.terminate r t).Calls f n) : D.Calls f n := by
  obtain ⟨q, g, dest, args, hg, hmem, hn⟩ := hc
  rw [terminate, Array.getElem?_modify] at hg
  split at hg
  · obtain ⟨g₀, hg₀, rfl⟩ := Option.map_eq_some_iff.mp hg
    exact ⟨q, g₀, dest, args, hg₀, hmem, hn⟩
  · exact ⟨q, g, dest, args, hg, hmem, hn⟩

theorem calls_addRegion {D : Body} {label : String} {f : FunctionId} {n : Nat}
    (hc : (D.addRegion label).Calls f n) : D.Calls f n := by
  obtain ⟨q, g, dest, args, hg, hmem, hn⟩ := hc
  rw [addRegion, Array.getElem?_push] at hg
  split at hg
  · cases hg
    cases hmem
  · exact ⟨q, g, dest, args, hg, hmem, hn⟩

end Body

end Funclet
