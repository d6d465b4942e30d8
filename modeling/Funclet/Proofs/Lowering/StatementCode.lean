import Funclet.Proofs.Lowering.ExpressionCode

/-!
# Lowering writes the code of statements

* `Leads D r s D' s'` : writing in the region `r`, and in new ones, leads from `D` to `D'`;
* `Lowers`, `Closes` : code has been written that goes on in an open region, or that ends in a closed one;
* `lowerTest_code`, `branch_code`, `lowerArm_code` : conditions and arms;
* `lowerStmt_code`, `lowerStmts_code` : if lowering succeeds, the code that it has written is that of the tree.
-/

namespace Funclet

namespace Body

theorem size_addRegion (D : Body) (label : String) : (D.addRegion label).regions.size = D.regions.size + 1 :=
  Array.size_push _

theorem point_congr {D D' : Body} {r : Nat} (h : D'.regions[r]? = D.regions[r]?) : D'.point r = D.point r := by
  rw [point, point, h]

/-- A region that has been added and not been written to. -/
def Fresh (D : Body) (r : Nat) : Prop := ∃ label, D.regions[r]? = some ⟨label, #[], none⟩

theorem fresh_addRegion (D : Body) (label : String) : (D.addRegion label).Fresh D.regions.size :=
  ⟨label, region_addRegion D label⟩

theorem Fresh.open {D : Body} {r : Nat} (h : D.Fresh r) : D.Open r := by
  obtain ⟨label, h⟩ := h
  exact ⟨_, h, rfl⟩

theorem Fresh.point {D : Body} {r : Nat} (h : D.Fresh r) : D.point r = ⟨r, 0⟩ := by
  obtain ⟨label, h⟩ := h
  exact point_of_region h

theorem Fresh.congr {D D' : Body} {r : Nat} (h : D.Fresh r) (hr : D'.regions[r]? = D.regions[r]?) : D'.Fresh r := by
  obtain ⟨label, h⟩ := h
  exact ⟨label, hr.trans h⟩

theorem Fresh.lt {D : Body} {r : Nat} (h : D.Fresh r) : r < D.regions.size := h.open.lt

theorem Fresh.grows {D D' : Body} {q r : Nat} (h : D.Fresh q) (hg : D.Grows r D') (hq : q ≠ r) : D'.Fresh q :=
  h.congr (hg.others q h.lt hq)

def addRegions (D : Body) : List String → Body
  | [] => D
  | label :: labels => (D.addRegion label).addRegions labels

theorem regions_addRegions (D : Body) (labels : List String) {q : Nat} (hq : q < D.regions.size) :
    (D.addRegions labels).regions[q]? = D.regions[q]? := by
  induction labels generalizing D with
  | nil => rfl
  | cons label labels ih =>
    have hq' : q < (D.addRegion label).regions.size := by
      rw [size_addRegion]
      omega
    exact (ih _ hq').trans (regions_addRegion D label hq)

/-- Each of the regions that are added is fresh. -/
theorem fresh_addRegions (D : Body) (labels : List String) {k : Nat} (hk : k < labels.length) :
    (D.addRegions labels).Fresh (D.regions.size + k) := by
  induction labels generalizing D k with
  | nil => cases hk
  | cons label labels ih =>
    cases k with
    | zero =>
      have hfresh := fresh_addRegion D label
      exact hfresh.congr (regions_addRegions _ labels hfresh.lt)
    | succ k =>
      have hfresh := ih (D.addRegion label) (Nat.lt_of_succ_lt_succ hk)
      rwa [size_addRegion, Nat.add_assoc, Nat.add_comm 1 k] at hfresh

end Body

namespace Lowering

variable {id : FunctionId} {Γ : Frames SlotId} {D D₁ D₂ : Body} {r r₁ : Nat} {s s₁ s₂ : Session} {entry : Place}

/-- Writing in the region `r`, and in new ones, leads from `D` to `D'`. -/
structure Leads (D : Body) (r : Nat) (s : Session) (D' : Body) (s' : Session) : Prop where
  grows : D.Grows r D'
  progress : Progress D s.registry D' s'.registry

theorem Leads.trans (h₁ : Leads D r s D₁ s₁) (h₂ : Leads D₁ r₁ s₁ D₂ s₂) (hr : r₁ = r ∨ D.regions.size ≤ r₁) :
    Leads D r s D₂ s₂ :=
  ⟨h₁.grows.trans h₂.grows hr, h₁.progress.trans h₂.progress h₂.grows.toExtends⟩

theorem Leads.refl (D : Body) (r : Nat) (hreg : s₁.registry = s.registry) : Leads D r s D s₁ :=
  ⟨.refl D r, hreg ▸ .refl D _⟩

theorem Leads.terminate (ho : D.Open r) (t : Terminator) (hreg : s₁.registry = s.registry) :
    Leads D r s (D.terminate r t) s₁ :=
  ⟨.terminate ho t, hreg ▸ .of_calls fun _ _ => Body.calls_terminate⟩

theorem Leads.addRegion (D : Body) (r : Nat) (label : String) (hreg : s₁.registry = s.registry) :
    Leads D r s (D.addRegion label) s₁ :=
  ⟨.addRegion D r label, hreg ▸ .of_calls fun _ _ => Body.calls_addRegion⟩

theorem Leads.addRegions (D : Body) (r : Nat) (labels : List String) (hreg : s₁.registry = s.registry) :
    Leads D r s (D.addRegions labels) s₁ := by
  induction labels generalizing D with
  | nil => exact .refl D r hreg
  | cons label labels ih => exact (Leads.addRegion D r label rfl).trans (ih _) (Or.inl rfl)

theorem Written.leads {is : List Inst} (h : Written id D r s is Γ D₁ s₁) (ho : D.Open r) : Leads D r s D₁ s₁ :=
  ⟨h.wrote.grows ho, h.progress⟩

theorem Leads.size_le (h : Leads D r s D₁ s₁) : D.regions.size ≤ D₁.regions.size := h.grows.size_le

theorem Leads.fitting (h : Leads D r s D₁ s₁) (hfit : s.registry.Fitting) : s₁.registry.Fitting :=
  hfit.congr h.progress.confirmed

/-- Code has been written, from the end of the region `r` on, behind which an open region is being written. -/
def Lowers (id : FunctionId) (Γ : Frames SlotId) (D : Body) (r : Nat) (s s' : Session)
    (code : Link → Body → Point → Counts → Prop) : Prop :=
  ∃ D' r', Writing id Γ D' r' s' ∧ Leads D r s D' s' ∧ (r' = r ∨ D.regions.size ≤ r') ∧
    ∀ link b, Covers link s'.registry → D'.Extends b → code link b (D'.point r') D'.counts

/-- Code has been written, from the end of the region `r` on, all of which is closed. -/
def Closes (id : FunctionId) (Γ : Frames SlotId) (D : Body) (r : Nat) (s s' : Session)
    (code : Link → Body → Counts → Prop) : Prop :=
  ∃ D', Drafting id Γ D' s' ∧ Leads D r s D' s' ∧
    ∀ link b, Covers link s'.registry → D'.Extends b → code link b D'.counts

/-- Straight code is code. -/
theorem Written.lowers {is : List Inst} (h : Written id D r s is Γ D₁ s₁) (ho : D.Open r)
    {code : Link → Body → Point → Counts → Prop}
    (hcode : ∀ link b, Covers link s₁.registry → D₁.Extends b → CodeAt b (D.point r) is →
      code link b ((D.point r).plus is.length) D₁.counts) : Lowers id Γ D r s s₁ code := by
  refine ⟨D₁, r, h.writing, h.leads ho, Or.inl rfl, fun link b hl hb => ?_⟩
  rw [h.wrote.point ho]
  exact hcode link b hl hb (h.wrote.codeAt ho hb)

/-- A terminator closes the region that is being written. -/
theorem Writing.closes (hw : Writing id Γ D r s) {t : Terminator} (h : Lowering.close t s = .ok () s₁) :
    ∃ D', Drafting id Γ D' s₁ ∧ Leads D r s D' s₁ ∧ s₁.registry = s.registry ∧ D'.counts = D.counts ∧
      ∀ b, D'.Extends b → ClosedAt b (D.point r) t := by
  obtain ⟨hd, hreg⟩ := hw.close h
  exact ⟨_, hd, .terminate hw.isOpen t hreg, hreg, rfl, fun b hb => hw.isOpen.closedAt hb⟩

/-! ## Conditions -/

theorem Writing.truth (hw : Writing id Γ D r s) {v t : ValueId} (h : truth v s = .ok t s₁) :
    t = D.valueCount + 1 ∧ ∃ D', Written id D r s (truthCode v D.valueCount) Γ D' s₁ ∧
      D'.counts = D.counts.next.next := by
  obtain ⟨z, s₂, hz, h⟩ := bind_ok h
  obtain ⟨rfl, D₁, h₁, hc₁⟩ := hw.constant hz
  obtain ⟨rfl, D₂, h₂, hc₂⟩ := h₁.writing.primitive h
  have hv : D₁.valueCount = D.valueCount + 1 := congrArg Counts.values hc₁
  refine ⟨hv, D₂, ?_, by rw [hc₂, hc₁]⟩
  rw [hv] at h₂
  exact h₁.trans h₂

theorem lowerTest_code (hid : entry.function = id) {test : Expr} {flag : SlotId} {yes no : Place} (hsp : test.Spelled)
    (hfit : s.registry.Fitting) (hw : Writing id Γ D r s) (h : lowerTest entry test flag yes no s = .ok () s₁) :
    Closes id Γ D r s s₁ fun link b c =>
      TestCode link b Γ flag yes.region no.region D.counts (D.point r) test c := by
  obtain ⟨v, t₁, hv, h⟩ := bind_ok h
  obtain ⟨x, t₂, hx, h⟩ := bind_ok h
  obtain ⟨⟨⟩, t₃, hstore, h⟩ := bind_ok h
  obtain ⟨y, t₄, hload, hclose⟩ := bind_ok h
  obtain ⟨is, E₁, h₁, hcode⟩ := lowerExpr_code hid test hsp hfit hw hv
  obtain ⟨rfl, E₂, h₂, hc₂⟩ := h₁.writing.truth hx
  obtain ⟨E₃, h₃, hc₃⟩ := h₂.writing.store hstore
  obtain ⟨rfl, E₄, h₄, hc₄⟩ := h₃.writing.load hload
  obtain ⟨E₅, hd, hlead, hreg, hc₅, hclosed⟩ := h₄.writing.closes hclose
  have hv₃ : E₃.valueCount = E₁.valueCount + 2 := congrArg Counts.values (hc₃.trans hc₂)
  rw [hv₃] at h₄ hclosed
  have hall := (h₁.trans h₂).trans (h₃.trans h₄)
  refine ⟨E₅, hd, (hall.leads hw.isOpen).trans hlead (Or.inl rfl), fun link b hl hb => ?_⟩
  rw [hreg] at hl
  have hlink := ((hl.before h₄.progress).before h₃.progress).before h₂.progress
  have hclosed := hclosed b hb
  rw [hall.wrote.point hw.isOpen] at hclosed
  simp only [List.length_append, truthCode, List.length_cons, List.length_nil] at hclosed
  rw [hc₅, hc₄, hc₃, hc₂]
  exact .intro (hcode link hlink) (hall.wrote.codeAt hw.isOpen (hlead.grows.toExtends.trans hb)) hclosed

/-- The condition of an `IF`, with the slot for its result, up to where the region is closed. -/
theorem branch_code (hid : entry.function = id) {test : Expr} {v flag z : ValueId} {result : SlotId}
    {t₁ t₂ t₃ t₄ : Session} (hsp : test.Spelled) (hfit : s.registry.Fitting) (hw : Writing id Γ D r s)
    (hv : lowerExpr entry test s = .ok v t₁) (hflag : truth v t₁ = .ok flag t₂)
    (hresult : reserve entry "if.result" t₂ = .ok result t₃) (hz : zero t₃ = .ok z t₄)
    (hstore : store result z t₄ = .ok () s₁) :
    ∃ is D', Written id D r s is Γ D' s₁ ∧ ∀ link b yes no, Covers link s₁.registry → D'.Extends b →
      ClosedAt b (D'.point r) (.branchIf flag yes no) →
      BranchCode link b Γ yes no D.counts (D.point r) test result D'.counts := by
  obtain ⟨is, E₁, h₁, hcode⟩ := lowerExpr_code hid test hsp hfit hw hv
  obtain ⟨rfl, E₂, h₂, hc₂⟩ := h₁.writing.truth hflag
  obtain ⟨rfl, E₃, h₃, hc₃⟩ := h₂.writing.reserves hid hresult
  obtain ⟨rfl, E₄, h₄, hc₄⟩ := h₃.writing.constant hz
  obtain ⟨E₅, h₅, hc₅⟩ := h₄.writing.store hstore
  have hv₃ : E₃.valueCount = E₁.valueCount + 2 := congrArg Counts.values (hc₃.trans (congrArg _ hc₂))
  have hs₂ : E₂.slots.size = E₁.slots.size := congrArg Counts.slots hc₂
  rw [hv₃] at h₄ h₅
  rw [hs₂] at h₅ ⊢
  have hall := (h₁.trans h₂).trans (h₃.trans (h₄.trans h₅))
  refine ⟨_, E₅, hall, fun link b yes no hl hb hclosed => ?_⟩
  have hlink := (((hl.before h₅.progress).before h₄.progress).before h₃.progress).before h₂.progress
  rw [hall.wrote.point hw.isOpen] at hclosed
  simp only [List.length_append, truthCode, List.length_cons, List.length_nil] at hclosed
  have hcounts : E₅.counts = E₁.counts.next.next.next.withSlot := by
    rw [hc₅, hc₄, hc₃, hc₂]
    rfl
  rw [hcounts]
  exact .intro (hcode link hlink) (hall.wrote.codeAt hw.isOpen hb) hclosed

/-! ## Statements in a scope of their own -/

/-- What a step is to write, from any region on. -/
def Lowerable {α : Type} (id : FunctionId) (step : Compile α) (Γ : Frames SlotId)
    (code : Link → Body → Counts → Point → Point → Counts → α → Prop) : Prop :=
  ∀ (D : Body) (r : Nat) (s s' : Session) (a : α), s.registry.Fitting → Writing id Γ D r s →
    step s = .ok a s' → Lowers id Γ D r s s' fun link b p c => code link b D.counts (D.point r) p c a

/-- What is bound in a scope of its own is forgotten behind it. -/
theorem lowerable_inScope {α : Type} {step : Compile α}
    {code : Link → Body → Counts → Point → Point → Counts → α → Prop}
    (h : ∀ (D : Body) (r : Nat) (s s' : Session) (a : α), s.registry.Fitting → Writing id ([] :: Γ) D r s →
      step s = .ok a s' → ∃ f, Lowers id (f :: Γ) D r s s' fun link b p c => code link b D.counts (D.point r) p c a) :
    Lowerable id (inScope step) Γ code := by
  intro D r s s' a hfit hw hs
  obtain ⟨t₁, t₂, henter, hstep, hleave⟩ := inScope_ok hs
  obtain ⟨hw₁, hreg₁⟩ := hw.enter henter
  obtain ⟨f, D', r', hw₂, hlead, hplace, hcode⟩ := h _ _ _ _ _ (hreg₁ ▸ hfit) hw₁ hstep
  obtain ⟨hw₃, hreg₃⟩ := hw₂.leave hleave
  refine ⟨D', r', hw₃, ⟨hlead.grows, ?_⟩, hplace, ?_⟩
  · rw [hreg₃, ← hreg₁]
    exact hlead.progress
  · rw [hreg₃]
    exact hcode

theorem Lowerable.inScope {α : Type} {step : Compile α}
    {code : Link → Body → Counts → Point → Point → Counts → α → Prop} (h : Lowerable id step ([] :: Γ) code) :
    Lowerable id (inScope step) Γ code :=
  lowerable_inScope fun D r s s' a hfit hw hs => ⟨[], h D r s s' a hfit hw hs⟩

theorem lowerArm_code {n : Nat} {result : SlotId} {merge : Place} {arm : Compile ValueId}
    {code : Link → Body → Counts → Point → Point → Counts → ValueId → Prop}
    (harm : Lowerable id arm ([] :: Γ) code) (hfit : s.registry.Fitting) (hd : Drafting id Γ D s) (hn : D.Fresh n)
    (h : lowerArm ⟨id, n⟩ result merge arm s = .ok () s₁) :
    Closes id Γ D n s s₁ fun link b c =>
      ∃ q w, code link b D.counts ⟨n, 0⟩ q c w ∧ ArmEnd b result merge.region q w := by
  obtain ⟨⟨⟩, t₁, hmove, h⟩ := bind_ok h
  obtain ⟨w, t₂, hin, hend⟩ := bind_ok h
  obtain ⟨hw₁, hreg₁⟩ := hd.moveTo hn.open hmove
  obtain ⟨E₁, q, hw₂, hlead₁, hplace, hcode⟩ := harm.inScope _ _ _ _ _ (hreg₁ ▸ hfit) hw₁ hin
  obtain ⟨t₃, hstore, hclose⟩ := hw₂.closeAfter hend
  obtain ⟨E₂, h₂, hc₂⟩ := hw₂.store hstore
  obtain ⟨E₃, hd₃, hlead₃, hreg₃, hc₃, hclosed⟩ := h₂.writing.closes hclose
  have hlead : Leads E₁ q t₂ E₃ s₁ := (h₂.leads hw₂.isOpen).trans hlead₃ (Or.inl rfl)
  refine ⟨E₃, hd₃, ((Leads.refl D n hreg₁).trans hlead₁ (Or.inl rfl)).trans hlead hplace, fun link b hl hb => ?_⟩
  rw [hreg₃] at hl
  have hb₂ := hlead₃.grows.toExtends.trans hb
  have hcode' := hcode link b (hl.before h₂.progress) ((h₂.leads hw₂.isOpen).grows.toExtends.trans hb₂)
  rw [hn.point] at hcode'
  refine ⟨E₁.point q, w, ?_, h₂.wrote.codeAt hw₂.isOpen hb₂, ?_⟩
  · rw [hc₃, hc₂]
    exact hcode'
  · have hclosed' := hclosed b hb
    rw [h₂.wrote.point hw₂.isOpen] at hclosed'
    exact hclosed'

/-! ## Statements -/

abbrev LowersStmt (id : FunctionId) (entry : Place) (retest : Option Place) (st : Stmt) : Prop :=
  ∀ Γ, Lowerable id (lowerStmt entry retest st) Γ fun link b c p p' c' v =>
    StmtCode link b (retest.map Place.region) Γ c p st p' c' v

variable {retest : Option Place}

/-- Where control paths meet, a fresh region starts with an instruction that defines a value. -/
theorem Drafting.resume (hd : Drafting id Γ D s) {m : Nat} (hm : D.Fresh m)
    (hmove : Lowering.moveTo ⟨id, m⟩ s = .ok () s₁) {mk : ValueId → Inst} {v : ValueId}
    (hs : assemble (·.emit mk) s₁ = .ok v s₂) (hmk : ∀ v dest f args, mk v ≠ .call dest f args) :
    v = D.valueCount ∧ ∃ D', Writing id Γ D' m s₂ ∧ Leads D m s D' s₂ ∧ D'.counts = D.counts.next ∧
      D'.point m = ⟨m, 1⟩ ∧ ∀ b, D'.Extends b → CodeAt b ⟨m, 0⟩ [mk v] := by
  obtain ⟨hw, hreg⟩ := hd.moveTo hm.open hmove
  obtain ⟨rfl, D', h, hc⟩ := hw.defines hs hmk
  have hlead := (Leads.refl D m hreg).trans (h.leads hm.open) (Or.inl rfl)
  refine ⟨rfl, D', h.writing, hlead, hc, ?_, ?_⟩
  · rw [h.wrote.point hm.open, hm.point]
    rfl
  · intro b hb
    rw [← hm.point]
    exact h.wrote.codeAt hm.open hb

theorem lowersStmt_condThen (hid : entry.function = id) {pos : Pos} {test : Expr} {yes : Stmt} (hsp : test.Spelled)
    (hyes : LowersStmt id entry retest yes) : LowersStmt id entry retest (.cond pos test yes none) := by
  intro Γ D r s s' v hfit hw h
  rw [lowerStmt] at h
  obtain ⟨x, t₁, hx, h⟩ := bind_ok h
  obtain ⟨flag, t₂, hflag, h⟩ := bind_ok h
  obtain ⟨result, t₃, hresult, h⟩ := bind_ok h
  obtain ⟨z, t₄, hz, h⟩ := bind_ok h
  obtain ⟨⟨⟩, t₅, hstore, h⟩ := bind_ok h
  obtain ⟨yesRegion, t₆, hregion₁, h⟩ := bind_ok h
  obtain ⟨merge, t₇, hregion₂, h⟩ := bind_ok h
  obtain ⟨⟨⟩, t₈, hclose, h⟩ := bind_ok h
  obtain ⟨⟨⟩, t₉, harm, h⟩ := bind_ok h
  obtain ⟨⟨⟩, t₁₀, hmove, hload⟩ := bind_ok h
  obtain ⟨is, E₁, h₁, hbranch⟩ := branch_code hid hsp hfit hw hx hflag hresult hz hstore
  obtain ⟨rfl, hw₂, hreg₂⟩ := h₁.writing.region hid hregion₁
  obtain ⟨rfl, hw₃, hreg₃⟩ := hw₂.region hid hregion₂
  obtain ⟨E₄, hd₄, hlead₄, hreg₄, hc₄, hclosed⟩ := hw₃.closes hclose
  have hr := h₁.writing.isOpen.lt
  have hsize := Body.size_addRegion E₁ "then"
  have hlead₁ := h₁.leads hw.isOpen
  have hsize₁ := hlead₁.size_le
  have hlead₃ : Leads E₁ r t₅ (E₁.addRegions ["then", "merge"]) t₇ := .addRegions E₁ r _ (hreg₃.trans hreg₂)
  have hlead := (hlead₁.trans hlead₃ (Or.inl rfl)).trans hlead₄ (Or.inl rfl)
  have hfresh : ∀ k < 2, E₄.Fresh (E₁.regions.size + k) := fun k hk =>
    (E₁.fresh_addRegions ["then", "merge"] hk).grows hlead₄.grows (by omega)
  obtain ⟨E₅, hd₅, hlead₅, hcode₅⟩ := lowerArm_code (hyes _) (hlead.fitting hfit) hd₄ (hfresh 0 (by omega)) harm
  have hmerge := (hfresh 1 (by omega)).grows hlead₅.grows (by omega)
  rw [← hsize] at hmerge
  obtain ⟨rfl, E₆, hw₆, hlead₆, hc₆, hpoint₆, hat⟩ := hd₅.resume hmerge hmove hload (by simp)
  refine ⟨E₆, _, hw₆, ?_, Or.inr (by omega), ?_⟩
  · exact (hlead.trans hlead₅ (Or.inr hsize₁)).trans hlead₆ (Or.inr (by omega))
  · intro link b hl hb
    have hb₅ := hlead₆.grows.toExtends.trans hb
    have hb₄ := hlead₅.grows.toExtends.trans hb₅
    have hb₁ := (hlead₃.grows.toExtends.trans hlead₄.grows.toExtends).trans hb₄
    have hl₅ := hl.before hlead₆.progress
    have hl₁ := ((hl₅.before hlead₅.progress).before hlead₄.progress).before hlead₃.progress
    have hpoint : (E₁.addRegions ["then", "merge"]).point r = E₁.point r :=
      Body.point_congr (E₁.regions_addRegions _ hr)
    obtain ⟨q, w, hst, hend⟩ := hcode₅ link b hl₅ hb₅
    rw [hc₄] at hst
    rw [hpoint₆, hc₆]
    exact .condThen (hbranch link b _ _ hl₁ hb₁ (hpoint ▸ hclosed b hb₄)) hst hend (hat b hb)

theorem lowersStmt_condElse (hid : entry.function = id) {pos : Pos} {test : Expr} {yes no : Stmt}
    (hsp : test.Spelled) (hyes : LowersStmt id entry retest yes) (hno : LowersStmt id entry retest no) :
    LowersStmt id entry retest (.cond pos test yes (some no)) := by
  intro Γ D r s s' v hfit hw h
  rw [lowerStmt] at h
  obtain ⟨x, t₁, hx, h⟩ := bind_ok h
  obtain ⟨flag, t₂, hflag, h⟩ := bind_ok h
  obtain ⟨result, t₃, hresult, h⟩ := bind_ok h
  obtain ⟨z, t₄, hz, h⟩ := bind_ok h
  obtain ⟨⟨⟩, t₅, hstore, h⟩ := bind_ok h
  obtain ⟨yesRegion, t₆, hregion₁, h⟩ := bind_ok h
  obtain ⟨noRegion, t₇, hregion₂, h⟩ := bind_ok h
  obtain ⟨merge, t₈, hregion₃, h⟩ := bind_ok h
  obtain ⟨⟨⟩, t₉, hclose, h⟩ := bind_ok h
  obtain ⟨⟨⟩, t₁₀, harm, h⟩ := bind_ok h
  obtain ⟨⟨⟩, t₁₁, harm', h⟩ := bind_ok h
  obtain ⟨⟨⟩, t₁₂, hmove, hload⟩ := bind_ok h
  obtain ⟨is, E₁, h₁, hbranch⟩ := branch_code hid hsp hfit hw hx hflag hresult hz hstore
  obtain ⟨rfl, hw₂, hreg₂⟩ := h₁.writing.region hid hregion₁
  obtain ⟨rfl, hw₃, hreg₃⟩ := hw₂.region hid hregion₂
  obtain ⟨rfl, hw₄, hreg₄⟩ := hw₃.region hid hregion₃
  obtain ⟨E₅, hd₅, hlead₅, hreg₅, hc₅, hclosed⟩ := hw₄.closes hclose
  have hr := h₁.writing.isOpen.lt
  have hsize₂ := Body.size_addRegion E₁ "then"
  have hsize₃ := Body.size_addRegion (E₁.addRegion "then") "else"
  have hlead₁ := h₁.leads hw.isOpen
  have hsize₁ := hlead₁.size_le
  have hlead₄ : Leads E₁ r t₅ (E₁.addRegions ["then", "else", "merge"]) t₈ :=
    .addRegions E₁ r _ (hreg₄.trans (hreg₃.trans hreg₂))
  have hlead := (hlead₁.trans hlead₄ (Or.inl rfl)).trans hlead₅ (Or.inl rfl)
  have hfresh : ∀ k < 3, E₅.Fresh (E₁.regions.size + k) := fun k hk =>
    (E₁.fresh_addRegions ["then", "else", "merge"] hk).grows hlead₅.grows (by omega)
  obtain ⟨E₆, hd₆, hlead₆, hcode₆⟩ := lowerArm_code (hyes _) (hlead.fitting hfit) hd₅ (hfresh 0 (by omega)) harm
  have hno₆ := (hfresh 1 (by omega)).grows hlead₆.grows (by omega)
  rw [← hsize₂] at hno₆
  obtain ⟨E₇, hd₇, hlead₇, hcode₇⟩ :=
    lowerArm_code (hno _) (hlead₆.fitting (hlead.fitting hfit)) hd₆ hno₆ harm'
  have hmerge := ((hfresh 2 (by omega)).grows hlead₆.grows (by omega)).grows hlead₇.grows (by omega)
  rw [show E₁.regions.size + 2 = ((E₁.addRegion "then").addRegion "else").regions.size by omega] at hmerge
  obtain ⟨rfl, E₈, hw₈, hlead₈, hc₈, hpoint₈, hat⟩ := hd₇.resume hmerge hmove hload (by simp)
  refine ⟨E₈, _, hw₈, ?_, Or.inr (by omega), ?_⟩
  · exact ((hlead.trans hlead₆ (Or.inr hsize₁)).trans hlead₇ (Or.inr (by omega))).trans hlead₈ (Or.inr (by omega))
  · intro link b hl hb
    have hb₇ := hlead₈.grows.toExtends.trans hb
    have hb₆ := hlead₇.grows.toExtends.trans hb₇
    have hb₅ := hlead₆.grows.toExtends.trans hb₆
    have hb₁ := (hlead₄.grows.toExtends.trans hlead₅.grows.toExtends).trans hb₅
    have hl₇ := hl.before hlead₈.progress
    have hl₆ := hl₇.before hlead₇.progress
    have hl₁ := ((hl₆.before hlead₆.progress).before hlead₅.progress).before hlead₄.progress
    have hpoint : (E₁.addRegions ["then", "else", "merge"]).point r = E₁.point r :=
      Body.point_congr (E₁.regions_addRegions _ hr)
    obtain ⟨q, w, hst, hend⟩ := hcode₆ link b hl₆ hb₆
    obtain ⟨q', w', hst', hend'⟩ := hcode₇ link b hl₇ hb₇
    rw [hc₅] at hst
    rw [hpoint₈, hc₈]
    exact .condElse (hbranch link b _ _ hl₁ hb₁ (hpoint ▸ hclosed b hb₅)) hst hend hst' hend' (hat b hb)

theorem lowersStmt_loop (hid : entry.function = id) {pos : Pos} {test : Expr} {body : Stmt} (hsp : test.Spelled)
    (hbody : ∀ again, LowersStmt id entry (some again) body) : LowersStmt id entry retest (.loop pos test body) := by
  intro Γ D r s s' v hfit hw h
  rw [lowerStmt] at h
  obtain ⟨flag, t₁, hflag, h⟩ := bind_ok h
  obtain ⟨pass, t₂, hregion₁, h⟩ := bind_ok h
  obtain ⟨again, t₃, hregion₂, h⟩ := bind_ok h
  obtain ⟨after, t₄, hregion₃, h⟩ := bind_ok h
  obtain ⟨⟨⟩, t₅, htest, h⟩ := bind_ok h
  obtain ⟨⟨⟩, t₆, hmove, h⟩ := bind_ok h
  obtain ⟨w, t₇, hin, h⟩ := bind_ok h
  obtain ⟨⟨⟩, t₈, hend, h⟩ := bind_ok h
  obtain ⟨⟨⟩, t₉, hmove', h⟩ := bind_ok h
  obtain ⟨⟨⟩, t₁₀, htest', h⟩ := bind_ok h
  obtain ⟨⟨⟩, t₁₁, hmove'', hzero⟩ := bind_ok h
  obtain ⟨rfl, E₁, h₁, hc₁⟩ := hw.reserves hid hflag
  obtain ⟨rfl, hw₂, hreg₂⟩ := h₁.writing.region hid hregion₁
  obtain ⟨rfl, hw₃, hreg₃⟩ := hw₂.region hid hregion₂
  obtain ⟨rfl, hw₄, hreg₄⟩ := hw₃.region hid hregion₃
  have hr := h₁.writing.isOpen.lt
  have hsize₂ := Body.size_addRegion E₁ "loop"
  have hsize₃ := Body.size_addRegion (E₁.addRegion "loop") "loop.next"
  have hlead₁ := h₁.leads hw.isOpen
  have hsize₁ := hlead₁.size_le
  have hlead₄ : Leads E₁ r t₁ (E₁.addRegions ["loop", "loop.next", "after.loop"]) t₄ :=
    .addRegions E₁ r _ (hreg₄.trans (hreg₃.trans hreg₂))
  have hfit₄ := hlead₄.fitting (hlead₁.fitting hfit)
  obtain ⟨E₅, hd₅, hlead₅, hcode₅⟩ := lowerTest_code hid hsp hfit₄ hw₄ htest
  have hfresh : ∀ k < 3, E₅.Fresh (E₁.regions.size + k) := fun k hk =>
    (E₁.fresh_addRegions ["loop", "loop.next", "after.loop"] hk).grows hlead₅.grows (by omega)
  have hpassFresh : E₅.Fresh E₁.regions.size := hfresh 0 (by omega)
  have hfit₅ := hlead₅.fitting hfit₄
  obtain ⟨hw₆, hreg₆⟩ := hd₅.moveTo hpassFresh.open hmove
  obtain ⟨E₇, q, hw₇, hlead₇, hplace, hcode₇⟩ :=
    (hbody _ ([] :: Γ)).inScope _ _ _ _ _ (hreg₆ ▸ hfit₅) hw₆ hin
  obtain ⟨t, hpure, hclose⟩ := hw₇.closeAfter hend
  obtain ⟨-, rfl⟩ := pure_ok hpure
  obtain ⟨E₈, hd₈, hlead₈, hreg₈, hc₈, hclosed⟩ := hw₇.closes hclose
  have hpass : Leads E₅ E₁.regions.size t₅ E₈ t₈ :=
    ((Leads.refl E₅ _ hreg₆).trans hlead₇ (Or.inl rfl)).trans hlead₈ hplace
  have hagainFresh := (hfresh 1 (by omega)).grows hpass.grows (by omega)
  rw [← hsize₂] at hagainFresh
  obtain ⟨hw₉, hreg₉⟩ := hd₈.moveTo hagainFresh.open hmove'
  obtain ⟨E₁₀, hd₁₀, hlead₁₀, hcode₁₀⟩ := lowerTest_code hid hsp (hreg₉ ▸ hpass.fitting hfit₅) hw₉ htest'
  have hagain : Leads E₈ (E₁.addRegion "loop").regions.size t₈ E₁₀ t₁₀ :=
    (Leads.refl E₈ _ hreg₉).trans hlead₁₀ (Or.inl rfl)
  change assemble (·.emit (.const · (.number 0))) t₁₁ = _ at hzero
  have hafterFresh := ((hfresh 2 (by omega)).grows hpass.grows (by omega)).grows hlead₁₀.grows (by omega)
  rw [show E₁.regions.size + 2 = ((E₁.addRegion "loop").addRegion "loop.next").regions.size by omega] at hafterFresh
  obtain ⟨rfl, E₁₁, hw₁₁, hlead₁₁, hc₁₁, hpoint₁₁, hat⟩ := hd₁₀.resume hafterFresh hmove'' hzero (by simp)
  refine ⟨E₁₁, _, hw₁₁, ?_, Or.inr (by omega), ?_⟩
  · have htests := (hlead₁.trans hlead₄ (Or.inl rfl)).trans hlead₅ (Or.inl rfl)
    exact ((htests.trans hpass (Or.inr hsize₁)).trans hagain (Or.inr (by omega))).trans hlead₁₁ (Or.inr (by omega))
  · intro link b hl hb
    have hb₁₀ := hlead₁₁.grows.toExtends.trans hb
    have hb₈ := hlead₁₀.grows.toExtends.trans hb₁₀
    have hb₇ := hlead₈.grows.toExtends.trans hb₈
    have hb₅ := hpass.grows.toExtends.trans hb₈
    have hl₁₀ := hl.before hlead₁₁.progress
    have hl₈ := hl₁₀.before hagain.progress
    have hpoint : (E₁.addRegions ["loop", "loop.next", "after.loop"]).point r = D.point r :=
      (Body.point_congr (E₁.regions_addRegions _ hr)).trans (h₁.wrote.point hw.isOpen)
    have htest₁ := hcode₅ link b (hl₈.before hpass.progress) hb₅
    have hst := hcode₇ link b (hl₈.before hlead₈.progress) hb₇
    have htest₂ := hcode₁₀ link b hl₁₀ hb₁₀
    change TestCode link b Γ _ _ _ _ ((E₁.addRegions ["loop", "loop.next", "after.loop"]).point r) _ _ at htest₁
    rw [hpoint] at htest₁
    rw [hpassFresh.point] at hst
    rw [hagainFresh.point, hc₈] at htest₂
    rw [hpoint₁₁, hc₁₁]
    exact .loop (hc₁ ▸ htest₁) hst (hclosed b hb₈) htest₂ (hat b hb)

/-- The bindings of a scope, and what is lowered behind them. -/
theorem lowerable_bindings (hid : entry.function = id) {α : Type} {bs : List Binding} {rest : Compile α}
    {code : Frames SlotId → Link → Body → Counts → Point → Point → Counts → α → Prop} (hsp : spelledBindings bs)
    (hrest : ∀ Γ, Lowerable id rest Γ (code Γ)) (Γ : Frames SlotId) :
    Lowerable id (inScope (do lowerBindings entry bs; rest)) Γ fun link b c p p' c' a =>
      ∃ is c₁ Γ₁, BindingsCode link ([] :: Γ) c bs is c₁ Γ₁ ∧ CodeAt b p is ∧
        code Γ₁ link b c₁ (p.plus is.length) p' c' a := by
  refine lowerable_inScope ?_
  intro D r s s' a hfit hw h
  obtain ⟨⟨⟩, t, hb, h⟩ := bind_ok h
  obtain ⟨f, is, D₁, h₁, hcode₁⟩ := lowerBindings_code hid bs hsp hfit hw hb
  obtain ⟨D₂, r₂, hw₂, hlead₂, hplace, hcode₂⟩ := hrest _ _ _ _ _ _ (h₁.fitting hfit) h₁.writing h
  have hlead₁ := h₁.leads hw.isOpen
  have hsize := hlead₁.size_le
  refine ⟨f, D₂, r₂, hw₂, hlead₁.trans hlead₂ (Or.inl rfl), by omega, fun link b hl hb => ?_⟩
  have hcode := hcode₂ link b hl hb
  rw [h₁.wrote.point hw.isOpen] at hcode
  exact ⟨is, _, _, hcode₁ link (hl.before hlead₂.progress),
    h₁.wrote.codeAt hw.isOpen (hlead₂.grows.toExtends.trans hb), hcode⟩

/-- The code of any number of statements, and the value of the last one. -/
def LastCode (link : Link) (b : Body) (again : Option RegionId) (Γ : Frames SlotId) (c : Counts) (p : Point)
    (ss : List Stmt) (p' : Point) (c' : Counts) : Option ValueId → Prop
  | none => ss = [] ∧ p' = p ∧ c' = c
  | some v => StmtsCode link b again Γ c p ss p' c' v

theorem lowersStmt_block (hid : entry.function = id) {pos : Pos} {declared : List Binding} {body : List Stmt}
    (hsp : spelledBindings declared)
    (hbody : ∀ Γ, Lowerable id (lowerStmts entry retest body) Γ fun link b c p p' c' last =>
      LastCode link b (retest.map Place.region) Γ c p body p' c' last) :
    LowersStmt id entry retest (.block pos declared body) := by
  intro Γ D r s s' v hfit hw h
  rw [lowerStmt] at h
  obtain ⟨last, t, hin, h⟩ := bind_ok h
  obtain ⟨D₁, r₁, hw₁, hlead₁, hplace, hcode⟩ := lowerable_bindings hid hsp hbody Γ _ _ _ _ _ hfit hw hin
  cases last with
  | some w =>
    obtain ⟨rfl, rfl⟩ := pure_ok h
    refine ⟨D₁, r₁, hw₁, hlead₁, hplace, fun link b hl hb => ?_⟩
    obtain ⟨is, c₁, Γ₁, hbs, hat, hss⟩ := hcode link b hl hb
    exact .block hbs hat hss
  | none =>
    obtain ⟨rfl, D₂, h₂, hc₂⟩ := hw₁.constant h
    refine ⟨D₂, r₁, h₂.writing, hlead₁.trans (h₂.leads hw₁.isOpen) hplace, hplace, fun link b hl hb => ?_⟩
    have hb₁ := (h₂.leads hw₁.isOpen).grows.toExtends.trans hb
    obtain ⟨is, c₁, Γ₁, hbs, hat, rfl, hp, hc⟩ := hcode link b (hl.before h₂.progress) hb₁
    have hat₂ := h₂.wrote.codeAt hw₁.isOpen hb
    have hv : D₁.valueCount = c₁.values := congrArg Counts.values hc
    rw [h₂.wrote.point hw₁.isOpen, hc₂, hp, hc, Point.plus_plus, hv]
    rw [hp, hv] at hat₂
    exact .emptyBlock hbs (hat.of_append hat₂)

mutual

/-- What lowering a statement writes is the code of the statement. -/
theorem lowerStmt_code (hid : entry.function = id) : ∀ (retest : Option Place) (st : Stmt), st.Spelled →
    LowersStmt id entry retest st
  | retest, .assign pos name value, hsp => by
    intro Γ D r s s' v hfit hw h
    rw [lowerStmt] at h
    obtain ⟨x, t₁, hx, h⟩ := bind_ok h
    obtain ⟨slot, t₂, hslot, h⟩ := bind_ok h
    obtain ⟨⟨⟩, t₃, hstore, hpure⟩ := bind_ok h
    obtain ⟨rfl, rfl⟩ := pure_ok hpure
    obtain ⟨is, D₁, h₁, hcode⟩ := lowerExpr_code hid value hsp hfit hw hx
    obtain ⟨hl, rfl⟩ := h₁.writing.slotOf hslot
    obtain ⟨D₂, h₂, hc₂⟩ := h₁.writing.store hstore
    refine (h₁.trans h₂).lowers hw.isOpen fun link b hlink hb hat => ?_
    rw [hc₂, List.length_append]
    exact .assign (hcode link (hlink.before h₂.progress)) hl hat
  | retest, .ret pos value, hsp => by
    intro Γ D r s s' v hfit hw h
    rw [lowerStmt] at h
    obtain ⟨x, t₁, hx, h⟩ := bind_ok h
    obtain ⟨⟨⟩, t₂, hclose, h⟩ := bind_ok h
    obtain ⟨⟨⟩, t₃, hdead, hpure⟩ := bind_ok h
    obtain ⟨rfl, rfl⟩ := pure_ok hpure
    obtain ⟨is, D₁, h₁, hcode⟩ := lowerExpr_code hid value hsp hfit hw hx
    obtain ⟨D₂, hd₂, hlead₂, hreg₂, hc₂, hclosed⟩ := h₁.writing.closes hclose
    obtain ⟨hw₃, hreg₃⟩ := hd₂.deadRegion hid hdead
    have hlead := (h₁.leads hw.isOpen).trans hlead₂ (Or.inl rfl)
    refine ⟨_, _, hw₃, hlead.trans (.addRegion D₂ r _ hreg₃) (Or.inl rfl), Or.inr hlead.size_le, ?_⟩
    intro link b hl hb
    have hb₂ := (Body.Grows.addRegion D₂ r _).toExtends.trans hb
    have hclosed' := hclosed b hb₂
    rw [h₁.wrote.point hw.isOpen] at hclosed'
    rw [hreg₃, hreg₂] at hl
    change StmtCode link b _ Γ D.counts _ _ _ D₂.counts v
    rw [hc₂]
    exact .ret (hcode link hl) (h₁.wrote.codeAt hw.isOpen (hlead₂.grows.toExtends.trans hb₂)) hclosed'
  | retest, .print pos items, hsp => by
    intro Γ D r s s' v hfit hw h
    rw [lowerStmt] at h
    obtain ⟨vs, t₁, hvs, h⟩ := bind_ok h
    obtain ⟨⟨⟩, t₂, hprint, hzero⟩ := bind_ok h
    obtain ⟨is, D₁, h₁, hcode⟩ := lowerExprs_code hid items hsp hfit hw hvs
    obtain ⟨D₂, h₂, hc₂⟩ := h₁.writing.print hprint
    obtain ⟨rfl, D₃, h₃, hc₃⟩ := h₂.writing.constant hzero
    have hv : D₂.valueCount = D₁.valueCount := congrArg Counts.values hc₂
    rw [hv] at h₃ ⊢
    refine (h₁.trans (h₂.trans h₃)).lowers hw.isOpen fun link b hlink hb hat => ?_
    rw [hc₃, hc₂, List.length_append]
    exact .print (hcode link ((hlink.before h₃.progress).before h₂.progress)) hat
  | none, .again pos, _ => by
    intro Γ D r s s' v hfit hw h
    rw [lowerStmt] at h
    cases h
  | some target, .again pos, _ => by
    intro Γ D r s s' v hfit hw h
    rw [lowerStmt] at h
    obtain ⟨⟨⟩, t₁, hclose, h⟩ := bind_ok h
    obtain ⟨⟨⟩, t₂, hdead, hzero⟩ := bind_ok h
    obtain ⟨D₁, hd₁, hlead₁, hreg₁, hc₁, hclosed⟩ := hw.closes hclose
    obtain ⟨hw₂, hreg₂⟩ := hd₁.deadRegion hid hdead
    obtain ⟨rfl, D₃, h₃, hc₃⟩ := hw₂.constant hzero
    have hlead₂ := hlead₁.trans (.addRegion D₁ r "after.continue" hreg₂) (Or.inl rfl)
    have hsize := hlead₁.size_le
    refine ⟨D₃, _, h₃.writing, hlead₂.trans (h₃.leads hw₂.isOpen) (Or.inr hsize), Or.inr hsize, ?_⟩
    intro link b hl hb
    have hb₁ := ((Body.Grows.addRegion D₁ r _).toExtends.trans (h₃.leads hw₂.isOpen).grows.toExtends).trans hb
    have hv : (D₁.addRegion "after.continue").valueCount = D.valueCount := congrArg Counts.values hc₁
    rw [hc₃, hv]
    change StmtCode link b _ Γ D.counts _ _ _ D₁.counts.next D.counts.values
    rw [hc₁]
    exact .again (hclosed b hb₁)
  | retest, .cond pos test yes none, hsp =>
    lowersStmt_condThen hid hsp.1 (lowerStmt_code hid retest yes hsp.2)
  | retest, .cond pos test yes (some no), hsp =>
    lowersStmt_condElse hid hsp.1 (lowerStmt_code hid retest yes hsp.2.1) (lowerStmt_code hid retest no hsp.2.2)
  | retest, .loop pos test body, hsp =>
    lowersStmt_loop hid hsp.1 fun again => lowerStmt_code hid (some again) body hsp.2
  | retest, .block pos declared body, hsp => lowersStmt_block hid hsp.1 (lowerStmts_code hid retest body hsp.2)
  | retest, .letIn pos bindings body, hsp => by
    intro Γ D r s s' v hfit hw h
    rw [lowerStmt] at h
    obtain ⟨D₁, r₁, hw₁, hlead₁, hplace, hcode⟩ :=
      lowerable_bindings hid hsp.1 (lowerStmt_code hid retest body hsp.2) Γ _ _ _ _ _ hfit hw h
    refine ⟨D₁, r₁, hw₁, hlead₁, hplace, fun link b hl hb => ?_⟩
    obtain ⟨is, c₁, Γ₁, hbs, hat, hst⟩ := hcode link b hl hb
    exact .letIn hbs hat hst
termination_by structural _ st => st

theorem lowerStmts_code (hid : entry.function = id) : ∀ (retest : Option Place) (ss : List Stmt), spelledStmts ss →
    ∀ Γ, Lowerable id (lowerStmts entry retest ss) Γ fun link b c p p' c' last =>
      LastCode link b (retest.map Place.region) Γ c p ss p' c' last
  | retest, [], _ => by
    intro Γ D r s s' last hfit hw h
    rw [lowerStmts] at h
    obtain ⟨rfl, rfl⟩ := pure_ok h
    exact ⟨D, r, hw, .refl D r rfl, Or.inl rfl, fun _ _ _ _ => ⟨rfl, rfl, rfl⟩⟩
  | retest, st :: ss, hsp => by
    intro Γ D r s s' last hfit hw h
    rw [lowerStmts] at h
    obtain ⟨v, t₁, hv, h⟩ := bind_ok h
    obtain ⟨last', t₂, hlast, hpure⟩ := bind_ok h
    obtain ⟨rfl, rfl⟩ := pure_ok hpure
    obtain ⟨D₁, r₁, hw₁, hlead₁, hplace₁, hcode₁⟩ := lowerStmt_code hid retest st hsp.1 Γ _ _ _ _ _ hfit hw hv
    obtain ⟨D₂, r₂, hw₂, hlead₂, hplace₂, hcode₂⟩ :=
      lowerStmts_code hid retest ss hsp.2 Γ _ _ _ _ _ (hlead₁.fitting hfit) hw₁ hlast
    have hsize := hlead₁.size_le
    refine ⟨D₂, r₂, hw₂, hlead₁.trans hlead₂ hplace₁, by omega, fun link b hl hb => ?_⟩
    have hst := hcode₁ link b (hl.before hlead₂.progress) (hlead₂.grows.toExtends.trans hb)
    have hss := hcode₂ link b hl hb
    cases last' with
    | none =>
      obtain ⟨rfl, hp, hc⟩ := hss
      rw [hp, hc]
      exact .single hst
    | some w =>
      cases ss with
      | nil => cases hss
      | cons st' ss => exact .cons hst hss
termination_by structural _ ss => ss

end

end Lowering

end Funclet
