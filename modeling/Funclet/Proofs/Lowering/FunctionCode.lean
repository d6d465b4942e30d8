import Funclet.Proofs.Lowering.Outcome
import Funclet.Proofs.Lowering.StatementCode

/-!
# Lowering writes the code of functions

* `lowerCode_code` : the code of a function, parameters first;
* `Compiled f s body s'` : all that is known once the body of `f` is finished: it is registered, its calls are of
  registered functions, the placeholders it has left are called in it, and it is the code of `f`;
* `lowerFunction_compiled` : a function that is lowered is compiled.
-/

namespace Funclet.Lowering

variable {id : FunctionId} {Γ : Frames SlotId} {D : Body} {r : Nat} {s s' : Session} {entry : Place} {f : Function}

theorem paramCode_length (names : List String) : ∀ i, (paramCode i names).length = 2 * names.length := by
  induction names with
  | nil => exact fun _ => rfl
  | cons name names ih =>
    intro i
    simp only [paramCode, List.length_cons, ih]
    omega

/-- The parameters go to the first slots, by way of the first values. -/
theorem lowerParams_code (hid : entry.function = id) (names : List String) : ∀ (i : Nat) (f : List (String × SlotId))
    (D : Body) (s s' : Session), D.counts = ⟨i, i⟩ → Writing id (f :: Γ) D r s →
    lowerParams entry i names s = .ok () s' →
    ∃ D', Written id D r s (paramCode i names) (((names.zipIdx i).reverse ++ f) :: Γ) D' s' ∧
      D'.counts = ⟨i + names.length, i + names.length⟩ := by
  induction names with
  | nil =>
    intro i f D s s' hc hw h
    obtain ⟨-, rfl⟩ := pure_ok h
    exact ⟨D, .refl hw, hc⟩
  | cons name names ih =>
    intro i f D s s' hc hw h
    obtain ⟨slot, t₁, hslot, h⟩ := bind_ok h
    obtain ⟨v, t₂, hv, h⟩ := bind_ok h
    obtain ⟨⟨⟩, t₃, hstore, h⟩ := bind_ok h
    obtain ⟨⟨⟩, t₄, hdeclare, hrest⟩ := bind_ok h
    obtain ⟨rfl, D₁, h₁, hc₁⟩ := hw.reserves hid hslot
    obtain ⟨rfl, D₂, h₂, hc₂⟩ := h₁.writing.param hv
    obtain ⟨D₃, h₃, hc₃⟩ := h₂.writing.store hstore
    have hslots : D.slots.size = i := congrArg Counts.slots hc
    have hvalues : D₁.valueCount = i := (congrArg Counts.values hc₁).trans (congrArg Counts.values hc)
    have hall := h₁.trans (h₂.trans h₃)
    rw [hslots, hvalues] at hall
    obtain ⟨hw₄, hreg₄⟩ := hall.writing.bind hdeclare
    rw [hslots] at hw₄
    have hdone : Written id D r s [.param i i, .store i i] (((name, i) :: f) :: Γ) D₃ t₄ :=
      ⟨hw₄, hall.wrote, hreg₄ ▸ hall.progress⟩
    have hc₄ : D₃.counts = ⟨i + 1, i + 1⟩ := by
      rw [hc₃, hc₂, hc₁, hc]
      rfl
    obtain ⟨D₅, h₅, hc₅⟩ := ih (i + 1) _ D₃ _ s' hc₄ hdone.writing hrest
    refine ⟨D₅, ?_, ?_⟩
    · have hzip : ((name :: names).zipIdx i).reverse ++ f = (names.zipIdx (i + 1)).reverse ++ ((name, i) :: f) := by
        simp [List.zipIdx_cons]
      rw [hzip]
      exact hdone.trans h₅
    · rw [hc₅, List.length_cons]
      congr 1 <;> omega

/-- The code of a function, from a fresh entry region on. -/
theorem lowerCode_code (hid : entry.function = id) (hsp : f.body.Spelled) (hfit : s.registry.Fitting)
    (hw : Writing id [] D 0 s) (hfresh : D.Fresh 0) (hc : D.counts = ⟨0, 0⟩) (h : lowerCode f entry s = .ok () s') :
    ∃ D', s'.assembler.drafts.get? id = some D' ∧ Leads D 0 s D' s' ∧
      ∀ link b, Covers link s'.registry → D'.Extends b →
        CodeAt b ⟨0, 0⟩ (paramCode 0 f.proto.params) ∧
        ∃ p c v, StmtCode link b none [f.proto.params.zipIdx.reverse] ⟨f.proto.arity, f.proto.arity⟩
          ⟨0, 2 * f.proto.arity⟩ f.body p c v ∧ ClosedAt b p (.ret v) ∧ c = D'.counts := by
  obtain ⟨t₁, t₅, henter, h, hleave⟩ := inScope_ok h
  obtain ⟨⟨⟩, t₂, hparams, h⟩ := bind_ok h
  obtain ⟨v, t₃, hv, hend⟩ := bind_ok h
  obtain ⟨hw₁, hreg₁⟩ := hw.enter henter
  obtain ⟨D₁, h₁, hc₁⟩ := lowerParams_code hid f.proto.params 0 [] D t₁ t₂ hc hw₁ hparams
  have hfit₁ : t₁.registry.Fitting := hreg₁ ▸ hfit
  obtain ⟨D₂, q, hw₂, hlead₂, hplace, hcode⟩ := lowerStmt_code hid none f.body hsp _ _ _ _ _ _ (h₁.fitting hfit₁)
    h₁.writing hv
  obtain ⟨t₄, hpure, hclose⟩ := hw₂.closeAfter hend
  obtain ⟨-, rfl⟩ := pure_ok hpure
  obtain ⟨D₃, hd₃, hlead₃, hreg₃, hc₃, hclosed⟩ := hw₂.closes hclose
  cases hleave
  have hlead₁ : Leads D 0 s D₁ t₂ := (Leads.refl D 0 hreg₁).trans (h₁.leads hw.isOpen) (Or.inl rfl)
  have hsize := hlead₁.size_le
  have hlead := (hlead₁.trans hlead₂ (Or.inl rfl)).trans hlead₃ (by omega)
  refine ⟨D₃, hd₃.draft, ⟨hlead.grows, hlead.progress⟩, fun link b hl hb => ?_⟩
  have hb₂ := hlead₃.grows.toExtends.trans hb
  have hat := h₁.wrote.codeAt hw.isOpen (hlead₂.grows.toExtends.trans hb₂)
  have hst := hcode link b (hl.before hlead₃.progress) hb₂
  rw [h₁.wrote.point hw.isOpen, hfresh.point, paramCode_length, hc₁, List.append_nil] at hst
  rw [hfresh.point] at hat
  simp only [Point.plus, Nat.zero_add] at hst
  exact ⟨hat, D₂.point q, D₂.counts, v, hst, hclosed b hb, hc₃.symm⟩

/-- All that is known once the body of `f` is finished. -/
structure Compiled (f : Function) (s : Session) (body : Body) (s' : Session) : Prop where
  name : body.name = f.proto.name
  params : body.params = f.proto.arity
  fresh : s.registry.confirmed.get? f.proto.name = none
  confirmed : s'.registry.confirmed = s.registry.confirmed.insert f.proto.name ⟨f.proto, body.id⟩
  known : ∀ name n g, s.registry.Knows name n g → s'.registry.Knows name n g
  calls : ∀ g n, body.Calls g n → ∃ name, s'.registry.Knows name n g
  met : ∀ name e, s'.registry.pending.get? name = some e →
    (s.registry.pending.get? name = some e ∧ name ≠ f.proto.name) ∨
      ∃ g n, body.Calls g n ∧ s'.registry.Knows name n g
  code : ∀ link, Covers link s'.registry → BodyCode link f body
  fitting : s'.registry.Fitting

/-- Where the code of an enrolled function begins. -/
theorem begun_writing {o : Registry.Opening} {s₁ : Session} (hl : Linked s.registry s.assembler)
    (hi : s.assembler.Idle) (he : enroll f.proto { s with scopes := .empty } = .ok o s₁) :
    ∃ D, Writing o.id [] D 0 (begun o.id (opened f s₁)) ∧ D.Fresh 0 ∧ D.counts = ⟨0, 0⟩ ∧ D.id = o.id ∧
      D.name = f.proto.name ∧ (∀ g n, ¬ D.Calls g n) ∧
      ((opened f s₁).assembler.addRegion o.id "entry").1 = ⟨o.id, 0⟩ ∧
      D = (s₁.assembler.newBody o.id).addRegion "entry" := by
  obtain ⟨-, -, ha, -, -, -, hsc, -⟩ := enroll_ok he
  have hl₁ : Linked s₁.registry s₁.assembler := Linked.enroll (s := { s with scopes := .empty }) hl he
  have hname : s₁.assembler.nameOf o.id = f.proto.name :=
    hl₁.indexed.nameOf (hl₁.declared_of_knows (knows_of_enroll he))
  have hdraft : (opened f s₁).assembler.draft o.id = s₁.assembler.newBody o.id := by
    have hempty : s₁.assembler.drafts = .empty := by
      rw [ha]
      exact hi.drafts
    change (s₁.assembler.drafts.get? o.id).getD _ = _
    rw [hempty]
    rfl
  refine ⟨(s₁.assembler.newBody o.id).addRegion "entry", ?_, ?_, rfl, rfl, hname, ?_, ?_, rfl⟩
  · refine ⟨⟨?_, ?_⟩, ?_, (Body.fresh_addRegion (s₁.assembler.newBody o.id) "entry").open⟩
    · simp only [begun, Assembler.addRegion, hdraft]
      exact (OrderedMap.get?_insert _ _ _ _).trans (if_pos rfl)
    · change s₁.scopes.Represents [] []
      rw [hsc]
      exact Scopes.represents_empty
    · simp only [begun, Assembler.addRegion, hdraft]
      rfl
  · exact Body.fresh_addRegion (s₁.assembler.newBody o.id) "entry"
  · intro g n hc
    obtain ⟨q, k, dest, args, hk, -⟩ := Body.calls_addRegion hc
    cases hk
  · simp only [Assembler.addRegion, hdraft]
    rfl

/-- A function is declared under its name as long as its code is written. -/
theorem declared_opened {o : Registry.Opening} {s₁ t : Session} (hl : Linked s.registry s.assembler)
    (he : enroll f.proto { s with scopes := .empty } = .ok o s₁) (ht : Effects o.id (begun o.id (opened f s₁)) t) :
    t.assembler.declaration? f.proto.name = some ⟨o.id, f.proto.name, f.proto.arity⟩ := by
  have hkept := kept_opened ht
  have hl₁ : Linked s₁.registry s₁.assembler := Linked.enroll (s := { s with scopes := .empty }) hl he
  have hself : s₁.registry.Knows f.proto.name f.proto.arity o.id := knows_of_enroll he
  exact (hkept.linked hl₁).declared_of_knows (hkept.knows hself)

/-- A function that is lowered is compiled. -/
theorem lowerFunction_compiled {body : Body} (hl : Linked s.registry s.assembler) (hi : s.assembler.Idle)
    (hfit : s.registry.Fitting) (hsp : f.Spelled) (h : lowerFunction f s = .ok body s') : Compiled f s body s' := by
  obtain ⟨o, s₁, t, he, ht, hcode, hfin, rfl⟩ := lowerFunction_ok h
  obtain ⟨D, hw, hfresh, hc, hDid, hDname, hnone, hentry, -⟩ := begun_writing hl hi he
  obtain ⟨⟨R, hR⟩, ho, -, hreg, -⟩ := enroll_ok he
  obtain ⟨hfix, hnew, -, -⟩ := Registry.enroll_ok hR
  have hfit₁ : s₁.registry.Fitting := by
    intro name e hname
    rw [hreg] at hname
    change (s.registry.confirmed.insert f.proto.name ⟨f.proto, o.id⟩).get? name = some e at hname
    rw [OrderedMap.get?_insert] at hname
    split at hname
    · rename_i hn
      cases hname
      exact ⟨hn, hsp.named, hfix⟩
    · exact hfit name e hname
  rw [hentry] at hcode
  obtain ⟨D', hD', hlead, hD'code⟩ :=
    lowerCode_code rfl hsp.body (s := begun o.id (opened f s₁)) hfit₁ hw hfresh hc hcode
  have hext := hlead.grows.toExtends
  have hprogress : Progress D s₁.registry D' t.registry := hlead.progress
  have hconf : t.registry.confirmed = s.registry.confirmed.insert f.proto.name ⟨f.proto, o.id⟩ := by
    rw [hprogress.confirmed, hreg]
  have hname : D'.name = f.proto.name := hext.header.2.trans hDname
  have hdecl : t.assembler.declaration? D'.name = some ⟨o.id, f.proto.name, f.proto.arity⟩ := by
    rw [hname]
    exact declared_opened hl he ht
  obtain ⟨n, rfl, hn⟩ := finished_ok hD' hfin
  obtain rfl : n = f.proto.arity := hn _ hdecl
  have hext' : D'.Extends { D' with params := f.proto.arity } := ⟨⟨rfl, rfl⟩, (Body.Extends.refl D').regions⟩
  have hid : D'.id = o.id := hext.header.1.trans hDid
  refine ⟨hname, rfl, hnew, ?_, ?_, ?_, ?_, ?_, ?_⟩
  · rw [hid]
    exact hconf
  · intro name n g hk
    exact hprogress.known name n g (Linked.knows_enroll (s := { s with scopes := .empty }) hl he hk)
  · intro g n hcall
    rcases hprogress.calls g n hcall with hcall | hk
    · exact absurd hcall (hnone g n)
    · exact hk
  · intro name e hname
    rcases hprogress.met name e hname with he' | hm
    · refine Or.inl ?_
      rw [hreg] at he'
      change (s.registry.pending.erase f.proto.name).get? name = some e at he'
      rw [OrderedMap.get?_erase] at he'
      split at he'
      · cases he'
      · rename_i hn
        exact ⟨he', Ne.symm hn⟩
    · exact Or.inr hm
  · intro link hlink
    obtain ⟨hat, p, c, v, hst, hclosed, rfl⟩ := hD'code link _ hlink hext'
    exact ⟨rfl, hat, p, _, v, hst, hclosed, .refl _⟩
  · exact hfit₁.congr hprogress.confirmed

end Funclet.Lowering
