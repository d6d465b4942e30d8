import Funclet.Proofs.Lowering.ExpressionCode
import Funclet.Proofs.Lowering.Frame
import Funclet.Proofs.Machine.Renumbering

/-!
# Lowering one function in two sessions

A function is lowered in a session where it succeeds, and in another one, where other functions are known and numbers
have been given in another order. Let `K` be a registry with all that the first session ever knows.

* `Registry.Agrees K R` : what `R` knows has the number of parameters that `K` says;
* `Counterpart K R g h` : the function `g` of `K` and the function `h` of `R` have one name;
* `Parallel K i j s t` : in `s` and `t` the functions `i` and `j` have the same code so far, at the same place and in
  the same scopes, up to counterparts;
* `Mirrors K i j x y` : where `x` succeeds, so does `y`, with the same result, and the sessions stay parallel;
* `lowerExpr_mirrors` … `lowerCode_mirrors` : lowering a tree in one session mirrors lowering it in the other.

Operators cannot be mirrored, as the first session may define them earlier. But where all functions have plain names, no
operator function is defined, and lowering fails at the first use of one.
-/

namespace Funclet

/-! ## Code -/

section Code

variable {R : FunctionId → FunctionId → Prop} {b c : Body}

theorem size_eq_of_optionRel {α : Type} {P : α → α → Prop} {xs ys : Array α}
    (h : ∀ k : Nat, Option.Rel P xs[k]? ys[k]?) : xs.size = ys.size := by
  have hnone (k : Nat) : xs.size ≤ k ↔ ys.size ≤ k := by
    rw [← Array.getElem?_eq_none_iff, ← Array.getElem?_eq_none_iff]
    rcases optionRel_iff.1 (h k) with ⟨hx, hy⟩ | ⟨x, y, hx, hy, -⟩
    · exact iff_of_true hx hy
    · simp [hx, hy]
  have h₁ := (hnone xs.size).1 (Nat.le_refl _)
  have h₂ := (hnone ys.size).2 (Nat.le_refl _)
  omega

theorem optionRel_push {α : Type} {P : α → α → Prop} {xs ys : Array α} (h : ∀ k : Nat, Option.Rel P xs[k]? ys[k]?)
    {x y : α} (hxy : P x y) (k : Nat) : Option.Rel P (xs.push x)[k]? (ys.push y)[k]? := by
  rw [Array.getElem?_push, Array.getElem?_push, size_eq_of_optionRel h]
  split
  · exact .some hxy
  · exact h k

theorem Region.Alike.push {g h : Region} (hgh : g.Alike R h) {i j : Inst} (hij : i.Alike R j) :
    Region.Alike R { g with insts := g.insts.push i } { h with insts := h.insts.push j } :=
  ⟨hgh.label, optionRel_push hgh.insts hij, hgh.terminator⟩

theorem Region.Alike.close {g h : Region} (hgh : g.Alike R h) (t : Terminator) :
    Region.Alike R { g with terminator := g.terminator.or (some t) }
      { h with terminator := h.terminator.or (some t) } :=
  ⟨hgh.label, hgh.insts, by rw [hgh.terminator]⟩

theorem Body.Alike.modify (h : b.Alike R c) (r : Nat) {F G : Region → Region}
    (hFG : ∀ g g', Region.Alike R g g' → Region.Alike R (F g) (G g')) :
    Body.Alike R { b with regions := b.regions.modify r F } { c with regions := c.regions.modify r G } := by
  refine ⟨h.name, h.slots, h.values, fun q => ?_⟩
  rw [Array.getElem?_modify, Array.getElem?_modify]
  split
  · rcases optionRel_iff.1 (h.regions q) with ⟨hb, hc⟩ | ⟨g, g', hb, hc, hg⟩
    · rw [hb, hc]
      exact .none
    · rw [hb, hc]
      exact .some (hFG g g' hg)
  · exact h.regions q

theorem Body.Alike.addRegion (h : b.Alike R c) (label : String) :
    Body.Alike R { b with regions := b.regions.push ⟨label, #[], none⟩ }
      { c with regions := c.regions.push ⟨label, #[], none⟩ } :=
  ⟨h.name, h.slots, h.values, optionRel_push h.regions ⟨rfl, fun _ => .none, rfl⟩⟩

/-- The functions `i` and `j` have the same code so far, and it goes on at the same place. -/
def Assembler.Paired (R : FunctionId → FunctionId → Prop) (i j : FunctionId) (x y : Assembler) : Prop :=
  ∃ D E r, x.drafts.get? i = some D ∧ y.drafts.get? j = some E ∧ x.cursor = some ⟨i, r⟩ ∧ y.cursor = some ⟨j, r⟩ ∧
    D.Alike R E

theorem Assembler.get?_setDraft (x : Assembler) (id : FunctionId) (D : Body) :
    (x.setDraft id D).drafts.get? id = some D :=
  (OrderedMap.get?_insert _ _ _ _).trans (if_pos rfl)

namespace Assembler.Paired

variable {i j : FunctionId} {x y : Assembler}

theorem modifyRegion (h : Paired R i j x y) {F G : Region → Region}
    (hFG : ∀ g g', Region.Alike R g g' → Region.Alike R (F g) (G g')) :
    Paired R i j (x.modifyRegion F) (y.modifyRegion G) := by
  obtain ⟨D, E, r, hD, hE, hx, hy, hDE⟩ := h
  rw [Lowering.modifyRegion_eq hx hD, Lowering.modifyRegion_eq hy hE]
  exact ⟨_, _, r, x.get?_setDraft i _, y.get?_setDraft j _, hx, hy, hDE.modify r hFG⟩

theorem append (h : Paired R i j x y) {a b : Inst} (hab : a.Alike R b) : Paired R i j (x.append a) (y.append b) :=
  h.modifyRegion fun _ _ hg => hg.push hab

theorem close (h : Paired R i j x y) (t : Terminator) : Paired R i j (x.close t) (y.close t) :=
  h.modifyRegion fun _ _ hg => hg.close t

theorem freshValue (h : Paired R i j x y) :
    x.freshValue.1 = y.freshValue.1 ∧ Paired R i j x.freshValue.2 y.freshValue.2 := by
  obtain ⟨D, E, r, hD, hE, hx, hy, hDE⟩ := h
  simp only [Assembler.freshValue, hx, hy, Assembler.draft, hD, hE, Option.getD_some]
  exact ⟨hDE.values, _, _, r, x.get?_setDraft i _, y.get?_setDraft j _, hx, hy, hDE.name, hDE.slots,
    congrArg (· + 1) hDE.values, hDE.regions⟩

theorem emit (h : Paired R i j x y) {F G : ValueId → Inst} (hFG : ∀ v, (F v).Alike R (G v)) :
    (x.emit F).1 = (y.emit G).1 ∧ Paired R i j (x.emit F).2 (y.emit G).2 := by
  obtain ⟨hv, hxy⟩ := h.freshValue
  have hinst : (F x.freshValue.1).Alike R (G y.freshValue.1) := by
    rw [hv]
    exact hFG _
  exact ⟨hv, hxy.append hinst⟩

theorem addRegion (h : Paired R i j x y) (label : String) :
    ∃ q, (x.addRegion i label).1 = ⟨i, q⟩ ∧ (y.addRegion j label).1 = ⟨j, q⟩ ∧
      Paired R i j (x.addRegion i label).2 (y.addRegion j label).2 := by
  obtain ⟨D, E, r, hD, hE, hx, hy, hDE⟩ := h
  simp only [Assembler.addRegion, Assembler.draft, hD, hE, Option.getD_some]
  refine ⟨D.regions.size, rfl, ?_, _, _, r, x.get?_setDraft i _, y.get?_setDraft j _, hx, hy, hDE.addRegion label⟩
  rw [size_eq_of_optionRel hDE.regions]

theorem moveTo (h : Paired R i j x y) (q : RegionId) : Paired R i j (x.moveTo ⟨i, q⟩) (y.moveTo ⟨j, q⟩) := by
  obtain ⟨D, E, -, hD, hE, -, -, hDE⟩ := h
  exact ⟨D, E, q, hD, hE, rfl, rfl, hDE⟩

theorem reserve (h : Paired R i j x y) (q : RegionId) (name : String) :
    (x.reserve ⟨i, q⟩ name).1 = (y.reserve ⟨j, q⟩ name).1 ∧
      Paired R i j (x.reserve ⟨i, q⟩ name).2 (y.reserve ⟨j, q⟩ name).2 := by
  obtain ⟨D, E, r, hD, hE, hx, hy, hDE⟩ := h
  simp only [Assembler.reserve, Assembler.draft, hD, hE, Option.getD_some, hDE.slots]
  exact ⟨trivial, _, _, r, x.get?_setDraft i _, y.get?_setDraft j _, hx, hy, hDE.name, rfl, hDE.values, hDE.regions⟩

theorem isClosed (h : Paired R i j x y) : x.isClosed = y.isClosed := by
  obtain ⟨D, E, r, hD, hE, hx, hy, hDE⟩ := h
  simp only [Assembler.isClosed, hx, hy, hD, hE, Option.bind_some]
  rcases optionRel_iff.1 (hDE.regions r) with ⟨hg, hg'⟩ | ⟨g, g', hg, hg', hgg'⟩
  · rw [hg, hg']
  · rw [hg, hg']
    dsimp only
    rw [hgg'.terminator]

end Assembler.Paired

end Code

/-! ## Registries -/

namespace Registry

/-- What `R` knows has the number of parameters that `K` says. -/
structure Agrees (K R : Registry) : Prop where
  known : ∀ name n h, R.Knows name n h → ∃ g, K.Knows name n g
  entry : ∀ n, R.entryArity = some n → ∃ g, K.Knows R.entry n g

/-- The function `g` of `K` and the function `h` of `R` have one name. -/
def Counterpart (K R : Registry) (g h : FunctionId) : Prop := ∃ name n, K.Knows name n g ∧ R.Knows name n h

def Plain (R : Registry) : Prop := ∀ name e, R.confirmed.get? name = some e → PlainName name

variable {K R : Registry} {name : String} {n : Nat} {g : FunctionId}

theorem Agrees.settleEntry (h : Agrees K R) (hk : K.Knows name n g) (pos : Pos) :
    R.settleEntry name n pos = .ok { R with entryArity := R.sighted name n } := by
  unfold Registry.settleEntry sighted
  by_cases hname : name = R.entry
  · rw [if_pos hname, if_pos hname]
    cases he : R.entryArity with
    | none => rfl
    | some m =>
      obtain ⟨g', hk'⟩ := h.entry m he
      obtain ⟨rfl, -⟩ := Knows.unique (hname ▸ hk) hk'
      dsimp only
      rw [if_pos rfl, ← he]
  · rw [if_neg hname, if_neg hname]

/-- One more name, or another entry for it, with the number of parameters that `K` says. -/
theorem Agrees.sighted (h : Agrees K R) (hk : K.Knows name n g) {R' : Registry} (hentry : R'.entry = R.entry)
    (harity : R'.entryArity = R.sighted name n)
    (hfind : ∀ k e, R'.find? k = some e → k = name ∧ e.proto.arity = n ∨ R.find? k = some e) : Agrees K R' := by
  constructor
  · rintro k m f ⟨e, he, rfl, rfl⟩
    rcases hfind k e he with ⟨rfl, rfl⟩ | he'
    · exact ⟨g, hk⟩
    · exact h.known k _ _ ⟨e, he', rfl, rfl⟩
  · intro m hm
    rw [harity, Registry.sighted] at hm
    rw [hentry]
    split at hm
    · rename_i hname
      cases hm
      exact ⟨g, hname ▸ hk⟩
    · exact h.entry m hm

end Registry

open Registry

/-- What `K` knows can be called. -/
theorem resolve_agrees {K : Registry} {name : String} {n : Nat} {g : FunctionId} {t : Session}
    (h : Agrees K t.registry) (hk : K.Knows name n g) (pos : Pos) :
    ∃ f t', resolve pos name n t = .ok f t' ∧ Agrees K t'.registry := by
  cases hfind : t.registry.find? name with
  | some e =>
    obtain ⟨g', hg'⟩ := h.known name e.proto.arity e.id ⟨e, hfind, rfl, rfl⟩
    refine ⟨e.id, t, ?_, h⟩
    unfold resolve
    rw [hfind]
    exact if_pos (hk.unique hg').1.symm
  | none =>
    have hok : ∃ f t', resolve pos name n t = .ok f t' := by
      unfold resolve
      rw [hfind, h.settleEntry hk pos]
      exact ⟨_, _, rfl⟩
    obtain ⟨f, t', ht⟩ := hok
    refine ⟨f, t', ht, ?_⟩
    rcases resolve_ok ht with ⟨-, e, he, -⟩ | ⟨-, -, -, hreg, -⟩
    · rw [hfind] at he
      cases he
    · refine h.sighted hk (by rw [hreg]) (by rw [hreg]) fun k e he => ?_
      rw [hreg, find?_expect _ _ _ _ hfind] at he
      split at he
      · rename_i hname
        cases he
        exact Or.inl ⟨hname.symm, Prototype.arity_placeholder _ _ _⟩
      · exact Or.inr he

namespace Lowering

/-! ## Sessions -/

/-- In `s` and `t` the functions `i` and `j` have the same code so far. -/
structure Parallel (K : Registry) (i j : FunctionId) (s t : Session) : Prop where
  scopes : s.scopes = t.scopes
  plain : s.registry.Plain
  agrees : Agrees K t.registry
  code : Assembler.Paired (Counterpart K t.registry) i j s.assembler t.assembler

/-- Where `x` succeeds and `K` knows what has been called, `y` succeeds with the same result. -/
structure Mirrors {α : Type} (K : Registry) (i j : FunctionId) (x y : Compile α) : Prop where
  left : Follows i x
  right : Follows j y
  run : ∀ s t a s', Parallel K i j s t → x s = .ok a s' → Covers K.Knows s'.registry →
    ∃ t', y t = .ok a t' ∧ Parallel K i j s' t'

variable {α β : Type} {K : Registry} {i j : FunctionId} {s s' t t' : Session}

theorem Counterpart.kept (hk : Kept t t') {g h : FunctionId} (hgh : Counterpart K t.registry g h) :
    Counterpart K t'.registry g h := by
  obtain ⟨name, n, hg, hh⟩ := hgh
  exact ⟨name, n, hg, hk.knows hh⟩

/-- What is known before a step is known behind it. -/
theorem Follows.covers {x : Compile α} (hx : Follows i x) {a : α} (h : x s = .ok a s')
    (hK : Covers K.Knows s'.registry) : Covers K.Knows s.registry := by
  have hkept := (hx s).kept
  rw [after_ok h] at hkept
  exact fun name n g hg => hK name n g (hkept.knows hg)

theorem Follows.kept {x : Compile α} (hx : Follows i x) {a : α} (h : x s = .ok a s') : Kept s s' := by
  have hkept := (hx s).kept
  rwa [after_ok h] at hkept

namespace Mirrors

theorem pure (a : α) : Mirrors K i j (pure a) (pure a) where
  left := .pure a
  right := .pure a
  run s t b s' h hs _ := by
    obtain ⟨rfl, rfl⟩ := pure_ok hs
    exact ⟨t, rfl, h⟩

theorem throw (d d' : Diagnostic) : Mirrors K i j (throw d : Compile α) (throw d') where
  left := .throw d
  right := .throw d'
  run _ _ _ _ _ hs _ := by cases hs

theorem bind {x y : Compile α} {f g : α → Compile β} (hx : Mirrors K i j x y)
    (hf : ∀ a, Mirrors K i j (f a) (g a)) : Mirrors K i j (x >>= f) (y >>= g) where
  left := hx.left.bind fun a => (hf a).left
  right := hx.right.bind fun a => (hf a).right
  run s t b s' h hs hK := by
    obtain ⟨a, s₁, hs₁, hs₂⟩ := bind_ok hs
    obtain ⟨t₁, ht₁, h₁⟩ := hx.run s t a s₁ h hs₁ ((hf a).left.covers hs₂ hK)
    obtain ⟨t₂, ht₂, h₂⟩ := (hf a).run s₁ t₁ b s' h₁ hs₂ hK
    refine ⟨t₂, ?_, h₂⟩
    rw [bind_apply, ht₁]
    exact ht₂

/-- A change of the code only. -/
theorem assemble {F G : Assembler → α × Assembler} (hl : Follows i (assemble F)) (hr : Follows j (assemble G))
    (hFG : ∀ R x y, Assembler.Paired R i j x y → (F x).1 = (G y).1 ∧ Assembler.Paired R i j (F x).2 (G y).2) :
    Mirrors K i j (Lowering.assemble F) (Lowering.assemble G) where
  left := hl
  right := hr
  run s t a s' h hs _ := by
    obtain ⟨hval, hcode⟩ := hFG _ _ _ h.code
    cases hs
    refine ⟨{ t with assembler := (G t.assembler).2 }, ?_, h.scopes, h.plain, h.agrees, hcode⟩
    rw [hval]
    rfl

theorem emit (F : ValueId → Inst) (hF : ∀ v dest g vs, F v ≠ .call dest g vs) :
    Mirrors K i j (Lowering.assemble (·.emit F)) (Lowering.assemble (·.emit F)) :=
  assemble (.of_effect fun s => .emit s F) (.of_effect fun s => .emit s F)
    fun _ _ _ h => h.emit fun v => .same _ (hF v)

theorem append (a : Inst) (ha : ∀ dest g vs, a ≠ .call dest g vs) :
    Mirrors K i j (assemble_ (·.append a)) (assemble_ (·.append a)) :=
  assemble (F := fun x => ((), x.append a)) (G := fun x => ((), x.append a)) (.of_effect fun s => .append s a)
    (.of_effect fun s => .append s a) fun _ _ _ h => ⟨rfl, h.append (.same a ha)⟩

theorem constant (c : Constant) : Mirrors K i j (constant c) (constant c) := emit _ fun _ _ _ _ h => (nomatch h)

theorem zero : Mirrors K i j zero zero := constant _

theorem param (index : Nat) : Mirrors K i j (param index) (param index) := emit _ fun _ _ _ _ h => (nomatch h)

theorem load (slot : SlotId) : Mirrors K i j (load slot) (load slot) := emit _ fun _ _ _ _ h => (nomatch h)

theorem primitive (op : Primitive) (v w : ValueId) : Mirrors K i j (primitive op v w) (primitive op v w) :=
  emit _ fun _ _ _ _ h => (nomatch h)

theorem truth (v : ValueId) : Mirrors K i j (truth v) (truth v) := zero.bind fun _ => primitive _ _ _

theorem store (slot : SlotId) (v : ValueId) : Mirrors K i j (store slot v) (store slot v) :=
  append _ fun _ _ _ h => (nomatch h)

theorem print (vs : List ValueId) : Mirrors K i j (print vs) (print vs) := append _ fun _ _ _ h => (nomatch h)

theorem close (c : Terminator) : Mirrors K i j (close c) (close c) :=
  assemble (F := fun x => ((), x.close c)) (G := fun x => ((), x.close c)) (close_follows c) (close_follows c)
    fun _ _ _ h => ⟨rfl, h.close c⟩

theorem moveTo (q : RegionId) : Mirrors K i j (moveTo ⟨i, q⟩) (moveTo ⟨j, q⟩) :=
  assemble (F := fun x => ((), x.moveTo ⟨i, q⟩)) (G := fun x => ((), x.moveTo ⟨j, q⟩)) (moveTo_follows q)
    (moveTo_follows q) fun _ _ _ h => ⟨rfl, h.moveTo q⟩

theorem reserve (q : RegionId) (name : String) : Mirrors K i j (reserve ⟨i, q⟩ name) (reserve ⟨j, q⟩ name) :=
  assemble (reserve_follows ⟨i, q⟩ name) (reserve_follows ⟨j, q⟩ name) fun _ _ _ h => h.reserve q name

/-- New regions have the same number in their functions. -/
theorem region {f g : Place → Compile α} (q : RegionId) (label : String)
    (hf : ∀ q, Mirrors K i j (f ⟨i, q⟩) (g ⟨j, q⟩)) :
    Mirrors K i j (region ⟨i, q⟩ label >>= f) (region ⟨j, q⟩ label >>= g) where
  left := @region_follows α ⟨i, q⟩ label f fun q => (hf q).left
  right := @region_follows α ⟨j, q⟩ label g fun q => (hf q).right
  run s t a s' h hs hK := by
    obtain ⟨q', hi, hj, hcode⟩ := h.code.addRegion label
    have h₁ : Parallel K i j { s with assembler := (s.assembler.addRegion i label).2 }
        { t with assembler := (t.assembler.addRegion j label).2 } := ⟨h.scopes, h.plain, h.agrees, hcode⟩
    have hs' : f (s.assembler.addRegion i label).1 { s with assembler := (s.assembler.addRegion i label).2 } =
        .ok a s' := hs
    rw [hi] at hs'
    obtain ⟨t', ht', h'⟩ := (hf q').run _ _ a s' h₁ hs' hK
    refine ⟨t', ?_, h'⟩
    show g (t.assembler.addRegion j label).1 { t with assembler := (t.assembler.addRegion j label).2 } = _
    rw [hj]
    exact ht'

theorem rescope (f : Scopes SlotId → Scopes SlotId) : Mirrors K i j (rescope f) (rescope f) where
  left := rescope_follows f
  right := rescope_follows f
  run s t a s' h hs _ := by
    cases hs
    exact ⟨_, rfl, congrArg f h.scopes, h.plain, h.agrees, h.code⟩

theorem inScope {x y : Compile α} (h : Mirrors K i j x y) : Mirrors K i j (inScope x) (inScope y) :=
  (rescope _).bind fun _ => h.bind fun a => (rescope _).bind fun _ => pure a

theorem slotOf (pos : Pos) (name : String) : Mirrors K i j (slotOf pos name) (slotOf pos name) where
  left := slotOf_follows pos name
  right := slotOf_follows pos name
  run s t a s' h hs _ := by
    unfold Lowering.slotOf at hs ⊢
    rw [← h.scopes]
    split at hs
    · cases hs
      exact ⟨t, rfl, h⟩
    · cases hs

/-- No operator function is defined, so there is no call of one to be mirrored. -/
theorem operatorCall (pos : Pos) (fixity : Fixity) {op : Char} (hop : Scan.isPunctuation op) (vs : List ValueId) :
    Mirrors K i j (operatorFunction pos fixity op >>= fun f => call f vs)
      (operatorFunction pos fixity op >>= fun f => call f vs) where
  left := (operatorFunction_follows pos fixity op).bind fun f => call_follows f vs
  right := (operatorFunction_follows pos fixity op).bind fun f => call_follows f vs
  run s t a s' h hs _ := by
    have hnone : s.registry.defined? (fixity.functionName op) = none := by
      rw [defined?, Option.map_eq_none_iff, Option.eq_none_iff_forall_ne_some]
      exact fun e he => not_plainName_functionName fixity hop (h.plain _ e he)
    obtain ⟨f, s₁, hf, -⟩ := bind_ok hs
    unfold operatorFunction at hf
    cases fixity with
    | unary =>
      change s.registry.defined? (unaryName op) = none at hnone
      simp only [hnone] at hf
      cases hf
    | binary =>
      change s.registry.defined? (binaryName op) = none at hnone
      simp only [hnone] at hf
      cases hf

theorem isClosed : Mirrors K i j isClosed isClosed where
  left := .of_same fun _ => rfl
  right := .of_same fun _ => rfl
  run s t a s' h hs _ := by
    cases hs
    exact ⟨t, congrArg (EStateM.Result.ok · t) h.code.isClosed.symm, h⟩

theorem closeAfter {x y : Compile Unit} (h : Mirrors K i j x y) (c : Terminator) :
    Mirrors K i j (closeAfter x c) (closeAfter y c) := by
  refine isClosed.bind fun closed => ?_
  cases closed with
  | true => exact pure ()
  | false => exact h.bind fun _ => close c

theorem deadRegion (q : RegionId) (label : String) :
    Mirrors K i j (deadRegion ⟨i, q⟩ label) (deadRegion ⟨j, q⟩ label) :=
  region q label fun q => moveTo q

theorem declare (q : RegionId) (name : String) (v : ValueId) :
    Mirrors K i j (declare ⟨i, q⟩ name v) (declare ⟨j, q⟩ name v) :=
  (reserve q name).bind fun _ => (store _ _).bind fun _ => rescope _

/-! ## Calls -/

/-- A call that succeeds in one session succeeds in the other. -/
theorem resolve (h : Parallel K i j s t) (pos : Pos) {name : String} {n : Nat} {g : FunctionId}
    (hs : Funclet.resolve pos name n s = .ok g s') (hK : Covers K.Knows s'.registry) :
    ∃ f t', Funclet.resolve pos name n t = .ok f t' ∧ Parallel K i j s' t' ∧ Counterpart K t'.registry g f := by
  have hg := hK name n g (knows_of_resolve hs)
  obtain ⟨f, t', ht, hagrees⟩ := resolve_agrees h.agrees hg pos
  obtain ⟨hsc, hdrafts, hcursor⟩ := resolve_code hs
  obtain ⟨hsc', hdrafts', hcursor'⟩ := resolve_code ht
  have hconf := (Kept.resolve hs).confirmed
  obtain ⟨D, E, r, hD, hE, hx, hy, hDE⟩ := h.code
  refine ⟨f, t', ht, ⟨?_, fun k e he => h.plain k e (hconf ▸ he), hagrees, D, E, r, ?_, ?_, ?_, ?_, ?_⟩, name, n, hg,
    knows_of_resolve ht⟩
  · rw [hsc, hsc', h.scopes]
  · rw [hdrafts, hD]
  · rw [hdrafts', hE]
  · rw [hcursor, hx]
  · rw [hcursor', hy]
  · exact hDE.mono fun _ _ => Counterpart.kept (.resolve ht)

/-- Calls of counterparts. -/
theorem callOf (pos : Pos) (name : String) (n : Nat) {x y : Compile (List ValueId)} (h : Mirrors K i j x y) :
    Mirrors K i j (Funclet.resolve pos name n >>= fun f => x >>= call f)
      (Funclet.resolve pos name n >>= fun f => y >>= call f) where
  left := (resolve_follows pos name n).bind fun f => h.left.bind fun vs => call_follows f vs
  right := (resolve_follows pos name n).bind fun f => h.right.bind fun vs => call_follows f vs
  run s t v s' hp hs hK := by
    obtain ⟨g, s₁, hs₁, hrest⟩ := bind_ok hs
    obtain ⟨vs, s₂, hs₂, hs₃⟩ := bind_ok hrest
    have hcall : Follows i (call g vs) := call_follows g vs
    have hK₂ := hcall.covers hs₃ hK
    obtain ⟨f, t₁, ht₁, hp₁, hgf⟩ := resolve hp pos hs₁ (h.left.covers hs₂ hK₂)
    obtain ⟨t₂, ht₂, hp₂⟩ := h.run s₁ t₁ vs s₂ hp₁ hs₂ hK₂
    have hgf₂ : Counterpart K t₂.registry g f := Counterpart.kept (h.right.kept ht₂) hgf
    obtain ⟨hv, hcode⟩ := hp₂.code.emit (F := (.call · g vs)) (G := (.call · f vs)) fun v => .call v vs hgf₂
    obtain ⟨rfl, rfl⟩ : (s₂.assembler.emit (.call · g vs)).1 = v ∧
        { s₂ with assembler := (s₂.assembler.emit (.call · g vs)).2 } = s' := by
      cases hs₃
      exact ⟨rfl, rfl⟩
    refine ⟨{ t₂ with assembler := (t₂.assembler.emit (.call · f vs)).2 }, ?_, hp₂.scopes, hp₂.plain, hp₂.agrees, hcode⟩
    rw [bind_apply, ht₁]
    dsimp only
    rw [bind_apply, ht₂, hv]
    rfl

end Mirrors

/-! ## Expressions -/

mutual

theorem lowerExpr_mirrors : ∀ e : Expr, e.Spelled → Mirrors K i j (lowerExpr ⟨i, 0⟩ e) (lowerExpr ⟨j, 0⟩ e)
  | .number _ _, _ => by
    rw [lowerExpr, lowerExpr]
    exact .constant _
  | .text _ _, _ => by
    rw [lowerExpr, lowerExpr]
    exact .constant _
  | .var _ _, _ => by
    rw [lowerExpr, lowerExpr]
    exact (Mirrors.slotOf _ _).bind fun _ => .load _
  | .unary _ _ e, h => by
    rw [lowerExpr, lowerExpr]
    exact (lowerExpr_mirrors e h.2).bind fun _ => .operatorCall _ _ h.1 _
  | .binary pos op l r, h => by
    by_cases hop : op = '='
    · subst hop
      by_cases hl : ∃ target name, l = .var target name
      · obtain ⟨target, name, rfl⟩ := hl
        rw [lowerExpr_assign, lowerExpr_assign]
        exact (lowerExpr_mirrors r h.2.2).bind fun _ =>
          (Mirrors.slotOf _ _).bind fun _ => (Mirrors.store _ _).bind fun _ => .pure _
      · rw [lowerExpr_badDestination _ pos r fun target name h => hl ⟨target, name, h⟩,
          lowerExpr_badDestination _ pos r fun target name h => hl ⟨target, name, h⟩]
        exact .throw _ _
    · rw [lowerExpr_binary _ pos l r hop, lowerExpr_binary _ pos l r hop]
      refine (lowerExpr_mirrors l h.2.1).bind fun _ => (lowerExpr_mirrors r h.2.2).bind fun _ => ?_
      split
      · exact .primitive _ _ _
      · exact .operatorCall _ _ h.1 _
  | .call _ _ args, h => by
    rw [lowerExpr, lowerExpr]
    exact .callOf _ _ _ (lowerExprs_mirrors args h)
  | .letIn _ bs e, h => by
    rw [lowerExpr, lowerExpr]
    exact ((lowerBindings_mirrors bs h.1).bind fun _ => lowerExpr_mirrors e h.2).inScope
termination_by structural e => e

theorem lowerExprs_mirrors : ∀ es : List Expr, spelledExprs es →
    Mirrors K i j (lowerExprs ⟨i, 0⟩ es) (lowerExprs ⟨j, 0⟩ es)
  | [], _ => by
    rw [lowerExprs, lowerExprs]
    exact .pure _
  | e :: es, h => by
    rw [lowerExprs, lowerExprs]
    exact (lowerExpr_mirrors e h.1).bind fun _ => (lowerExprs_mirrors es h.2).bind fun _ => .pure _
termination_by structural es => es

theorem lowerBindings_mirrors : ∀ bs : List Binding, spelledBindings bs →
    Mirrors K i j (lowerBindings ⟨i, 0⟩ bs) (lowerBindings ⟨j, 0⟩ bs)
  | [], _ => by
    rw [lowerBindings, lowerBindings]
    exact .pure _
  | ⟨_, _, none⟩ :: bs, h => by
    rw [lowerBindings, lowerBindings]
    exact Mirrors.zero.bind fun _ => (Mirrors.declare _ _ _).bind fun _ => lowerBindings_mirrors bs h
  | ⟨_, _, some e⟩ :: bs, h => by
    rw [lowerBindings, lowerBindings]
    exact (lowerExpr_mirrors e h.1).bind fun _ => (Mirrors.declare _ _ _).bind fun _ => lowerBindings_mirrors bs h.2
termination_by structural bs => bs

end

/-! ## Statements -/

theorem lowerTest_mirrors {test : Expr} (h : test.Spelled) (flag : SlotId) (yes no : RegionId) :
    Mirrors K i j (lowerTest ⟨i, 0⟩ test flag ⟨i, yes⟩ ⟨i, no⟩) (lowerTest ⟨j, 0⟩ test flag ⟨j, yes⟩ ⟨j, no⟩) :=
  (lowerExpr_mirrors test h).bind fun _ => (Mirrors.truth _).bind fun _ => (Mirrors.store _ _).bind fun _ =>
    (Mirrors.load _).bind fun _ => .close _

theorem lowerArm_mirrors {x y : Compile ValueId} (h : Mirrors K i j x y) (start merge : RegionId) (result : SlotId) :
    Mirrors K i j (lowerArm ⟨i, start⟩ result ⟨i, merge⟩ x) (lowerArm ⟨j, start⟩ result ⟨j, merge⟩ y) :=
  (Mirrors.moveTo _).bind fun _ => h.inScope.bind fun _ => (Mirrors.store _ _).closeAfter _

mutual

theorem lowerStmt_mirrors : ∀ (st : Stmt) (retest : Option RegionId), st.Spelled →
    Mirrors K i j (lowerStmt ⟨i, 0⟩ (retest.map (⟨i, ·⟩)) st) (lowerStmt ⟨j, 0⟩ (retest.map (⟨j, ·⟩)) st)
  | .assign _ _ e, retest, h => by
    rw [lowerStmt, lowerStmt]
    exact (lowerExpr_mirrors e h).bind fun _ => (Mirrors.slotOf _ _).bind fun _ =>
      (Mirrors.store _ _).bind fun _ => .pure _
  | .ret _ e, retest, h => by
    rw [lowerStmt, lowerStmt]
    exact (lowerExpr_mirrors e h).bind fun _ => (Mirrors.close _).bind fun _ =>
      (Mirrors.deadRegion _ _).bind fun _ => .pure _
  | .print _ items, retest, h => by
    rw [lowerStmt, lowerStmt]
    exact (lowerExprs_mirrors items h).bind fun _ => (Mirrors.print _).bind fun _ => .zero
  | .again _, none, _ => by
    rw [Option.map_none, Option.map_none, lowerStmt, lowerStmt]
    exact .throw _ _
  | .again _, some q, _ => by
    rw [Option.map_some, Option.map_some, lowerStmt, lowerStmt]
    exact (Mirrors.close _).bind fun _ => (Mirrors.deadRegion _ _).bind fun _ => .zero
  | .cond _ test yes none, retest, h => by
    rw [lowerStmt, lowerStmt]
    refine (lowerExpr_mirrors test h.1).bind fun _ => (Mirrors.truth _).bind fun _ =>
      (Mirrors.reserve _ _).bind fun _ => Mirrors.zero.bind fun _ => (Mirrors.store _ _).bind fun _ =>
      .region _ _ fun _ => .region _ _ fun _ => ?_
    exact (Mirrors.close _).bind fun _ => (lowerArm_mirrors (lowerStmt_mirrors yes retest h.2) _ _ _).bind fun _ =>
      (Mirrors.moveTo _).bind fun _ => .load _
  | .cond _ test yes (some no), retest, h => by
    rw [lowerStmt, lowerStmt]
    refine (lowerExpr_mirrors test h.1).bind fun _ => (Mirrors.truth _).bind fun _ =>
      (Mirrors.reserve _ _).bind fun _ => Mirrors.zero.bind fun _ => (Mirrors.store _ _).bind fun _ =>
      .region _ _ fun _ => .region _ _ fun _ => .region _ _ fun _ => ?_
    exact (Mirrors.close _).bind fun _ => (lowerArm_mirrors (lowerStmt_mirrors yes retest h.2.1) _ _ _).bind fun _ =>
      (lowerArm_mirrors (lowerStmt_mirrors no retest h.2.2) _ _ _).bind fun _ =>
      (Mirrors.moveTo _).bind fun _ => .load _
  | .loop _ test body, retest, h => by
    rw [lowerStmt, lowerStmt]
    refine (Mirrors.reserve _ _).bind fun _ => .region _ _ fun _ => .region _ _ fun again => .region _ _ fun _ =>
      (lowerTest_mirrors h.1 _ _ _).bind fun _ => (Mirrors.moveTo _).bind fun _ => ?_
    exact (lowerStmt_mirrors body (some again) h.2).inScope.bind fun _ => ((Mirrors.pure ()).closeAfter _).bind fun _ =>
      (Mirrors.moveTo _).bind fun _ => (lowerTest_mirrors h.1 _ _ _).bind fun _ =>
      (Mirrors.moveTo _).bind fun _ => .zero
  | .block _ declared body, retest, h => by
    rw [lowerStmt, lowerStmt]
    refine ((lowerBindings_mirrors declared h.1).bind fun _ => lowerStmts_mirrors body retest h.2).inScope.bind
      fun last => ?_
    cases last with
    | none => exact .zero
    | some v => exact .pure v
  | .letIn _ bs body, retest, h => by
    rw [lowerStmt, lowerStmt]
    exact ((lowerBindings_mirrors bs h.1).bind fun _ => lowerStmt_mirrors body retest h.2).inScope
termination_by structural st => st

theorem lowerStmts_mirrors : ∀ (sts : List Stmt) (retest : Option RegionId), spelledStmts sts →
    Mirrors K i j (lowerStmts ⟨i, 0⟩ (retest.map (⟨i, ·⟩)) sts) (lowerStmts ⟨j, 0⟩ (retest.map (⟨j, ·⟩)) sts)
  | [], retest, _ => by
    rw [lowerStmts, lowerStmts]
    exact .pure _
  | st :: sts, retest, h => by
    rw [lowerStmts, lowerStmts]
    exact (lowerStmt_mirrors st retest h.1).bind fun _ => (lowerStmts_mirrors sts retest h.2).bind fun _ => .pure _
termination_by structural sts => sts

end

theorem lowerParams_mirrors (names : List String) :
    ∀ index, Mirrors K i j (lowerParams ⟨i, 0⟩ index names) (lowerParams ⟨j, 0⟩ index names) := by
  induction names with
  | nil => exact fun _ => .pure _
  | cons name names ih =>
    exact fun index => (Mirrors.reserve _ _).bind fun _ => (Mirrors.param _).bind fun _ =>
      (Mirrors.store _ _).bind fun _ => (Mirrors.rescope _).bind fun _ => ih (index + 1)

theorem lowerCode_mirrors {f : Function} (h : f.body.Spelled) :
    Mirrors K i j (lowerCode f ⟨i, 0⟩) (lowerCode f ⟨j, 0⟩) :=
  Mirrors.inScope <| (lowerParams_mirrors _ 0).bind fun _ => (lowerStmt_mirrors f.body none h).bind fun _ =>
    (Mirrors.pure ()).closeAfter _

end Lowering

end Funclet
