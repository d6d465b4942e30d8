import Funclet.Proofs.Accepted
import Funclet.Proofs.Lowering.Finished
import Funclet.Proofs.Lowering.Mirroring

/-!
# The order of definitions

* `lowerFunction_mirrored` : a function that can be lowered in one session can be lowered in another one that agrees
  with it on numbers of parameters, and has the same code there, up to the numbers of functions;
* `Lowered K f b` : all that has to be remembered of a function that has been lowered in the first order;
* `Echoes K first t done` : a session of the second order, in which `done` have been compiled;
* `Echoes.lowered`, `Echoes.compileFunctions` : kept by a function, and by all of them;
* `Echoes.program` : in the end the programs are alike;
* `ofFunctions_perm` : so the order of definitions does not matter.
-/

namespace Funclet

open Lowering Registry

/-! ## One function -/

/-- A function with a plain name is enrolled where calls agree with it. -/
theorem enroll_agrees {K : Registry} {p : Prototype} (hkind : p.kind = .plain) {t : Session} {g : FunctionId}
    (hl : Linked t.registry t.assembler) (hagrees : Agrees K t.registry) (hk : K.Knows p.name p.arity g)
    (hnew : t.registry.confirmed.get? p.name = none) :
    ∃ o t', enroll p t = .ok o t' ∧ Agrees K t'.registry := by
  have hfix : ((fixity? p.kind).filter fun f => f.arity ≠ p.arity) = none := by
    rw [hkind]
    rfl
  have hcontains : t.registry.confirmed.contains p.name = false := by
    rw [OrderedMap.contains, hnew]
    rfl
  have hpending : ((t.registry.pending.get? p.name).filter fun e => e.proto.arity ≠ p.arity) = none := by
    cases he : t.registry.pending.get? p.name with
    | none => rfl
    | some e =>
      obtain ⟨g', hg'⟩ := hagrees.known p.name e.proto.arity e.id ⟨e, hl.find?_of_pending he, rfl, rfl⟩
      simp [(hk.unique hg').1]
  have hok : ∃ o t', enroll p t = .ok o t' := by
    unfold enroll Registry.enroll
    rw [hfix]
    dsimp only
    rw [hcontains, if_neg Bool.false_ne_true, hpending]
    dsimp only
    rw [hagrees.settleEntry hk]
    exact ⟨_, _, rfl⟩
  obtain ⟨o, t', he⟩ := hok
  obtain ⟨-, -, -, hreg, -⟩ := enroll_ok he
  refine ⟨o, t', he, hagrees.sighted hk (by rw [hreg]) (by rw [hreg]) fun k e hfind => ?_⟩
  rw [hreg, find?_confirm] at hfind
  split at hfind
  · rename_i hname
    cases hfind
    exact Or.inl ⟨hname.symm, rfl⟩
  · exact Or.inr hfind

/-- Where two sessions have enrolled a function, they begin its code in the same way. -/
theorem parallel_begun {K : Registry} {f : Function} (hf : f.Spelled) (hkind : f.proto.kind = .plain)
    {s s₁ t t₁ : Session} {o o' : Opening} (hs : s.Orderly) (hplain : s.registry.Plain)
    (he : enroll f.proto { s with scopes := .empty } = .ok o s₁) (ht : t.Orderly)
    (he' : enroll f.proto { t with scopes := .empty } = .ok o' t₁) (hagrees : Agrees K t₁.registry) :
    Parallel K o.id o'.id (begun o.id (opened f s₁)) (begun o'.id (opened f t₁)) := by
  obtain ⟨-, -, -, hreg, -, -, hsc, -⟩ := enroll_ok he
  obtain ⟨-, -, -, -, -, -, hsc', -⟩ := enroll_ok he'
  obtain ⟨D, hw, -, -, -, hname, -, -, rfl⟩ := begun_writing hs.linked hs.idle he
  obtain ⟨E, hw', -, -, -, hname', -, -, rfl⟩ := begun_writing ht.linked ht.idle he'
  have hplain₁ : s₁.registry.Plain := by
    intro name e hname
    rw [hreg, OrderedMap.get?_insert] at hname
    split at hname
    · rename_i hn
      have hnamed := hf.named
      rw [Prototype.WellNamed, hkind] at hnamed
      rwa [← hn]
    · exact hplain name e hname
  have hnew : Body.Alike (Counterpart K t₁.registry) (s₁.assembler.newBody o.id) (t₁.assembler.newBody o'.id) :=
    ⟨hname.trans hname'.symm, rfl, rfl, fun _ => .none⟩
  exact ⟨hsc.trans hsc'.symm, hplain₁, hagrees, _, _, 0, hw.draft, hw'.draft, hw.cursor, hw'.cursor,
    hnew.addRegion "entry"⟩

theorem lowerFunction_mirrored {K : Registry} {f : Function} (hf : f.Spelled) (hkind : f.proto.kind = .plain)
    {s s' t : Session} {b : Body} (hs : s.Orderly) (hplain : s.registry.Plain) (h : lowerFunction f s = .ok b s')
    (hK : Covers K.Knows s'.registry) (ht : t.Orderly) (hagrees : Agrees K t.registry)
    (hnew : t.registry.confirmed.get? f.proto.name = none) :
    ∃ c t', lowerFunction f t = .ok c t' ∧ Agrees K t'.registry ∧ b.Alike (Counterpart K t'.registry) c := by
  obtain ⟨o, s₁, u, he, hu, hcode, hfin, rfl⟩ := lowerFunction_ok h
  have hself : s₁.registry.Knows f.proto.name f.proto.arity o.id := knows_of_enroll he
  have hk : K.Knows f.proto.name f.proto.arity o.id := hK _ _ _ ((kept_opened hu).knows hself)
  obtain ⟨o', t₁, he', hagrees₁⟩ := enroll_agrees (t := { t with scopes := .empty }) hkind ht.linked hagrees hk hnew
  have hparallel := parallel_begun hf hkind hs hplain he ht he' hagrees₁
  obtain ⟨-, -, -, -, -, -, -, hentry, -⟩ := begun_writing hs.linked hs.idle he
  obtain ⟨-, -, -, -, -, -, -, hentry', -⟩ := begun_writing ht.linked ht.idle he'
  rw [hentry] at hcode
  obtain ⟨u', hcode', hparallel'⟩ := (lowerCode_mirrors hf.body).run _ _ () u hparallel hcode hK
  have hbody : lowerBody f o'.id (opened f t₁) = finish f.proto.pos o'.id u' := by
    rw [lowerBody_eq, hentry', bind_apply, hcode']
  have hlower := lowerFunction_eq he'
  rw [hbody] at hlower
  cases hfin' : finish f.proto.pos o'.id u' with
  | error d t₂ =>
    rw [hfin'] at hlower
    -- No region of the second body is open either, as no lowered body has one.
    simp only [finish] at hfin'
    split at hfin'
    · cases hfin'
    · cases hfin'
      exact absurd rfl (lowerFunction_cause ht.linked ht.idle hlower _)
  | ok c t₂ =>
    obtain ⟨hc, rfl⟩ := finish_ok hfin'
    refine ⟨c, Session.note { u' with assembler := u'.assembler.discard o'.id }
      (.functionLowered f.proto.name c.regions.size), ?_, hparallel'.agrees, ?_⟩
    · rw [hlower, hfin']
    · obtain ⟨D', E', -, hD', hE', -, -, hDE⟩ := hparallel'.code
      obtain ⟨n, rfl, -⟩ := finished_ok hD' hfin
      obtain ⟨m, rfl, -⟩ := finished_ok hE' hc
      exact ⟨hDE.name, hDE.slots, hDE.values, hDE.regions⟩

/-! ## The first order -/

/-- The function `f` has become `b` in some session, and `K` knows all that was known then. -/
def Lowered (K : Registry) (f : Function) (b : Body) : Prop :=
  ∃ s s', s.Orderly ∧ s.registry.Plain ∧ lowerFunction f s = .ok b s' ∧ Covers K.Knows s'.registry

namespace Session

variable {s t : Session} {done : List (Function × Body)}

theorem Settled.plain (h : s.Settled done) (hkind : ∀ f ∈ done.map Prod.fst, f.proto.kind = .plain) :
    s.registry.Plain := by
  intro name e he
  obtain ⟨hname, hnamed, -⟩ := h.fitting name e he
  obtain ⟨f, b, hm, -, rfl⟩ := (h.defined name e).1 he
  rw [Prototype.WellNamed, hkind f (List.mem_map_of_mem hm)] at hnamed
  rwa [← hname]

theorem compileFunctions_diagnostics_ne_nil (fs : List Function) :
    ∀ s : Session, s.diagnostics ≠ [] → (s.compileFunctions fs).2.diagnostics ≠ [] := by
  induction fs with
  | nil => exact fun s h => h
  | cons f fs ih => exact fun s h => ih _ (compileFunction_diagnostics_ne_nil h f)

/-- If nothing goes wrong, every function is lowered. -/
theorem compileFunctions_accepted (fs : List Function) : ∀ (s : Session) (done : List (Function × Body)),
    s.Settled done → (∀ f ∈ done.map Prod.fst ++ fs, f.proto.kind = .plain) → (∀ f ∈ fs, f.Spelled) →
    (s.compileFunctions fs).2.diagnostics = [] →
    ∃ more, (s.compileFunctions fs).2.Settled (done ++ more) ∧ more.map Prod.snd = (s.compileFunctions fs).1 ∧
      more.map Prod.fst = fs ∧ (s.compileFunctions fs).2.strict = s.strict ∧
      (s.compileFunctions fs).2.registry.entry = s.registry.entry ∧
      Covers (s.compileFunctions fs).2.registry.Knows s.registry ∧
      ∀ c ∈ more, Lowered (s.compileFunctions fs).2.registry c.1 c.2 := by
  induction fs with
  | nil =>
    intro s done h _ _ _
    refine ⟨[], ?_, rfl, rfl, rfl, rfl, fun _ _ _ hk => hk, fun c hc => (nomatch hc)⟩
    rwa [List.append_nil]
  | cons f fs ih =>
    intro s done h hkind hf hdiag
    simp only [compileFunctions, compileFunction] at hdiag ⊢
    cases hl : lowerFunction f s with
    | error d s' =>
      rw [hl] at hdiag
      exact absurd hdiag (compileFunctions_diagnostics_ne_nil fs _ (diagnostics_report_ne_nil s' d))
    | ok body s' =>
      rw [hl] at hdiag
      have hspelled := hf f List.mem_cons_self
      have hplain := h.plain fun g hg => hkind g (List.mem_append_left _ hg)
      have hc := lowerFunction_compiled h.orderly.linked h.orderly.idle h.fitting hspelled hl
      obtain ⟨hstrict, -, hentry, -⟩ := lowerFunction_settings hl
      obtain ⟨more, hs, hsnd, hfst, hstrict', hentry', hcovers, hlowered⟩ :=
        ih s' (done ++ [(f, body)]) (h.lowered hspelled hl) (by simpa using hkind)
          (fun g hg => hf g (List.mem_cons_of_mem f hg)) hdiag
      refine ⟨(f, body) :: more, ?_, congrArg _ hsnd, congrArg _ hfst, hstrict'.trans hstrict, hentry'.trans hentry,
        fun name n g hk => hcovers name n g (hc.known name n g hk), fun c hcm => ?_⟩
      · rwa [List.append_assoc] at hs
      · rcases List.mem_cons.1 hcm with rfl | hcm
        · exact ⟨s, s', h.orderly, hplain, hl, hcovers⟩
        · exact hlowered c hcm

end Session

/-! ## The second order -/

/-- The functions `done` of `t` are some of those that have been lowered in the first order, and have the same code. -/
structure Echoes (K : Registry) (first : List (Function × Body)) (t : Session) (done : List (Function × Body)) :
    Prop where
  settled : t.Settled done
  agrees : Agrees K t.registry
  alike : ∀ c ∈ done, ∃ b, (c.1, b) ∈ first ∧ b.Alike (Counterpart K t.registry) c.2
  diagnostics : t.diagnostics = []

namespace Echoes

variable {K : Registry} {first done : List (Function × Body)} {t : Session}

theorem lowered (h : Echoes K first t done) {f : Function} {b : Body} (hb : (f, b) ∈ first) (hlowered : Lowered K f b)
    (hf : f.Spelled) (hkind : f.proto.kind = .plain) (hnew : f.proto.name ∉ done.map fun c => c.1.proto.name) :
    ∃ c t', lowerFunction f t = .ok c t' ∧ Echoes K first t' (done ++ [(f, c)]) := by
  obtain ⟨s, s', hs, hplain, hl, hK⟩ := hlowered
  have hfresh : t.registry.confirmed.get? f.proto.name = none := by
    rw [Option.eq_none_iff_forall_ne_some]
    intro e he
    obtain ⟨g, c, hm, hname, -⟩ := (h.settled.defined _ e).1 he
    exact hnew (hname ▸ List.mem_map_of_mem (f := fun c => c.1.proto.name) hm)
  obtain ⟨c, t', hl', hagrees, halike⟩ :=
    lowerFunction_mirrored hf hkind hs hplain hl hK h.settled.orderly h.agrees hfresh
  obtain ⟨-, -, -, hdiag⟩ := lowerFunction_settings hl'
  have hknown := (lowerFunction_compiled h.settled.orderly.linked h.settled.orderly.idle h.settled.fitting hf hl').known
  refine ⟨c, t', hl', h.settled.lowered hf hl', hagrees, fun x hx => ?_, hdiag.trans h.diagnostics⟩
  rcases List.mem_append.1 hx with hx | hx
  · obtain ⟨b', hb', hx'⟩ := h.alike x hx
    refine ⟨b', hb', hx'.mono ?_⟩
    rintro g g' ⟨name, n, hg, hg'⟩
    exact ⟨name, n, hg, hknown name n g' hg'⟩
  · obtain rfl := List.mem_singleton.1 hx
    exact ⟨b, hb, halike⟩

theorem compileFunctions (gs : List Function) : ∀ (t : Session) (done : List (Function × Body)),
    Echoes K first t done → (∀ g ∈ gs, ∃ b, (g, b) ∈ first ∧ Lowered K g b) → (∀ g ∈ gs, g.Spelled) →
    (∀ g ∈ gs, g.proto.kind = .plain) → ((done.map Prod.fst ++ gs).map fun g => g.proto.name).Nodup →
    ∃ more, Echoes K first (t.compileFunctions gs).2 (done ++ more) ∧ more.map Prod.snd = (t.compileFunctions gs).1 ∧
      more.map Prod.fst = gs ∧ (t.compileFunctions gs).2.strict = t.strict ∧
      (t.compileFunctions gs).2.registry.entry = t.registry.entry := by
  induction gs with
  | nil =>
    intro t done h _ _ _ _
    refine ⟨[], ?_, rfl, rfl, rfl, rfl⟩
    rwa [List.append_nil]
  | cons g gs ih =>
    intro t done h hfirst hspelled hkind hnodup
    obtain ⟨b, hb, hlowered⟩ := hfirst g List.mem_cons_self
    have hnew : g.proto.name ∉ done.map fun c => c.1.proto.name := by
      intro hmem
      rw [List.map_append, List.nodup_append] at hnodup
      refine hnodup.2.2 g.proto.name ?_ g.proto.name List.mem_cons_self rfl
      rwa [List.map_map]
    obtain ⟨c, t', hl, h'⟩ := h.lowered hb hlowered (hspelled g List.mem_cons_self) (hkind g List.mem_cons_self) hnew
    obtain ⟨hstrict, -, hentry, -⟩ := lowerFunction_settings hl
    obtain ⟨more, hmore, hsnd, hfst, hstrict', hentry'⟩ := ih t' (done ++ [(g, c)]) h'
      (fun f hf => hfirst f (List.mem_cons_of_mem g hf)) (fun f hf => hspelled f (List.mem_cons_of_mem g hf))
      (fun f hf => hkind f (List.mem_cons_of_mem g hf)) (by simpa using hnodup)
    simp only [Session.compileFunctions, Session.compileFunction, hl]
    refine ⟨(g, c) :: more, ?_, congrArg _ hsnd, congrArg _ hfst, hstrict'.trans hstrict, hentry'.trans hentry⟩
    rwa [List.append_assoc] at hmore

end Echoes

/-! ## Programs -/

namespace Session

variable {s t : Session} {done : List (Function × Body)}

/-- If the session waits for nothing, what it knows has been compiled. -/
theorem Settled.mem_of_knows (h : s.Settled done) (hpending : ∀ name, s.registry.pending.get? name = none)
    {name : String} {n : Nat} {g : FunctionId} (hk : s.registry.Knows name n g) :
    ∃ f b, (f, b) ∈ done ∧ f.proto.name = name ∧ b.id = g := by
  by_contra hnone
  push Not at hnone
  have hname (f : Function) (b : Body) (hm : (f, b) ∈ done) : f.proto.name ≠ name := by
    rintro rfl
    exact hnone f b hm rfl ((h.knows hm).unique hk).2
  obtain ⟨e, he⟩ := h.pending_of_knows hk hname
  rw [hpending name] at he
  cases he

/-- A strict session that waits for nothing has nothing more to report. -/
theorem Settled.diagnostics_conclude_of_pending (h : s.Settled done) (hstrict : s.strict = true)
    (hpending : ∀ name, s.registry.pending.get? name = none) : s.conclude.diagnostics = s.diagnostics := by
  have hnames : s.registry.unresolved.map Prototype.name = [] := by
    rw [List.eq_nil_iff_forall_not_mem]
    intro name hname
    obtain ⟨e, he⟩ := (h.unresolved.2 name).1 hname
    rw [hpending name] at he
    cases he
  rw [diagnostics_conclude hstrict, List.map_eq_nil_iff.1 hnames, List.map_nil, List.append_nil]

theorem Settled.entry_eq_none_iff (h : s.Settled done) (entry : String) :
    (s.assembler.link (done.map Prod.snd) entry).entry = none ↔ ∀ f ∈ done.map Prod.fst, f.proto.name ≠ entry := by
  change ((done.map Prod.snd).find? fun b => b.name = entry).map Body.id = none ↔ _
  rw [Option.map_eq_none_iff, List.find?_eq_none]
  simp only [decide_eq_true_eq, List.forall_mem_map]
  constructor
  · intro hb c hc hname
    exact hb c hc ((h.header c.1 c.2 hc).1.trans hname)
  · intro hf c hc hname
    exact hf c hc ((h.header c.1 c.2 hc).1.symm.trans hname)

end Session

section Orders

variable {s t : Session} {first done : List (Function × Body)}

/-- Where both orders are complete, their programs are alike. -/
theorem Echoes.program (h : Echoes s.registry first t done) (hs : s.Settled first)
    (hfst : (first.map Prod.fst).Perm (done.map Prod.fst)) (hpending : ∀ name, s.registry.pending.get? name = none)
    (hpending' : ∀ name, t.registry.pending.get? name = none) (entry : String) :
    Program.Alike (Counterpart s.registry t.registry) (s.assembler.link (first.map Prod.snd) entry)
      (t.assembler.link (done.map Prod.snd) entry) := by
  constructor
  · cases hp : (s.assembler.link (first.map Prod.snd) entry).entry with
    | none =>
      rw [hs.entry_eq_none_iff] at hp
      have hq : (t.assembler.link (done.map Prod.snd) entry).entry = none := by
        rw [h.settled.entry_eq_none_iff]
        exact fun f hf => hp f (hfst.mem_iff.2 hf)
      rw [hq]
      exact .none
    | some g =>
      cases hq : (t.assembler.link (done.map Prod.snd) entry).entry with
      | none =>
        rw [h.settled.entry_eq_none_iff] at hq
        have hp' : (s.assembler.link (first.map Prod.snd) entry).entry = none := by
          rw [hs.entry_eq_none_iff]
          exact fun f hf => hq f (hfst.mem_iff.1 hf)
        rw [hp] at hp'
        cases hp'
      | some g' =>
        obtain ⟨b, -, hb⟩ := hs.entry hp
        obtain ⟨c, -, hc⟩ := h.settled.entry hq
        obtain ⟨g'', hc'⟩ := h.agrees.known _ _ _ hc
        obtain ⟨hn, -⟩ := hb.unique hc'
        exact .some ⟨entry, b.params, hb, hn ▸ hc⟩
  · rintro g g' ⟨name, n, hg, hg'⟩
    obtain ⟨f, b, hb, hf, rfl⟩ := hs.mem_of_knows hpending hg
    obtain ⟨f', c, hc, hf', rfl⟩ := h.settled.mem_of_knows hpending' hg'
    obtain ⟨b', hb', halike⟩ := h.alike (f', c) hc
    obtain ⟨rfl, rfl⟩ : f = f' ∧ b = b' :=
      Prod.mk.inj (List.inj_on_of_nodup_map hs.distinct hb hb' (hf.trans hf'.symm))
    refine ⟨b, c, hs.body? entry hb, h.settled.body? entry hc, ?_, halike⟩
    rw [(hs.header f b hb).2, (h.settled.header f c hc).2]

theorem echoes_initial (K : Registry) (first : List (Function × Body)) (entry : String) (strict : Bool) :
    Echoes K first (.initial entry strict) [] where
  settled := Session.settled_initial entry strict
  agrees := ⟨fun _ _ _ ⟨_, h, _⟩ => (nomatch h), fun _ h => (nomatch h)⟩
  alike := fun _ h => (nomatch h)
  diagnostics := rfl

/-- A session that echoes a complete one is complete. -/
theorem Echoes.pending_none (h : Echoes s.registry first t done) (hs : s.Settled first)
    (hfst : (first.map Prod.fst).Perm (done.map Prod.fst)) (hpending : ∀ name, s.registry.pending.get? name = none)
    (name : String) : t.registry.pending.get? name = none := by
  cases he : t.registry.pending.get? name with
  | none => rfl
  | some e =>
    have hl := h.settled.orderly.linked
    obtain ⟨g, hg⟩ := h.agrees.known name e.proto.arity e.id ⟨e, hl.find?_of_pending he, rfl, rfl⟩
    obtain ⟨f, b, hb, rfl, -⟩ := hs.mem_of_knows hpending hg
    obtain ⟨⟨f, c⟩, hc, rfl⟩ := List.mem_map.1 (hfst.mem_iff.1 (List.mem_map_of_mem hb))
    rw [hl.apart _ _ ((h.settled.defined _ _).2 ⟨f, c, hc, rfl, rfl⟩)] at he
    cases he

end Orders

/-- If a strict session compiles functions without any diagnostics, a session that is given them in another order echoes
it, and both are complete. -/
theorem compileFunctions_echoes {fs gs : List Function} (hperm : fs.Perm gs) (hspelled : ∀ f ∈ fs, f.Spelled)
    (hkind : ∀ f ∈ fs, f.proto.kind = .plain) {entry : String}
    (hok : ((Session.initial entry true).compileFunctions fs).2.conclude.diagnostics = []) :
    let S := (Session.initial entry true).compileFunctions fs
    let T := (Session.initial entry true).compileFunctions gs
    ∃ first done, S.2.Settled first ∧ Echoes S.2.registry first T.2 done ∧ first.map Prod.snd = S.1 ∧
      done.map Prod.snd = T.1 ∧ first.map Prod.fst = fs ∧ done.map Prod.fst = gs ∧
      S.2.registry.entry = entry ∧ T.2.registry.entry = entry ∧ T.2.strict = true ∧
      ∀ name, S.2.registry.pending.get? name = none := by
  intro S T
  obtain ⟨first, hs, hsnd, hfst, hstrict, hentry, -, hlowered⟩ :=
    Session.compileFunctions_accepted fs (.initial entry true) [] (Session.settled_initial entry true) hkind hspelled
      (Session.diagnostics_of_conclude hok)
  rw [List.nil_append] at hs
  have hnames : (gs.map fun g => g.proto.name).Nodup := by
    rw [← (hperm.map _).nodup_iff, ← hfst, List.map_map]
    exact hs.distinct
  have hlowered' (g : Function) (hg : g ∈ gs) : ∃ b, (g, b) ∈ first ∧ Lowered S.2.registry g b := by
    rw [← hperm.mem_iff, ← hfst] at hg
    obtain ⟨c, hc, rfl⟩ := List.mem_map.1 hg
    exact ⟨c.2, hc, hlowered c hc⟩
  obtain ⟨done, h, hsnd', hfst', hstrict', hentry'⟩ :=
    Echoes.compileFunctions gs (.initial entry true) [] (echoes_initial S.2.registry first entry true) hlowered'
      (fun g hg => hspelled g (hperm.mem_iff.2 hg)) (fun g hg => hkind g (hperm.mem_iff.2 hg)) hnames
  rw [List.nil_append] at h
  exact ⟨first, done, hs, h, hsnd, hsnd', hfst, hfst', hentry, hentry', hstrict', hs.pending_none hstrict hok⟩

theorem program_ofFunctions {entry : String} {strict : Bool} {fs : List Function}
    (h : ((Session.initial entry strict).compileFunctions fs).2.registry.entry = entry) :
    (Compilation.ofFunctions entry strict fs).program =
      ((Session.initial entry strict).compileFunctions fs).2.assembler.link
        ((Session.initial entry strict).compileFunctions fs).1 entry :=
  (Session.program_conclude _ _).trans (congrArg _ h)

/-- If nothing is wrong with functions that have been read, in a strict session and none of them for an operator, then
nothing is wrong with them in any other order, each of them has a body there, and the entry function runs in the same
way: from any machine it comes to the same result or error, after as many steps and with the same output. -/
theorem ofFunctions_perm {fs gs : List Function} (hperm : fs.Perm gs) (hread : ∀ f ∈ fs, Grammar.Produced f)
    (hkind : ∀ f ∈ fs, f.proto.kind = .plain) {entry : String}
    (hok : (Compilation.ofFunctions entry true fs).diagnostics = []) :
    (Compilation.ofFunctions entry true gs).diagnostics = [] ∧
      (Compilation.ofFunctions entry true gs).bodies.map Body.name = gs.map (fun f => f.proto.name) ∧
      ∀ (limits : Limits) (name : String) (args : List Value),
        Machine.runEntry (Compilation.ofFunctions entry true gs).program limits name args =
          Machine.runEntry (Compilation.ofFunctions entry true fs).program limits name args := by
  obtain ⟨first, done, hs, h, hsnd, hsnd', hfst, hfst', hentry, hentry', hstrict', hpending⟩ :=
    compileFunctions_echoes hperm (fun f hf => (hread f hf).spelled) hkind hok
  have hboth : (first.map Prod.fst).Perm (done.map Prod.fst) := by
    rw [hfst, hfst']
    exact hperm
  have hpending' := h.pending_none hs hboth hpending
  refine ⟨?_, ?_, fun limits name args => ?_⟩
  · exact (h.settled.diagnostics_conclude_of_pending hstrict' hpending').trans h.diagnostics
  · change ((Session.initial entry true).compileFunctions gs).1.map Body.name = _
    rw [← hsnd', ← hfst', List.map_map, List.map_map]
    exact List.map_congr_left fun c hc => (h.settled.header c.1 c.2 hc).1
  · rw [program_ofFunctions hentry, program_ofFunctions hentry', ← hsnd, ← hsnd']
    exact (Machine.runEntry_alike (h.program hs hboth hpending hpending' entry) limits name args).symm

/-- Two functions that call each other, behind the entry function that calls one of them, and the other way round. -/
theorem ofFunctions_perm_reverse :
    let fs := (Grammar.readSource true ("FUNC main(n) RETURN even(n) " ++
      "FUNC even(n) IF n THEN RETURN odd(n - 1) ELSE RETURN 1 FI " ++
      "FUNC odd(n) IF n THEN RETURN even(n - 1) ELSE RETURN 0 FI")).functions
    let c := Compilation.ofFunctions "main" true fs
    let d := Compilation.ofFunctions "main" true fs.reverse
    fs.map (fun f => (f.proto.name, f.proto.kind)) = [("main", .plain), ("even", .plain), ("odd", .plain)] ∧
      c.diagnostics = [] ∧ c.program.entry = some 0 ∧ d.program.entry = some 2 ∧ d.diagnostics = [] ∧
      d.bodies.map Body.name = ["odd", "even", "main"] ∧
      ∀ limits args, Machine.runEntry d.program limits "main" args = Machine.runEntry c.program limits "main" args := by
  intro fs c d
  have hnames : fs.map (fun f => (f.proto.name, f.proto.kind)) =
      [("main", .plain), ("even", .plain), ("odd", .plain)] := by
    decide +kernel +zetaReduce
  have hok : c.diagnostics = [] := by
    decide +kernel +zetaReduce
  have hentries : c.program.entry = some 0 ∧ d.program.entry = some 2 := by
    decide +kernel +zetaReduce
  have hkind (f : Function) (hf : f ∈ fs) : f.proto.kind = .plain := by
    have hmem := List.mem_map_of_mem (f := fun f : Function => (f.proto.name, f.proto.kind)) hf
    rw [hnames] at hmem
    simp only [List.mem_cons, Prod.mk.injEq, List.not_mem_nil, or_false] at hmem
    rcases hmem with ⟨-, h⟩ | ⟨-, h⟩ | ⟨-, h⟩ <;> exact h
  obtain ⟨hok', hbodies, hrun⟩ := ofFunctions_perm (List.reverse_perm fs).symm
    (fun f hf => Grammar.produced_of_readSource hf) hkind hok
  have hreversed : fs.reverse.map (fun f => f.proto.name) = ["odd", "even", "main"] := by
    decide +kernel +zetaReduce
  exact ⟨hnames, hok, hentries.1, hentries.2, hok', hbodies.trans hreversed, fun limits args => hrun limits "main" args⟩

end Funclet
