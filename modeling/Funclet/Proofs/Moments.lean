import Funclet.Proofs.Lowering.Outcome

/-!
# The moments of a session

* `Moment` : a session while a function is lowered or between two functions, with the bodies there are and with what
  definitions and calls have been told so far;
* `Moment.Next` : what can come next: a definition begins, code is written, something is called, and the definition is
  finished or taken back; `Moment.Run` : any number of such steps;
* `Registry.Settles` : what is known about the entry function is what it is registered with;
* `Assembler.Constructs a o` : only the function of the definition `o` is under construction;
* `Moment.Sound` : the registry, the declarations, the code and the bodies agree (`Sound.next`, `Sound.run`).
-/

namespace Funclet

open Lowering

/-! ## The entry function -/

/-- What is known about the entry function is the number of parameters that it is registered with. -/
def Registry.Settles (r : Registry) : Prop := ∀ e, r.find? r.entry = some e → r.entryArity = some e.proto.arity

namespace Registry.Settles

variable {r r' : Registry} {p : Prototype} {s s' : Session}

theorem empty (entry : String) : (Registry.empty entry).Settles := fun _ h => by cases h

theorem resolve {pos : Pos} {name : String} {n : Nat} {id : FunctionId} (h : s.registry.Settles)
    (hr : Funclet.resolve pos name n s = .ok id s') : s'.registry.Settles := by
  rcases resolve_ok hr with ⟨rfl, -⟩ | ⟨hnone, -, -, hreg, -⟩
  · exact h
  · intro e he
    rw [hreg] at he ⊢
    rw [find?_expect _ _ _ _ hnone] at he
    change s.registry.sighted name n = _
    unfold sighted
    by_cases hn : name = s.registry.entry
    · rw [if_pos hn] at he ⊢
      cases he
      rw [Prototype.arity_placeholder]
    · rw [if_neg hn] at he ⊢
      exact h e he

theorem enroll {o : Opening} (h : s.registry.Settles) (he : Funclet.enroll p s = .ok o s') : s'.registry.Settles := by
  obtain ⟨-, -, -, hreg, -⟩ := Funclet.enroll_ok he
  intro e hf
  rw [hreg] at hf ⊢
  rw [find?_confirm] at hf
  change s.registry.sighted p.name p.arity = _
  unfold sighted
  by_cases hn : p.name = s.registry.entry
  · rw [if_pos hn] at hf ⊢
    cases hf
    rfl
  · rw [if_neg hn] at hf ⊢
    exact h e hf

/-- A definition of the entry function that is taken back agrees with the calls of it. -/
theorem reverted (h : r.Settles) (hp : r.enroll p = .ok r') : (r.reverted p).Settles := by
  obtain ⟨-, hconf, hpend, -⟩ := Registry.enroll_ok hp
  intro e he
  rw [find?_reverted] at he
  change r.find? r.entry = some e at he
  change r.sighted p.name p.arity = _
  unfold sighted
  by_cases hn : p.name = r.entry
  · rw [if_pos hn]
    rw [← hn, find?, hconf, Option.none_or] at he
    rw [hpend e he]
  · rw [if_neg hn]
    exact h e he

end Registry.Settles

/-! ## The function under construction -/

namespace Assembler

/-- Only the function of the definition `o` is under construction, under its number and its name. -/
structure Constructs (a : Assembler) (o : Registry.Opening) : Prop where
  draft : ∀ id D, a.drafts.get? id = some D → id = o.id ∧ D.id = o.id ∧ D.name = o.name
  cursor : ∀ c, a.cursor = some c → c.function = o.id

theorem Idle.constructs {a : Assembler} (h : a.Idle) (o : Registry.Opening) : a.Constructs o where
  draft := fun id D hD => by
    rw [h.drafts] at hD
    cases hD
  cursor := fun c hc => by
    rw [h.cursor] at hc
    cases hc

namespace Constructs

variable {a a' : Assembler} {o : Registry.Opening}

theorem congr (h : a.Constructs o) (hd : a'.drafts = a.drafts) (hc : a'.cursor = a.cursor) : a'.Constructs o :=
  ⟨by rw [hd]; exact h.draft, by rw [hc]; exact h.cursor⟩

theorem setDraft (h : a.Constructs o) {b : Body} (hid : b.id = o.id) (hname : b.name = o.name) :
    (a.setDraft o.id b).Constructs o where
  draft := by
    intro id D hD
    change (a.drafts.insert o.id b).get? id = some D at hD
    rw [OrderedMap.get?_insert] at hD
    split at hD
    · rename_i heq
      cases hD
      exact ⟨heq.symm, hid, hname⟩
    · exact h.draft id D hD
  cursor := h.cursor

/-- A body that is opened gets the number and the name of its function. -/
theorem header (h : a.Constructs o) (hn : a.nameOf o.id = o.name) :
    (a.draft o.id).id = o.id ∧ (a.draft o.id).name = o.name := by
  unfold Assembler.draft
  cases hD : a.drafts.get? o.id with
  | none => exact ⟨rfl, hn⟩
  | some D => exact (h.draft o.id D hD).2

theorem modifyRegion (h : a.Constructs o) (f : Region → Region) : (a.modifyRegion f).Constructs o := by
  simp only [Assembler.modifyRegion]
  split
  · exact h
  · split
    · exact h
    · rename_i D hD
      obtain ⟨hfun, hid, hname⟩ := h.draft _ D hD
      rw [hfun]
      exact h.setDraft hid hname

theorem append (h : a.Constructs o) (i : Inst) : (a.append i).Constructs o := (h.modifyRegion _).congr rfl rfl

theorem freshValue (h : a.Constructs o) (hn : a.nameOf o.id = o.name) : a.freshValue.2.Constructs o := by
  simp only [Assembler.freshValue]
  split
  · exact h.congr rfl rfl
  · rename_i c hc
    obtain ⟨hid, hname⟩ := h.header hn
    rw [h.cursor c hc]
    exact h.setDraft hid hname

/-- A change made while a function is lowered is a change of that function. -/
theorem effect {s t : Session} (h : s.assembler.Constructs o) (hn : s.assembler.nameOf o.id = o.name)
    (he : Effect o.id s t) : t.assembler.Constructs o := by
  cases he with
  | emit define => exact (h.freshValue hn).append _
  | append i => exact h.append i
  | close t => exact h.modifyRegion _
  | addRegion label => exact h.setDraft (h.header hn).1 (h.header hn).2
  | moveTo r =>
    refine ⟨h.draft, fun c hc => ?_⟩
    cases hc
    rfl
  | reserve r name => exact h.setDraft (h.header hn).1 (h.header hn).2
  | rescope f => exact h
  | resolve hr =>
    obtain ⟨-, hd, hc⟩ := resolve_code hr
    exact h.congr hd hc

/-- Once the function leaves construction, nothing is left. -/
theorem discard (h : a.Constructs o) : (a.discard o.id).Idle where
  drafts := by
    change a.drafts.erase o.id = .empty
    refine OrderedMap.eq_empty_of_get? fun id => ?_
    rw [OrderedMap.get?_erase]
    split
    · rfl
    · rename_i hne
      cases hD : a.drafts.get? id with
      | none => rfl
      | some D => exact absurd (h.draft id D hD).1.symm hne
  cursor := by
    change a.cursor.filter _ = none
    cases hc : a.cursor with
    | none => rfl
    | some c => simp [Option.filter, h.cursor c hc]

end Constructs

end Assembler

/-! ## Moments -/

structure Moment where
  session : Session
  /-- The definition whose body is being lowered. -/
  opening : Option Registry.Opening
  bodies : List Body
  /-- The names that definitions and calls have asked for, and the functions that they were told. -/
  answers : List (String × FunctionId)

namespace Moment

def start (entry : String) (strict : Bool) : Moment := ⟨.initial entry strict, none, [], []⟩

/-- What can come next. Of the session only the registry and the code matter. -/
inductive Next : Moment → Moment → Prop
  | aside {s t : Session} {bs : List Body} {as : List (String × FunctionId)} (registry : t.registry = s.registry)
      (assembler : t.assembler = s.assembler) : Next ⟨s, none, bs, as⟩ ⟨t, none, bs, as⟩
  | begins {s s₁ t : Session} {bs : List Body} {as : List (String × FunctionId)} {p : Prototype} {o : Registry.Opening}
      (enrolled : enroll p s = .ok o s₁) (registry : t.registry = s₁.registry)
      (assembler : t.assembler = s₁.assembler) : Next ⟨s, none, bs, as⟩ ⟨t, some o, bs, as ++ [(p.name, o.id)]⟩
  | code {s t : Session} {bs : List Body} {as : List (String × FunctionId)} {o : Registry.Opening}
      (effect : Effect o.id s t) (registry : t.registry = s.registry)
      (declarations : t.assembler.declarations = s.assembler.declarations) :
      Next ⟨s, some o, bs, as⟩ ⟨t, some o, bs, as⟩
  | calls {s t : Session} {bs : List Body} {as : List (String × FunctionId)} {o : Registry.Opening} {pos : Pos}
      {name : String} {n : Nat} {id : FunctionId} (resolved : resolve pos name n s = .ok id t) :
      Next ⟨s, some o, bs, as⟩ ⟨t, some o, bs, as ++ [(name, id)]⟩
  | finishes {s t : Session} {bs : List Body} {as : List (String × FunctionId)} {o : Registry.Opening} {body : Body}
      (finished : s.assembler.finished o.id = .ok body) (registry : t.registry = s.registry)
      (assembler : t.assembler = s.assembler.discard o.id) : Next ⟨s, some o, bs, as⟩ ⟨t, none, bs ++ [body], as⟩
  | withdraws {s t : Session} {bs : List Body} {as : List (String × FunctionId)} {o : Registry.Opening}
      (registry : t.registry = s.registry.withdraw o) (assembler : t.assembler = s.assembler.discard o.id) :
      Next ⟨s, some o, bs, as⟩ ⟨t, none, bs, as⟩

abbrev Run : Moment → Moment → Prop := Relation.ReflTransGen Next

end Moment

def Body.header (b : Body) : Declaration := ⟨b.id, b.name, b.params⟩

def Registry.headers (r : Registry) : List Declaration :=
  r.confirmed.entries.map fun e => ⟨e.2.id, e.1, e.2.proto.arity⟩

/-! ## What holds at every moment -/

/-- Between two functions, what is defined are the bodies there are. -/
structure Session.Rests (s : Session) (entry : String) (bs : List Body) : Prop where
  linked : Linked s.registry s.assembler
  entry : s.registry.entry = entry
  settles : s.registry.Settles
  idle : s.assembler.Idle
  headers : s.registry.headers = bs.map Body.header

/-- While the definition `o` of the signature `p` is lowered that began in `s`, only placeholders and the code of its
function have been added. -/
structure Session.Works (s t : Session) (p : Prototype) (o : Registry.Opening) : Prop where
  begun : ∃ s₁ u, enroll p s = .ok o s₁ ∧ u.registry = s₁.registry ∧ u.assembler = s₁.assembler ∧ Kept u t
  settles : t.registry.Settles
  constructs : t.assembler.Constructs o

/-- What definitions and calls have been told is declared. -/
def Assembler.Answered (a : Assembler) (as : List (String × FunctionId)) : Prop :=
  ∀ x ∈ as, (x.2, x.1) ∈ a.declarations.map Assembler.signature

namespace Assembler.Answered

variable {a a' : Assembler} {as : List (String × FunctionId)}

theorem grow (h : a.Answered as) {ds : List (FunctionId × String)}
    (hds : a'.declarations.map signature = a.declarations.map signature ++ ds) : a'.Answered as := by
  intro x hx
  rw [hds]
  exact List.mem_append_left _ (h x hx)

theorem concat (h : a.Answered as) {name : String} {d : Declaration} (hd : a.declaration? name = some d) :
    a.Answered (as ++ [(name, d.id)]) := by
  intro x hx
  rcases List.mem_append.mp hx with hx | hx
  · exact h x hx
  · obtain rfl := List.mem_singleton.mp hx
    have hmem := List.mem_map_of_mem (f := signature) (List.mem_of_find?_eq_some hd)
    rwa [signature, declaration?_name hd] at hmem

/-- A name that is declared has only ever been told its number. -/
theorem unique (h : a.Answered as) (hi : a.Indexed) {name : String} {d : Declaration} {id : FunctionId}
    (hd : a.declaration? name = some d) (hx : (name, id) ∈ as) : id = d.id := by
  obtain ⟨d', hd', heq⟩ := List.mem_map.mp (h _ hx)
  have hname : d'.name = name := congrArg Prod.snd heq
  have hfound := hi.declaration?_of_mem hd'
  rw [hname, hd] at hfound
  cases hfound
  exact (congrArg Prod.fst heq).symm

end Assembler.Answered

namespace Session

variable {s t t' : Session} {p : Prototype} {o : Registry.Opening} {entry : String} {bs : List Body}

namespace Works

theorem linked (h : s.Works t p o) (hl : Linked s.registry s.assembler) : Linked t.registry t.assembler := by
  obtain ⟨s₁, u, he, hr, ha, hkept⟩ := h.begun
  refine hkept.linked ?_
  rw [hr, ha]
  exact hl.enroll he

/-- The definition is registered under its name. -/
theorem knows (h : s.Works t p o) : t.registry.Knows p.name p.arity o.id := by
  obtain ⟨s₁, u, he, hr, -, hkept⟩ := h.begun
  refine hkept.knows ?_
  rw [hr]
  exact knows_of_enroll he

theorem name (h : s.Works t p o) : o.name = p.name := by
  obtain ⟨s₁, u, he, -⟩ := h.begun
  obtain ⟨-, ho, -⟩ := enroll_ok he
  rw [ho]

theorem declared (h : s.Works t p o) (hl : Linked s.registry s.assembler) :
    t.assembler.declaration? p.name = some ⟨o.id, p.name, p.arity⟩ :=
  (h.linked hl).declared_of_knows h.knows

theorem nameOf (h : s.Works t p o) (hl : Linked s.registry s.assembler) : t.assembler.nameOf o.id = o.name := by
  rw [h.name]
  exact (h.linked hl).indexed.nameOf (h.declared hl)

theorem entry_eq (h : s.Works t p o) : t.registry.entry = s.registry.entry := by
  obtain ⟨s₁, u, he, hr, -, hkept⟩ := h.begun
  obtain ⟨-, -, -, hreg, -⟩ := enroll_ok he
  rw [hkept.entry, hr, hreg]

/-- The definition comes behind all others. -/
theorem headers (h : s.Works t p o) : t.registry.headers = s.registry.headers ++ [⟨o.id, p.name, p.arity⟩] := by
  obtain ⟨s₁, u, he, hr, -, hkept⟩ := h.begun
  obtain ⟨⟨r, hok⟩, -, -, hreg, -⟩ := enroll_ok he
  obtain ⟨-, hnew, -, -⟩ := Registry.enroll_ok hok
  rw [Registry.headers, hkept.confirmed, hr, hreg]
  simp only [OrderedMap.entries_insert _ _ _ hnew, List.map_append]
  rfl

theorem code (h : s.Works t p o) (hl : Linked s.registry s.assembler) (he : Effect o.id t t')
    (hr : t'.registry = t.registry) : s.Works t' p o := by
  obtain ⟨s₁, u, hen, hru, hau, hkept⟩ := h.begun
  exact ⟨⟨s₁, u, hen, hru, hau, hkept.trans he.kept⟩, by rw [hr]; exact h.settles,
    h.constructs.effect (h.nameOf hl) he⟩

theorem calls (h : s.Works t p o) {pos : Pos} {name : String} {n : Nat} {id : FunctionId}
    (hc : resolve pos name n t = .ok id t') : s.Works t' p o := by
  obtain ⟨s₁, u, hen, hru, hau, hkept⟩ := h.begun
  obtain ⟨-, hd, hcur⟩ := resolve_code hc
  exact ⟨⟨s₁, u, hen, hru, hau, hkept.trans (.resolve hc)⟩, h.settles.resolve hc, h.constructs.congr hd hcur⟩

/-- A body that is finished has the number, the name and the parameters of its definition. -/
theorem header (h : s.Works t p o) (hl : Linked s.registry s.assembler) {body : Body}
    (hb : t.assembler.finished o.id = .ok body) : body.header = ⟨o.id, p.name, p.arity⟩ := by
  cases hD : t.assembler.drafts.get? o.id with
  | none =>
    unfold Assembler.finished at hb
    rw [hD] at hb
    cases hb
  | some D =>
    obtain ⟨-, hid, hname⟩ := h.constructs.draft o.id D hD
    obtain ⟨n, rfl, hn⟩ := finished_ok hD hb
    rw [hname, h.name] at hn
    rw [Body.header, hn _ (h.declared hl), hid, hname, h.name]

end Works

namespace Rests

theorem initial (entry : String) (strict : Bool) : (initial entry strict).Rests entry [] where
  linked := linked_empty entry
  entry := rfl
  settles := .empty entry
  idle := ⟨rfl, rfl⟩
  headers := rfl

theorem congr (h : s.Rests entry bs) (hr : t.registry = s.registry) (ha : t.assembler = s.assembler) :
    t.Rests entry bs := by
  refine ⟨?_, ?_, ?_, ?_, ?_⟩
  · rw [hr, ha]
    exact h.linked
  · rw [hr]
    exact h.entry
  · rw [hr]
    exact h.settles
  · rw [ha]
    exact h.idle
  · rw [hr]
    exact h.headers

theorem begins {s₁ : Session} (h : s.Rests entry bs) (he : enroll p s = .ok o s₁) (hr : t.registry = s₁.registry)
    (ha : t.assembler = s₁.assembler) : s.Works t p o where
  begun := ⟨s₁, t, he, hr, ha, .refl t⟩
  settles := by
    rw [hr]
    exact h.settles.enroll he
  constructs := by
    obtain ⟨-, -, ha₁, -⟩ := enroll_ok he
    refine (h.idle.constructs o).congr ?_ ?_ <;> rw [ha, ha₁] <;> rfl

/-- A body that is finished joins those there are. -/
theorem finishes (h : s.Rests entry bs) (hw : s.Works t p o) {body : Body}
    (hb : t.assembler.finished o.id = .ok body) (hr : t'.registry = t.registry)
    (ha : t'.assembler = t.assembler.discard o.id) : t'.Rests entry (bs ++ [body]) := by
  refine ⟨?_, ?_, ?_, ?_, ?_⟩
  · rw [hr, ha]
    exact (hw.linked h.linked).of_declarations rfl
  · rw [hr, hw.entry_eq]
    exact h.entry
  · rw [hr]
    exact hw.settles
  · rw [ha]
    exact hw.constructs.discard
  · rw [hr, hw.headers, h.headers, List.map_append, List.map_singleton, hw.header h.linked hb]

/-- A definition that is taken back leaves the bodies there are. -/
theorem withdraws (h : s.Rests entry bs) (hw : s.Works t p o) (hr : t'.registry = t.registry.withdraw o)
    (ha : t'.assembler = t.assembler.discard o.id) : t'.Rests entry bs := by
  obtain ⟨s₁, u, he, hru, hau, hkept⟩ := hw.begun
  obtain ⟨⟨r, hok⟩, -⟩ := enroll_ok he
  have hback : t'.registry = s.registry.reverted p := by
    rw [hr]
    exact withdraw_enrolled he (by rw [hkept.confirmed, hru]) (by rw [← hru]; exact hkept.pending)
      (by rw [hkept.entry, hru])
  refine ⟨?_, ?_, ?_, ?_, ?_⟩
  · rw [hback, ha]
    exact linked_withdrawn h.linked he hru (by rw [hau]) hkept
  · rw [hback]
    exact h.entry
  · rw [hback]
    exact h.settles.reverted hok
  · rw [ha]
    exact hw.constructs.discard
  · rw [hback]
    exact h.headers

end Rests

end Session

namespace Moment

/-- The registry, the declarations, the code and the bodies agree. -/
inductive Sound (entry : String) : Moment → Prop
  | rests {s : Session} {bs : List Body} {as : List (String × FunctionId)} (rests : s.Rests entry bs)
      (answered : s.assembler.Answered as) : Sound entry ⟨s, none, bs, as⟩
  | works {s t : Session} {p : Prototype} {o : Registry.Opening} {bs : List Body} {as : List (String × FunctionId)}
      (rests : s.Rests entry bs) (works : s.Works t p o) (answered : t.assembler.Answered as) :
      Sound entry ⟨t, some o, bs, as⟩

theorem sound_start (entry : String) (strict : Bool) : (start entry strict).Sound entry :=
  .rests (.initial entry strict) fun _ hx => by cases hx

variable {entry : String} {strict : Bool} {m m' : Moment}

theorem Sound.next (h : m.Sound entry) (hstep : Next m m') : m'.Sound entry := by
  -- each step starts either between two functions or within one, so `h` has one case for it
  cases hstep with
  | aside hr ha =>
    cases h with
    | rests h has => exact .rests (h.congr hr ha) (by rwa [ha])
  | @begins _ s₁ t _ _ p o he hr ha =>
    cases h with
    | rests h has =>
      have hw := h.begins he hr ha
      obtain ⟨-, -, ha₁, -⟩ := enroll_ok he
      refine .works h hw (Assembler.Answered.concat ?_ (hw.declared h.linked))
      rw [ha, ha₁]
      exact has.grow (Assembler.signatures_declare _ _ _)
  | code he hr hd =>
    cases h with
    | works h hw has => exact .works h (hw.code h.linked he hr) (has.grow (by rw [hd, List.append_nil]))
  | calls hc =>
    cases h with
    | works h hw has =>
      have hw' := hw.calls hc
      obtain ⟨ds, hds⟩ := (Kept.resolve hc).signatures
      exact .works h hw' ((has.grow hds).concat ((hw'.linked h.linked).declared_of_knows (knows_of_resolve hc)))
  | finishes hb hr ha =>
    cases h with
    | works h hw has => exact .rests (h.finishes hw hb hr ha) (by rw [ha]; exact has)
  | withdraws hr ha =>
    cases h with
    | works h hw has => exact .rests (h.withdraws hw hr ha) (by rw [ha]; exact has)

theorem Sound.run (h : m.Sound entry) (hrun : Run m m') : m'.Sound entry := by
  induction hrun with
  | refl => exact h
  | tail _ hstep ih => exact ih.next hstep

theorem Sound.linked (h : m.Sound entry) : Linked m.session.registry m.session.assembler := by
  cases h with
  | rests h _ => exact h.linked
  | works h hw _ => exact hw.linked h.linked

theorem Sound.settles (h : m.Sound entry) : m.session.registry.Settles := by
  cases h with
  | rests h _ => exact h.settles
  | works _ hw _ => exact hw.settles

theorem Sound.entry_eq (h : m.Sound entry) : m.session.registry.entry = entry := by
  cases h with
  | rests h _ => exact h.entry
  | works h hw _ => exact hw.entry_eq.trans h.entry

theorem Sound.answered (h : m.Sound entry) : m.session.assembler.Answered m.answers := by
  cases h with
  | rests _ has => exact has
  | works _ _ has => exact has

end Moment

end Funclet
