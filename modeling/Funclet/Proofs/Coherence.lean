import Funclet.Proofs.Accepted
import Funclet.Proofs.Histories
import Funclet.Proofs.Moments

/-!
# Names, numbers and bodies

* `Session.Ran.takeAll` : a session that is given any texts and functions, which may fail, has a history;
* `History.Asks h names` : the names that the definitions and calls of a history ask for, in order;
* `Ran.run` : what a session goes through are moments, in which all that it asks for is answered;
* `Moment.Coherent` : a name is registered once, with the number and the parameters that are declared, and with the
  number that whoever has asked for it was told;
* `Program.Coherent` : names and numbers find the same bodies, which are declared with what they are;
* `takeAll_coherent` : so it is at every moment of a session, and in the program that comes of it.
-/

namespace Funclet

open Lowering

/-! ## All that is asked -/

/-- The names that the definitions and calls of a history ask for, in order. A function that fails has made the first of
its calls. -/
inductive History.Asks : History → List String → Prop
  | nil : Asks [] []
  | lowered {h : History} {names : List String} (hs : Asks h names) (f : Function) (body : Body) :
      Asks (h ++ [(f, .lowered body)]) (names ++ f.proto.name :: f.body.calls.map Call.name)
  | failed {h : History} {names : List String} (hs : Asks h names) (f : Function) {cs : List Call}
      (hcs : cs <+: f.body.calls) : Asks (h ++ [(f, .failed)]) (names ++ f.proto.name :: cs.map Call.name)
  | refused {h : History} {names : List String} (hs : Asks h names) (f : Function) :
      Asks (h ++ [(f, .refused)]) names

section Run
variable {s s₁ t : Session} {f : Function} {o : Registry.Opening} {as : List (Call × FunctionId)}
  {bs : List Body} {answers : List (String × FunctionId)}

theorem Lowering.Asked.run (h : Asked o.id s as t) :
    Moment.Run ⟨s, some o, bs, answers⟩ ⟨t, some o, bs, answers ++ as.map fun a => (a.1.name, a.2)⟩ := by
  induction h with
  | refl => rw [List.map_nil, List.append_nil]
  | code _ he hr hd ih => exact ih.tail (.code he hr hd)
  | call _ hc ih =>
    rw [List.map_append, ← List.append_assoc]
    exact ih.tail (.calls hc)

/-- A function is enrolled, its entry region is opened, and its code is written. -/
theorem run_opened (he : enroll f.proto { s with scopes := .empty } = .ok o s₁)
    (has : Asked o.id (begun o.id (opened f s₁)) as t) :
    Moment.Run ⟨s, none, bs, answers⟩
      ⟨t, some o, bs, answers ++ (f.proto.name, o.id) :: as.map fun a => (a.1.name, a.2)⟩ := by
  rw [List.append_cons]
  refine Relation.ReflTransGen.trans ?_ has.run
  have haside : Moment.Next ⟨s, none, bs, answers⟩ ⟨{ s with scopes := .empty }, none, bs, answers⟩ := .aside rfl rfl
  have hregion : Effect o.id (opened f s₁) _ := .addRegion (opened f s₁) "entry"
  have hmove : Effect o.id _ (begun o.id (opened f s₁)) :=
    .moveTo { opened f s₁ with assembler := ((opened f s₁).assembler.addRegion o.id "entry").2 }
      ((opened f s₁).assembler.addRegion o.id "entry").1.region
  refine .head haside (.head (.begins he (t := opened f s₁) rfl rfl) ?_)
  exact .head (.code hregion rfl rfl) (.single (.code hmove rfl rfl))

end Run

namespace Session

variable {entry : String} {strict : Bool} {h : History} {s : Session}

/-- What a session goes through are moments, in which all that it asks for is answered. -/
theorem Ran.run (hs : Ran entry strict h s) :
    ∃ answers, h.Asks (answers.map Prod.fst) ∧ Moment.Run (.start entry strict) ⟨s, none, h.bodies, answers⟩ := by
  induction hs with
  | start => exact ⟨[], .nil, .refl⟩
  | record _ _ ih =>
    obtain ⟨answers, hasks, hrun⟩ := ih
    exact ⟨answers, hasks, hrun.tail (.aside rfl rfl)⟩
  | @function h s _ f ih =>
    obtain ⟨answers, hasks, hrun⟩ := ih
    -- each fate is a run of its own: to the finished body, to the definition taken back, or one step aside
    have hu := compileFunction_undergoes s f
    generalize s.fate f = fate at hu ⊢
    rw [History.bodies_append]
    cases hu with
    | @lowered _ _ _ o as body he has hcalls hfin hr ha =>
      refine ⟨answers ++ (f.proto.name, o.id) :: as.map fun a => (a.1.name, a.2), ?_,
        (hrun.trans (run_opened he has)).tail (.finishes hfin hr ha)⟩
      have hnames := hasks.lowered f body
      rw [← hcalls] at hnames
      simpa [Function.comp_def] using hnames
    | @failed _ _ _ o as he has hcalls hr ha =>
      refine ⟨answers ++ (f.proto.name, o.id) :: as.map fun a => (a.1.name, a.2), ?_, ?_⟩
      · have hnames := hasks.failed f hcalls
        simpa [Function.comp_def] using hnames
      · exact (List.append_nil h.bodies).symm ▸ (hrun.trans (run_opened he has)).tail (.withdraws hr ha)
    | refused hr ha =>
      exact ⟨answers, hasks.refused f, (List.append_nil h.bodies).symm ▸ hrun.tail (.aside hr ha)⟩

end Session

/-! ## Texts and functions -/

namespace Session

variable {entry : String} {strict : Bool} {h : History} {s : Session}

theorem Ran.take (hs : Ran entry strict h s) (c : Chunk) :
    ∃ more, Ran entry strict (h ++ more) (s.take c).2 ∧ more.bodies = (s.take c).1 := by
  cases c with
  | text escapes source => exact hs.text escapes source
  | function f =>
    refine ⟨[(f, s.fate f)], hs.function f, ?_⟩
    simp only [Session.take]
    rw [← body?_fate]
    cases s.fate f <;> rfl

theorem Ran.takeAll (hs : Ran entry strict h s) (chunks : List Chunk) :
    ∃ more, Ran entry strict (h ++ more) (s.takeAll chunks).2 ∧ more.bodies = (s.takeAll chunks).1 := by
  induction chunks generalizing h s with
  | nil => exact ⟨[], by rwa [List.append_nil], rfl⟩
  | cons c cs ih =>
    obtain ⟨first, hfirst, hbodies⟩ := hs.take c
    obtain ⟨rest, hrest, hmore⟩ := ih hfirst
    refine ⟨first ++ rest, by rwa [← List.append_assoc], ?_⟩
    rw [History.bodies_append, hbodies, hmore]
    rfl

end Session

/-! ## Coherence -/

/-- The name is registered, as defined or as called. -/
def Registry.Lists (r : Registry) (name : String) (e : Registry.Entry) : Prop :=
  r.confirmed.get? name = some e ∨ r.pending.get? name = some e

theorem Linked.find?_of_lists {r : Registry} {a : Assembler} (hl : Linked r a) {name : String} {e : Registry.Entry}
    (h : r.Lists name e) : r.find? name = some e := by
  rcases h with h | h
  · exact Registry.find?_of_confirmed h
  · exact hl.find?_of_pending h

/-- Names, numbers and parameters agree at a moment. -/
structure Moment.Coherent (m : Moment) (entry : String) : Prop where
  apart : ∀ name, m.session.registry.confirmed.contains name → m.session.registry.pending.contains name = false
  declared : ∀ name e, m.session.registry.Lists name e →
    m.session.assembler.declaration? name = some ⟨e.id, name, e.proto.arity⟩
  answered : ∀ name e id, m.session.registry.Lists name e → (name, id) ∈ m.answers → id = e.id
  entry : ∀ e, m.session.registry.Lists entry e → m.session.registry.entryArity = some e.proto.arity

theorem Moment.Sound.coherent {m : Moment} {entry : String} (h : m.Sound entry) : m.Coherent entry where
  apart := by
    intro name hc
    obtain ⟨e, he⟩ := Option.isSome_iff_exists.mp hc
    rw [OrderedMap.contains, h.linked.apart name e he]
    rfl
  declared := fun name e he => h.linked.declared name e (h.linked.find?_of_lists he)
  answered := fun name e id he hx =>
    h.answered.unique h.linked.indexed (h.linked.declared name e (h.linked.find?_of_lists he)) hx
  entry := fun e he => h.settles e (by rw [h.entry_eq]; exact h.linked.find?_of_lists he)

/-- Names and numbers find the same bodies, and these are what is declared. -/
structure Program.Coherent (p : Program) (entry : String) : Prop where
  numbered : p.declarations.map Declaration.id = List.range p.declarations.length
  named : (p.declarations.map Declaration.name).Nodup
  bodyIds : (p.bodies.map Body.id).Nodup
  bodyNames : (p.bodies.map Body.name).Nodup
  declared : ∀ b ∈ p.bodies, p.declaration? b.id = some ⟨b.id, b.name, b.params⟩
  byId : ∀ b ∈ p.bodies, p.body? b.id = some b
  byName : ∀ b ∈ p.bodies, p.find? b.name = some b
  entry : ∀ id, p.entry = some id ↔ ∃ b ∈ p.bodies, b.name = entry ∧ b.id = id

namespace Session.Rests

variable {s : Session} {entry : String} {bs : List Body}

theorem names (h : s.Rests entry bs) : bs.map Body.name = s.registry.confirmed.keys := by
  have hnames := congrArg (List.map Declaration.name) h.headers
  rw [Registry.headers, List.map_map, List.map_map] at hnames
  exact hnames.symm

theorem declaration? (h : s.Rests entry bs) {b : Body} (hb : b ∈ bs) :
    s.assembler.declaration? b.name = some b.header := by
  have hmem : b.header ∈ s.registry.headers := by
    rw [h.headers]
    exact List.mem_map_of_mem hb
  obtain ⟨e, he, heq⟩ := List.mem_map.mp hmem
  have hname : e.1 = b.name := congrArg Declaration.name heq
  have hget := (OrderedMap.get?_eq_some_iff h.linked.confirmed _ _).mpr he
  rw [← heq, ← hname]
  exact h.linked.declared _ _ (Registry.find?_of_confirmed hget)

theorem program (h : s.Rests entry bs) : (s.assembler.link bs entry).Coherent entry := by
  have hi := h.linked.indexed
  have hnames : (bs.map Body.name).Nodup := by
    rw [h.names]
    exact h.linked.confirmed
  have hids : (bs.map Body.id).Nodup := by
    rw [List.Nodup, List.pairwise_map] at hnames ⊢
    refine hnames.imp_of_mem fun {b c} hb hc hne hid => hne ?_
    exact hi.id_inj (h.declaration? hb) (h.declaration? hc) hid
  refine ⟨hi.ids, hi.names, hids, hnames, fun b hb => hi.find?_id (h.declaration? hb), fun b hb => ?_,
    fun b hb => find?_of_nodup_keys Body.name hnames hb, fun id => ?_⟩
  · rw [Program.body?_eq_find?]
    have hreverse : (bs.reverse.map Body.id).Nodup := by
      rw [List.map_reverse]
      exact List.nodup_reverse.mpr hids
    exact find?_of_nodup_keys Body.id hreverse (List.mem_reverse.mpr hb)
  · change (bs.find? _).map Body.id = some id ↔ _
    constructor
    · intro hfound
      obtain ⟨b, hb, rfl⟩ := Option.map_eq_some_iff.mp hfound
      exact ⟨b, List.mem_of_find?_eq_some hb, by simpa using List.find?_some hb, rfl⟩
    · rintro ⟨b, hb, rfl, rfl⟩
      rw [find?_of_nodup_keys Body.name hnames hb]
      rfl

end Session.Rests

/-- Whatever a session is given, it goes through moments that answer all it asks for; names, numbers and bodies agree at
every moment, and in the program of the bodies, which are those of the defined names. -/
theorem takeAll_coherent (entry : String) (strict : Bool) (chunks : List Chunk) :
    let bodies := ((Session.initial entry strict).takeAll chunks).1
    let s := ((Session.initial entry strict).takeAll chunks).2
    (∃ h answers, Session.Ran entry strict h s ∧ h.bodies = bodies ∧ h.Asks (answers.map Prod.fst) ∧
      Moment.Run (.start entry strict) ⟨s, none, bodies, answers⟩) ∧
    (∀ m, Moment.Run (.start entry strict) m → m.Coherent entry) ∧
    (⟨bodies, s⟩ : Compilation).program.Coherent entry ∧ bodies.map Body.name = s.registry.confirmed.keys := by
  intro bodies s
  have hsound : ∀ m, Moment.Run (.start entry strict) m → m.Sound entry := fun m hm =>
    (Moment.sound_start entry strict).run hm
  have hstart : Session.Ran entry strict [] (.initial entry strict) := .start
  obtain ⟨h, hran, hbodies⟩ := hstart.takeAll chunks
  obtain ⟨answers, hasks, hrun⟩ := hran.run
  change h.bodies = bodies at hbodies
  change Moment.Run _ ⟨s, none, h.bodies, answers⟩ at hrun
  rw [hbodies] at hrun
  refine ⟨⟨h, answers, hran, hbodies, hasks, hrun⟩, fun m hm => (hsound m hm).coherent, ?_⟩
  cases hsound _ hrun with
  | rests hs _ =>
    refine ⟨?_, hs.names⟩
    rw [Compilation.program, hs.entry]
    exact hs.program

/-- The definition of `f` fails behind its call of `g`, and `main` is defined only once; `g` keeps the number that this
first call was told, and nothing but its name is left of `f`. -/
theorem takeAll_coherent_failures :
    let pos : Pos := default
    let main : Function := ⟨⟨pos, "main", [], .plain⟩, .ret pos (.binary pos '+' (.call pos "g" []) (.call pos "f" []))⟩
    let chunks : List Chunk := [.text true "FUNC f() RETURN g() + y", .function main, .function main,
      .text true "FUNC g() RETURN main()"]
    let bodies := ((Session.initial "main" true).takeAll chunks).1
    let s := ((Session.initial "main" true).takeAll chunks).2
    let p := (⟨bodies, s⟩ : Compilation).program
    bodies.map Body.header = [⟨2, "main", 0⟩, ⟨1, "g", 0⟩] ∧ s.registry.pending.keys = ["f"] ∧
      p.declarations = [⟨0, "f", 0⟩, ⟨1, "g", 0⟩, ⟨2, "main", 0⟩] ∧ p.Coherent "main" ∧ p.entry = some 2 ∧
      ∃ answers, Moment.Run (.start "main" true) ⟨s, none, bodies, answers⟩ ∧ ∀ id, ("g", id) ∈ answers → id = 1 := by
  intro pos main chunks bodies s p
  obtain ⟨⟨h, answers, -, -, -, hrun⟩, hmoments, hprogram, -⟩ := takeAll_coherent "main" true chunks
  have hbodies : bodies.map Body.header = [⟨2, "main", 0⟩, ⟨1, "g", 0⟩] := by
    decide +kernel +zetaReduce
  have hg : (s.registry.confirmed.get? "g").map Registry.Entry.id = some 1 := by
    decide +kernel +zetaReduce
  refine ⟨hbodies, ?_, ?_, hprogram, ?_, answers, hrun, fun id hid => ?_⟩
  · decide +kernel +zetaReduce
  · decide +kernel +zetaReduce
  · obtain ⟨b, hb, hheader⟩ := List.mem_map.mp (hbodies ▸ List.mem_cons_self : (⟨2, "main", 0⟩ : Declaration) ∈ _)
    exact (hprogram.entry 2).mpr ⟨b, hb, congrArg Declaration.name hheader, congrArg Declaration.id hheader⟩
  · obtain ⟨e, he, hone⟩ := Option.map_eq_some_iff.mp hg
    rw [← hone]
    exact (hmoments _ hrun).answered "g" e id (Or.inl he) hid

end Funclet
