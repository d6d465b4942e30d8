import Funclet.Proofs.Linking
import Funclet.Proofs.Listing.Texts
import Funclet.Proofs.Lowering.Finished
import Funclet.Proofs.Lowering.Operations

/-!
# The names in compiled programs

* `Body.Named P`, `Assembler.Named P`, `Program.Named P` : every name in code has `P`; kept by operations the names of
  which have it (`Assembler.Named.run`), and so by each function (`lowerFunction_named`);
* `Produced.oneLine` : the names in what can be read have no line end in them;
* `compile_program` : so it is with compiled programs, and their bodies are well-formed.
-/

namespace Funclet

section Names

variable (P : String → Prop)

structure Body.Named (b : Body) : Prop where
  name : P b.name
  slots : ∀ s ∈ b.slots, P s.name
  regions : ∀ g ∈ b.regions, P g.label

/-- Every name that is declared or in code under construction has `P`. -/
structure Assembler.Named (a : Assembler) : Prop where
  declarations : ∀ d ∈ a.declarations, P d.name
  drafts : ∀ id b, a.drafts.get? id = some b → b.Named P

structure Program.Named (p : Program) : Prop where
  declarations : ∀ d ∈ p.declarations, P d.name
  bodies : ∀ b ∈ p.bodies, b.Named P

end Names

variable {P : String → Prop} {a : Assembler} {b : Body} {id : FunctionId}

/-! ## Bodies -/

namespace Body.Named

theorem pushRegion (h : b.Named P) {g : Region} (hg : P g.label) :
    Body.Named P { b with regions := b.regions.push g } where
  name := h.name
  slots := h.slots
  regions g' hg' := (Array.mem_push.1 hg').elim (h.regions g') fun heq => heq ▸ hg

theorem pushSlot (h : b.Named P) {s : Slot} (hs : P s.name) : Body.Named P { b with slots := b.slots.push s } where
  name := h.name
  slots s' hs' := (Array.mem_push.1 hs').elim (h.slots s') fun heq => heq ▸ hs
  regions := h.regions

theorem modifyRegion (h : b.Named P) (r : RegionId) {f : Region → Region} (hf : ∀ g, (f g).label = g.label) :
    Body.Named P { b with regions := b.regions.modify r f } where
  name := h.name
  slots := h.slots
  regions g hg := by
    obtain ⟨i, hi, rfl⟩ := Array.mem_iff_getElem.1 hg
    rw [Array.size_modify] at hi
    rw [Array.getElem_modify]
    split
    · rw [hf]
      exact h.regions _ (Array.getElem_mem hi)
    · exact h.regions _ (Array.getElem_mem hi)

end Body.Named

/-! ## Operations -/

theorem name_of_mem_declareIn {name : String} {params : Nat} {fresh : FunctionId} {ds : List Declaration}
    {d : Declaration} (h : d ∈ Assembler.declareIn name params fresh ds) :
    d.name = name ∨ ∃ e ∈ ds, e.name = d.name := by
  have hmem := List.mem_map_of_mem (f := Assembler.signature) h
  rw [Assembler.signatures_declareIn] at hmem
  rcases List.mem_append.1 hmem with hmem | hmem
  · obtain ⟨e, he, heq⟩ := List.mem_map.1 hmem
    exact .inr ⟨e, he, congrArg Prod.snd heq⟩
  · split at hmem
    · cases hmem
    · exact .inl (congrArg Prod.snd (List.mem_singleton.1 hmem))

namespace Assembler.Named

theorem empty : Assembler.empty.Named P where
  declarations _ hd := by cases hd
  drafts _ _ hb := by cases hb

theorem setDraft (h : a.Named P) (hb : b.Named P) : (a.setDraft id b).Named P where
  declarations := h.declarations
  drafts id' b' hb' := by
    change (a.drafts.insert id b).get? id' = some b' at hb'
    rw [OrderedMap.get?_insert] at hb'
    split at hb'
    · exact Option.some.inj hb' ▸ hb
    · exact h.drafts id' b' hb'

theorem discard (h : a.Named P) (id : FunctionId) : (a.discard id).Named P where
  declarations := h.declarations
  drafts id' b' hb' := by
    change (a.drafts.erase id).get? id' = some b' at hb'
    rw [OrderedMap.get?_erase] at hb'
    split at hb'
    · cases hb'
    · exact h.drafts id' b' hb'

theorem declare (h : a.Named P) {name : String} (hname : P name) (params : Nat) :
    (a.declare name params).2.Named P where
  declarations d hd := by
    rcases name_of_mem_declareIn hd with heq | ⟨e, he, heq⟩
    · rwa [heq]
    · exact heq ▸ h.declarations e he
  drafts := h.drafts

theorem modifyRegion (h : a.Named P) {f : Region → Region} (hf : ∀ g, (f g).label = g.label) :
    (a.modifyRegion f).Named P := by
  unfold Assembler.modifyRegion
  split
  · exact h
  · split
    · exact h
    · rename_i c _ _ b hb
      exact h.setDraft ((h.drafts _ b hb).modifyRegion c.region hf)

theorem append (h : a.Named P) (i : Inst) : (a.append i).Named P := by
  have hmod := h.modifyRegion (f := fun g => { g with insts := g.insts.push i }) fun _ => rfl
  exact ⟨hmod.declarations, hmod.drafts⟩

theorem close (h : a.Named P) (t : Terminator) : (a.close t).Named P := h.modifyRegion fun _ => rfl

/-- A finished body is one that was under construction. -/
theorem finished (h : a.Named P) (hb : a.finished id = .ok b) : b.Named P := by
  cases hD : a.drafts.get? id with
  | none =>
    unfold Assembler.finished at hb
    rw [hD] at hb
    cases hb
  | some D =>
    obtain ⟨n, rfl, -⟩ := Lowering.finished_ok hD hb
    have hnamed := h.drafts id D hD
    exact ⟨hnamed.name, hnamed.slots, hnamed.regions⟩

section Numbers

variable (hnumber : ∀ id : FunctionId, P ("#" ++ toString id))

include hnumber

theorem draft (h : a.Named P) (id : FunctionId) : (a.draft id).Named P := by
  unfold Assembler.draft
  cases hD : a.drafts.get? id with
  | some D => exact h.drafts id D hD
  | none =>
    refine ⟨?_, fun s hs => absurd hs (Array.not_mem_empty s), fun g hg => absurd hg (Array.not_mem_empty g)⟩
    change P (a.nameOf id)
    unfold Assembler.nameOf
    split
    · exact h.declarations _ (List.mem_of_find?_eq_some ‹_›)
    · exact hnumber id

theorem freshValue (h : a.Named P) : a.freshValue.2.Named P := by
  unfold Assembler.freshValue
  split
  · exact ⟨h.declarations, h.drafts⟩
  · rename_i c _
    have hD := h.draft hnumber c.function
    exact h.setDraft ⟨hD.name, hD.slots, hD.regions⟩

theorem emit (h : a.Named P) (define : ValueId → Inst) : (a.emit define).2.Named P := (h.freshValue hnumber).append _

/-- Names come into code only by the operations that give them. -/
theorem apply (h : a.Named P) {op : Operation} (hop : op.Named P) : (a.apply op).Named P := by
  cases op with
  | declare name params => exact h.declare (hop name rfl) params
  | addRegion function label => exact h.setDraft ((h.draft hnumber function).pushRegion (hop label rfl))
  | moveTo place => exact ⟨h.declarations, h.drafts⟩
  | reserve place name => exact h.setDraft ((h.draft hnumber place.function).pushSlot (hop name rfl))
  | constant value => exact h.emit hnumber _
  | param index => exact h.emit hnumber _
  | load slot => exact h.emit hnumber _
  | primitive op lhs rhs => exact h.emit hnumber _
  | call callee args => exact h.emit hnumber _
  | store slot value => exact h.append _
  | print items => exact h.append _
  | close terminator => exact h.close terminator
  | finish function => exact h.discard function
  | discard function => exact h.discard function

theorem run (h : a.Named P) {ops : List Operation} (hops : ∀ op ∈ ops, op.Named P) : (a.run ops).Named P := by
  induction ops generalizing a with
  | nil => exact h
  | cons op ops ih =>
    exact ih (h.apply hnumber (hops op List.mem_cons_self)) fun o ho => hops o (List.mem_cons_of_mem _ ho)

end Numbers

end Assembler.Named

/-! ## Functions -/

namespace Lowering

variable {N : Pos → Prop} {f : Function} {s : Session}

/-- A function brings no names into code but its own, those of its tree and those that lowering makes up. -/
theorem lowerFunction_named (hnumber : ∀ id : FunctionId, P ("#" ++ toString id)) (hP : ∀ name ∈ madeUp, P name)
    (hname : P f.proto.name) (hf : f.All N P) (hs : s.assembler.Named P) :
    (after (lowerFunction f) s).assembler.Named P ∧ ∀ body s', lowerFunction f s = .ok body s' → body.Named P := by
  constructor
  · obtain ⟨ops, hops, hrun⟩ := (lowerFunction_operates hP hname hf).run s
    rw [hrun]
    exact hs.run hnumber hops
  · intro body s' h
    obtain ⟨ops, id, hops, hfin⟩ := lowerFunction_finished hP hname hf h
    exact (hs.run hnumber hops).finished hfin

end Lowering

/-! ## Names that can be read -/

theorem PlainName.oneLine {name : String} (h : PlainName name) : OneLine name := fun hmem =>
  absurd (h _ hmem) (by decide)

theorem Prototype.WellNamed.oneLine {p : Prototype} (h : p.WellNamed) : OneLine p.name := by
  have hop {op : Char} (hop : Scan.isPunctuation op) : OneLine op.toString := by
    intro hmem
    have heq : '\n' = op := List.mem_singleton.1 (String.toList_singleton op ▸ hmem)
    subst heq
    exact absurd hop (by decide)
  unfold WellNamed at h
  split at h
  · exact h.oneLine
  · rw [h.2]
    exact .append (by decide) (hop h.1)
  · rw [h.2]
    exact .append (by decide) (hop h.1)

namespace Grammar

/-- The names in a function that can be read have no line end in them. -/
theorem Produced.oneLine {f : Function} (h : Produced f) : f.All (fun _ => True) OneLine := by
  obtain ⟨escapes, source, s, ops, hs, hf⟩ := h
  have hnext : s.nextFunction ops = (.function f, (s.nextFunction ops).2) := Prod.ext hf rfl
  have hgenuine := hs.genuine.toFunction
  have hstream : ∀ item ∈ s.toFunction.stream, Has (fun _ => True) OneLine item := by
    intro item hitem
    refine ⟨trivial, fun name hname => ?_⟩
    have ht : (Token.ident name).Genuine := by
      unfold State.stream at hitem
      split at hitem
      · cases hitem
      · rcases List.mem_cons.1 hitem with rfl | hitem
        · exact Except.ok.inj hname ▸ hgenuine.token
        · exact hgenuine.ahead item hitem _ hname
    exact PlainName.oneLine ht
  obtain ⟨front, hfront, hall⟩ := (hs.derives hnext).1.constituents (N := fun _ => True) (P := OneLine)
  exact hall fun item hitem => hstream item (hfront ▸ List.mem_append_left _ hitem)

end Grammar

/-! ## Programs -/

open Lowering

/-- What holds of a session between two functions, and of the bodies there are so far. -/
structure Session.Listed (s : Session) (bodies : List Body) : Prop where
  orderly : s.Orderly
  named : s.assembler.Named OneLine
  bodies : ∀ b ∈ bodies, b.WellFormed ∧ b.Named OneLine

theorem Session.Listed.function {s : Session} {bodies : List Body} {f : Function} (h : s.Listed bodies)
    (hf : Grammar.Produced f) :
    Session.Listed (s.compileFunction f).2 (bodies ++ (s.compileFunction f).1.toList) := by
  have hnumber (id : FunctionId) : OneLine ("#" ++ toString id) := .append (by decide) (oneLine_toString id)
  obtain ⟨hafter, hbody⟩ := lowerFunction_named hnumber (by decide) hf.spelled.named.oneLine hf.oneLine h.named
  refine ⟨h.orderly.compileFunction f, ?_, fun b hb => ?_⟩
  · unfold Session.compileFunction
    cases hl : lowerFunction f s with
    | ok body s' => exact after_ok hl ▸ hafter
    | error d s' => exact after_error hl ▸ hafter
  · rcases List.mem_append.1 hb with hb | hb
    · exact h.bodies b hb
    · unfold Session.compileFunction at hb
      cases hl : lowerFunction f s with
      | ok body s' =>
        rw [hl] at hb
        rw [List.mem_singleton.1 hb]
        exact ⟨(lowerFunction_operations h.orderly.linked h.orderly.idle hl).1, hbody body s' hl⟩
      | error d s' =>
        rw [hl] at hb
        cases hb

/-- No name in a compiled program has a line end in it, and all bodies are well-formed. -/
theorem compile_program (settings : Settings) (source : String) :
    (compile settings source).program.Named OneLine ∧ ∀ b ∈ (compile settings source).program.bodies, b.WellFormed := by
  have hinitial : (Session.initial settings.entry settings.strictForwardRefs).Listed [] :=
    ⟨(Session.Reachable.initial _ _).orderly, .empty, fun _ hb => by cases hb⟩
  have hlisted : Session.Listed _ ([] ++ (Session.compileText _ settings.textEscapes source).1) :=
    Session.compileFor_induction (fun s bodies events h => ⟨⟨h.orderly.linked, h.orderly.idle⟩, h.named, h.bodies⟩)
      (fun s bodies f hf h => h.function hf) _ _ _ [] .start hinitial
  have hprogram : (compile settings source).program = _ := Session.program_conclude _ _
  rw [hprogram]
  exact ⟨⟨hlisted.named.declarations, fun b hb => (hlisted.bodies b hb).2⟩, fun b hb => (hlisted.bodies b hb).1⟩

end Funclet
