import Funclet.Proofs.Lowering.Building
import Funclet.Proofs.Lowering.FunctionCode
import Funclet.Proofs.Lowering.Operations
import Funclet.Proofs.Rollback

/-!
# Finished code is well-formed

* `lowerCode_builds` : behind the code of a function no region is open;
* `Shaping.finished` : so its body can be finished;
* `lowerFunction_wellFormed` : in a reachable session a function never fails because its code is unfinished. The body of
  a function that is lowered is well-formed, and of the operations performed for it none writes behind a terminator.
-/

namespace Funclet.Lowering

section Bodies

variable {T : Site} {entry : Place}

theorem lowerParams_builds (he : entry.function = T.id) {r : Nat} {fs : List Nat} {Γ : Frames SlotId}
    (names : List String) : ∀ (i : Nat) (f : List (String × SlotId)) (D : Body) (s : Session Recording),
      i + names.length ≤ T.params → Building T (f :: Γ) D r fs s →
      Builds (lowerParams entry i names) s fun _ s' => ∃ f', Moves T (f' :: Γ) D fs (fun _ _ => True) s' := by
  induction names with
  | nil => exact fun i f D s _ h => .pure ⟨f, D, r, .refl D, h, trivial⟩
  | cons name names ih =>
    intro i f D s hi h
    rw [List.length_cons] at hi
    refine (h.reserve he name).bind ?_
    rintro slot s₁ ⟨D₁, _, hbelow₁, hb₁, rfl, -, hslot⟩
    refine (hb₁.param (i := i) (by omega)).bind ?_
    rintro v s₂ ⟨D₂, _, hbelow₂, hb₂, rfl, -, hv⟩
    have hslot₂ := Nat.lt_of_lt_of_le hslot hbelow₂.slots
    refine (hb₂.store hslot₂ hv).bind ?_
    rintro _ s₃ ⟨D₃, _, hbelow₃, hb₃, rfl, -, -⟩
    refine (hb₃.bindName name (Nat.lt_of_lt_of_le hslot₂ hbelow₃.slots)).bind fun _ s₄ hb₄ => ?_
    refine (ih (i + 1) _ D₃ s₄ (by omega) hb₄).mono ?_
    rintro _ s₅ ⟨f', D', r', hbelow', hb', -⟩
    exact ⟨f', D', r', ((hbelow₁.trans hbelow₂).trans hbelow₃).trans hbelow', hb', trivial⟩

/-- Behind the code of a function no region is open. -/
theorem lowerCode_builds (he : entry.function = T.id) {f : Function} (hf : f.proto.arity ≤ T.params) {D : Body}
    {r : Nat} {s : Session Recording} (h : Building T [] D r [] s) :
    Builds (lowerCode f entry) s fun _ s' => ∃ D', D.Below D' ∧ Shaping T [] D' [] s' := by
  refine h.enter.bind fun _ s₁ hb₁ => Builds.bind (P := fun _ s₄ => ∃ f' D', D.Below D' ∧ Shaping T [f'] D' [] s₄) ?_ ?_
  · refine (lowerParams_builds he f.proto.params 0 [] D s₁ (by rwa [Nat.zero_add]) hb₁).bind ?_
    rintro _ s₂ ⟨f', D₂, r₂, hbelow₂, hb₂, -⟩
    refine (lowerStmt_builds he f.body none _ D₂ r₂ [] s₂ hb₂ fun q hq => (nomatch hq)).bind ?_
    rintro v s₃ ⟨D₃, r₃, hbelow₃, hb₃, hv⟩
    refine (hb₃.closeAfter (t := .ret v) (.pure (hb₃.goes (.refl D₃ r₃) trivial)) (fun u hu => ?_)
      fun q hq => (nomatch hq)).mono ?_
    · rw [List.mem_singleton.1 hu]
      exact hv
    rintro _ s₄ ⟨D₄, hbelow₄, hsh⟩
    exact ⟨f', D₄, (hbelow₂.trans hbelow₃).trans hbelow₄, hsh⟩
  · rintro _ s₄ ⟨f', D', hbelow, hsh⟩
    refine hsh.leave.bind ?_
    rintro _ s₅ ⟨hsh', -⟩
    exact .pure ⟨D', hbelow, hsh'⟩

/-- No region of the entry is closed, and no value is defined in it. -/
theorem sound_entry (a : Assembler) (id : FunctionId) (params : Nat) :
    ((a.newBody id).addRegion "entry").Sound params := by
  have hregion (q : Nat) (g : Region) (hg : ((a.newBody id).addRegion "entry").regions[q]? = some g) :
      g = ⟨"entry", #[], none⟩ := by
    rw [Body.getElem?_addRegion] at hg
    split at hg
    · exact (Option.some.inj hg).symm
    · cases hg
  refine ⟨⟨Body.live_addRegion _ "entry" (by decide), ?_, ?_, fun v hv => (nomatch hv)⟩, ?_⟩
  · intro q g hg k i hi
    rw [hregion q g hg] at hi
    cases hi
  · intro q g t hg ht
    rw [hregion q g hg] at ht
    cases ht
  · intro q g hg _
    rw [hregion q g hg]
    exact ⟨fun k i hi => (nomatch hi), fun t ht => (nomatch ht)⟩

theorem Shaping.finished {Γ : Frames SlotId} {D : Body} {s : Session Recording} (h : Shaping T Γ D [] s)
    {d : Declaration} (hd : s.played.assembler.declaration? D.name = some d) :
    s.played.assembler.finished T.id = .ok { D with params := d.params } := by
  have hnone : (D.regions.toList.find? fun g => g.terminator.isNone) = none := by
    rw [List.find?_eq_none]
    intro g hg hopen
    obtain ⟨q, hq⟩ := List.getElem?_of_mem hg
    refine List.not_mem_nil ((h.opens q).1 ⟨g, ?_, Option.isNone_iff_eq_none.1 hopen⟩)
    rwa [← Array.getElem?_toList]
  unfold Assembler.finished
  rw [h.draft]
  dsimp only
  rw [hnone]
  dsimp only
  rw [hd]

/-- The body without open regions is finished. -/
theorem Shaping.finish {Γ : Frames SlotId} {D : Body} {s : Session Recording} (h : Shaping T Γ D [] s)
    {d : Declaration} (hd : s.played.assembler.declaration? D.name = some d) (hn : d.params = T.params) (pos : Pos) :
    Builds (finish pos T.id) s fun body s' => body.WellFormed ∧ s'.assembler.behind = [] := by
  have hfin : Emitter.finish s.assembler T.id =
      (.ok { D with params := d.params }, s.assembler.perform (.finish T.id)) :=
    congrArg (·, s.assembler.perform (.finish T.id)) (h.finished hd)
  have hs : Lowering.finish pos T.id s = .ok { D with params := d.params } (s.operate (.finish T.id)) := by
    unfold Lowering.finish
    rw [hfin]
    rfl
  rw [hn] at hs
  exact .of_ok hs ⟨h.sound.wellFormed fun q hq => List.not_mem_nil ((h.opens q).1 hq), h.timely_operate rfl⟩

end Bodies

/-- A prototype is not refused because of unfinished code. -/
theorem enroll_error_cause {p : Prototype} {s s' : Session Recording} {d : Diagnostic} (h : enroll p s = .error d s')
    (e : FinishError) : d.cause ≠ .unfinished e := by
  have herr : s.registry.enroll p = .error d := by
    cases hr : s.registry.enroll p with
    | error d' =>
      simp only [enroll, hr] at h
      cases h
      rfl
    | ok R =>
      simp only [enroll, hr] at h
      cases h
  unfold Registry.enroll at herr
  split at herr
  · cases herr
    intro he
    cases he
  · split at herr
    · cases herr
      intro he
      cases he
    · split at herr
      · cases herr
        intro he
        cases he
      · exact settleEntry_error herr e

/-- The session that has recorded the entry region of the function `id`, and the insertion point in it. -/
def started (id : FunctionId) (s : Session Recording) : Session Recording :=
  (s.operate (.addRegion id "entry")).operate (.moveTo (s.played.assembler.addRegion id "entry").1)

theorem played_started (id : FunctionId) (s : Session Recording) : (started id s).played = begun id s.played := by
  unfold started begun
  rw [Session.played_operate, Session.played_operate]
  rfl

theorem behind_started (id : FunctionId) (s : Session Recording) :
    (started id s).assembler.behind = s.assembler.behind :=
  (Recording.behind_perform_of_none _ (.moveTo _) rfl).trans (s.assembler.behind_perform_of_none (.addRegion id _) rfl)

theorem lowerBody_started (f : Function) (id : FunctionId) (s : Session Recording) :
    lowerBody f id s = (lowerCode f (s.played.assembler.addRegion id "entry").1 >>= fun _ => finish f.proto.pos id)
      (started id s) := rfl

section Functions

variable {f : Function} {s : Session Recording} (hl : Linked s.registry s.played.assembler)
  (hi : s.played.assembler.Idle) (hb : s.assembler.behind = [])

include hl hi hb

theorem lowerBody_builds {s₁ : Session Recording} {o : Registry.Opening}
    (he : enroll f.proto { s with scopes := .empty } = .ok o s₁) :
    Builds (lowerBody f o.id) (opened f s₁) fun body t => body.WellFormed ∧ t.assembler.behind = [] := by
  obtain ⟨he', hb₁⟩ := Records.declares (enroll_records f.proto { s with scopes := .empty }) he
  obtain ⟨D, hw, -, -, -, hname, -, hentry, hD⟩ := begun_writing (s := s.played) hl hi he'
  have hplayed : (started o.id (opened f s₁)).played = begun o.id (opened f s₁.played) := played_started _ _
  rw [← hplayed] at hw
  have hbuilding : Building ⟨o.id, f.proto.arity⟩ [] D 0 [] (started o.id (opened f s₁)) := by
    refine ⟨⟨hw.toDrafting, hD ▸ sound_entry _ _ _, fun q => ?_, List.nodup_singleton 0, fun b hb => (nomatch hb),
      (behind_started _ _).trans (hb₁.trans hb)⟩, hw.cursor⟩
    rw [hD, Body.open_addRegion, List.mem_singleton]
    exact or_iff_left fun ⟨g, hg, _⟩ => (nomatch hg)
  have hbody := lowerBody_started f o.id (opened f s₁)
  change _ = (lowerCode f ((opened f s₁.played).assembler.addRegion o.id "entry").1 >>= _) _ at hbody
  rw [hentry] at hbody
  unfold Builds
  rw [hbody]
  have hplace : (⟨o.id, 0⟩ : Place).function = o.id := rfl
  refine (lowerCode_builds hplace (Nat.le_refl f.proto.arity) hbuilding).outcome.bind ?_
  rintro _ t ⟨hcode, D', hbelow, hsh⟩
  obtain ⟨ops, hrecords⟩ := lowerCode_records f ⟨o.id, 0⟩ (started o.id (opened f s₁))
  have hfollows := lowerCode_follows f ⟨o.id, 0⟩ (begun o.id (opened f s₁.played))
  rw [← hplayed, after_ok (hrecords.ok_of hcode).1, hplayed] at hfollows
  have hdecl : t.played.assembler.declaration? D'.name = some ⟨o.id, f.proto.name, f.proto.arity⟩ := by
    rw [hbelow.name, hname]
    exact declared_opened (s := s.played) hl he' hfollows
  exact hsh.finish hdecl rfl f.proto.pos

theorem lowerFunction_builds :
    Builds (lowerFunction f) s fun body s' => body.WellFormed ∧ s'.assembler.behind = [] := by
  cases he : enroll f.proto { s with scopes := .empty } with
  | error d s₁ =>
    unfold Builds lowerFunction
    rw [he]
    exact enroll_error_cause he
  | ok o s₁ =>
    have hbody := lowerBody_builds hl hi hb he
    unfold Builds at hbody ⊢
    rw [lowerFunction_eq he]
    cases hlower : lowerBody f o.id (opened f s₁) with
    | ok body t =>
      rw [hlower] at hbody
      exact hbody
    | error d t =>
      rw [hlower] at hbody
      exact hbody

end Functions

section Sessions

variable {f : Function} {s s' : Session} (hl : Linked s.registry s.assembler) (hi : s.assembler.Idle)

include hl hi

/-- A function never fails because its code is unfinished. -/
theorem lowerFunction_cause {d : Diagnostic} (h : lowerFunction f s = .error d s') (e : FinishError) :
    d.cause ≠ .unfinished e := by
  obtain ⟨ops, hrecords⟩ := lowerFunction_records f s.recording
  obtain ⟨t, ht⟩ := hrecords.of_error h
  have hbuilds := lowerFunction_builds (f := f) (s := s.recording) hl hi rfl
  rw [Builds, ht] at hbuilds
  exact hbuilds e

/-- The body of a function is well-formed, and of the operations that are performed for it none writes behind a
terminator. -/
theorem lowerFunction_operations {body : Body} (h : lowerFunction f s = .ok body s') :
    body.WellFormed ∧ ∃ ops, lowerFunction f s.recording = .ok body (s'.recorded ⟨s.assembler, ops⟩) ∧
      s'.assembler = s.assembler.run ops ∧ s.assembler.behind ops = [] := by
  obtain ⟨ops, hrecords⟩ := lowerFunction_records f s.recording
  obtain ⟨t, ht, rfl, ha⟩ := hrecords.of_ok h
  have hbuilds := lowerFunction_builds (f := f) (s := s.recording) hl hi rfl
  rw [Builds, ht] at hbuilds
  have ht' : t = t.played.recorded ⟨s.assembler, ops⟩ := by
    cases t
    cases ha
    rfl
  have hplayed : t.played.assembler = s.assembler.run ops := by
    rw [Session.played, ha]
    rfl
  have hbehind : s.assembler.behind ops = t.assembler.behind := by
    rw [ha]
    rfl
  exact ⟨hbuilds.1, ops, ht.trans (congrArg _ ht'), hplayed, hbehind.trans hbuilds.2⟩

end Sessions

end Funclet.Lowering

namespace Funclet

open Lowering

/-- In a reachable session no function fails because its code is unfinished. What it becomes is well-formed, and of the
operations that are performed for it none writes an instruction behind a terminator. -/
theorem lowerFunction_wellFormed {s : Session} (hs : s.Reachable) (f : Function) :
    (∀ d s', lowerFunction f s = .error d s' → ∀ e, d.cause ≠ .unfinished e) ∧
      ∀ body s', lowerFunction f s = .ok body s' → body.WellFormed ∧
        ∃ ops, lowerFunction f s.recording = .ok body (s'.recorded ⟨s.assembler, ops⟩) ∧
          s'.assembler = s.assembler.run ops ∧ s.assembler.behind ops = [] :=
  ⟨fun _ _ h => lowerFunction_cause hs.orderly.linked hs.orderly.idle h,
    fun _ _ h => lowerFunction_operations hs.orderly.linked hs.orderly.idle h⟩

/-- A loop that is left by `RETURN`, here of a text, and goes on after `CONTINUE`, in a function that has been called
before. -/
theorem lowerFunction_wellFormed_loop :
    let pos : Pos := default
    let x : Expr := .var pos "x"
    let caller : Function := ⟨⟨pos, "f", [], .plain⟩, .ret pos (.call pos "g" [.number pos 1])⟩
    let g : Function := ⟨⟨pos, "g", ["x"], .plain⟩, .block pos [] [
      .loop pos x (.cond pos x (.again pos) (some (.ret pos (.text pos "t")))), .print pos [x]]⟩
    let s := ((Session.initial "f" true).compileFunction caller).2
    s.Reachable ∧ (s.compileFunction g).1.map (fun body => body.regions.toList.map Region.label) =
      some ["entry", "loop", "loop.next", "after.loop", "then", "else", "merge", "after.continue", "after.return"] ∧
      ∃ body s', lowerFunction g s = .ok body s' ∧ body.WellFormed ∧
        ∃ ops, lowerFunction g s.recording = .ok body (s'.recorded ⟨s.assembler, ops⟩) ∧
          s'.assembler = s.assembler.run ops ∧ s.assembler.behind ops = [] := by
  intro pos x caller g s
  have hs : s.Reachable := (Session.Reachable.initial _ _).function caller
  have hlabels : (s.compileFunction g).1.map (fun body => body.regions.toList.map Region.label) =
      some ["entry", "loop", "loop.next", "after.loop", "then", "else", "merge", "after.continue", "after.return"] := by
    decide +kernel +zetaReduce
  refine ⟨hs, hlabels, ?_⟩
  cases h : lowerFunction g s with
  | ok body s' => exact ⟨body, s', rfl, (lowerFunction_wellFormed hs g).2 body s' h⟩
  | error d s' =>
    rw [Session.compileFunction, h] at hlabels
    cases hlabels

end Funclet
