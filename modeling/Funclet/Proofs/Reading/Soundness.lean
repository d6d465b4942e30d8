import Funclet.Proofs.Reading.Derivation
import Funclet.Proofs.Reading.Moves

/-!
# What is read has been derived

* `Yields σ items P step` : if `step` succeeds at the front of `items`, it leaves some `rest` with `P`, unless it ends
  in a state with `σ`; it composes (`Yields.bind`, `Yields.andThen`);
* `soundExpressions`, `sound_statements` : every reading step leaves what a derivation of its result leaves. Only a
  statement can succeed without one: where an error in a block was passed over, the state is spoiled;
* `sound_function` : a function is read without an error only where it has been derived.
-/

namespace Funclet

namespace Grammar

def Leads {α : Type} (σ : State → Prop) (s : State) (P : α → List Item → Prop) :
    EStateM.Result Diagnostic State α → Prop
  | .ok a s' => (∃ rest, s' = s.facing rest ∧ P a rest) ∨ σ s'
  | .error _ _ => True

/-- If `step` succeeds at the front of `items`, it has consumed some of them and nothing else has changed, or else the
state it ends in has `σ`. -/
def Yields {α : Type} (σ : State → Prop) (items : List Item) (P : α → List Item → Prop) (step : Read α) : Prop :=
  ∀ s : State, Leads σ s P (step (s.facing items))

/-- If `step` succeeds at the front of `items`, it has consumed some of them and nothing else has changed. -/
abbrev Exact {α : Type} (items : List Item) (P : α → List Item → Prop) (step : Read α) : Prop :=
  Yields (fun _ => False) items P step

theorem exists_of_first {items : List Item} {t : Token} (h : first items = t) (ht : t.Solid) :
    ∃ pos rest, items = ⟨pos, .ok t⟩ :: rest := by
  rcases items with _ | ⟨⟨pos, _ | u⟩, rest⟩
  · subst h
    exact ht.elim
  · subst h
    exact ht.elim
  · subst h
    exact ⟨pos, rest, rfl⟩

/-! ## Sequences -/

namespace Yields

variable {α β : Type} {σ : State → Prop} {items : List Item} {P : α → List Item → Prop} {Q : β → List Item → Prop}

theorem mono {P' : α → List Item → Prop} {x : Read α} (h : Yields σ items P x) (hP : ∀ a rest, P a rest → P' a rest) :
    Yields σ items P' x := by
  intro s
  have hs := h s
  cases hx : x (s.facing items) with
  | ok a s' =>
    rw [hx] at hs
    exact hs.imp_left fun ⟨rest, hrest, ha⟩ => ⟨rest, hrest, hP a rest ha⟩
  | error d s' => trivial

/-- Where the first step is exact, only the second one can end otherwise. -/
theorem bind {x : Read α} {f : α → Read β} (hx : Exact items P x) (hf : ∀ a mid, P a mid → Yields σ mid Q (f a)) :
    Yields σ items Q (x >>= f) := by
  intro s
  have hs := hx s
  change Leads σ s Q (EStateM.bind x f (s.facing items))
  unfold EStateM.bind
  cases h : x (s.facing items) with
  | ok a s' =>
    rw [h] at hs
    obtain ⟨mid, rfl, ha⟩ | hfalse := hs
    · exact hf a mid ha s
    · exact hfalse.elim
  | error d s' => trivial

/-- A state that is spoiled stays so. -/
theorem andThen {x : Read α} {f : α → Read β} (hx : Yields State.Spoiled items P x)
    (hf : ∀ a mid, P a mid → Yields State.Spoiled mid Q (f a)) (hbehaves : ∀ a, Behaves none (f a)) :
    Yields State.Spoiled items Q (x >>= f) := by
  intro s
  have hs := hx s
  change Leads _ s Q (EStateM.bind x f (s.facing items))
  unfold EStateM.bind
  cases h : x (s.facing items) with
  | ok a s' =>
    rw [h] at hs
    obtain ⟨mid, rfl, ha⟩ | hspoiled := hs
    · exact hf a mid ha s
    · have hmoves := (hbehaves a).travels s'
      dsimp only
      cases h' : f a s' with
      | ok b s'' =>
        rw [h'] at hmoves
        exact Or.inr (hmoves.spoiled hspoiled)
      | error d s'' => trivial
  | error d s' => trivial

/-- A step from a spoiled state. -/
theorem spoiled {x : Read α} {s s' : State} (hx : Behaves none x) (hs : s'.Spoiled) :
    Leads State.Spoiled s P (x s') := by
  have hmoves := hx.travels s'
  cases h : x s' with
  | ok a t =>
    rw [h] at hmoves
    exact Or.inr (hmoves.spoiled hs)
  | error d t => trivial

theorem pure {a : α} (h : P a items) : Yields σ items P (pure a) := fun _ => Or.inl ⟨items, rfl, h⟩

theorem fail {cause : Token → Cause} : Yields σ items P (fail cause) := fun _ => trivial

theorem throw {d : Diagnostic} : Yields σ items P (throw d) := fun _ => trivial

theorem ite {c : Prop} [Decidable c] {x y : Read α} (hx : c → Yields σ items P x) (hy : ¬ c → Yields σ items P y) :
    Yields σ items P (if c then x else y) := by
  split
  · exact hx ‹_›
  · exact hy ‹_›

/-- A step whose depth depends on the state. -/
theorem fueled {step : Nat → Read α} (h : ∀ n, Yields σ items P (step n)) : Yields σ items P (fun s => step s.fuel s) :=
  fun s => h (s.facing items).fuel s

theorem peek {f : Token → Read β} (h : Yields σ items Q (f (first items))) : Yields σ items Q (peek >>= f) := by
  intro s
  change Leads σ s Q (f (s.facing items).token (s.facing items))
  rw [State.facing_token]
  exact h s

theorem here {pos : Pos} {t : Token} {f : Pos → Read β} (h : Yields σ (⟨pos, .ok t⟩ :: items) Q (f pos)) :
    Yields σ (⟨pos, .ok t⟩ :: items) Q (here >>= f) := h

/-- A step that starts with a look at the current token. -/
theorem start {f : Pos → Token → Read β}
    (h : ∀ pos t, first items = t → (t.Solid → ∃ rest, items = ⟨pos, .ok t⟩ :: rest) → Yields σ items Q (f pos t)) :
    Yields σ items Q (Grammar.here >>= fun pos => Grammar.peek >>= fun t => f pos t) := by
  intro s
  change Leads σ s Q (f (s.facing items).pos (s.facing items).token (s.facing items))
  refine h _ _ (s.facing_token items).symm (fun ht => ?_) s
  rcases items with _ | ⟨⟨pos, _ | t⟩, rest⟩
  · exact ht.elim
  · exact ht.elim
  · exact ⟨rest, rfl⟩

theorem advance {pos : Pos} {t : Token} {rest : List Item} :
    Exact (⟨pos, .ok t⟩ :: rest) (fun _ rest' => Takes pos t (⟨pos, .ok t⟩ :: rest) rest') advance := by
  intro s
  unfold Grammar.advance
  rw [State.facing_fault?, State.facing_next]
  dsimp only [List.tail_cons]
  cases hfault : faultOf? rest with
  | none => exact Or.inl ⟨rest, rfl, ⟨hfault⟩⟩
  | some d => trivial

theorem take {t : Token} (hfirst : first items = t) (ht : t.Solid) :
    Exact items (fun _ rest => ∃ pos, Takes pos t items rest) Grammar.advance := by
  obtain ⟨pos, rest, rfl⟩ := exists_of_first hfirst ht
  exact Yields.advance.mono fun _ _ h => ⟨pos, h⟩

theorem expect {t : Token} {context : Context} (ht : t.Solid) :
    Exact items (fun _ rest => ∃ pos, Takes pos t items rest) (expect t context) :=
  .peek (.ite (fun hfirst => .take hfirst ht) fun _ => .fail)

theorem expectName {context : NameContext} :
    Exact items (fun name rest => ∃ pos, Takes pos (.ident name) items rest) (expectName context) := by
  refine .peek ?_
  split
  · rename_i name hfirst
    exact .bind (.take hfirst trivial) fun _ _ h => .pure h
  · exact .fail

/-- A name, with the place where it stands. -/
theorem hereName {context : NameContext} {f : Pos → String → Read β}
    (h : ∀ pos name mid, Takes pos (.ident name) items mid → Yields σ mid Q (f pos name)) :
    Yields σ items Q (Grammar.here >>= fun pos => Grammar.expectName context >>= f pos) := by
  rcases items with _ | ⟨⟨pos, _ | t⟩, rest⟩
  · exact fun _ => trivial
  · exact fun _ => trivial
  · refine .here (.bind .expectName ?_)
    rintro name _ ⟨_, ⟨hmid⟩⟩
    exact h pos name rest ⟨hmid⟩

end Yields

/-! ## Expressions -/

structure SoundExpressions (ops : Operators) (n : Nat) : Prop where
  expression : ∀ items, Exact items (fun e => Derives ops (.expression e) items) (expressionFor ops n)
  climb : ∀ items least lhs, Exact items (fun e => Derives ops (.climb least lhs e) items) (climbFor ops n least lhs)
  operand : ∀ items, Exact items (fun e => Derives ops (.operand e) items) (operandFor ops n)
  primary : ∀ items, Exact items (fun e => Derives ops (.primary e) items) (primaryFor ops n)
  arguments : ∀ items, Exact items (fun args => Derives ops (.arguments args) items) (argumentsFor ops n)
  moreArguments : ∀ items, Exact items (fun args => Derives ops (.moreArguments args) items) (moreArgumentsFor ops n)
  bindings : ∀ items, Exact items (fun bs => Derives ops (.bindings bs) items) (bindingsFor ops n)

namespace SoundExpressions

variable {ops : Operators} {n : Nat}

theorem expression_succ (ih : SoundExpressions ops n) (items : List Item) :
    Exact items (fun e => Derives ops (.expression e) items) (expressionFor ops (n + 1)) :=
  .bind (ih.operand items) fun lhs mid hlhs => (ih.climb mid 0 lhs).mono fun _ _ h => .expression hlhs h

theorem climb_succ (ih : SoundExpressions ops n) (items : List Item) (least : Nat) (lhs : Expr) :
    Exact items (fun e => Derives ops (.climb least lhs e) items) (climbFor ops (n + 1) least lhs) := by
  unfold climbFor
  refine .peek ?_
  split
  · rename_i op hfirst
    split
    · rename_i hp
      refine .pure (.climbStop fun p hp' => ?_)
      rw [hfirst, hp] at hp'
      cases hp'
    · rename_i p hp
      refine .ite (fun hlt => .pure (.climbStop fun q hq => ?_)) fun hle => ?_
      · rw [hfirst, hp] at hq
        cases hq
        exact hlt
      · obtain ⟨pos, rest, rfl⟩ := exists_of_first hfirst trivial
        refine .here (.bind .advance fun _ a hop => .bind (ih.operand a) fun operand b hoperand => .peek (.ite ?_ ?_))
        · intro _
          refine .bind (ih.climb b (p + 1) operand) fun rhs c hrhs => (ih.climb c least _).mono fun _ _ h => ?_
          exact .climbOn hop hp (Nat.not_lt.1 hle) hoperand hrhs h
        · -- no operator that binds tighter follows, so the operand is all of the right side
          intro htight
          have hrhs : Derives ops (.climb (p + 1) operand operand) b b := by
            refine .climbStop fun q hq => ?_
            rw [Option.mem_def] at hq
            rw [hq] at htight
            simpa [Nat.lt_succ_iff] using htight
          exact (ih.climb b least _).mono fun _ _ h => .climbOn hop hp (Nat.not_lt.1 hle) hoperand hrhs h
  · rename_i hfirst
    refine .pure (.climbStop fun p hp => ?_)
    cases hsymbol : first items with
    | symbol op => exact (hfirst op hsymbol).elim
    | _ =>
      rw [hsymbol] at hp
      cases hp

theorem operand_succ (ih : SoundExpressions ops n) (items : List Item) :
    Exact items (fun e => Derives ops (.operand e) items) (operandFor ops (n + 1)) := by
  unfold operandFor
  refine .start fun pos t hfirst hitems => ?_
  cases t with
  | symbol op =>
    refine .ite (fun hu => ?_) fun hu => (ih.primary items).mono fun _ _ h => .operand ?_ h
    · obtain ⟨rest, rfl⟩ := hitems trivial
      exact .bind .advance fun _ mid hop => .bind (ih.operand mid) fun _ _ h => .pure (.unary hop hu h)
    · rw [hfirst]
      exact Bool.eq_false_iff.2 hu
  | _ => exact (ih.primary items).mono fun _ _ h => .operand (by rw [hfirst]; rfl) h

theorem primary_succ (ih : SoundExpressions ops n) (items : List Item) :
    Exact items (fun e => Derives ops (.primary e) items) (primaryFor ops (n + 1)) := by
  refine .start fun pos t hfirst hitems => ?_
  cases t with
  | number value =>
    obtain ⟨rest, rfl⟩ := hitems trivial
    exact .bind .advance fun _ _ h => .pure (.number h)
  | ident name =>
    obtain ⟨rest, rfl⟩ := hitems trivial
    refine .bind .advance fun _ a hname => .peek (.ite (fun hopen => ?_) fun hopen => .pure (.var hname hopen))
    refine .bind (.take hopen trivial) fun _ b ⟨pos', hb⟩ => .bind (ih.arguments b) fun args rest hargs => ?_
    exact .pure (.call hname hb hargs)
  | symbol c =>
    obtain ⟨rest, rfl⟩ := hitems trivial
    refine .ite (fun hc => ?_) fun _ => .ite (fun hc => ?_) fun _ => .fail
    · subst hc
      refine .bind .advance fun _ a ha => .bind (ih.expression a) fun inner b hinner => ?_
      exact .bind (.expect trivial) fun _ _ ⟨pos', hclose⟩ => .pure (.group ha hinner hclose)
    · subst hc
      exact .bind .advance fun _ a ha => .bind (ih.operand a) fun operand rest h => .pure (.negation ha h)
  | keyword k =>
    cases k with
    | VAR =>
      obtain ⟨rest, rfl⟩ := hitems trivial
      refine .bind .advance fun _ a ha => .bind (ih.bindings a) fun bs b hbs => ?_
      exact .bind (ih.expression b) fun body rest h => .pure (.letExpr ha hbs h)
    | _ => exact .fail
  | _ => exact .fail

theorem arguments_succ (ih : SoundExpressions ops n) (items : List Item) :
    Exact items (fun args => Derives ops (.arguments args) items) (argumentsFor ops (n + 1)) := by
  refine .peek (.ite (fun hclose => ?_) fun hclose => ?_)
  · exact .bind (.take hclose trivial) fun _ _ ⟨pos, h⟩ => .pure (.noArguments h)
  · exact (ih.moreArguments items).mono fun _ _ h => .arguments hclose h

theorem moreArguments_succ (ih : SoundExpressions ops n) (items : List Item) :
    Exact items (fun args => Derives ops (.moreArguments args) items) (moreArgumentsFor ops (n + 1)) := by
  refine .bind (ih.expression items) fun arg a harg => .peek (.ite (fun hclose => ?_) fun _ => ?_)
  · exact .bind (.take hclose trivial) fun _ _ ⟨pos, h⟩ => .pure (.lastArgument harg h)
  · refine .bind (.expect trivial) fun _ b ⟨pos, hcomma⟩ => .bind (ih.moreArguments b) fun args rest h => ?_
    exact .pure (.nextArgument harg hcomma h)

theorem bindings_succ (ih : SoundExpressions ops n) (items : List Item) :
    Exact items (fun bs => Derives ops (.bindings bs) items) (bindingsFor ops (n + 1)) := by
  unfold bindingsFor
  refine .hereName fun pos name a hname => ?_
  have hmore (init : Option Expr) (b : List Item) (hinit : Derives ops (.initializer init) a b) :
      Exact b (fun bs => Derives ops (.bindings bs) items) (do
        if (← peek) = .symbol ',' then do
          advance
          let more ← bindingsFor ops n
          pure (⟨pos, name, init⟩ :: more)
        else pure [⟨pos, name, init⟩]) := by
    refine .peek (.ite (fun hcomma => ?_) fun hcomma => .pure (.lastBinding hname hinit hcomma))
    refine .bind (.take hcomma trivial) fun _ c htake => ?_
    obtain ⟨pos', hc⟩ := htake
    exact .bind (ih.bindings c) fun more rest h => .pure (.nextBinding hname hinit hc h)
  refine .peek (.ite (fun heq => ?_) fun heq => hmore none a (.noInitializer heq))
  refine .bind (.take heq trivial) fun _ b htake => ?_
  obtain ⟨pos', hb⟩ := htake
  exact .bind (ih.expression b) fun value c h => hmore (some value) c (.initializer hb h)

end SoundExpressions

theorem soundExpressions (ops : Operators) (n : Nat) : SoundExpressions ops n := by
  induction n with
  | zero =>
    exact ⟨fun _ => .fail, fun _ _ _ => .fail, fun _ => .fail, fun _ => .fail, fun _ => .fail, fun _ => .fail,
      fun _ => .fail⟩
  | succ n ih =>
    exact ⟨ih.expression_succ, ih.climb_succ, ih.operand_succ, ih.primary_succ, ih.arguments_succ,
      ih.moreArguments_succ, ih.bindings_succ⟩

theorem sound_expression (ops : Operators) (items : List Item) :
    Exact items (fun e => Derives ops (.expression e) items) (expression ops) :=
  .fueled fun n => (soundExpressions ops n).expression items

theorem sound_bindings (ops : Operators) (items : List Item) :
    Exact items (fun bs => Derives ops (.bindings bs) items) (bindings ops) :=
  .fueled fun n => (soundExpressions ops n).bindings items

/-! ## Statements -/

theorem sound_printItems (ops : Operators) (items : List Item) :
    Exact items (fun is => Derives ops (.printItems is) items) (printItems ops) := by
  refine .fueled fun n => ?_
  induction n generalizing items with
  | zero => exact .fail
  | succ n ih =>
    unfold printItemsFor
    have hmore (i : Expr) (a : List Item) (hi : Derives ops (.printItem i) items a) :
        Exact a (fun is => Derives ops (.printItems is) items) (do
          if (← peek) = .symbol ',' then do
            advance
            let more ← printItemsFor ops n
            pure (i :: more)
          else pure [i]) := by
      refine .peek (.ite (fun hcomma => ?_) fun hcomma => .pure (.lastItem hi hcomma))
      refine .bind (.take hcomma trivial) fun _ b htake => ?_
      obtain ⟨pos, hb⟩ := htake
      exact .bind (ih b) fun more _ h => .pure (.nextItem hi hb h)
    refine .start fun pos t hfirst hitems => ?_
    split
    · rename_i value
      obtain ⟨rest, rfl⟩ := hitems trivial
      exact .bind .advance fun _ a ha => hmore _ a (.text ha)
    · rename_i hne
      refine .bind (sound_expression ops items) fun value a h => hmore _ a (.value (fun v hv => ?_) h)
      exact hne v (hfirst.symm.trans hv)

theorem sound_declarations (ops : Operators) (items : List Item) :
    Exact items (fun bs => Derives ops (.declarations bs) items) (declarations ops) := by
  refine .fueled fun n => ?_
  induction n generalizing items with
  | zero => exact .fail
  | succ n ih =>
    refine .peek (.ite (fun hvar => ?_) fun hvar => .pure (.noDeclarations hvar))
    refine .bind (.take hvar trivial) fun _ a ⟨pos, ha⟩ => .bind (sound_bindings ops a) fun bs b hbs => ?_
    exact .bind (ih b) fun more _ h => .pure (.declarations ha hbs h)

/-- The descents of a given depth into statements leave what a derivation leaves, or a spoiled state. -/
structure SoundStatements (ops : Operators) (n : Nat) : Prop where
  statement : ∀ items, Clean items →
    Yields State.Spoiled items (fun x => Derives ops (.statement x) items) (statementFor ops n)
  block : ∀ items, Clean items →
    Yields State.Spoiled items (fun xs => Derives ops (.block xs) items) (blockFor ops n)

namespace SoundStatements

variable {ops : Operators} {n : Nat} {items : List Item}

/-- The end of a conditional, behind its first branch. -/
theorem otherwise (ih : SoundStatements ops n) {β : Type} {Q : β → List Item → Prop} {f : Option Stmt → Read β}
    (hitems : Clean items) (hf : ∀ no rest, Derives ops (.otherwise no) items rest → Yields State.Spoiled rest Q (f no))
    (hbehaves : ∀ no, Behaves none (f no)) :
    Yields State.Spoiled items Q (do
      if (← peek) = .keyword .ELSE then do
        advance
        let no ← statementFor ops n
        f (some no)
      else f none) := by
  refine .peek (.ite (fun helse => ?_) fun helse => hf none items (.noOtherwise helse))
  refine .bind (.take helse trivial) fun _ a ⟨pos, ha⟩ => ?_
  exact .andThen (ih.statement a (hitems.takes ha)) (fun no rest h => hf (some no) rest (.otherwise ha h)) fun _ =>
    hbehaves _

theorem statement_succ (ih : SoundStatements ops n) (hitems : Clean items) :
    Yields State.Spoiled items (fun x => Derives ops (.statement x) items) (statementFor ops (n + 1)) := by
  unfold statementFor
  refine .start fun pos t hfirst hhead => ?_
  split
  · obtain ⟨rest, rfl⟩ := hhead trivial
    refine .bind .advance fun _ a ha => .bind (.expect trivial) fun _ b ⟨pos', hb⟩ => ?_
    exact .bind (sound_expression ops b) fun _ _ h => .pure (.assign ha hb h)
  · obtain ⟨rest, rfl⟩ := hhead trivial
    exact .bind .advance fun _ a ha => .bind (sound_expression ops a) fun _ _ h => .pure (.ret ha h)
  · obtain ⟨rest, rfl⟩ := hhead trivial
    exact .bind .advance fun _ a ha => .bind (sound_printItems ops a) fun _ _ h => .pure (.print ha h)
  · obtain ⟨rest, rfl⟩ := hhead trivial
    exact .bind .advance fun _ a ha => .pure (.again ha)
  · obtain ⟨rest, rfl⟩ := hhead trivial
    refine .bind .advance fun _ a ha => .bind (sound_expression ops a) fun test b hb => ?_
    refine .bind (.expect trivial) fun _ c ⟨pos', hc⟩ => ?_
    have hclean : Clean c := ((hitems.takes ha).derives hb).takes hc
    refine .andThen (ih.statement c hclean) (fun yes d hd => ?_) ?_
    · refine ih.otherwise (f := fun no => do
        expect (.keyword .FI) .ifEnd
        pure (Stmt.cond pos test yes no)) (hclean.derives hd) (fun no e he => ?_) ?_
      · exact .bind (.expect trivial) fun _ _ ⟨pos'', h⟩ => .pure (.cond ha hb hc hd he h)
      · exact fun no => (Behaves.expect rfl).bind fun _ => .pure _
    · intro yes
      refine .ifIs rfl ?_ ((Behaves.expect rfl).bind fun _ => .pure _)
      exact (behaves_statements ops n).1.bind fun no => (Behaves.expect rfl).bind fun _ => .pure _
  · obtain ⟨rest, rfl⟩ := hhead trivial
    refine .bind .advance fun _ a ha => .bind (sound_expression ops a) fun test b hb => ?_
    refine .bind (.expect trivial) fun _ c ⟨pos', hc⟩ => ?_
    refine .andThen (ih.statement c (((hitems.takes ha).derives hb).takes hc)) (fun body d hd => ?_) fun body =>
      (Behaves.expect rfl).bind fun _ => .pure _
    exact .bind (.expect trivial) fun _ _ ⟨pos'', h⟩ => .pure (.loop ha hb hc hd h)
  · obtain ⟨rest, rfl⟩ := hhead trivial
    refine .bind .advance fun _ a ha => .bind (sound_bindings ops a) fun bs b hb => ?_
    exact .andThen (ih.statement b ((hitems.takes ha).derives hb)) (fun _ _ h => .pure (.letStmt ha hb h)) fun _ =>
      .pure _
  · obtain ⟨rest, rfl⟩ := hhead trivial
    refine .bind .advance fun _ a ha => .bind (sound_declarations ops a) fun bs b hb => ?_
    exact .andThen (ih.block b ((hitems.takes ha).derives hb)) (fun _ _ h => .pure (.braces ha hb h)) fun _ => .pure _
  · exact fun _ => trivial

/-- An error in a statement of a block spoils the state for good. -/
theorem attempted (ih : SoundStatements ops n) (hitems : Clean items) :
    Yields State.Spoiled items (fun xs => Derives ops (.block xs) items) (do
      match ← attempt (statementFor ops n) with
      | .ok stmt => do
        let more ← blockFor ops n
        pure (stmt :: more)
      | .error d => do
        recover d
        blockFor ops n) := by
  intro s
  have hs := ih.statement items hitems s
  change Leads _ s _ (EStateM.bind (attempt (statementFor ops n)) _ (s.facing items))
  unfold EStateM.bind attempt
  have hbehaves := (behaves_statements ops n).2
  cases h : statementFor ops n (s.facing items) with
  | ok x s' =>
    rw [h] at hs
    obtain ⟨mid, rfl, hx⟩ | hspoiled := hs
    · refine Yields.andThen (ih.block mid (hitems.derives hx)) (fun xs _ hxs => .pure ?_) (fun _ => .pure _) s
      exact .blockMore hx hxs
    · exact Yields.spoiled (hbehaves.bind fun _ => .pure _) hspoiled
  | error d s' =>
    -- Reading goes on behind the error, but the function is lost, and it stays so.
    refine Yields.spoiled hbehaves ((Moves.skipFor resumes _ _).spoiled ⟨rfl, ?_⟩)
    exact List.append_ne_nil_of_right_ne_nil _ (List.cons_ne_nil _ _)

theorem block_succ (ih : SoundStatements ops n) (hitems : Clean items) :
    Yields State.Spoiled items (fun xs => Derives ops (.block xs) items) (blockFor ops (n + 1)) := by
  unfold blockFor
  refine .peek (.ite (fun hclose => ?_) fun _ => .ite (fun _ => .fail) fun _ => .ite (fun hinvalid => ?_) fun _ => ?_)
  · refine .bind (.take hclose trivial) fun _ _ htake => ?_
    obtain ⟨pos, h⟩ := htake
    exact .pure (.blockEnd h)
  · exact (hitems.first_ne hinvalid).elim
  · refine .ite (fun _ => ih.attempted hitems) fun _ s => ?_
    change Leads _ s _ (blockFor ops n { (s.facing items).next.report _ with failed := true })
    refine Yields.spoiled (behaves_statements ops n).2 ⟨rfl, ?_⟩
    exact List.append_ne_nil_of_right_ne_nil _ (List.cons_ne_nil _ _)

end SoundStatements

theorem sound_statements (ops : Operators) (n : Nat) : SoundStatements ops n := by
  induction n with
  | zero => exact ⟨fun _ _ => .fail, fun _ _ => .fail⟩
  | succ n ih => exact ⟨fun _ => ih.statement_succ, fun _ => ih.block_succ⟩

/-! ## Functions -/

theorem sound_operatorSymbol (items : List Item) :
    Exact items (fun op rest => (∃ pos, Takes pos (.symbol op) items rest) ∧ isSeparator op = false)
      operatorSymbol := by
  refine .peek ?_
  split
  · rename_i op hfirst
    refine .ite (fun _ => .fail) fun hsep => .bind (.take hfirst trivial) fun _ _ h => .pure ⟨h, ?_⟩
    exact Bool.eq_false_iff.2 hsep
  · exact .fail

theorem sound_precedence (ops : Operators) (items : List Item) :
    Exact items (fun p => Derives ops (.precedence p) items) precedence := by
  refine .peek ?_
  split
  · rename_i x hfirst
    obtain ⟨pos, rest, rfl⟩ := exists_of_first hfirst trivial
    refine .here (.bind .advance fun _ a ha => ?_)
    split
    · rename_i p hp
      exact .pure (.statedPrecedence ha hp)
    · exact .throw
  · rename_i hne
    exact .pure (.defaultPrecedence hne)

theorem sound_parameters (ops : Operators) (items : List Item) :
    Exact items (fun params => Derives ops (.parameters params) items) parameters := by
  have hmore (n : Nat) (items : List Item) :
      Exact items (fun params => Derives ops (.moreParameters params) items) (parametersFor n) := by
    induction n generalizing items with
    | zero => exact .fail
    | succ n ih =>
      refine .bind .expectName fun name a ⟨pos, ha⟩ => .peek (.ite (fun hclose => ?_) fun _ => ?_)
      · exact .bind (.take hclose trivial) fun _ _ ⟨_, h⟩ => .pure (.lastParameter ha h)
      · refine .bind (.expect trivial) fun _ b ⟨_, hb⟩ => .bind (ih b) fun more _ h => ?_
        exact .pure (.nextParameter ha hb h)
  refine .peek (.ite (fun hclose => ?_) fun hclose => ?_)
  · exact .bind (.take hclose trivial) fun _ _ ⟨_, h⟩ => .pure (.noParameters h)
  · exact (Yields.fueled fun n => hmore n items).mono fun _ _ h => .parameters hclose h

theorem sound_signature (ops : Operators) (items : List Item) :
    Exact items (fun sig rest => ∃ pos, Derives ops (.signature pos sig.1 sig.2) items rest) signature := by
  refine .peek ?_
  split
  · rename_i name hfirst
    exact .bind (.take hfirst trivial) fun _ _ ⟨pos, h⟩ => .pure ⟨pos, .plainSignature h⟩
  · rename_i hfirst
    refine .bind (.take hfirst trivial) fun _ a ⟨pos, ha⟩ =>
      .bind (sound_operatorSymbol a) fun op _ h => .pure ⟨pos, ?_⟩
    obtain ⟨⟨pos', hop⟩, hsep⟩ := h
    exact .unarySignature ha hop hsep
  · rename_i hfirst
    refine .bind (.take hfirst trivial) fun _ a ⟨pos, ha⟩ => .bind (sound_operatorSymbol a) fun op b hb => ?_
    obtain ⟨⟨pos', hop⟩, hsep⟩ := hb
    exact .bind (sound_precedence ops b) fun _ _ h => .pure ⟨pos, .binarySignature ha hop hsep h⟩
  · exact .fail

theorem sound_prototype (ops : Operators) (items : List Item) :
    Exact items (fun proto => Derives ops (.prototype proto) items) prototype := by
  rcases items with _ | ⟨⟨pos, _ | t⟩, rest⟩
  · exact fun _ => trivial
  · exact fun _ => trivial
  · refine .here (.bind (sound_signature ops _) fun sig a ⟨pos', hsig⟩ => ?_)
    obtain ⟨_, _, ⟨_⟩⟩ := hsig.signature_takes
    refine .bind (.expect trivial) fun _ b ⟨_, hb⟩ => .bind (sound_parameters ops b) fun _ _ h => ?_
    exact .pure (.prototype hsig hb h)

/-- A function is read as it is derived, unless an error in one of its blocks was passed over. -/
theorem sound_function (ops : Operators) {pos : Pos} {items : List Item}
    (hitems : Clean (⟨pos, .ok (.keyword .FUNC)⟩ :: items)) :
    Yields State.Spoiled (⟨pos, .ok (.keyword .FUNC)⟩ :: items)
      (fun f => Derives ops (.function f) (⟨pos, .ok (.keyword .FUNC)⟩ :: items)) (function ops) := by
  refine .bind .advance fun _ a ha => .bind (sound_prototype ops a) fun proto b hproto => ?_
  refine .andThen (.fueled fun n => (sound_statements ops n).statement b ((hitems.takes ha).derives hproto))
    (fun body _ h => .pure (.function ha hproto h)) fun _ => .pure _

end Grammar

end Funclet
