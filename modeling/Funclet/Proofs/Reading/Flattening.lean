import Funclet.Proofs.Reading.Acceptance

/-!
# Flattening a function

* `Expr.Flattens`, `Stmt.Flattens`, `Function.Flattens` : the tokens that a tree stands for, in order. Only two things
  are left open: parentheses around expressions, and a subtraction from zero, which a prefix `-` may stand for;
* `Spans items ts rest` : the items up to `rest` are the tokens `ts`, without an error between them;
* `Derives.flattens` : a derivation consumes tokens that its result stands for;
* `nextFunction_flattens` : so does every attempt that gives a function.
-/

namespace Funclet

open Grammar

/-! ## Trees and their tokens -/

mutual

/-- The tokens stand for the expression. -/
inductive Expr.Flattens (ops : Operators) : Expr → List Token → Prop
  | number (pos : Pos) (value : Float) : Expr.Flattens ops (.number pos value) [.number value]
  | var (pos : Pos) (name : String) : Expr.Flattens ops (.var pos name) [.ident name]
  | unary {pos op e ts} (hop : ops.isUnary (.symbol op) = true) (h : Expr.Flattens ops e ts) :
      Expr.Flattens ops (.unary pos op e) (.symbol op :: ts)
  | binary {pos op lhs rhs ts us} (hop : (ops.precedence? (.symbol op)).isSome) (hlhs : Expr.Flattens ops lhs ts)
      (hrhs : Expr.Flattens ops rhs us) : Expr.Flattens ops (.binary pos op lhs rhs) (ts ++ .symbol op :: us)
  | negation {pos pos' e ts} (h : Expr.Flattens ops e ts) :
      Expr.Flattens ops (.binary pos '-' (.number pos' 0) e) (.symbol '-' :: ts)
  | group {e ts} (h : Expr.Flattens ops e ts) : Expr.Flattens ops e (.symbol '(' :: ts ++ [.symbol ')'])
  | call {pos name args ts} (h : FlattenArguments ops args ts) :
      Expr.Flattens ops (.call pos name args) (.ident name :: .symbol '(' :: ts ++ [.symbol ')'])
  | letIn {pos bs e ts us} (hbs : FlattenBindings ops bs ts) (h : Expr.Flattens ops e us) :
      Expr.Flattens ops (.letIn pos bs e) (.keyword .VAR :: ts ++ us)

inductive FlattenArguments (ops : Operators) : List Expr → List Token → Prop
  | nil : FlattenArguments ops [] []
  | last {e ts} (h : Expr.Flattens ops e ts) : FlattenArguments ops [e] ts
  | cons {e e' es ts us} (he : Expr.Flattens ops e ts) (hes : FlattenArguments ops (e' :: es) us) :
      FlattenArguments ops (e :: e' :: es) (ts ++ .symbol ',' :: us)

inductive FlattenBindings (ops : Operators) : List Binding → List Token → Prop
  | last {b ts} (h : FlattenBinding ops b ts) : FlattenBindings ops [b] ts
  | cons {b b' bs ts us} (hb : FlattenBinding ops b ts) (hbs : FlattenBindings ops (b' :: bs) us) :
      FlattenBindings ops (b :: b' :: bs) (ts ++ .symbol ',' :: us)

inductive FlattenBinding (ops : Operators) : Binding → List Token → Prop
  | bare (pos : Pos) (name : String) : FlattenBinding ops ⟨pos, name, none⟩ [.ident name]
  | init {pos name e ts} (h : Expr.Flattens ops e ts) :
      FlattenBinding ops ⟨pos, name, some e⟩ (.ident name :: .symbol '=' :: ts)

end

inductive FlattenItems (ops : Operators) : List Expr → List Token → Prop
  | text (pos : Pos) (value : String) : FlattenItems ops [.text pos value] [.text value]
  | value {e ts} (h : e.Flattens ops ts) : FlattenItems ops [e] ts
  | cons {i j is ts us} (hi : FlattenItems ops [i] ts) (his : FlattenItems ops (j :: is) us) :
      FlattenItems ops (i :: j :: is) (ts ++ .symbol ',' :: us)

/-- The tokens stand for the bindings at the head of a block, in any number of `VAR` lists. -/
inductive FlattenDeclarations (ops : Operators) : List Binding → List Token → Prop
  | nil : FlattenDeclarations ops [] []
  | var {bs cs ts us} (hbs : FlattenBindings ops bs ts) (hcs : FlattenDeclarations ops cs us) :
      FlattenDeclarations ops (bs ++ cs) (.keyword .VAR :: ts ++ us)

mutual

inductive Stmt.Flattens (ops : Operators) : Stmt → List Token → Prop
  | assign {pos name e ts} (h : e.Flattens ops ts) :
      Stmt.Flattens ops (.assign pos name e) (.ident name :: .assign :: ts)
  | ret {pos e ts} (h : e.Flattens ops ts) : Stmt.Flattens ops (.ret pos e) (.keyword .RETURN :: ts)
  | print {pos is ts} (h : FlattenItems ops is ts) : Stmt.Flattens ops (.print pos is) (.keyword .PRINT :: ts)
  | again (pos : Pos) : Stmt.Flattens ops (.again pos) [.keyword .CONTINUE]
  | condThen {pos test yes ts us} (htest : test.Flattens ops ts) (hyes : Stmt.Flattens ops yes us) :
      Stmt.Flattens ops (.cond pos test yes none) (.keyword .IF :: ts ++ .keyword .THEN :: us ++ [.keyword .FI])
  | condElse {pos test yes no ts us vs} (htest : test.Flattens ops ts) (hyes : Stmt.Flattens ops yes us)
      (hno : Stmt.Flattens ops no vs) :
      Stmt.Flattens ops (.cond pos test yes (some no))
        (.keyword .IF :: ts ++ .keyword .THEN :: us ++ .keyword .ELSE :: vs ++ [.keyword .FI])
  | loop {pos test body ts us} (htest : test.Flattens ops ts) (hbody : Stmt.Flattens ops body us) :
      Stmt.Flattens ops (.loop pos test body) (.keyword .WHILE :: ts ++ .keyword .DO :: us ++ [.keyword .DONE])
  | block {pos bs xs ts us} (hbs : FlattenDeclarations ops bs ts) (hxs : FlattenStatements ops xs us) :
      Stmt.Flattens ops (.block pos bs xs) (.symbol '{' :: ts ++ us ++ [.symbol '}'])
  | letIn {pos bs body ts us} (hbs : FlattenBindings ops bs ts) (hbody : Stmt.Flattens ops body us) :
      Stmt.Flattens ops (.letIn pos bs body) (.keyword .VAR :: ts ++ us)

inductive FlattenStatements (ops : Operators) : List Stmt → List Token → Prop
  | nil : FlattenStatements ops [] []
  | cons {x xs ts us} (hx : Stmt.Flattens ops x ts) (hxs : FlattenStatements ops xs us) :
      FlattenStatements ops (x :: xs) (ts ++ us)

end

/-- The tokens stand for the name of a function, or for an operator and its precedence. -/
inductive FlattenSignature : String → FunctionKind → List Token → Prop
  | plain (name : String) : FlattenSignature name .plain [.ident name]
  | unary (op : Char) : FlattenSignature (unaryName op) (.unary op) [.keyword .unary, .symbol op]
  | binary {op x p} (hp : precedenceOf? x = some p) :
      FlattenSignature (binaryName op) (.binary op p) [.keyword .binary, .symbol op, .number x]
  | binaryDefault (op : Char) :
      FlattenSignature (binaryName op) (.binary op Operators.defaultPrecedence) [.keyword .binary, .symbol op]

inductive Prototype.Flattens : Prototype → List Token → Prop
  | intro {pos name params kind ts} (h : FlattenSignature name kind ts) :
      Prototype.Flattens ⟨pos, name, params, kind⟩
        (ts ++ .symbol '(' :: (params.map Token.ident).intersperse (.symbol ',') ++ [.symbol ')'])

inductive Function.Flattens (ops : Operators) : Function → List Token → Prop
  | intro {proto body ts us} (hproto : proto.Flattens ts) (hbody : body.Flattens ops us) :
      Function.Flattens ops ⟨proto, body⟩ (.keyword .FUNC :: ts ++ us)

theorem FlattenBindings.next {ops : Operators} {b : Binding} {bs : List Binding} {ts us : List Token}
    (hb : FlattenBinding ops b ts) (hbs : FlattenBindings ops bs us) :
    FlattenBindings ops (b :: bs) (ts ++ .symbol ',' :: us) := by
  cases hbs with
  | last h => exact .cons hb (.last h)
  | cons h hs => exact .cons hb (.cons h hs)

theorem FlattenItems.next {ops : Operators} {i : Expr} {is : List Expr} {ts us : List Token}
    (hi : FlattenItems ops [i] ts) (his : FlattenItems ops is us) :
    FlattenItems ops (i :: is) (ts ++ .symbol ',' :: us) := by
  cases is with
  | nil => cases his
  | cons j is => exact .cons hi his

namespace Grammar

/-! ## Derivations consume what they stand for -/

/-- The items up to `rest` are the tokens `ts`. -/
def Spans (items : List Item) (ts : List Token) (rest : List Item) : Prop :=
  ∃ front, items = front ++ rest ∧ front.map Item.reading = ts.map Except.ok

variable {ops : Operators} {φ : Phrase} {items mid rest : List Item} {ts us : List Token}

namespace Spans

theorem refl (items : List Item) : Spans items [] items := ⟨[], rfl, rfl⟩

theorem trans (h : Spans items ts mid) (h' : Spans mid us rest) : Spans items (ts ++ us) rest := by
  obtain ⟨front, rfl, hfront⟩ := h
  obtain ⟨back, rfl, hback⟩ := h'
  exact ⟨front ++ back, (List.append_assoc ..).symm, by rw [List.map_append, List.map_append, hfront, hback]⟩

theorem takes {pos : Pos} {t : Token} (h : Takes pos t items rest) : Spans items [t] rest := by
  obtain ⟨_⟩ := h
  exact ⟨[⟨pos, .ok t⟩], rfl, rfl⟩

/-- One token, then more of them. -/
theorem cons {pos : Pos} {t : Token} (h : Takes pos t items mid) (h' : Spans mid us rest) :
    Spans items (t :: us) rest :=
  (takes h).trans h'

end Spans

/-- The tokens stand for what is read. Behind the left operand of a climb they stand for the rest of its result, and
those of a list in parentheses or braces go through the closing one. -/
def Phrase.Flattens (ops : Operators) : Phrase → List Token → Prop
  | .expression e, ts | .operand e, ts | .primary e, ts => e.Flattens ops ts
  | .climb _ lhs e, us => ∀ ts, lhs.Flattens ops ts → e.Flattens ops (ts ++ us)
  | .arguments args, ts => ∃ us, ts = us ++ [.symbol ')'] ∧ FlattenArguments ops args us
  | .moreArguments args, ts => ∃ us, ts = us ++ [.symbol ')'] ∧ FlattenArguments ops args us ∧ args ≠ []
  | .initializer init, ts => ∀ pos name, FlattenBinding ops ⟨pos, name, init⟩ (.ident name :: ts)
  | .bindings bs, ts => FlattenBindings ops bs ts
  | .printItem i, ts => FlattenItems ops [i] ts
  | .printItems is, ts => FlattenItems ops is ts
  | .declarations bs, ts => FlattenDeclarations ops bs ts
  | .otherwise no, vs => ∀ pos test yes ts us, test.Flattens ops ts → yes.Flattens ops us →
      Stmt.Flattens ops (.cond pos test yes no) (.keyword .IF :: ts ++ .keyword .THEN :: us ++ vs ++ [.keyword .FI])
  | .statement x, ts => x.Flattens ops ts
  | .block xs, ts => ∃ us, ts = us ++ [.symbol '}'] ∧ FlattenStatements ops xs us
  | .precedence p, ts => ∀ op, FlattenSignature (binaryName op) (.binary op p) (.keyword .binary :: .symbol op :: ts)
  | .signature _ name kind, ts => FlattenSignature name kind ts
  | .parameters params, ts => ts = (params.map Token.ident).intersperse (.symbol ',') ++ [.symbol ')']
  | .moreParameters params, ts =>
      ts = (params.map Token.ident).intersperse (.symbol ',') ++ [.symbol ')'] ∧ params ≠ []
  | .prototype proto, ts => proto.Flattens ts
  | .function f, ts => f.Flattens ops ts

/-- A derivation consumes tokens that its result stands for. -/
theorem Derives.flattens (h : Derives ops φ items rest) : ∃ ts, Spans items ts rest ∧ φ.Flattens ops ts := by
  induction h with
  | expression _ _ ihlhs ih =>
    obtain ⟨ts, hts, hlhs⟩ := ihlhs
    obtain ⟨us, hus, he⟩ := ih
    exact ⟨ts ++ us, hts.trans hus, he ts hlhs⟩
  | climbStop _ => exact ⟨[], .refl _, fun ts hlhs => (List.append_nil ts).symm ▸ hlhs⟩
  | climbOn hop hp _ _ _ _ ihoperand ihrhs ih =>
    obtain ⟨us, hus, hoperand⟩ := ihoperand
    obtain ⟨vs, hvs, hrhs⟩ := ihrhs
    obtain ⟨ws, hws, he⟩ := ih
    refine ⟨_, .cons hop (hus.trans (hvs.trans hws)), fun ts hlhs => ?_⟩
    -- The climb goes on with the binary expression as its left operand, whose tokens end where it goes on.
    have hbinary := he _ (.binary (by rw [hp]; rfl) hlhs (hrhs us hoperand))
    simpa only [List.append_assoc, List.cons_append] using hbinary
  | unary hop hu _ ih =>
    obtain ⟨ts, hts, he⟩ := ih
    exact ⟨_, .cons hop hts, .unary hu he⟩
  | operand _ _ ih => exact ih
  | number h => exact ⟨_, .takes h, .number _ _⟩
  | var h _ => exact ⟨_, .takes h, .var _ _⟩
  | call hname hopen _ ih =>
    obtain ⟨_, hts, us, rfl, hargs⟩ := ih
    exact ⟨_, .cons hname (.cons hopen hts), .call hargs⟩
  | group hopen _ hclose ih =>
    obtain ⟨ts, hts, he⟩ := ih
    exact ⟨_, .cons hopen (hts.trans (.takes hclose)), .group he⟩
  | negation hminus _ ih =>
    obtain ⟨ts, hts, he⟩ := ih
    exact ⟨_, .cons hminus hts, .negation he⟩
  | letExpr hvar _ _ ihbs ih =>
    obtain ⟨ts, hts, hbs⟩ := ihbs
    obtain ⟨us, hus, he⟩ := ih
    exact ⟨_, .cons hvar (hts.trans hus), .letIn hbs he⟩
  | noArguments hclose => exact ⟨_, .takes hclose, [], rfl, .nil⟩
  | arguments _ _ ih =>
    obtain ⟨ts, hts, us, hus, hargs, _⟩ := ih
    exact ⟨ts, hts, us, hus, hargs⟩
  | lastArgument _ hclose ih =>
    obtain ⟨ts, hts, harg⟩ := ih
    exact ⟨_, hts.trans (.takes hclose), ts, rfl, .last harg, List.cons_ne_nil _ _⟩
  | @nextArgument _ _ args _ _ _ _ _ hcomma _ iharg ih =>
    obtain ⟨ts, hts, harg⟩ := iharg
    obtain ⟨_, hus, us, rfl, hargs, hne⟩ := ih
    refine ⟨_, hts.trans (.cons hcomma hus), ts ++ .symbol ',' :: us, ?_, ?_, List.cons_ne_nil _ _⟩
    · rw [List.append_assoc, List.cons_append]
    · obtain ⟨arg', args', rfl⟩ := List.exists_cons_of_ne_nil hne
      exact .cons harg hargs
  | noInitializer _ => exact ⟨[], .refl _, fun _ _ => .bare _ _⟩
  | initializer heq _ ih =>
    obtain ⟨ts, hts, he⟩ := ih
    exact ⟨_, .cons heq hts, fun _ _ => .init he⟩
  | lastBinding hname _ _ ih =>
    obtain ⟨ts, hts, hinit⟩ := ih
    exact ⟨_, .cons hname hts, .last (hinit _ _)⟩
  | nextBinding hname _ hcomma _ ihinit ih =>
    obtain ⟨ts, hts, hinit⟩ := ihinit
    obtain ⟨us, hus, hbs⟩ := ih
    exact ⟨_, .cons hname (hts.trans (.cons hcomma hus)), .next (hinit _ _) hbs⟩
  | text h => exact ⟨_, .takes h, .text _ _⟩
  | value _ _ ih =>
    obtain ⟨ts, hts, he⟩ := ih
    exact ⟨ts, hts, .value he⟩
  | lastItem _ _ ih => exact ih
  | nextItem _ hcomma _ ihi ih =>
    obtain ⟨ts, hts, hi⟩ := ihi
    obtain ⟨us, hus, his⟩ := ih
    exact ⟨_, hts.trans (.cons hcomma hus), .next hi his⟩
  | noDeclarations _ => exact ⟨[], .refl _, .nil⟩
  | declarations hvar _ _ ihbs ih =>
    obtain ⟨ts, hts, hbs⟩ := ihbs
    obtain ⟨us, hus, hcs⟩ := ih
    exact ⟨_, .cons hvar (hts.trans hus), .var hbs hcs⟩
  | noOtherwise _ =>
    refine ⟨[], .refl _, fun pos test yes ts us htest hyes => ?_⟩
    rw [List.append_nil]
    exact .condThen htest hyes
  | otherwise helse _ ih =>
    obtain ⟨vs, hvs, hno⟩ := ih
    exact ⟨_, .cons helse hvs, fun _ _ _ _ _ htest hyes => .condElse htest hyes hno⟩
  | assign hname hto _ ih =>
    obtain ⟨ts, hts, he⟩ := ih
    exact ⟨_, .cons hname (.cons hto hts), .assign he⟩
  | ret hret _ ih =>
    obtain ⟨ts, hts, he⟩ := ih
    exact ⟨_, .cons hret hts, .ret he⟩
  | print hprint _ ih =>
    obtain ⟨ts, hts, his⟩ := ih
    exact ⟨_, .cons hprint hts, .print his⟩
  | again h => exact ⟨_, .takes h, .again _⟩
  | cond hif _ hthen _ _ hfi ihtest ihyes ihno =>
    obtain ⟨ts, hts, htest⟩ := ihtest
    obtain ⟨us, hus, hyes⟩ := ihyes
    obtain ⟨vs, hvs, hno⟩ := ihno
    refine ⟨_, .cons hif (hts.trans (.cons hthen (hus.trans (hvs.trans (.takes hfi))))), ?_⟩
    change Stmt.Flattens ops _ _
    simpa only [List.append_assoc, List.cons_append] using hno _ _ _ _ _ htest hyes
  | loop hwhile _ hdo _ hdone ihtest ih =>
    obtain ⟨ts, hts, htest⟩ := ihtest
    obtain ⟨us, hus, hbody⟩ := ih
    refine ⟨_, .cons hwhile (hts.trans (.cons hdo (hus.trans (.takes hdone)))), ?_⟩
    change Stmt.Flattens ops _ _
    simpa only [List.append_assoc, List.cons_append] using Stmt.Flattens.loop htest hbody
  | letStmt hvar _ _ ihbs ih =>
    obtain ⟨ts, hts, hbs⟩ := ihbs
    obtain ⟨us, hus, hbody⟩ := ih
    exact ⟨_, .cons hvar (hts.trans hus), .letIn hbs hbody⟩
  | braces hopen _ _ ihbs ih =>
    obtain ⟨ts, hts, hbs⟩ := ihbs
    obtain ⟨_, hus, us, rfl, hxs⟩ := ih
    refine ⟨_, .cons hopen (hts.trans hus), ?_⟩
    change Stmt.Flattens ops _ _
    simpa only [List.append_assoc, List.cons_append] using Stmt.Flattens.block hbs hxs
  | blockEnd hclose => exact ⟨_, .takes hclose, [], rfl, .nil⟩
  | blockMore _ _ ihx ih =>
    obtain ⟨ts, hts, hx⟩ := ihx
    obtain ⟨_, hus, us, rfl, hxs⟩ := ih
    exact ⟨_, hts.trans hus, ts ++ us, (List.append_assoc ..).symm, .cons hx hxs⟩
  | statedPrecedence h hp => exact ⟨_, .takes h, fun _ => .binary hp⟩
  | defaultPrecedence _ => exact ⟨[], .refl _, fun _ => .binaryDefault _⟩
  | plainSignature h => exact ⟨_, .takes h, .plain _⟩
  | unarySignature hunary hop _ => exact ⟨_, .cons hunary (.takes hop), .unary _⟩
  | binarySignature hbinary hop _ _ ih =>
    obtain ⟨ts, hts, hp⟩ := ih
    exact ⟨_, .cons hbinary (.cons hop hts), hp _⟩
  | lastParameter hname hclose => exact ⟨_, .cons hname (.takes hclose), rfl, List.cons_ne_nil _ _⟩
  | nextParameter hname hcomma _ ih =>
    obtain ⟨_, hts, rfl, hne⟩ := ih
    refine ⟨_, .cons hname (.cons hcomma hts), ?_, List.cons_ne_nil _ _⟩
    obtain ⟨param, params, rfl⟩ := List.exists_cons_of_ne_nil hne
    rfl
  | noParameters hclose => exact ⟨_, .takes hclose, rfl⟩
  | parameters _ _ ih =>
    obtain ⟨ts, hts, hparams, _⟩ := ih
    exact ⟨ts, hts, hparams⟩
  | prototype _ hopen _ ihsig ih =>
    obtain ⟨ts, hts, hsig⟩ := ihsig
    obtain ⟨_, hus, rfl⟩ := ih
    refine ⟨_, hts.trans (.cons hopen hus), ?_⟩
    change Prototype.Flattens _ _
    simpa only [List.append_assoc, List.cons_append] using Prototype.Flattens.intro hsig
  | function hfunc _ _ ihproto ih =>
    obtain ⟨ts, hts, hproto⟩ := ihproto
    obtain ⟨us, hus, hbody⟩ := ih
    exact ⟨_, .cons hfunc (hts.trans hus), .intro hproto hbody⟩

/-- An attempt that gives a function starts at a `FUNC` of the text. The tokens from there to the current one are a
derivation of the function, and it stands for just these tokens. All its operators are in force, but for a `-` that may
stand for a sign. -/
theorem nextFunction_flattens {escapes : Bool} {source : String} {s s' : State} {f : Function}
    (hs : Reached escapes source s) (h : s.nextFunction ops = (.function f, s')) :
    s.toFunction.token = .keyword .FUNC ∧ s.toFunction.stream <:+ (scan escapes source).items ∧
      Derives ops (.function f) s.toFunction.stream s'.stream ∧
      (∃ ts, Spans s.toFunction.stream ts s'.stream ∧ f.Flattens ops ts) ∧
      f.body.Uses (Unary ops) (Binary ops) := by
  obtain ⟨htoken, -, -⟩ := State.nextFunction_eq_function h
  have hderives := (hs.derives h).1
  refine ⟨htoken, ?_, hderives, hderives.flattens, hderives.uses⟩
  have hcurrent := ((Moves.toFunction s).within hs.within).current
  unfold State.stream
  rw [htoken] at hcurrent ⊢
  exact hcurrent trivial

/-- A function behind a stray token, with a sign, parentheses and a text. -/
def signText : String := ") FUNC f(a, b) \x7b VAR c = -(a + b) PRINT \"c\", c \x7d"

theorem nextFunction_flattens_sign :
    ∃ f s', (State.ofScan (scan true signText)).nextFunction .initial = (.function f, s') ∧
      f.proto.params = ["a", "b"] ∧
      ∃ ts, Spans (State.ofScan (scan true signText)).toFunction.stream ts s'.stream ∧ f.Flattens .initial ts := by
  have hparams : ((State.ofScan (scan true signText)).nextFunction .initial).1.function?.map (·.proto.params) =
      some ["a", "b"] := by decide +kernel
  obtain ⟨f, hf, hparams⟩ := Option.map_eq_some_iff.1 hparams
  rcases h : State.nextFunction .initial _ with ⟨attempt, s'⟩
  rw [h] at hf
  obtain rfl := Attempt.function?_eq_some.1 hf
  exact ⟨f, s', rfl, hparams, (nextFunction_flattens .start h).2.2.2.1⟩

end Grammar

end Funclet
