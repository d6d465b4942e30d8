import Funclet.Proofs.Reading.Soundness

/-!
# What can be derived is read

* `Gives items a rest step` : at the front of `items`, `step` succeeds with `a` and leaves `rest`; it composes
  (`Gives.bind`);
* `IsRead` : the steps that read a phrase give it, where they may descend as deep as the text is long;
* `Derives.isRead` : every phrase that can be derived is read so, and no bound is in the way of a whole function;
* `Derives.nextFunction` : where a function can be derived, the attempt to read one gives it.
-/

namespace Funclet.Grammar

/-- At the front of `items`, the step succeeds with `a` and leaves `rest`. -/
def Gives {α : Type} (items : List Item) (a : α) (rest : List Item) (step : Read α) : Prop :=
  ∀ s : State, step (s.facing items) = .ok a (s.facing rest)

/-! ## Sequences -/

namespace Gives

variable {α β : Type} {items mid rest : List Item} {a : α} {b : β} {pos : Pos} {t : Token}

theorem bind {x : Read α} {f : α → Read β} (hx : Gives items a mid x) (hf : Gives mid b rest (f a)) :
    Gives items b rest (x >>= f) := by
  intro s
  change EStateM.bind x f (s.facing items) = _
  unfold EStateM.bind
  rw [hx s]
  exact hf s

theorem pure : Gives items a items (pure a) := fun _ => rfl

theorem fueled {step : Nat → Read α} (h : ∀ n, 4 * items.length + 4 ≤ n → Gives items a rest (step n)) :
    Gives items a rest (fun s => step s.fuel s) := by
  intro s
  refine h _ ?_ s
  rw [State.facing_fuel, List.length_tail]
  omega

theorem peek {f : Token → Read β} (h : Gives items b rest (f (first items))) : Gives items b rest (peek >>= f) := by
  intro s
  change f (s.facing items).token (s.facing items) = _
  rw [State.facing_token]
  exact h s

/-- The place of a token that is there. -/
theorem here {f : Pos → Read β} (ht : Takes pos t items mid) (h : Gives items b rest (f pos)) :
    Gives items b rest (here >>= f) := by
  obtain ⟨_⟩ := ht
  exact h

/-- The place of whatever is there. -/
theorem anywhere {f : Pos → Read β} (h : ∀ pos, Gives items b rest (f pos)) : Gives items b rest (Grammar.here >>= f) :=
  fun s => h (s.facing items).pos s

theorem start {f : Pos → Token → Read β} (ht : Takes pos t items mid) (h : Gives items b rest (f pos t)) :
    Gives items b rest (Grammar.here >>= fun pos => Grammar.peek >>= fun t => f pos t) := by
  obtain ⟨_⟩ := ht
  exact h

theorem advance (ht : Takes pos t items rest) : Gives items () rest advance := by
  obtain ⟨hrest⟩ := ht
  intro s
  unfold Grammar.advance
  rw [State.facing_fault?, List.tail_cons, hrest, State.facing_next]
  rfl

theorem take {f : Unit → Read β} (ht : Takes pos t items mid) (h : Gives mid b rest (f ())) :
    Gives items b rest (Grammar.advance >>= f) :=
  (advance ht).bind h

theorem expect {context : Context} (ht : Takes pos t items rest) : Gives items () rest (expect t context) := by
  refine .peek ?_
  rw [if_pos ht.first_eq]
  exact advance ht

theorem expectName {name : String} {context : NameContext} (ht : Takes pos (.ident name) items rest) :
    Gives items name rest (expectName context) := by
  refine .peek ?_
  rw [ht.first_eq]
  exact .take ht .pure

/-- A test of the current token that succeeds. -/
theorem whenIs {x y : Read β} (h : first items = t) (hx : Gives items b rest x) :
    Gives items b rest (do if (← Grammar.peek) = t then x else y) := by
  refine .peek ?_
  rw [if_pos h]
  exact hx

/-- A test of the current token that fails. -/
theorem unlessIs {x y : Read β} (h : first items ≠ t) (hy : Gives items b rest y) :
    Gives items b rest (do if (← Grammar.peek) = t then x else y) := by
  refine .peek ?_
  rw [if_neg h]
  exact hy

/-- A step that may descend is one that may descend one level further down. -/
theorem succ {step : Nat → Read β} {k : Nat} (hk : 0 < k) (h : ∀ n, k ≤ n + 1 → Gives items b rest (step (n + 1))) :
    ∀ n, k ≤ n → Gives items b rest (step n) := by
  intro n hn
  obtain _ | n := n
  · omega
  · exact h n hn

end Gives

/-- The steps that read a phrase give it, where they may descend as deep as the text is long. -/
def IsRead (ops : Operators) (items rest : List Item) : Phrase → Prop
  | .expression e => ∀ n, 4 * items.length + 2 ≤ n → Gives items e rest (expressionFor ops n)
  | .climb least lhs e => ∀ n, 4 * items.length + 3 ≤ n → Gives items e rest (climbFor ops n least lhs)
  | .operand e => ∀ n, 4 * items.length + 1 ≤ n → Gives items e rest (operandFor ops n)
  | .primary e => ∀ n, 4 * items.length ≤ n → Gives items e rest (primaryFor ops n)
  | .arguments args => ∀ n, 4 * items.length + 4 ≤ n → Gives items args rest (argumentsFor ops n)
  | .moreArguments args => ∀ n, 4 * items.length + 3 ≤ n → Gives items args rest (moreArgumentsFor ops n)
  | .initializer init => ∀ n, 4 * items.length ≤ n → ∀ (β : Type) (b : β) (back : List Item) (f : Option Expr → Read β),
      Gives rest b back (f init) → Gives items b back (do
        if (← peek) = .symbol '=' then do
          advance
          let value ← expressionFor ops n
          f (some value)
        else f none)
  | .bindings bs => ∀ n, 4 * items.length ≤ n → Gives items bs rest (bindingsFor ops n)
  | .printItem i => (∃ pos value, i = .text pos value ∧ Takes pos (.text value) items rest) ∨
      (∀ value, first items ≠ .text value) ∧ Gives items i rest (expression ops)
  | .printItems is => ∀ n, items.length < n → Gives items is rest (printItemsFor ops n)
  | .declarations bs => ∀ n, items.length < n → Gives items bs rest (declarationsFor ops n)
  | .otherwise no => ∀ n, 2 * items.length ≤ n → ∀ (β : Type) (b : β) (back : List Item) (f : Option Stmt → Read β),
      Gives rest b back (f no) → Gives items b back (do
        if (← peek) = .keyword .ELSE then do
          advance
          let no ← statementFor ops n
          f (some no)
        else f none)
  | .statement x => ∀ n, 2 * items.length ≤ n → Gives items x rest (statementFor ops n)
  | .block xs => ∀ n, 2 * items.length + 1 ≤ n → Gives items xs rest (blockFor ops n)
  | .precedence p => Gives items p rest precedence
  | .signature _ name kind => Gives items (name, kind) rest signature
  | .parameters params => Gives items params rest parameters
  | .moreParameters params => ∀ n, items.length < n → Gives items params rest (parametersFor n)
  | .prototype proto => Gives items proto rest prototype
  | .function f => Gives items f rest (function ops)

variable {ops : Operators} {φ : Phrase} {items a b c rest : List Item} {pos pos' : Pos}

theorem Derives.length_le (h : Derives ops φ items rest) : rest.length ≤ items.length := h.suffix.length_le

/-! ## Expressions -/

section Expressions

variable {lhs e : Expr}

theorem isRead_expression (ha : a.length < items.length) (hlhs : IsRead ops items a (.operand lhs))
    (h : IsRead ops a rest (.climb 0 lhs e)) : IsRead ops items rest (.expression e) := by
  refine Gives.succ (by omega) fun n hn => ?_
  exact .bind (hlhs n (by omega)) (h n (by omega))

theorem isRead_climbStop {least : Nat} (hstop : ∀ p ∈ ops.precedence? (first items), p < least) :
    IsRead ops items items (.climb least lhs lhs) := by
  refine Gives.succ (by omega) fun n hn => ?_
  unfold climbFor
  refine .peek ?_
  split
  · rename_i op hfirst
    rw [hfirst] at hstop
    split
    · exact .pure
    · rename_i p hp
      rw [if_pos (hstop p hp)]
      exact .pure
  · exact .pure

/-- An operator that binds tight enough is taken, with all on its right that binds tighter. -/
theorem isRead_climbOn {least p : Nat} {lhs operand rhs e : Expr} {op : Char} (hop : Takes pos (.symbol op) items a)
    (hp : ops.precedence? (.symbol op) = some p) (hle : least ≤ p) (hb : b.length < a.length)
    (hc : c.length ≤ b.length) (ihoperand : IsRead ops a b (.operand operand))
    (hrhs : Derives ops (.climb (p + 1) operand rhs) b c) (ihrhs : IsRead ops b c (.climb (p + 1) operand rhs))
    (ih : IsRead ops c rest (.climb least (.binary pos op lhs rhs) e)) :
    IsRead ops items rest (.climb least lhs e) := by
  have hlen := hop.length
  refine Gives.succ (by omega) fun n hn => ?_
  unfold climbFor
  refine .peek ?_
  rw [hop.first_eq]
  simp only [hp, if_neg (Nat.not_lt.2 hle)]
  refine .here hop (.take hop (.bind (ihoperand n (by omega)) (.peek ?_)))
  split
  · exact .bind (ihrhs n (by omega)) (ih n (by omega))
  · rename_i htight
    -- the right side can only be the operand
    cases hrhs with
    | climbStop _ => exact .bind .pure (ih n (by omega))
    | climbOn hop' hp' hle' =>
      rw [hop'.first_eq, hp'] at htight
      simp only [Option.any_some, decide_eq_true_eq] at htight
      omega

theorem isRead_unary {op : Char} (hop : Takes pos (.symbol op) items a) (hu : ops.isUnary (.symbol op) = true)
    (h : IsRead ops a rest (.operand e)) : IsRead ops items rest (.operand (.unary pos op e)) := by
  have hlen := hop.length
  refine Gives.succ (by omega) fun n hn => ?_
  unfold operandFor
  refine .start hop ?_
  simp only [if_pos hu]
  exact .take hop (.bind (h n (by omega)) .pure)

theorem isRead_operand (hu : ops.isUnary (first items) = false) (h : IsRead ops items rest (.primary e)) :
    IsRead ops items rest (.operand e) := by
  refine Gives.succ (by omega) fun n hn => ?_
  unfold operandFor
  refine .anywhere fun pos => .peek ?_
  split
  · rename_i op hfirst
    rw [hfirst] at hu
    rw [if_neg (by rw [hu]; exact Bool.false_ne_true)]
    exact h n (by omega)
  · exact h n (by omega)

theorem isRead_number {value : Float} (h : Takes pos (.number value) items rest) :
    IsRead ops items rest (.primary (.number pos value)) := by
  have hlen := h.length
  refine Gives.succ (by omega) fun n hn => ?_
  exact .start h (.take h .pure)

theorem isRead_var {name : String} (h : Takes pos (.ident name) items rest) (hcall : first rest ≠ .symbol '(') :
    IsRead ops items rest (.primary (.var pos name)) := by
  have hlen := h.length
  refine Gives.succ (by omega) fun n hn => ?_
  exact .start h (.take h (.unlessIs hcall .pure))

theorem isRead_call {name : String} {args : List Expr} (hname : Takes pos (.ident name) items a)
    (hopen : Takes pos' (.symbol '(') a b) (h : IsRead ops b rest (.arguments args)) :
    IsRead ops items rest (.primary (.call pos name args)) := by
  have hlen := hname.length
  have hlen' := hopen.length
  refine Gives.succ (by omega) fun n hn => ?_
  exact .start hname (.take hname (.whenIs hopen.first_eq (.take hopen (.bind (h n (by omega)) .pure))))

theorem isRead_group (hopen : Takes pos (.symbol '(') items a) (h : IsRead ops a b (.expression e))
    (hclose : Takes pos' (.symbol ')') b rest) : IsRead ops items rest (.primary e) := by
  have hlen := hopen.length
  refine Gives.succ (by omega) fun n hn => ?_
  exact .start hopen (.take hopen (.bind (h n (by omega)) (.bind (.expect hclose) .pure)))

theorem isRead_negation (hminus : Takes pos (.symbol '-') items a) (h : IsRead ops a rest (.operand e)) :
    IsRead ops items rest (.primary (.binary pos '-' (.number pos 0) e)) := by
  have hlen := hminus.length
  refine Gives.succ (by omega) fun n hn => ?_
  exact .start hminus (.take hminus (.bind (h n (by omega)) .pure))

theorem isRead_letExpr {bs : List Binding} (hvar : Takes pos (.keyword .VAR) items a) (hb : b.length ≤ a.length)
    (hbs : IsRead ops a b (.bindings bs)) (h : IsRead ops b rest (.expression e)) :
    IsRead ops items rest (.primary (.letIn pos bs e)) := by
  have hlen := hvar.length
  refine Gives.succ (by omega) fun n hn => ?_
  exact .start hvar (.take hvar (.bind (hbs n (by omega)) (.bind (h n (by omega)) .pure)))

theorem isRead_noArguments (hclose : Takes pos (.symbol ')') items rest) : IsRead ops items rest (.arguments []) := by
  refine Gives.succ (by omega) fun n hn => ?_
  exact .whenIs hclose.first_eq (.take hclose .pure)

theorem isRead_arguments {args : List Expr} (hfirst : first items ≠ .symbol ')')
    (h : IsRead ops items rest (.moreArguments args)) : IsRead ops items rest (.arguments args) := by
  refine Gives.succ (by omega) fun n hn => ?_
  exact .unlessIs hfirst (h n (by omega))

theorem isRead_lastArgument (h : IsRead ops items a (.expression e)) (hclose : Takes pos (.symbol ')') a rest) :
    IsRead ops items rest (.moreArguments [e]) := by
  refine Gives.succ (by omega) fun n hn => ?_
  exact .bind (h n (by omega)) (.whenIs hclose.first_eq (.take hclose .pure))

theorem isRead_nextArgument {args : List Expr} (ha : a.length ≤ items.length)
    (hfirst : IsRead ops items a (.expression e)) (hcomma : Takes pos (.symbol ',') a b)
    (h : IsRead ops b rest (.moreArguments args)) :
    IsRead ops items rest (.moreArguments (e :: args)) := by
  have hlen := hcomma.length
  refine Gives.succ (by omega) fun n hn => ?_
  refine .bind (hfirst n (by omega)) (.unlessIs ?_ (.bind (.expect hcomma) (.bind (h n (by omega)) .pure)))
  rw [hcomma.first_eq]
  decide

theorem isRead_initializer (heq : Takes pos (.symbol '=') items a) (h : IsRead ops a rest (.expression e)) :
    IsRead ops items rest (.initializer (some e)) := by
  intro n hn β b back f hf
  have hlen := heq.length
  exact .whenIs heq.first_eq (.take heq (.bind (h n (by omega)) hf))

/-- A binding is read, and then what follows it. -/
theorem isRead_binding {name : String} {init : Option Expr} {bs : List Binding}
    (hname : Takes pos (.ident name) items a) (ihinit : IsRead ops a b (.initializer init))
    (hmore : ∀ n, 4 * a.length ≤ n → Gives b bs rest (do
      if (← peek) = .symbol ',' then do
        advance
        let more ← bindingsFor ops n
        pure (⟨pos, name, init⟩ :: more)
      else pure [⟨pos, name, init⟩])) : IsRead ops items rest (.bindings bs) := by
  have hlen := hname.length
  refine Gives.succ (by omega) fun n hn => ?_
  unfold bindingsFor
  refine .here hname (.bind (.expectName hname) ?_)
  exact ihinit n (by omega) _ _ _ (fun init => do
    if (← peek) = .symbol ',' then do
      advance
      let more ← bindingsFor ops n
      pure (⟨pos, name, init⟩ :: more)
    else pure [⟨pos, name, init⟩]) (hmore n (by omega))

theorem isRead_nextBinding {name : String} {init : Option Expr} {bs : List Binding}
    (hname : Takes pos (.ident name) items a) (hb : b.length ≤ a.length) (hinit : IsRead ops a b (.initializer init))
    (hcomma : Takes pos' (.symbol ',') b c) (h : IsRead ops c rest (.bindings bs)) :
    IsRead ops items rest (.bindings (⟨pos, name, init⟩ :: bs)) := by
  have hlen := hcomma.length
  exact isRead_binding hname hinit fun n hn =>
    .whenIs hcomma.first_eq (.take hcomma (.bind (h n (by omega)) .pure))

end Expressions

/-! ## Statements -/

section Statements

variable {e test : Expr} {x yes : Stmt} {no : Option Stmt} {is : List Expr} {bs cs : List Binding} {xs : List Stmt}
  {d : List Item} {pos'' : Pos}

/-- An item of a `PRINT` is read, and then what follows it. -/
theorem isRead_item {i : Expr} (hi : IsRead ops items a (.printItem i))
    (hmore : ∀ n, items.length ≤ n → Gives a is rest (do
      if (← peek) = .symbol ',' then do
        advance
        let more ← printItemsFor ops n
        pure (i :: more)
      else pure [i])) : IsRead ops items rest (.printItems is) := by
  refine Gives.succ (Nat.succ_pos _) fun n hn => ?_
  unfold printItemsFor
  rcases hi with ⟨pos, value, rfl, htext⟩ | ⟨hne, hi⟩
  · exact .start htext (.take htext (.bind .pure (hmore n (by omega))))
  · refine .anywhere fun pos => .peek ?_
    split
    · rename_i value hvalue
      exact (hne value hvalue).elim
    · exact hi.bind (hmore n (by omega))

theorem isRead_nextItem {i : Expr} (ha : a.length ≤ items.length) (hi : IsRead ops items a (.printItem i))
    (hcomma : Takes pos (.symbol ',') a b) (h : IsRead ops b rest (.printItems is)) :
    IsRead ops items rest (.printItems (i :: is)) := by
  have hlen := hcomma.length
  exact isRead_item hi fun n hn => .whenIs hcomma.first_eq (.take hcomma (.bind (h n (by omega)) .pure))

theorem isRead_noDeclarations (hfirst : first items ≠ .keyword .VAR) :
    IsRead ops items items (.declarations []) := by
  refine Gives.succ (by omega) fun n hn => ?_
  exact .unlessIs hfirst .pure

theorem isRead_declarations (hvar : Takes pos (.keyword .VAR) items a) (hb : b.length ≤ a.length)
    (hbs : IsRead ops a b (.bindings bs)) (h : IsRead ops b rest (.declarations cs)) :
    IsRead ops items rest (.declarations (bs ++ cs)) := by
  have hlen := hvar.length
  refine Gives.succ (by omega) fun n hn => ?_
  refine .whenIs hvar.first_eq (.take hvar (.bind (.fueled fun n hn => hbs n (by omega)) ?_))
  exact .bind (h n (by omega)) .pure

theorem isRead_otherwise (helse : Takes pos (.keyword .ELSE) items a) (h : IsRead ops a rest (.statement x)) :
    IsRead ops items rest (.otherwise (some x)) := by
  intro n hn β b back f hf
  have hlen := helse.length
  exact .whenIs helse.first_eq (.take helse (.bind (h n (by omega)) hf))

theorem isRead_assign {name : String} (hname : Takes pos (.ident name) items a) (hto : Takes pos' .assign a b)
    (h : IsRead ops b rest (.expression e)) : IsRead ops items rest (.statement (.assign pos name e)) := by
  have hlen := hname.length
  refine Gives.succ (by omega) fun n hn => ?_
  unfold statementFor
  exact .start hname (.take hname (.bind (.expect hto) (.bind (.fueled fun n hn => h n (by omega)) .pure)))

theorem isRead_ret (hret : Takes pos (.keyword .RETURN) items a) (h : IsRead ops a rest (.expression e)) :
    IsRead ops items rest (.statement (.ret pos e)) := by
  have hlen := hret.length
  refine Gives.succ (by omega) fun n hn => ?_
  unfold statementFor
  exact .start hret (.take hret (.bind (.fueled fun n hn => h n (by omega)) .pure))

theorem isRead_print (hprint : Takes pos (.keyword .PRINT) items a) (h : IsRead ops a rest (.printItems is)) :
    IsRead ops items rest (.statement (.print pos is)) := by
  have hlen := hprint.length
  refine Gives.succ (by omega) fun n hn => ?_
  unfold statementFor
  exact .start hprint (.take hprint (.bind (.fueled fun n hn => h n (by omega)) .pure))

theorem isRead_again (h : Takes pos (.keyword .CONTINUE) items rest) :
    IsRead ops items rest (.statement (.again pos)) := by
  have hlen := h.length
  refine Gives.succ (by omega) fun n hn => ?_
  unfold statementFor
  exact .start h (.take h .pure)

theorem isRead_cond {f : List Item} (hif : Takes pos (.keyword .IF) items a) (hb : b.length ≤ a.length)
    (htest : IsRead ops a b (.expression test)) (hthen : Takes pos' (.keyword .THEN) b c) (hd : d.length ≤ c.length)
    (hyes : IsRead ops c d (.statement yes)) (hno : IsRead ops d f (.otherwise no))
    (hfi : Takes pos'' (.keyword .FI) f rest) : IsRead ops items rest (.statement (.cond pos test yes no)) := by
  have hlen := hif.length
  have hlen' := hthen.length
  refine Gives.succ (by omega) fun n hn => ?_
  unfold statementFor
  refine .start hif (.take hif (.bind (.fueled fun n hn => htest n (by omega)) (.bind (.expect hthen) ?_)))
  refine .bind (hyes n (by omega)) (hno n (by omega) _ _ _ (fun no => do
    expect (.keyword .FI) .ifEnd
    pure (Stmt.cond pos test yes no)) ?_)
  exact .bind (.expect hfi) .pure

theorem isRead_loop (hwhile : Takes pos (.keyword .WHILE) items a) (hb : b.length ≤ a.length)
    (htest : IsRead ops a b (.expression test)) (hdo : Takes pos' (.keyword .DO) b c)
    (h : IsRead ops c d (.statement x)) (hdone : Takes pos'' (.keyword .DONE) d rest) :
    IsRead ops items rest (.statement (.loop pos test x)) := by
  have hlen := hwhile.length
  have hlen' := hdo.length
  refine Gives.succ (by omega) fun n hn => ?_
  unfold statementFor
  refine .start hwhile (.take hwhile (.bind (.fueled fun n hn => htest n (by omega)) (.bind (.expect hdo) ?_)))
  exact .bind (h n (by omega)) (.bind (.expect hdone) .pure)

theorem isRead_letStmt (hvar : Takes pos (.keyword .VAR) items a) (hb : b.length ≤ a.length)
    (hbs : IsRead ops a b (.bindings bs)) (h : IsRead ops b rest (.statement x)) :
    IsRead ops items rest (.statement (.letIn pos bs x)) := by
  have hlen := hvar.length
  refine Gives.succ (by omega) fun n hn => ?_
  unfold statementFor
  refine .start hvar (.take hvar (.bind (.fueled fun n hn => hbs n (by omega)) ?_))
  exact .bind (h n (by omega)) .pure

theorem isRead_braces (hopen : Takes pos (.symbol '{') items a) (hb : b.length ≤ a.length)
    (hbs : IsRead ops a b (.declarations bs)) (h : IsRead ops b rest (.block xs)) :
    IsRead ops items rest (.statement (.block pos bs xs)) := by
  have hlen := hopen.length
  refine Gives.succ (by omega) fun n hn => ?_
  unfold statementFor
  refine .start hopen (.take hopen (.bind (.fueled fun n hn => hbs n (by omega)) ?_))
  exact .bind (h n (by omega)) .pure

theorem isRead_blockEnd (hclose : Takes pos (.symbol '}') items rest) : IsRead ops items rest (.block []) := by
  refine Gives.succ (by omega) fun n hn => ?_
  unfold blockFor
  refine .peek ?_
  rw [if_pos hclose.first_eq]
  exact .take hclose .pure

/-- A statement of a block is read, and then the block goes on. -/
theorem isRead_blockMore (hx : Derives ops (.statement x) items a)
    (ihx : IsRead ops items a (.statement x)) (ih : IsRead ops a rest (.block xs)) :
    IsRead ops items rest (.block (x :: xs)) := by
  have hlt := hx.length_lt rfl
  have hstart := hx.startsStatement
  refine Gives.succ (by omega) fun n hn => ?_
  unfold blockFor
  refine .peek ?_
  have hclose : first items ≠ .symbol '}' := by
    intro h
    rw [h] at hstart
    cases hstart
  have hend : ¬ (first items = .eof ∨ first items = .keyword .FUNC) := by
    rintro (h | h) <;> rw [h] at hstart <;> cases hstart
  have hinvalid : first items ≠ .invalid := by
    intro h
    rw [h] at hstart
    cases hstart
  rw [if_neg hclose, if_neg hend, if_neg hinvalid, if_pos hstart]
  have hmore : Gives a (x :: xs) rest (do
      let more ← blockFor ops n
      pure (x :: more)) := .bind (ih n (by omega)) .pure
  intro s
  change EStateM.bind (attempt (statementFor ops n)) _ (s.facing items) = _
  unfold EStateM.bind attempt
  rw [ihx n (by omega) s]
  exact hmore s

end Statements

/-! ## Signatures -/

section Signatures

variable {name : String} {op : Char} {params : List String}

theorem isRead_statedPrecedence {value : Float} {p : Nat} (h : Takes pos (.number value) items rest)
    (hp : precedenceOf? value = some p) : IsRead ops items rest (.precedence p) := by
  refine .peek ?_
  rw [h.first_eq]
  refine .here h (.take h ?_)
  rw [hp]
  exact .pure

theorem isRead_defaultPrecedence (hfirst : ∀ value, first items ≠ .number value) :
    IsRead ops items items (.precedence Operators.defaultPrecedence) := by
  refine .peek ?_
  split
  · rename_i x hx
    exact (hfirst x hx).elim
  · exact .pure

theorem isRead_plainSignature (h : Takes pos (.ident name) items rest) :
    IsRead ops items rest (.signature pos name .plain) := by
  refine .peek ?_
  rw [h.first_eq]
  exact .take h .pure

theorem gives_operatorSymbol (hop : Takes pos (.symbol op) items rest) (hsep : isSeparator op = false) :
    Gives items op rest operatorSymbol := by
  refine .peek ?_
  rw [hop.first_eq]
  simp only [hsep, Bool.false_eq_true, if_false]
  exact .take hop .pure

theorem isRead_unarySignature (hunary : Takes pos (.keyword .unary) items a) (hop : Takes pos' (.symbol op) a rest)
    (hsep : isSeparator op = false) : IsRead ops items rest (.signature pos (unaryName op) (.unary op)) := by
  refine .peek ?_
  rw [hunary.first_eq]
  exact .take hunary (.bind (gives_operatorSymbol hop hsep) .pure)

theorem isRead_binarySignature {p : Nat} (hbinary : Takes pos (.keyword .binary) items a)
    (hop : Takes pos' (.symbol op) a b) (hsep : isSeparator op = false) (h : IsRead ops b rest (.precedence p)) :
    IsRead ops items rest (.signature pos (binaryName op) (.binary op p)) := by
  refine .peek ?_
  rw [hbinary.first_eq]
  exact .take hbinary (.bind (gives_operatorSymbol hop hsep) (.bind h .pure))

theorem isRead_lastParameter (hname : Takes pos (.ident name) items a) (hclose : Takes pos' (.symbol ')') a rest) :
    IsRead ops items rest (.moreParameters [name]) := by
  refine Gives.succ (by omega) fun n hn => ?_
  exact .bind (.expectName hname) (.whenIs hclose.first_eq (.take hclose .pure))

theorem isRead_nextParameter (hname : Takes pos (.ident name) items a) (hcomma : Takes pos' (.symbol ',') a b)
    (h : IsRead ops b rest (.moreParameters params)) : IsRead ops items rest (.moreParameters (name :: params)) := by
  have hlen := hname.length
  have hlen' := hcomma.length
  refine Gives.succ (by omega) fun n hn => ?_
  refine .bind (.expectName hname) (.unlessIs ?_ (.bind (.expect hcomma) (.bind (h n (by omega)) .pure)))
  rw [hcomma.first_eq]
  decide

end Signatures

/-! ## All rules -/

/-- Every phrase that can be derived is read. -/
theorem Derives.isRead (h : Derives ops φ items rest) : IsRead ops items rest φ := by
  induction h with
  | expression hlhs _ ihlhs ih => exact isRead_expression (hlhs.length_lt rfl) ihlhs ih
  | climbStop hstop => exact isRead_climbStop hstop
  | climbOn hop hp hle hoperand hrhs _ ihoperand ihrhs ih =>
    exact isRead_climbOn hop hp hle (hoperand.length_lt rfl) hrhs.length_le ihoperand hrhs ihrhs ih
  | unary hop hu _ ih => exact isRead_unary hop hu ih
  | operand hu _ ih => exact isRead_operand hu ih
  | number h => exact isRead_number h
  | var h hcall => exact isRead_var h hcall
  | call hname hopen _ ih => exact isRead_call hname hopen ih
  | group hopen _ hclose ih => exact isRead_group hopen ih hclose
  | negation hminus _ ih => exact isRead_negation hminus ih
  | letExpr hvar hbs _ ihbs ih => exact isRead_letExpr hvar hbs.length_le ihbs ih
  | noArguments hclose => exact isRead_noArguments hclose
  | arguments hfirst _ ih => exact isRead_arguments hfirst ih
  | lastArgument _ hclose ih => exact isRead_lastArgument ih hclose
  | nextArgument harg hcomma _ iharg ih => exact isRead_nextArgument harg.length_le iharg hcomma ih
  | noInitializer hfirst => exact fun n _ β b back f hf => .unlessIs hfirst hf
  | initializer heq _ ih => exact isRead_initializer heq ih
  | lastBinding hname _ hfirst ih => exact isRead_binding hname ih fun n _ => .unlessIs hfirst .pure
  | nextBinding hname hinit hcomma _ ihinit ih => exact isRead_nextBinding hname hinit.length_le ihinit hcomma ih
  | text h => exact .inl ⟨_, _, rfl, h⟩
  | value hfirst _ ih => exact .inr ⟨hfirst, .fueled fun n hn => ih n (by omega)⟩
  | lastItem _ hfirst ih => exact isRead_item ih fun n _ => .unlessIs hfirst .pure
  | nextItem hi hcomma _ ihi ih => exact isRead_nextItem hi.length_le ihi hcomma ih
  | noDeclarations hfirst => exact isRead_noDeclarations hfirst
  | declarations hvar hbs _ ihbs ih => exact isRead_declarations hvar hbs.length_le ihbs ih
  | noOtherwise hfirst => exact fun n _ β b back f hf => .unlessIs hfirst hf
  | otherwise helse _ ih => exact isRead_otherwise helse ih
  | assign hname hto _ ih => exact isRead_assign hname hto ih
  | ret hret _ ih => exact isRead_ret hret ih
  | print hprint _ ih => exact isRead_print hprint ih
  | again h => exact isRead_again h
  | cond hif htest hthen hyes _ hfi ihtest ihyes ihno =>
    exact isRead_cond hif htest.length_le ihtest hthen hyes.length_le ihyes ihno hfi
  | loop hwhile htest hdo _ hdone ihtest ih => exact isRead_loop hwhile htest.length_le ihtest hdo ih hdone
  | letStmt hvar hbs _ ihbs ih => exact isRead_letStmt hvar hbs.length_le ihbs ih
  | braces hopen hbs _ ihbs ih => exact isRead_braces hopen hbs.length_le ihbs ih
  | blockEnd hclose => exact isRead_blockEnd hclose
  | blockMore hx _ ihx ih => exact isRead_blockMore hx ihx ih
  | statedPrecedence h hp => exact isRead_statedPrecedence h hp
  | defaultPrecedence hfirst => exact isRead_defaultPrecedence hfirst
  | plainSignature h => exact isRead_plainSignature h
  | unarySignature hunary hop hsep => exact isRead_unarySignature hunary hop hsep
  | binarySignature hbinary hop hsep _ ih => exact isRead_binarySignature hbinary hop hsep ih
  | lastParameter hname hclose => exact isRead_lastParameter hname hclose
  | nextParameter hname hcomma _ ih => exact isRead_nextParameter hname hcomma ih
  | noParameters hclose => exact .whenIs hclose.first_eq (.take hclose .pure)
  | parameters hfirst _ ih => exact .unlessIs hfirst (.fueled fun n hn => ih n (by omega))
  | prototype hsig hopen _ ihsig ih =>
    obtain ⟨t, mid, ht⟩ := hsig.signature_takes
    exact .here ht (.bind ihsig (.bind (.expect hopen) (.bind ih .pure)))
  | function hfunc _ _ ihproto ih =>
    exact .take hfunc (.bind ihproto (.bind (.fueled fun n hn => ih n (by omega)) .pure))

/-! ## Attempts -/

theorem Derives.function_first {f : Function} (h : Derives ops (.function f) items rest) :
    first items = .keyword .FUNC := by
  cases h with
  | function hfunc => exact hfunc.first_eq

/-- Where the next `FUNC` starts a function, the attempt to read it gives the function. -/
theorem Derives.nextFunction {f : Function} (h : Derives ops (.function f) items rest) {s t : State}
    (hs : { s.toFunction with failed := false } = t.facing items) :
    s.nextFunction ops = (.function f, t.facing rest) := by
  have htoken : s.toFunction.token = .keyword .FUNC := by
    rw [← h.function_first, ← t.facing_token items, ← hs]
  have hfailed : t.failed = false := by
    rw [← t.facing_failed items, ← hs]
  unfold State.nextFunction
  dsimp only
  rw [if_neg (by rw [htoken]; decide), hs, h.isRead t]
  dsimp only
  rw [State.facing_failed, hfailed]
  rfl

end Funclet.Grammar
