import Funclet.Proofs.Reading.Completeness
import Funclet.Proofs.Reading.Rendering
import Funclet.Proofs.Reading.Uniform

/-!
# Rendered functions are read back

* `unplaced` : the items of words, all at one place; `nowhere` moves everything there;
* `Ends` : what may follow an expression, so that the expression does not go on there;
* `Expr.derives`, `Stmt.derives`, `Function.derives` : what is rendered is derived, whatever may follow;
* `nextFunction_render` : and so it is read back, up to positions.
-/

namespace Funclet.Grammar

open Scan

def nowhere : Pos → Pos := fun _ => default

/-- The items of words, all at one place. -/
def unplaced (ws : List Word) : List Item := ws.map fun w => ⟨default, .ok w.token⟩

/-- Brackets and the comma are no operators. -/
def SparesBrackets (ops : Operators) : Prop :=
  ∀ c ∈ ['(', ')', '{', '}', ','], ops.isUnary (.symbol c) = false ∧ ops.precedence? (.symbol c) = none

instance (ops : Operators) : Decidable (SparesBrackets ops) :=
  List.decidableBAll (fun c => ops.isUnary (.symbol c) = false ∧ ops.precedence? (.symbol c) = none) _

/-- What may follow an expression. -/
structure Ends (ops : Operators) (rest : List Item) : Prop where
  faultless : faultOf? rest = none
  noOperator : ops.precedence? (first rest) = none
  noCall : first rest ≠ .symbol '('

/-- What may follow a list of bindings. -/
structure Resumes (ops : Operators) (rest : List Item) : Prop where
  faultless : faultOf? rest = none
  noOperator : ops.precedence? (first rest) = none
  noInitializer : first rest ≠ .symbol '='
  noComma : first rest ≠ .symbol ','

variable {spell : Float → List Char} {bare : Bool} {ops : Operators} {rest : List Item}

/-! ## Words in a row -/

@[simp]
theorem unplaced_nil : unplaced [] = [] := rfl

@[simp]
theorem unplaced_cons (w : Word) (ws : List Word) : unplaced (w :: ws) = ⟨default, .ok w.token⟩ :: unplaced ws := rfl

@[simp]
theorem unplaced_append (ws vs : List Word) : unplaced (ws ++ vs) = unplaced ws ++ unplaced vs := List.map_append

theorem faultOf?_unplaced (ws : List Word) (h : faultOf? rest = none) : faultOf? (unplaced ws ++ rest) = none := by
  cases ws with
  | nil => exact h
  | cons w ws => rfl

/-- A bracket or a comma ends an expression. -/
theorem Ends.separator (hops : SparesBrackets ops) {c : Char} (hc : c ∈ [')', '{', '}', ',']) (pos : Pos)
    (rest : List Item) : Ends ops (⟨pos, .ok (.symbol c)⟩ :: rest) := by
  refine ⟨rfl, (hops c (List.mem_cons_of_mem _ hc)).2, ?_⟩
  rintro ⟨⟩
  exact absurd hc (by decide)

/-- A statement can follow an expression, and a list of bindings too. -/
theorem follows_of_startsStatement (hops : SparesBrackets ops) (hfault : faultOf? rest = none)
    (h : startsStatement (first rest) = true) : Ends ops rest ∧ Resumes ops rest := by
  have hnone : ops.precedence? (first rest) = none := by
    generalize first rest = t at h
    cases t with
    | symbol c =>
      obtain rfl : c = '{' := by unfold startsStatement at h; grind
      exact (hops '{' (by decide)).2
    | _ => rfl
  refine ⟨⟨hfault, hnone, ?_⟩, ⟨hfault, hnone, ?_, ?_⟩⟩ <;> intro hfirst <;> rw [hfirst] at h <;> cases h

/-! ## Expressions -/

/-- An operand with nothing behind it that goes on is an expression. -/
theorem Derives.alone {e : Expr} {items : List Item} (h : Derives ops (.operand e) items rest)
    (hnone : ops.precedence? (first rest) = none) : Derives ops (.expression e) items rest :=
  .expression h (.climbStop (by rw [hnone]; nofun))

/-- The words are read as the expression, whatever may follow. -/
def ReadsAs (ops : Operators) (ws : List Word) (e : Expr) : Prop :=
  ∀ rest, Ends ops rest → Derives ops (.expression e) (unplaced ws ++ rest) rest

theorem ReadsAs.group {ws : List Word} {e : Expr} (hops : SparesBrackets ops) (h : ReadsAs ops ws e)
    (hfault : faultOf? rest = none) : Derives ops (.operand e) (unplaced (enclose false ws) ++ rest) rest := by
  simp only [enclose, Bool.false_eq_true, if_false, unplaced_cons, unplaced_append, unplaced_nil, List.cons_append,
    List.append_assoc, List.nil_append]
  refine .operand (hops '(' (by decide)).1 (.group (.intro (faultOf?_unplaced _ rfl)) (h _ ?_) (.intro hfault))
  exact .separator hops (by decide) _ _

/-- An expression in parentheses unless it is a single word is an operand. -/
theorem ReadsAs.operand {e : Expr} (hops : SparesBrackets ops) (he : e.Expressible spell ops)
    (h : ReadsAs ops (e.words spell) (e.mapPos nowhere))
    (hfault : faultOf? rest = none) (hcall : first rest ≠ .symbol '(') :
    Derives ops (.operand (e.mapPos nowhere)) (unplaced (enclose e.isAtom (e.words spell)) ++ rest) rest := by
  cases e with
  | number pos value => exact .operand rfl (.number (.intro hfault))
  | text pos chars => exact he.elim
  | var pos name => exact .operand rfl (.var (.intro hfault) hcall)
  | unary | binary | call | letIn => exact h.group hops hfault

theorem ReadsAs.whole {e : Expr} (hops : SparesBrackets ops) (he : e.Expressible spell ops)
    (h : ReadsAs ops (e.words spell) (e.mapPos nowhere)) (bare : Bool) :
    ReadsAs ops (e.whole spell bare) (e.mapPos nowhere) := by
  intro rest hrest
  unfold Expr.whole
  cases bare with
  | true => exact h rest hrest
  | false => exact (h.operand hops he hrest.faultless hrest.noCall).alone hrest.noOperator

/-- The first token of an expression in parentheses unless it is a single word. -/
theorem first_enclose {e : Expr} (he : e.Expressible spell ops) (rest : List Item) :
    (∃ value, first (unplaced (enclose e.isAtom (e.words spell)) ++ rest) = .number value) ∨
      (∃ name, first (unplaced (enclose e.isAtom (e.words spell)) ++ rest) = .ident name) ∨
      first (unplaced (enclose e.isAtom (e.words spell)) ++ rest) = .symbol '(' := by
  cases e with
  | number _ value => exact .inl ⟨value, rfl⟩
  | text _ _ => exact he.elim
  | var _ name => exact .inr (.inl ⟨name, rfl⟩)
  | unary | binary | call | letIn => exact .inr (.inr rfl)

/-- Arguments do not start with the closing parenthesis. -/
theorem first_arguments {e : Expr} (he : e.Expressible spell ops) (es : List Expr) :
    first (unplaced (commas (argumentWords spell (e :: es))) ++ rest) ≠ .symbol ')' := by
  obtain ⟨ws, hws⟩ := exists_commas_cons (enclose e.isAtom (e.words spell)) (argumentWords spell es)
  rw [argumentWords, hws, unplaced_append, List.append_assoc]
  rcases first_enclose he (unplaced ws ++ rest) with ⟨_, h⟩ | ⟨_, h⟩ | h <;> rw [h] <;> nofun

/-- An operand can follow a list of bindings. -/
theorem resumes_enclose (hops : SparesBrackets ops) (hfault : faultOf? rest = none) {e : Expr}
    (he : e.Expressible spell ops) : Resumes ops (unplaced (enclose e.isAtom (e.words spell)) ++ rest) := by
  refine ⟨faultOf?_unplaced _ hfault, ?_, ?_, ?_⟩ <;>
    rcases first_enclose he rest with ⟨_, h⟩ | ⟨_, h⟩ | h <;> rw [h]
  · rfl
  · rfl
  · exact (hops '(' (by decide)).2
  all_goals nofun

/-- A name with its initializer goes in front of a list of bindings. -/
theorem derives_binding {name : String} {init : Option Expr} {ws : List Word} {bs : List Binding}
    (hops : SparesBrackets ops)
    (hinit : ∀ rest, faultOf? rest = none → ops.precedence? (first rest) = none → first rest ≠ .symbol '=' →
      Derives ops (.initializer init) (unplaced ws ++ rest) rest)
    (hmore : bs ≠ [] →
      Derives ops (.bindings (mapPosBindings nowhere bs)) (unplaced (commas (bindingWords spell bs)) ++ rest) rest)
    (hrest : Resumes ops rest) :
    Derives ops (.bindings (⟨default, name, init⟩ :: mapPosBindings nowhere bs))
      (unplaced (commas ((.ident name :: ws) :: bindingWords spell bs)) ++ rest) rest := by
  rcases eq_or_ne bs [] with rfl | hbs
  · rw [bindingWords, commas_singleton]
    refine .lastBinding (.intro (faultOf?_unplaced _ hrest.faultless)) ?_ hrest.noComma
    exact hinit rest hrest.faultless hrest.noOperator hrest.noInitializer
  · rw [commas_cons (bindingWords_ne hbs)]
    simp only [unplaced_cons, unplaced_append, List.cons_append, List.append_assoc]
    refine .nextBinding (.intro (faultOf?_unplaced _ rfl)) (hinit _ rfl ?_ nofun) (.intro ?_) (hmore hbs)
    · exact (hops ',' (by decide)).2
    · exact faultOf?_unplaced _ hrest.faultless

mutual

theorem derives_expr (hops : SparesBrackets ops) :
    ∀ e : Expr, e.Expressible spell ops → ReadsAs ops (e.words spell) (e.mapPos nowhere)
  | .number _ _, _, _, hrest => Derives.alone (.operand rfl (.number (.intro hrest.faultless))) hrest.noOperator
  | .var _ _, _, _, hrest => Derives.alone (.operand rfl (.var (.intro hrest.faultless) hrest.noCall)) hrest.noOperator
  | .unary _ op e, ⟨_, hop, he⟩, rest, hrest => by
    have hoperand := (derives_expr hops e he).operand hops he hrest.faultless hrest.noCall
    exact Derives.alone (.unary (.intro (faultOf?_unplaced _ hrest.faultless)) hop hoperand) hrest.noOperator
  | .binary _ op lhs rhs, ⟨hsymbol, hop, hl, hr⟩, rest, hrest => by
    obtain ⟨p, hp⟩ := Option.isSome_iff_exists.1 hop
    -- Neither operand shows an operator of its own, so each climb stops right behind the right one.
    have hstop (least : Nat) : ∀ p ∈ ops.precedence? (first rest), p < least := by
      rw [hrest.noOperator]
      nofun
    have hcall : Token.symbol op ≠ .symbol '(' := by
      rintro ⟨⟩
      exact hsymbol.free (by decide)
    have hrhs := (derives_expr hops rhs hr).operand hops hr hrest.faultless hrest.noCall
    simp only [Expr.words, unplaced_cons, unplaced_append, List.cons_append, List.append_assoc]
    refine .expression ((derives_expr hops lhs hl).operand hops hl rfl hcall) ?_
    refine .climbOn (.intro ?_) hp (Nat.zero_le p) hrhs (.climbStop (hstop _)) (.climbStop (hstop _))
    exact faultOf?_unplaced _ hrest.faultless
  | .call _ name args, ⟨_, hargs⟩, rest, hrest => by
    have hmore := derives_arguments hops args
    simp only [Expr.words, unplaced_cons, unplaced_append, unplaced_nil, List.cons_append, List.append_assoc,
      List.nil_append]
    refine Derives.alone (.operand rfl (.call (.intro rfl) (.intro (faultOf?_unplaced _ rfl)) ?_)) hrest.noOperator
    cases args with
    | nil => exact .noArguments (.intro hrest.faultless)
    | cons e es => exact .arguments (first_arguments hargs.1 es) (hmore nofun hargs rest hrest.faultless)
  | .letIn _ bs e, ⟨hne, hbs, he⟩, rest, hrest => by
    have hbody := ((derives_expr hops e he).operand hops he hrest.faultless hrest.noCall).alone hrest.noOperator
    have hbindings := derives_bindings hops bs hne hbs _ (resumes_enclose hops hrest.faultless he)
    simp only [Expr.words, unplaced_cons, unplaced_append, List.cons_append, List.append_assoc]
    refine Derives.alone (.operand rfl (.letExpr (.intro ?_) hbindings hbody)) hrest.noOperator
    exact faultOf?_unplaced _ (faultOf?_unplaced _ hrest.faultless)
termination_by structural e => e

/-- Arguments are read through the closing parenthesis. -/
theorem derives_arguments (hops : SparesBrackets ops) :
    ∀ es : List Expr, es ≠ [] → expressibleExprs spell ops es → ∀ rest, faultOf? rest = none →
      Derives ops (.moreArguments (mapPosExprs nowhere es))
        (unplaced (commas (argumentWords spell es)) ++ ⟨default, .ok (.symbol ')')⟩ :: rest) rest
  | [], hne, _, _, _ => absurd rfl hne
  | e :: es, _, ⟨he, hes⟩, rest, hfault => by
    have hmore := derives_arguments hops es
    have harg {c : Char} {rest : List Item} (hc : c ∈ [')', '{', '}', ',']) :=
      have hends := Ends.separator hops hc default rest
      ((derives_expr hops e he).operand hops he hends.faultless hends.noCall).alone hends.noOperator
    cases es with
    | nil =>
      rw [argumentWords, argumentWords, commas_singleton]
      exact .lastArgument (harg (by decide)) (.intro hfault)
    | cons e' es =>
      simp only [argumentWords, commas_cons_cons, unplaced_cons, unplaced_append, List.cons_append, List.append_assoc]
      exact .nextArgument (harg (by decide)) (.intro (faultOf?_unplaced _ rfl)) (hmore nofun hes rest hfault)
termination_by structural l => l

theorem derives_bindings (hops : SparesBrackets ops) :
    ∀ bs : List Binding, bs ≠ [] → expressibleBindings spell ops bs → ∀ rest, Resumes ops rest →
      Derives ops (.bindings (mapPosBindings nowhere bs)) (unplaced (commas (bindingWords spell bs)) ++ rest) rest
  | [], hne, _, _, _ => absurd rfl hne
  | ⟨_, name, none⟩ :: bs, _, ⟨_, hbs⟩, rest, hrest => by
    refine derives_binding hops (fun _ _ _ hfirst => ?_) (fun hne => derives_bindings hops bs hne hbs rest hrest) hrest
    exact .noInitializer hfirst
  | ⟨_, name, some e⟩ :: bs, _, ⟨_, he, hbs⟩, rest, hrest => by
    refine derives_binding hops (fun _ hfault hnone _ => ?_) (fun hne => derives_bindings hops bs hne hbs rest hrest)
      hrest
    exact .initializer (.intro (faultOf?_unplaced _ hfault)) (((derives_expr hops e he).group hops hfault).alone hnone)
termination_by structural l => l

end

/-! ## Statements -/

/-- No expression starts with a text. -/
theorem first_whole {e : Expr} (he : e.Expressible spell ops) (value : String) :
    first (unplaced (e.whole spell bare) ++ rest) ≠ .text value := by
  have hatom {e : Expr} (he : e.Expressible spell ops) (rest : List Item) :
      first (unplaced (enclose e.isAtom (e.words spell)) ++ rest) ≠ .text value := by
    rcases first_enclose he rest with ⟨_, h⟩ | ⟨_, h⟩ | h <;> rw [h] <;> nofun
  unfold Expr.whole
  cases bare with
  | false => exact hatom he rest
  | true =>
    cases e with
    | binary _ op lhs rhs =>
      rw [Bool.true_or, enclose, if_pos rfl, Expr.words, unplaced_append, List.append_assoc]
      exact hatom he.2.2.1 _
    | text _ _ => exact he.elim
    | number | var | unary | call | letIn => nofun

theorem derives_printItem (hops : SparesBrackets ops) {e : Expr} (he : e.Listed spell ops) (hrest : Ends ops rest) :
    Derives ops (.printItem (e.mapPos nowhere)) (unplaced (e.whole spell bare) ++ rest) rest := by
  rcases he with htext | he
  · cases e with
    | text _ chars =>
      rw [Expr.whole, Expr.isAtom, Bool.or_true]
      exact .text (.intro hrest.faultless)
    | _ => cases htext
  · exact .value (first_whole he) ((derives_expr hops e he).whole hops he bare rest hrest)

theorem derives_printItems (hops : SparesBrackets ops) {is : List Expr} (hne : is ≠ [])
    (his : ∀ i ∈ is, i.Listed spell ops) (hrest : Ends ops rest) (hcomma : first rest ≠ .symbol ',') :
    Derives ops (.printItems (mapPosExprs nowhere is)) (unplaced (commas (is.map (·.whole spell bare))) ++ rest)
      rest := by
  induction is with
  | nil => exact absurd rfl hne
  | cons i is ih =>
    obtain ⟨hi, his⟩ := List.forall_mem_cons.1 his
    rw [mapPosExprs]
    rcases eq_or_ne is [] with rfl | hmore
    · rw [mapPosExprs, List.map_singleton, commas_singleton]
      exact .lastItem (derives_printItem hops hi hrest) hcomma
    · rw [List.map_cons, commas_cons (mt List.map_eq_nil_iff.1 hmore)]
      simp only [unplaced_cons, unplaced_append, List.cons_append, List.append_assoc]
      refine .nextItem (derives_printItem hops hi ?_) (.intro (faultOf?_unplaced _ hrest.faultless)) (ih hmore his)
      exact .separator hops (by decide) _ _

theorem startsStatement_words (x : Stmt) : startsStatement (first (unplaced (x.words spell bare) ++ rest)) = true := by
  cases x with
  | cond pos test yes no => cases no <;> rfl
  | assign | ret | print | again | loop | block | letIn => rfl

/-- What stands behind the declarations and behind every statement of a block. -/
theorem follows_stmtWords (hops : SparesBrackets ops) (spell : Float → List Char) (bare : Bool) (xs : List Stmt)
    (rest : List Item) :
    Ends ops (unplaced (stmtWords spell bare xs) ++ ⟨default, .ok (.symbol '}')⟩ :: rest) ∧
      Resumes ops (unplaced (stmtWords spell bare xs) ++ ⟨default, .ok (.symbol '}')⟩ :: rest) := by
  cases xs with
  | nil =>
    have hends := Ends.separator hops (c := '}') (by decide) default rest
    exact ⟨hends, rfl, hends.noOperator, nofun, nofun⟩
  | cons x xs =>
    rw [stmtWords, unplaced_append, List.append_assoc]
    exact follows_of_startsStatement hops (faultOf?_unplaced _ (faultOf?_unplaced _ rfl)) (startsStatement_words x)

theorem derives_declarations (hops : SparesBrackets ops) {bs : List Binding} (hbs : expressibleBindings spell ops bs)
    (hrest : Resumes ops rest) (hvar : first rest ≠ .keyword .VAR) :
    Derives ops (.declarations (mapPosBindings nowhere bs)) (unplaced (declarationWords spell bs) ++ rest) rest := by
  cases bs with
  | nil => exact .noDeclarations hvar
  | cons b bs =>
    have hlist := derives_bindings hops (b :: bs) nofun hbs rest hrest
    rw [← List.append_nil (mapPosBindings nowhere (b :: bs))]
    exact .declarations (.intro (faultOf?_unplaced _ hrest.faultless)) hlist (.noDeclarations hvar)

/-- Only a statement of bindings starts with `VAR`. -/
theorem first_stmtWords {xs : List Stmt} (hxs : ∀ x ∈ xs.head?, x.isLet = false) :
    first (unplaced (stmtWords spell bare xs) ++ ⟨default, .ok (.symbol '}')⟩ :: rest) ≠ .keyword .VAR := by
  cases xs with
  | nil => nofun
  | cons x xs =>
    have hx := hxs x rfl
    cases x with
    | letIn => cases hx
    | cond pos test yes no => cases no <;> nofun
    | assign | ret | print | again | loop | block => nofun

mutual

theorem derives_stmt (hops : SparesBrackets ops) :
    ∀ x : Stmt, x.Expressible spell ops → ∀ rest, Ends ops rest → first rest ≠ .symbol ',' →
      Derives ops (.statement (x.mapPos nowhere)) (unplaced (x.words spell bare) ++ rest) rest
  | .assign _ _ e, ⟨_, he⟩, rest, hrest, _ =>
    .assign (.intro rfl) (.intro (faultOf?_unplaced _ hrest.faultless))
      ((derives_expr hops e he).whole hops he bare rest hrest)
  | .ret _ e, he, rest, hrest, _ =>
    .ret (.intro (faultOf?_unplaced _ hrest.faultless)) ((derives_expr hops e he).whole hops he bare rest hrest)
  | .print _ items, ⟨hne, hitems⟩, rest, hrest, hcomma =>
    .print (.intro (faultOf?_unplaced _ hrest.faultless)) (derives_printItems hops hne hitems hrest hcomma)
  | .again _, _, rest, hrest, _ => .again (.intro hrest.faultless)
  | .cond _ test yes none, ⟨htest, hyes⟩, rest, hrest, _ => by
    have htest := (derives_expr hops test htest).whole hops htest bare
    have hyes := derives_stmt hops yes hyes
    simp only [Stmt.words, unplaced_cons, unplaced_append, unplaced_nil, List.cons_append, List.append_assoc,
      List.nil_append]
    refine .cond (.intro (faultOf?_unplaced _ rfl)) (htest _ ⟨rfl, rfl, nofun⟩) (.intro (faultOf?_unplaced _ rfl))
      (hyes _ ⟨rfl, rfl, nofun⟩ nofun) (.noOtherwise nofun) (.intro hrest.faultless)
  | .cond _ test yes (some no), ⟨htest, hyes, hno⟩, rest, hrest, _ => by
    have htest := (derives_expr hops test htest).whole hops htest bare
    have hyes := derives_stmt hops yes hyes
    have hno := derives_stmt hops no hno
    simp only [Stmt.words, unplaced_cons, unplaced_append, unplaced_nil, List.cons_append, List.append_assoc,
      List.nil_append]
    refine .cond (.intro (faultOf?_unplaced _ rfl)) (htest _ ⟨rfl, rfl, nofun⟩) (.intro (faultOf?_unplaced _ rfl))
      (hyes _ ⟨rfl, rfl, nofun⟩ nofun) (.otherwise (.intro (faultOf?_unplaced _ rfl)) (hno _ ⟨rfl, rfl, nofun⟩ nofun))
      (.intro hrest.faultless)
  | .loop _ test body, ⟨htest, hbody⟩, rest, hrest, _ => by
    have htest := (derives_expr hops test htest).whole hops htest bare
    have hbody := derives_stmt hops body hbody
    simp only [Stmt.words, unplaced_cons, unplaced_append, unplaced_nil, List.cons_append, List.append_assoc,
      List.nil_append]
    exact .loop (.intro (faultOf?_unplaced _ rfl)) (htest _ ⟨rfl, rfl, nofun⟩) (.intro (faultOf?_unplaced _ rfl))
      (hbody _ ⟨rfl, rfl, nofun⟩ nofun) (.intro hrest.faultless)
  | .block _ declared body, ⟨hdeclared, hhead, hbody⟩, rest, hrest, _ => by
    have hdeclared := derives_declarations hops hdeclared (follows_stmtWords hops spell bare body rest).2
      (first_stmtWords hhead)
    have hbody := derives_stmts hops body hbody rest hrest.faultless
    simp only [Stmt.words, unplaced_cons, unplaced_append, unplaced_nil, List.cons_append, List.append_assoc,
      List.nil_append]
    exact .braces (.intro (faultOf?_unplaced _ (faultOf?_unplaced _ rfl))) hdeclared hbody
  | .letIn _ bs body, ⟨hne, hbs, hbody⟩, rest, hrest, hcomma => by
    have hbody := derives_stmt hops body hbody rest hrest hcomma
    have hfault := faultOf?_unplaced (body.words spell bare) hrest.faultless
    have hfollows := follows_of_startsStatement hops hfault (startsStatement_words body)
    have hbindings := derives_bindings hops bs hne hbs _ hfollows.2
    simp only [Stmt.words, unplaced_cons, unplaced_append, List.cons_append, List.append_assoc]
    exact .letStmt (.intro (faultOf?_unplaced _ hfault)) hbindings hbody
termination_by structural x => x

/-- Statements are read through the closing brace. -/
theorem derives_stmts (hops : SparesBrackets ops) :
    ∀ xs : List Stmt, expressibleStmts spell ops xs → ∀ rest, faultOf? rest = none →
      Derives ops (.block (mapPosStmts nowhere xs))
        (unplaced (stmtWords spell bare xs) ++ ⟨default, .ok (.symbol '}')⟩ :: rest) rest
  | [], _, rest, hfault => .blockEnd (.intro hfault)
  | x :: xs, ⟨hx, hxs⟩, rest, hfault => by
    obtain ⟨hends, hresumes⟩ := follows_stmtWords hops spell bare xs rest
    rw [stmtWords, unplaced_append, List.append_assoc]
    exact .blockMore (derives_stmt hops x hx _ hends hresumes.noComma) (derives_stmts hops xs hxs rest hfault)
termination_by structural l => l

end

/-! ## Functions -/

theorem derives_parameters (ops : Operators) {names : List String} (hne : names ≠ []) (hfault : faultOf? rest = none) :
    Derives ops (.moreParameters names)
      (unplaced (commas (names.map fun name => [.ident name])) ++ ⟨default, .ok (.symbol ')')⟩ :: rest) rest := by
  induction names with
  | nil => exact absurd rfl hne
  | cons name names ih =>
    rcases eq_or_ne names [] with rfl | hmore
    · exact .lastParameter (.intro rfl) (.intro hfault)
    · rw [List.map_cons, commas_cons (mt List.map_eq_nil_iff.1 hmore)]
      exact .nextParameter (.intro rfl) (.intro (faultOf?_unplaced _ rfl)) (ih hmore)

theorem derives_prototype (ops : Operators) {p : Prototype} (hname : p.kind.Names p.name)
    (hfault : faultOf? rest = none) :
    Derives ops (.prototype (p.mapPos nowhere)) (unplaced p.words ++ rest) rest := by
  obtain ⟨pos, name, params, kind⟩ := p
  have hparams : Derives ops (.parameters params)
      (unplaced (commas (params.map fun name => [.ident name])) ++ ⟨default, .ok (.symbol ')')⟩ :: rest) rest := by
    cases params with
    | nil => exact .noParameters (.intro hfault)
    | cons param params =>
      refine .parameters ?_ (derives_parameters ops nofun hfault)
      obtain ⟨ws, hws⟩ := exists_commas_cons [.ident param] (params.map fun name => [.ident name])
      rw [List.map_cons, hws]
      nofun
  unfold Prototype.words
  simp only [unplaced_cons, unplaced_append, unplaced_nil, List.cons_append, List.append_assoc, List.nil_append]
  cases kind with
  | plain => exact .prototype (.plainSignature (.intro rfl)) (.intro (faultOf?_unplaced _ rfl)) hparams
  | unary op =>
    obtain ⟨hop, rfl⟩ := hname
    exact .prototype (.unarySignature (.intro rfl) (.intro rfl) hop.isSeparator) (.intro (faultOf?_unplaced _ rfl))
      hparams
  | binary op precedence =>
    obtain ⟨hop, rfl, hp⟩ := hname
    have hdigits := (precedence_digits precedence hp).2
    exact .prototype
      (.binarySignature (.intro rfl) (.intro rfl) hop.isSeparator (.statedPrecedence (.intro rfl) hdigits))
      (.intro (faultOf?_unplaced _ rfl)) hparams

theorem derives_function (hops : SparesBrackets ops) {f : Function} (hf : f.Expressible spell ops) (bare : Bool) :
    Derives ops (.function (f.mapPos nowhere)) (unplaced (f.words spell bare)) [] := by
  have hbody : Derives ops (.statement (f.body.mapPos nowhere)) (unplaced (f.body.words spell bare) ++ []) [] :=
    derives_stmt hops f.body hf.body [] ⟨rfl, rfl, nofun⟩ nofun
  rw [List.append_nil] at hbody
  have hfault : faultOf? (unplaced (f.body.words spell bare)) = none := by
    rw [← List.append_nil (unplaced _)]
    exact faultOf?_unplaced _ rfl
  rw [Function.words, unplaced_cons, unplaced_append]
  exact .function (.intro (faultOf?_unplaced _ hfault)) (derives_prototype ops hf.named hfault) hbody

/-- At the start of a text that starts with `FUNC`, the next `FUNC` is the first token. -/
theorem toFunction_start {s : State} (htoken : s.token = .invalid) (hfailed : s.failed = false)
    (hfirst : first s.ahead = .keyword .FUNC) : { s.toFunction with failed := false } = s.facing s.ahead := by
  obtain ⟨token, pos, ahead, ending, failed, reports⟩ := s
  dsimp only at htoken hfailed hfirst
  subst htoken hfailed
  rcases ahead with _ | ⟨⟨pos', _ | t⟩, rest⟩
  · cases hfirst
  · cases hfirst
  · obtain rfl : t = .keyword .FUNC := hfirst
    cases rest <;> rfl

/-- A function that the grammar can express is read back from its text, up to positions, with no report and up to the
end of the text. -/
theorem nextFunction_render {f : Function} (hops : SparesBrackets ops) (hf : f.Expressible spell ops) :
    ∃ g s, (State.ofScan (scan true (f.render spell bare))).nextFunction ops = (.function g, s) ∧
      g.mapPos nowhere = f.mapPos nowhere ∧ s.reports = [] ∧ s.token = .eof ∧ s.ahead = [] := by
  have hitems : (scan true (f.render spell bare)).items.map (·.mapPos nowhere) = unplaced (f.words spell bare) := by
    have hreadings := congrArg (List.map fun r => (⟨default, r⟩ : Item)) (scan_spaced (Function.sound_words hf bare))
    rwa [List.map_map, List.map_map] at hreadings
  have hderives := derives_function hops hf bare
  rw [← hitems] at hderives
  have hread := hderives.nextFunction (toFunction_start (s := (State.ofScan _).mapPos nowhere) rfl rfl
    hderives.function_first)
  rw [State.nextFunction_mapPos] at hread
  obtain ⟨hattempt, hstate⟩ := Prod.mk.inj hread
  generalize (State.ofScan (scan true (f.render spell bare))).nextFunction ops = r at hattempt hstate
  obtain ⟨_ | _ | _, s⟩ := r
  · rename_i g
    have hreports : s.reports.map (·.mapPos nowhere) = [] := congrArg State.reports hstate
    have hahead : s.ahead.map (·.mapPos nowhere) = [] := congrArg State.ahead hstate
    exact ⟨g, s, rfl, Attempt.function.inj hattempt, List.map_eq_nil_iff.1 hreports, congrArg State.token hstate,
      List.map_eq_nil_iff.1 hahead⟩
  · cases hattempt
  · cases hattempt

/-- An operator with declarations, a condition, texts and bindings over an expression. -/
def specimen : Function where
  proto := ⟨default, "binary|", ["a", "b"], .binary '|' 5⟩
  body := .block default [⟨default, "c", some (.number default 1)⟩, ⟨default, "d", none⟩] [
    .cond default (.binary default '<' (.var default "c") (.unary default '!' (.var default "b")))
      (.print default [.text default "\"x\"\n", .call default "f" [.var default "a"]]) none,
    .ret default (.letIn default [⟨default, "e", some (.number default 2.5)⟩]
      (.binary default '*' (.var default "a") (.var default "e")))]

theorem nextFunction_render_specimen :
    ∃ g s, (State.ofScan (scan true ("FUNC binary | 5 ( a , b ) \x7b VAR c = ( 1 ) , d IF c < ( ! b ) THEN PRINT " ++
      "\"\\\"x\\\"\\n\" , f ( a ) FI RETURN VAR e = ( 2.5 ) ( a * e ) \x7d"))).nextFunction
        { Operators.initial with unary := ['!'] } = (.function g, s) ∧
      g.mapPos nowhere = specimen.mapPos nowhere ∧ s.reports = [] ∧ s.token = .eof ∧ s.ahead = [] := by
  have htext : specimen.render (fun x => if x = 1 then ['1'] else ['2', '.', '5']) true =
      "FUNC binary | 5 ( a , b ) \x7b VAR c = ( 1 ) , d IF c < ( ! b ) THEN PRINT " ++
        "\"\\\"x\\\"\\n\" , f ( a ) FI RETURN VAR e = ( 2.5 ) ( a * e ) \x7d" := by decide +kernel
  rw [← htext]
  exact nextFunction_render (by decide) (by decide +kernel)

end Funclet.Grammar
