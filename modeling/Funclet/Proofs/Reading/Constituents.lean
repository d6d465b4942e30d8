import Funclet.Proofs.Positions
import Funclet.Proofs.Reading.Acceptance

/-!
# What trees are made of

* `Expr.All N P`, `Stmt.All N P`, `Function.All N P` : every position of a tree has `N`, and every name in it has `P`;
* `Function.All.mapPos_eq` : where `m` moves no such position, it does not move the tree;
* `Grants` : what follows from the items that are consumed; it composes (`Grants.andThen`);
* `Derives.constituents` : positions and names of a tree are such of the items that it is derived from.
-/

namespace Funclet

/-! ## Trees -/

section Trees

variable (N : Pos → Prop) (P : String → Prop)

mutual

/-- Every position in an expression has `N`, and every name has `P`. -/
def Expr.All : Expr → Prop
  | .number pos _ => N pos
  | .text pos _ => N pos
  | .var pos name => N pos ∧ P name
  | .unary pos _ operand => N pos ∧ operand.All
  | .binary pos _ lhs rhs => N pos ∧ lhs.All ∧ rhs.All
  | .call pos callee args => N pos ∧ P callee ∧ allExprs args
  | .letIn pos bindings body => N pos ∧ allBindings bindings ∧ body.All
termination_by structural e => e

def allExprs : List Expr → Prop
  | [] => True
  | e :: es => e.All ∧ allExprs es
termination_by structural l => l

def allBindings : List Binding → Prop
  | [] => True
  | ⟨pos, name, none⟩ :: bs => N pos ∧ P name ∧ allBindings bs
  | ⟨pos, name, some e⟩ :: bs => N pos ∧ P name ∧ e.All ∧ allBindings bs
termination_by structural l => l

end

mutual

/-- Every position in a statement has `N`, and every name has `P`. -/
def Stmt.All : Stmt → Prop
  | .assign pos name value => N pos ∧ P name ∧ value.All N P
  | .ret pos value => N pos ∧ value.All N P
  | .print pos items => N pos ∧ allExprs N P items
  | .again pos => N pos
  | .cond pos test yes none => N pos ∧ test.All N P ∧ yes.All
  | .cond pos test yes (some no) => N pos ∧ test.All N P ∧ yes.All ∧ no.All
  | .loop pos test body => N pos ∧ test.All N P ∧ body.All
  | .block pos declared body => N pos ∧ allBindings N P declared ∧ allStmts body
  | .letIn pos bindings body => N pos ∧ allBindings N P bindings ∧ body.All
termination_by structural s => s

def allStmts : List Stmt → Prop
  | [] => True
  | s :: ss => s.All ∧ allStmts ss
termination_by structural l => l

end

/-- Every position in a function has `N`. Every name in it has `P`, but for its own. -/
structure Function.All (f : Function) : Prop where
  pos : N f.proto.pos
  params : ∀ name ∈ f.proto.params, P name
  body : f.body.All N P

end Trees

variable {N : Pos → Prop} {P : String → Prop}

theorem allBindings_cons {pos : Pos} {name : String} {init : Option Expr} {bs : List Binding} (hpos : N pos)
    (hname : P name) (hinit : ∀ e ∈ init, e.All N P) (hbs : allBindings N P bs) :
    allBindings N P (⟨pos, name, init⟩ :: bs) := by
  cases init with
  | none => exact ⟨hpos, hname, hbs⟩
  | some e => exact ⟨hpos, hname, hinit e rfl, hbs⟩

/-! ## Any trees -/

mutual

theorem Expr.all_of_forall (hN : ∀ pos, N pos) (hP : ∀ name, P name) : ∀ e : Expr, e.All N P
  | .number pos _ => hN pos
  | .text pos _ => hN pos
  | .var pos name => ⟨hN pos, hP name⟩
  | .unary pos _ operand => ⟨hN pos, Expr.all_of_forall hN hP operand⟩
  | .binary pos _ lhs rhs => ⟨hN pos, Expr.all_of_forall hN hP lhs, Expr.all_of_forall hN hP rhs⟩
  | .call pos callee args => ⟨hN pos, hP callee, allExprs_of_forall hN hP args⟩
  | .letIn pos bindings body => ⟨hN pos, allBindings_of_forall hN hP bindings, Expr.all_of_forall hN hP body⟩
termination_by structural e => e

theorem allExprs_of_forall (hN : ∀ pos, N pos) (hP : ∀ name, P name) : ∀ es : List Expr, allExprs N P es
  | [] => trivial
  | e :: es => ⟨Expr.all_of_forall hN hP e, allExprs_of_forall hN hP es⟩
termination_by structural l => l

theorem allBindings_of_forall (hN : ∀ pos, N pos) (hP : ∀ name, P name) : ∀ bs : List Binding, allBindings N P bs
  | [] => trivial
  | ⟨pos, name, none⟩ :: bs => ⟨hN pos, hP name, allBindings_of_forall hN hP bs⟩
  | ⟨pos, name, some e⟩ :: bs => ⟨hN pos, hP name, Expr.all_of_forall hN hP e, allBindings_of_forall hN hP bs⟩
termination_by structural l => l

end

mutual

theorem Stmt.all_of_forall (hN : ∀ pos, N pos) (hP : ∀ name, P name) : ∀ x : Stmt, x.All N P
  | .assign pos name value => ⟨hN pos, hP name, Expr.all_of_forall hN hP value⟩
  | .ret pos value => ⟨hN pos, Expr.all_of_forall hN hP value⟩
  | .print pos items => ⟨hN pos, allExprs_of_forall hN hP items⟩
  | .again pos => hN pos
  | .cond pos test yes none => ⟨hN pos, Expr.all_of_forall hN hP test, Stmt.all_of_forall hN hP yes⟩
  | .cond pos test yes (some no) =>
    ⟨hN pos, Expr.all_of_forall hN hP test, Stmt.all_of_forall hN hP yes, Stmt.all_of_forall hN hP no⟩
  | .loop pos test body => ⟨hN pos, Expr.all_of_forall hN hP test, Stmt.all_of_forall hN hP body⟩
  | .block pos declared body => ⟨hN pos, allBindings_of_forall hN hP declared, allStmts_of_forall hN hP body⟩
  | .letIn pos bindings body => ⟨hN pos, allBindings_of_forall hN hP bindings, Stmt.all_of_forall hN hP body⟩
termination_by structural x => x

theorem allStmts_of_forall (hN : ∀ pos, N pos) (hP : ∀ name, P name) : ∀ xs : List Stmt, allStmts N P xs
  | [] => trivial
  | x :: xs => ⟨Stmt.all_of_forall hN hP x, allStmts_of_forall hN hP xs⟩
termination_by structural l => l

end

theorem Function.all_of_forall (f : Function) (hN : ∀ pos, N pos) (hP : ∀ name, P name) : f.All N P :=
  ⟨hN _, fun name _ => hP name, Stmt.all_of_forall hN hP f.body⟩

theorem allBindings_append (bs cs : List Binding) (hb : allBindings N P bs) (hc : allBindings N P cs) :
    allBindings N P (bs ++ cs) := by
  induction bs with
  | nil => exact hc
  | cons b bs ih =>
    obtain ⟨pos, name, _ | e⟩ := b
    · exact ⟨hb.1, hb.2.1, ih hb.2.2⟩
    · exact ⟨hb.1, hb.2.1, hb.2.2.1, ih hb.2.2.2⟩

/-! ## Trees that stay where they are -/

section Fixed

variable {m : Pos → Pos}

mutual

theorem Expr.All.mapPos_eq (hm : ∀ p, N p → m p = p) : ∀ e : Expr, e.All N P → e.mapPos m = e
  | .number pos value => fun h => by rw [Expr.mapPos, hm pos h]
  | .text pos chars => fun h => by rw [Expr.mapPos, hm pos h]
  | .var pos name => fun h => by rw [Expr.mapPos, hm pos h.1]
  | .unary pos op operand => fun h => by rw [Expr.mapPos, hm pos h.1, Expr.All.mapPos_eq hm operand h.2]
  | .binary pos op lhs rhs => fun h => by
    rw [Expr.mapPos, hm pos h.1, Expr.All.mapPos_eq hm lhs h.2.1, Expr.All.mapPos_eq hm rhs h.2.2]
  | .call pos callee args => fun h => by rw [Expr.mapPos, hm pos h.1, mapPosExprs_eq hm args h.2.2]
  | .letIn pos bindings body => fun h => by
    rw [Expr.mapPos, hm pos h.1, mapPosBindings_eq hm bindings h.2.1, Expr.All.mapPos_eq hm body h.2.2]
termination_by structural e => e

theorem mapPosExprs_eq (hm : ∀ p, N p → m p = p) : ∀ es : List Expr, allExprs N P es → mapPosExprs m es = es
  | [] => fun _ => rfl
  | e :: es => fun h => by rw [mapPosExprs, Expr.All.mapPos_eq hm e h.1, mapPosExprs_eq hm es h.2]
termination_by structural l => l

theorem mapPosBindings_eq (hm : ∀ p, N p → m p = p) :
    ∀ bs : List Binding, allBindings N P bs → mapPosBindings m bs = bs
  | [] => fun _ => rfl
  | ⟨pos, name, none⟩ :: bs => fun h => by rw [mapPosBindings, hm pos h.1, mapPosBindings_eq hm bs h.2.2]
  | ⟨pos, name, some e⟩ :: bs => fun h => by
    rw [mapPosBindings, hm pos h.1, Expr.All.mapPos_eq hm e h.2.2.1, mapPosBindings_eq hm bs h.2.2.2]
termination_by structural l => l

end

mutual

theorem Stmt.All.mapPos_eq (hm : ∀ p, N p → m p = p) : ∀ x : Stmt, x.All N P → x.mapPos m = x
  | .assign pos name value => fun h => by rw [Stmt.mapPos, hm pos h.1, Expr.All.mapPos_eq hm value h.2.2]
  | .ret pos value => fun h => by rw [Stmt.mapPos, hm pos h.1, Expr.All.mapPos_eq hm value h.2]
  | .print pos items => fun h => by rw [Stmt.mapPos, hm pos h.1, mapPosExprs_eq hm items h.2]
  | .again pos => fun h => by rw [Stmt.mapPos, hm pos h]
  | .cond pos test yes none => fun h => by
    rw [Stmt.mapPos, hm pos h.1, Expr.All.mapPos_eq hm test h.2.1, Stmt.All.mapPos_eq hm yes h.2.2]
  | .cond pos test yes (some no) => fun h => by
    rw [Stmt.mapPos, hm pos h.1, Expr.All.mapPos_eq hm test h.2.1, Stmt.All.mapPos_eq hm yes h.2.2.1,
      Stmt.All.mapPos_eq hm no h.2.2.2]
  | .loop pos test body => fun h => by
    rw [Stmt.mapPos, hm pos h.1, Expr.All.mapPos_eq hm test h.2.1, Stmt.All.mapPos_eq hm body h.2.2]
  | .block pos declared body => fun h => by
    rw [Stmt.mapPos, hm pos h.1, mapPosBindings_eq hm declared h.2.1, mapPosStmts_eq hm body h.2.2]
  | .letIn pos bindings body => fun h => by
    rw [Stmt.mapPos, hm pos h.1, mapPosBindings_eq hm bindings h.2.1, Stmt.All.mapPos_eq hm body h.2.2]
termination_by structural x => x

theorem mapPosStmts_eq (hm : ∀ p, N p → m p = p) : ∀ xs : List Stmt, allStmts N P xs → mapPosStmts m xs = xs
  | [] => fun _ => rfl
  | x :: xs => fun h => by rw [mapPosStmts, Stmt.All.mapPos_eq hm x h.1, mapPosStmts_eq hm xs h.2]
termination_by structural l => l

end

/-- A tree is not moved where none of its positions is. -/
theorem Function.All.mapPos_eq {f : Function} (h : f.All N P) (hm : ∀ p, N p → m p = p) : f.mapPos m = f := by
  rw [Function.mapPos, Prototype.mapPos, hm _ h.pos, Stmt.All.mapPos_eq hm f.body h.body]

end Fixed

namespace Grammar

/-! ## Derived trees -/

/-- The item has `N` and, if it is a name, `P`. -/
def Has (N : Pos → Prop) (P : String → Prop) (item : Item) : Prop :=
  N item.pos ∧ ∀ name, item.reading = .ok (.ident name) → P name

/-- If all items up to `rest` are as stated, then `C` holds. -/
def Grants (N : Pos → Prop) (P : String → Prop) (items rest : List Item) (C : Prop) : Prop :=
  ∃ front, items = front ++ rest ∧ ((∀ item ∈ front, Has N P item) → C)

variable {items mid rest : List Item} {C D : Prop}

namespace Grants

theorem here (h : C) : Grants N P items items C := ⟨[], rfl, fun _ => h⟩

theorem imp (h : Grants N P items rest C) (hD : C → D) : Grants N P items rest D := by
  obtain ⟨front, hfront, hC⟩ := h
  exact ⟨front, hfront, fun hall => hD (hC hall)⟩

theorem andThen (h : Grants N P items mid (C → D)) (h' : Grants N P mid rest C) : Grants N P items rest D := by
  obtain ⟨front, rfl, hD⟩ := h
  obtain ⟨back, rfl, hC⟩ := h'
  refine ⟨front ++ back, (List.append_assoc ..).symm, fun hall => ?_⟩
  exact hD (fun item hitem => hall item (List.mem_append_left _ hitem))
    (hC fun item hitem => hall item (List.mem_append_right _ hitem))

end Grants

theorem Takes.grants {pos : Pos} {t : Token} (h : Takes pos t items rest) :
    Grants N P items rest (N pos ∧ ∀ name, t = .ident name → P name) := by
  obtain ⟨_⟩ := h
  refine ⟨[⟨pos, .ok t⟩], rfl, fun hall => ?_⟩
  obtain ⟨hpos, hname⟩ := hall _ List.mem_cons_self
  exact ⟨hpos, fun name ht => hname name (congrArg Except.ok ht)⟩

/-- The positions and the names of what is read are as stated. The left operand of a climb is not read by it, and
neither is the name of a function among the names. -/
def Phrase.All (N : Pos → Prop) (P : String → Prop) : Phrase → Prop
  | .expression e | .operand e | .primary e | .printItem e => e.All N P
  | .climb _ lhs e => lhs.All N P → e.All N P
  | .arguments es | .moreArguments es | .printItems es => allExprs N P es
  | .initializer init => ∀ e ∈ init, e.All N P
  | .bindings bs | .declarations bs => allBindings N P bs
  | .otherwise no => ∀ x ∈ no, x.All N P
  | .statement x => x.All N P
  | .block xs => allStmts N P xs
  | .precedence _ => True
  | .signature pos _ _ => N pos
  | .parameters params | .moreParameters params => ∀ name ∈ params, P name
  | .prototype proto => N proto.pos ∧ ∀ name ∈ proto.params, P name
  | .function f => f.All N P

/-- Positions and names of a tree are such of the items that it is derived from. -/
theorem Derives.constituents {ops : Operators} {φ : Phrase} (h : Derives ops φ items rest) :
    Grants N P items rest (φ.All N P) := by
  induction h with
  | expression _ _ ihlhs ih => exact (ihlhs.imp fun hlhs h => h hlhs).andThen ih
  | climbStop _ => exact .here id
  | climbOn hop _ _ _ _ _ ihoperand ihrhs ih =>
    refine (((hop.grants.imp ?_).andThen ihoperand).andThen ihrhs).andThen ih
    exact fun hop hoperand hrhs h hlhs => h ⟨hop.1, hlhs, hrhs hoperand⟩
  | unary hop _ _ ih => exact (hop.grants.imp fun hop h => ⟨hop.1, h⟩).andThen ih
  | operand _ _ ih => exact ih
  | number h => exact h.grants.imp And.left
  | var h _ => exact h.grants.imp fun h => ⟨h.1, h.2 _ rfl⟩
  | call hname hopen _ ih =>
    exact ((hname.grants.imp fun hname _ h => ⟨hname.1, hname.2 _ rfl, h⟩).andThen hopen.grants).andThen ih
  | group hopen _ hclose ih => exact ((hopen.grants.imp fun _ h _ => h).andThen ih).andThen hclose.grants
  | negation hminus _ ih => exact (hminus.grants.imp fun hminus h => ⟨hminus.1, hminus.1, h⟩).andThen ih
  | letExpr hvar _ _ ihbs ih => exact ((hvar.grants.imp fun hvar hbs h => ⟨hvar.1, hbs, h⟩).andThen ihbs).andThen ih
  | noArguments hclose => exact hclose.grants.imp fun _ => trivial
  | arguments _ _ ih => exact ih
  | lastArgument _ hclose ih => exact (ih.imp fun h _ => ⟨h, trivial⟩).andThen hclose.grants
  | nextArgument _ hcomma _ iharg ih => exact ((iharg.imp fun harg _ h => ⟨harg, h⟩).andThen hcomma.grants).andThen ih
  | noInitializer _ => exact .here fun _ he => by cases he
  | initializer heq _ ih => exact (heq.grants.imp fun _ h _ he => Option.some.inj he ▸ h).andThen ih
  | lastBinding hname _ _ ih =>
    refine (hname.grants.imp ?_).andThen ih
    exact fun hname h => allBindings_cons hname.1 (hname.2 _ rfl) h trivial
  | nextBinding hname _ hcomma _ ihinit ih =>
    refine (((hname.grants.imp ?_).andThen ihinit).andThen hcomma.grants).andThen ih
    exact fun hname hinit _ h => allBindings_cons hname.1 (hname.2 _ rfl) hinit h
  | text h => exact h.grants.imp And.left
  | value _ _ ih => exact ih
  | lastItem _ _ ih => exact ih.imp fun h => ⟨h, trivial⟩
  | nextItem _ hcomma _ ihi ih => exact ((ihi.imp fun hi _ h => ⟨hi, h⟩).andThen hcomma.grants).andThen ih
  | noDeclarations _ => exact .here trivial
  | declarations hvar _ _ ihbs ih =>
    exact ((hvar.grants.imp fun _ hbs h => allBindings_append _ _ hbs h).andThen ihbs).andThen ih
  | noOtherwise _ => exact .here fun _ hx => by cases hx
  | otherwise helse _ ih => exact (helse.grants.imp fun _ h _ hx => Option.some.inj hx ▸ h).andThen ih
  | assign hname hto _ ih =>
    exact ((hname.grants.imp fun hname _ h => ⟨hname.1, hname.2 _ rfl, h⟩).andThen hto.grants).andThen ih
  | ret hret _ ih => exact (hret.grants.imp fun hret h => ⟨hret.1, h⟩).andThen ih
  | print hprint _ ih => exact (hprint.grants.imp fun hprint h => ⟨hprint.1, h⟩).andThen ih
  | again h => exact h.grants.imp And.left
  | @cond _ _ _ _ _ no _ _ _ _ _ _ _ hif _ hthen _ _ hfi ihtest ihyes ihno =>
    refine (((((hif.grants.imp ?_).andThen ihtest).andThen hthen.grants).andThen ihyes).andThen ihno).andThen hfi.grants
    intro hif htest _ hyes hno _
    cases no with
    | none => exact ⟨hif.1, htest, hyes⟩
    | some no => exact ⟨hif.1, htest, hyes, hno no rfl⟩
  | loop hwhile _ hdo _ hdone ihtest ih =>
    refine ((((hwhile.grants.imp ?_).andThen ihtest).andThen hdo.grants).andThen ih).andThen hdone.grants
    exact fun hwhile htest _ h _ => ⟨hwhile.1, htest, h⟩
  | letStmt hvar _ _ ihbs ih => exact ((hvar.grants.imp fun hvar hbs h => ⟨hvar.1, hbs, h⟩).andThen ihbs).andThen ih
  | braces hopen _ _ ihbs ih => exact ((hopen.grants.imp fun hopen hbs h => ⟨hopen.1, hbs, h⟩).andThen ihbs).andThen ih
  | blockEnd hclose => exact hclose.grants.imp fun _ => trivial
  | blockMore _ _ ihx ih => exact (ihx.imp fun hx h => ⟨hx, h⟩).andThen ih
  | statedPrecedence h _ => exact h.grants.imp fun _ => trivial
  | defaultPrecedence _ => exact .here trivial
  | plainSignature h => exact h.grants.imp And.left
  | unarySignature hunary hop _ => exact (hunary.grants.imp fun hunary _ => hunary.1).andThen hop.grants
  | binarySignature hbinary hop _ _ ih =>
    exact ((hbinary.grants.imp fun hbinary _ _ => hbinary.1).andThen hop.grants).andThen ih
  | lastParameter hname hclose =>
    refine (hname.grants.imp ?_).andThen hclose.grants
    exact fun hname _ _ hp => List.mem_singleton.1 hp ▸ hname.2 _ rfl
  | nextParameter hname hcomma _ ih =>
    refine ((hname.grants.imp ?_).andThen hcomma.grants).andThen ih
    exact fun hname _ h p hp => (List.mem_cons.1 hp).elim (fun heq => heq ▸ hname.2 _ rfl) (h p)
  | noParameters hclose => exact hclose.grants.imp fun _ _ hp => by cases hp
  | parameters _ _ ih => exact ih
  | prototype _ hopen _ ihsig ih => exact ((ihsig.imp fun hsig _ h => ⟨hsig, h⟩).andThen hopen.grants).andThen ih
  | function hfunc _ _ ihproto ihbody =>
    exact ((hfunc.grants.imp fun _ hproto hbody => ⟨hproto.1, hproto.2, hbody⟩).andThen ihproto).andThen ihbody

end Grammar

end Funclet
