import Funclet.Grammar.Function
import Funclet.Proofs.Scanning.Spelling

/-!
# Rendering functions

* `Function.words`, `Function.render` : a function as words, and as text. Every compound expression inside another
  stands in parentheses, and so does every initializer; an expression of a statement does unless `bare` is set.
* `Function.Expressible` : the functions that the grammar can express with the operators in force;
* `Function.sound_words` : every word of such a function is scanned as its token.

Numbers are spelled by a function `spell`, which need only be right about the numbers of the function.
-/

namespace Funclet

open Scan

/-! ## Words of a function -/

def commas (phrases : List (List Word)) : List Word := List.intercalate [.sym ','] phrases

/-- A phrase in parentheses, unless it may stand without. -/
def enclose (bare : Bool) (ws : List Word) : List Word := if bare then ws else .sym '(' :: (ws ++ [.sym ')'])

def Expr.isAtom : Expr → Bool
  | .number .. | .text .. | .var .. => true
  | _ => false

variable (spell : Float → List Char) (bare : Bool)

mutual

def Expr.words : Expr → List Word
  | .number _ value => [.num (spell value) value]
  | .text _ chars => [.quoted chars]
  | .var _ name => [.ident name]
  | .unary _ op e => .sym op :: enclose e.isAtom e.words
  | .binary _ op lhs rhs => enclose lhs.isAtom lhs.words ++ .sym op :: enclose rhs.isAtom rhs.words
  | .call _ callee args => .ident callee :: .sym '(' :: (commas (argumentWords args) ++ [.sym ')'])
  | .letIn _ bs e => .key .VAR :: (commas (bindingWords bs) ++ enclose e.isAtom e.words)
termination_by structural e => e

def argumentWords : List Expr → List (List Word)
  | [] => []
  | e :: es => enclose e.isAtom e.words :: argumentWords es
termination_by structural l => l

def bindingWords : List Binding → List (List Word)
  | [] => []
  | ⟨_, name, none⟩ :: bs => [.ident name] :: bindingWords bs
  | ⟨_, name, some e⟩ :: bs => (.ident name :: .sym '=' :: enclose false e.words) :: bindingWords bs
termination_by structural l => l

end

/-- The words of an expression that is part of a statement. -/
def Expr.whole (e : Expr) : List Word := enclose (bare || e.isAtom) (e.words spell)

def declarationWords (bs : List Binding) : List Word :=
  if bs.isEmpty then [] else .key .VAR :: commas (bindingWords spell bs)

mutual

def Stmt.words : Stmt → List Word
  | .assign _ name e => .ident name :: .becomes :: e.whole spell bare
  | .ret _ e => .key .RETURN :: e.whole spell bare
  | .print _ items => .key .PRINT :: commas (items.map (·.whole spell bare))
  | .again _ => [.key .CONTINUE]
  | .cond _ test yes none => .key .IF :: (test.whole spell bare ++ .key .THEN :: (yes.words ++ [.key .FI]))
  | .cond _ test yes (some no) =>
    .key .IF :: (test.whole spell bare ++ .key .THEN :: (yes.words ++ .key .ELSE :: (no.words ++ [.key .FI])))
  | .loop _ test body => .key .WHILE :: (test.whole spell bare ++ .key .DO :: (body.words ++ [.key .DONE]))
  | .block _ declared body => .sym '{' :: (declarationWords spell declared ++ (stmtWords body ++ [.sym '}']))
  | .letIn _ bs body => .key .VAR :: (commas (bindingWords spell bs) ++ body.words)
termination_by structural s => s

def stmtWords : List Stmt → List Word
  | [] => []
  | s :: ss => s.words ++ stmtWords ss
termination_by structural l => l

end

def precedenceWord (p : Nat) : Word := .num (Nat.toDigits 10 p) (Decimal.ofDigits (Nat.toDigits 10 p)).nearest

def Prototype.words (p : Prototype) : List Word :=
  (match p.kind with
    | .plain => [.ident p.name]
    | .unary op => [.key .unary, .sym op]
    | .binary op precedence => [.key .binary, .sym op, precedenceWord precedence])
  ++ .sym '(' :: (commas (p.params.map fun name => [.ident name]) ++ [.sym ')'])

def Function.words (f : Function) : List Word := .key .FUNC :: (f.proto.words ++ f.body.words spell bare)

/-- The text of a function, with a space between any two words. -/
def Function.render (f : Function) : String := String.ofList (spaced (f.words spell bare))

/-! ## Functions that can be expressed -/

/-- What an operator may be: punctuation that separates nothing and starts nothing longer. -/
structure IsOperator (c : Char) : Prop where
  punctuation : isPunctuation c = true
  free : c ∉ ['(', ')', '{', '}', ',', ':', '"']

instance (c : Char) : Decidable (IsOperator c) :=
  decidable_of_iff (isPunctuation c = true ∧ c ∉ ['(', ')', '{', '}', ',', ':', '"'])
    ⟨fun h => ⟨h.1, h.2⟩, fun h => ⟨h.punctuation, h.free⟩⟩

variable (ops : Operators)

mutual

/-- The grammar can express the expression. A text is none for it. -/
def Expr.Expressible : Expr → Prop
  | .number _ value => IsLiteral (spell value) value
  | .text .. => False
  | .var _ name => IsName name
  | .unary _ op e => IsOperator op ∧ ops.isUnary (.symbol op) = true ∧ e.Expressible
  | .binary _ op lhs rhs =>
    IsOperator op ∧ (ops.precedence? (.symbol op)).isSome = true ∧ lhs.Expressible ∧ rhs.Expressible
  | .call _ callee args => IsName callee ∧ expressibleExprs args
  | .letIn _ bs e => bs ≠ [] ∧ expressibleBindings bs ∧ e.Expressible
termination_by structural e => e

def expressibleExprs : List Expr → Prop
  | [] => True
  | e :: es => e.Expressible ∧ expressibleExprs es
termination_by structural l => l

def expressibleBindings : List Binding → Prop
  | [] => True
  | ⟨_, name, none⟩ :: bs => IsName name ∧ expressibleBindings bs
  | ⟨_, name, some e⟩ :: bs => IsName name ∧ e.Expressible ∧ expressibleBindings bs
termination_by structural l => l

end

mutual

instance Expr.decidableExpressible : ∀ e : Expr, Decidable (e.Expressible spell ops)
  | .number _ value => inferInstanceAs (Decidable (IsLiteral (spell value) value))
  | .text .. => instDecidableFalse
  | .var _ name => inferInstanceAs (Decidable (IsName name))
  | .unary _ _ e =>
    have := e.decidableExpressible
    inferInstanceAs (Decidable (_ ∧ _ ∧ _))
  | .binary _ _ lhs rhs =>
    have := lhs.decidableExpressible
    have := rhs.decidableExpressible
    inferInstanceAs (Decidable (_ ∧ _ ∧ _ ∧ _))
  | .call _ _ args =>
    have := decidableExpressibleExprs args
    inferInstanceAs (Decidable (_ ∧ _))
  | .letIn _ bs e =>
    have := decidableExpressibleBindings bs
    have := e.decidableExpressible
    inferInstanceAs (Decidable (_ ∧ _ ∧ _))
termination_by structural e => e

instance decidableExpressibleExprs : ∀ es : List Expr, Decidable (expressibleExprs spell ops es)
  | [] => instDecidableTrue
  | e :: es =>
    have := e.decidableExpressible
    have := decidableExpressibleExprs es
    inferInstanceAs (Decidable (_ ∧ _))
termination_by structural l => l

instance decidableExpressibleBindings : ∀ bs : List Binding, Decidable (expressibleBindings spell ops bs)
  | [] => instDecidableTrue
  | ⟨_, _, none⟩ :: bs =>
    have := decidableExpressibleBindings bs
    inferInstanceAs (Decidable (_ ∧ _))
  | ⟨_, _, some e⟩ :: bs =>
    have := e.decidableExpressible
    have := decidableExpressibleBindings bs
    inferInstanceAs (Decidable (_ ∧ _ ∧ _))
termination_by structural l => l

end

def Expr.isText : Expr → Bool
  | .text .. => true
  | _ => false

/-- The grammar can express the expression where a `PRINT` lists it. -/
def Expr.Listed (e : Expr) : Prop := e.isText = true ∨ e.Expressible spell ops

instance (e : Expr) : Decidable (e.Listed spell ops) := inferInstanceAs (Decidable (_ ∨ _))

def Stmt.isLet : Stmt → Bool
  | .letIn .. => true
  | _ => false

mutual

/-- The grammar can express the statement. The bindings that a block starts with are its declarations. -/
def Stmt.Expressible : Stmt → Prop
  | .assign _ name e => IsName name ∧ e.Expressible spell ops
  | .ret _ e => e.Expressible spell ops
  | .print _ items => items ≠ [] ∧ ∀ i ∈ items, i.Listed spell ops
  | .again _ => True
  | .cond _ test yes none => test.Expressible spell ops ∧ yes.Expressible
  | .cond _ test yes (some no) => test.Expressible spell ops ∧ yes.Expressible ∧ no.Expressible
  | .loop _ test body => test.Expressible spell ops ∧ body.Expressible
  | .block _ declared body =>
    expressibleBindings spell ops declared ∧ (∀ x ∈ body.head?, x.isLet = false) ∧ expressibleStmts body
  | .letIn _ bs body => bs ≠ [] ∧ expressibleBindings spell ops bs ∧ body.Expressible
termination_by structural s => s

def expressibleStmts : List Stmt → Prop
  | [] => True
  | s :: ss => s.Expressible ∧ expressibleStmts ss
termination_by structural l => l

end

mutual

instance Stmt.decidableExpressible : ∀ x : Stmt, Decidable (x.Expressible spell ops)
  | .assign .. => inferInstanceAs (Decidable (_ ∧ _))
  | .ret _ e => e.decidableExpressible spell ops
  | .print .. => inferInstanceAs (Decidable (_ ∧ _))
  | .again _ => instDecidableTrue
  | .cond _ _ yes none =>
    have := yes.decidableExpressible
    inferInstanceAs (Decidable (_ ∧ _))
  | .cond _ _ yes (some no) =>
    have := yes.decidableExpressible
    have := no.decidableExpressible
    inferInstanceAs (Decidable (_ ∧ _ ∧ _))
  | .loop _ _ body =>
    have := body.decidableExpressible
    inferInstanceAs (Decidable (_ ∧ _))
  | .block _ _ body =>
    have := decidableExpressibleStmts body
    inferInstanceAs (Decidable (_ ∧ _ ∧ _))
  | .letIn _ _ body =>
    have := body.decidableExpressible
    inferInstanceAs (Decidable (_ ∧ _ ∧ _))
termination_by structural x => x

instance decidableExpressibleStmts : ∀ xs : List Stmt, Decidable (expressibleStmts spell ops xs)
  | [] => instDecidableTrue
  | x :: xs =>
    have := x.decidableExpressible
    have := decidableExpressibleStmts xs
    inferInstanceAs (Decidable (_ ∧ _))
termination_by structural l => l

end

/-- The kind of a function fits its name. -/
def FunctionKind.Names : FunctionKind → String → Prop
  | .plain, name => IsName name
  | .unary op, name => IsOperator op ∧ name = unaryName op
  | .binary op p, name => IsOperator op ∧ name = binaryName op ∧ 1 ≤ p ∧ p ≤ 100

instance : ∀ (kind : FunctionKind) (name : String), Decidable (kind.Names name)
  | .plain, name => inferInstanceAs (Decidable (IsName name))
  | .unary .., _ => inferInstanceAs (Decidable (_ ∧ _))
  | .binary .., _ => inferInstanceAs (Decidable (_ ∧ _ ∧ _ ∧ _))

structure Function.Expressible (f : Function) : Prop where
  named : f.proto.kind.Names f.proto.name
  params : ∀ name ∈ f.proto.params, IsName name
  body : f.body.Expressible spell ops

instance (f : Function) : Decidable (f.Expressible spell ops) :=
  decidable_of_iff (f.proto.kind.Names f.proto.name ∧ (∀ name ∈ f.proto.params, IsName name) ∧
    f.body.Expressible spell ops) ⟨fun h => ⟨h.1, h.2.1, h.2.2⟩, fun h => ⟨h.named, h.params, h.body⟩⟩

/-! ## The words are sound -/

variable {spell bare ops}

@[simp]
theorem commas_nil : commas [] = [] := rfl

@[simp]
theorem commas_singleton (ws : List Word) : commas [ws] = ws := by simp [commas, List.intercalate]

@[simp]
theorem commas_cons_cons (ws vs : List Word) (phrases : List (List Word)) :
    commas (ws :: vs :: phrases) = ws ++ .sym ',' :: commas (vs :: phrases) := by
  simp [commas, List.intercalate]

theorem commas_cons {phrases : List (List Word)} (h : phrases ≠ []) (ws : List Word) :
    commas (ws :: phrases) = ws ++ .sym ',' :: commas phrases := by
  obtain ⟨vs, phrases, rfl⟩ := List.exists_cons_of_ne_nil h
  exact commas_cons_cons ws vs phrases

theorem exists_commas_cons (ws : List Word) (phrases : List (List Word)) : ∃ vs, commas (ws :: phrases) = ws ++ vs := by
  cases phrases with
  | nil => exact ⟨[], by rw [commas_singleton, List.append_nil]⟩
  | cons vs phrases => exact ⟨_, commas_cons_cons ws vs phrases⟩

theorem bindingWords_ne {bs : List Binding} (h : bs ≠ []) : bindingWords spell bs ≠ [] := by
  rcases bs with _ | ⟨⟨pos, name, _ | e⟩, bs⟩
  · exact absurd rfl h
  · nofun
  · nofun

theorem IsOperator.symbol {c : Char} (h : IsOperator c) : IsSymbol c := by
  have hfree := h.free
  simp only [List.mem_cons, not_or] at hfree
  exact ⟨h.punctuation, by tauto, by tauto⟩

theorem IsOperator.isSeparator {c : Char} (h : IsOperator c) : Grammar.isSeparator c = false := by
  have hfree := h.free
  simp only [List.mem_cons, not_or] at hfree
  unfold Grammar.isSeparator
  simp only [List.contains_eq_mem, decide_eq_false_iff_not, List.mem_cons, not_or]
  tauto

/-- The separators are words too. -/
theorem sound_separator {c : Char} (h : c ∈ ['(', ')', '{', '}', ',', '=']) : (Word.sym c).Sound true := by
  refine sound_sym ?_
  simp only [List.mem_cons, List.not_mem_nil, or_false] at h
  rcases h with rfl | rfl | rfl | rfl | rfl | rfl <;> exact ⟨by decide, by decide, by decide⟩

theorem sound_commas {phrases : List (List Word)} (h : ∀ ws ∈ phrases, ∀ w ∈ ws, w.Sound true) :
    ∀ w ∈ commas phrases, w.Sound true := by
  induction phrases with
  | nil => nofun
  | cons ws phrases ih =>
    have hws := h ws (List.mem_cons_self ..)
    have hphrases := ih fun vs hvs => h vs (List.mem_cons_of_mem _ hvs)
    cases phrases with
    | nil => rwa [commas_singleton]
    | cons vs phrases =>
      rw [commas_cons_cons, List.forall_mem_append, List.forall_mem_cons]
      exact ⟨hws, sound_separator (by decide), hphrases⟩

theorem sound_enclose {ws : List Word} (h : ∀ w ∈ ws, w.Sound true) : ∀ w ∈ enclose bare ws, w.Sound true := by
  unfold enclose
  split
  · exact h
  · rw [List.forall_mem_cons, List.forall_mem_append, List.forall_mem_singleton]
    exact ⟨sound_separator (by decide), h, sound_separator (by decide)⟩

mutual

theorem Expr.sound_words : ∀ e : Expr, e.Expressible spell ops → ∀ w ∈ e.words spell, w.Sound true
  | .number _ _, h => List.forall_mem_singleton.2 (sound_num h)
  | .var _ _, h => List.forall_mem_singleton.2 (sound_ident h)
  | .unary _ _ e, ⟨hop, _, he⟩ => by
    simp only [Expr.words, List.forall_mem_cons]
    exact ⟨sound_sym hop.symbol, sound_enclose (e.sound_words he)⟩
  | .binary _ _ lhs rhs, ⟨hop, _, hl, hr⟩ => by
    simp only [Expr.words, List.forall_mem_cons, List.forall_mem_append]
    exact ⟨sound_enclose (lhs.sound_words hl), sound_sym hop.symbol, sound_enclose (rhs.sound_words hr)⟩
  | .call _ _ args, ⟨hname, hargs⟩ => by
    simp only [Expr.words, List.forall_mem_cons, List.forall_mem_append]
    exact ⟨sound_ident hname, sound_separator (by decide), sound_commas (sound_argumentWords args hargs),
      sound_separator (by decide), nofun⟩
  | .letIn _ bs e, ⟨_, hbs, he⟩ => by
    simp only [Expr.words, List.forall_mem_cons, List.forall_mem_append]
    exact ⟨sound_key _, sound_commas (sound_bindingWords bs hbs), sound_enclose (e.sound_words he)⟩
termination_by structural e => e

theorem sound_argumentWords :
    ∀ es : List Expr, expressibleExprs spell ops es → ∀ ws ∈ argumentWords spell es, ∀ w ∈ ws, w.Sound true
  | [], _ => nofun
  | e :: es, ⟨he, hes⟩ => List.forall_mem_cons.2 ⟨sound_enclose (e.sound_words he), sound_argumentWords es hes⟩
termination_by structural l => l

theorem sound_bindingWords :
    ∀ bs : List Binding, expressibleBindings spell ops bs → ∀ ws ∈ bindingWords spell bs, ∀ w ∈ ws, w.Sound true
  | [], _ => nofun
  | ⟨_, _, none⟩ :: bs, ⟨hname, hbs⟩ =>
    List.forall_mem_cons.2 ⟨List.forall_mem_singleton.2 (sound_ident hname), sound_bindingWords bs hbs⟩
  | ⟨_, _, some e⟩ :: bs, ⟨hname, he, hbs⟩ => by
    refine List.forall_mem_cons.2 ⟨?_, sound_bindingWords bs hbs⟩
    simp only [List.forall_mem_cons]
    exact ⟨sound_ident hname, sound_separator (by decide), sound_enclose (e.sound_words he)⟩
termination_by structural l => l

end

theorem Expr.sound_whole {e : Expr} (h : e.Expressible spell ops) : ∀ w ∈ e.whole spell bare, w.Sound true :=
  sound_enclose (e.sound_words h)

theorem Expr.Listed.sound_whole {e : Expr} (h : e.Listed spell ops) : ∀ w ∈ e.whole spell bare, w.Sound true := by
  rcases h with htext | he
  · cases e with
    | text _ chars =>
      rw [Expr.whole, Expr.isAtom, Bool.or_true]
      exact List.forall_mem_singleton.2 (sound_quoted chars)
    | _ => cases htext
  · exact Expr.sound_whole he

theorem sound_declarationWords {bs : List Binding} (h : expressibleBindings spell ops bs) :
    ∀ w ∈ declarationWords spell bs, w.Sound true := by
  unfold declarationWords
  split
  · nofun
  · exact List.forall_mem_cons.2 ⟨sound_key _, sound_commas (sound_bindingWords bs h)⟩

mutual

theorem Stmt.sound_words : ∀ x : Stmt, x.Expressible spell ops → ∀ w ∈ x.words spell bare, w.Sound true
  | .assign _ _ _, ⟨hname, he⟩ =>
    List.forall_mem_cons.2 ⟨sound_ident hname, List.forall_mem_cons.2 ⟨sound_becomes, Expr.sound_whole he⟩⟩
  | .ret _ _, he => List.forall_mem_cons.2 ⟨sound_key _, Expr.sound_whole he⟩
  | .print _ items, ⟨_, hitems⟩ => by
    refine List.forall_mem_cons.2 ⟨sound_key _, sound_commas (List.forall_mem_map.2 fun i hi => ?_)⟩
    exact Expr.Listed.sound_whole (hitems i hi)
  | .again _, _ => List.forall_mem_singleton.2 (sound_key _)
  | .cond _ _ yes none, ⟨htest, hyes⟩ => by
    simp only [Stmt.words, List.forall_mem_cons, List.forall_mem_append]
    exact ⟨sound_key _, Expr.sound_whole htest, sound_key _, yes.sound_words hyes, sound_key _, nofun⟩
  | .cond _ _ yes (some no), ⟨htest, hyes, hno⟩ => by
    simp only [Stmt.words, List.forall_mem_cons, List.forall_mem_append]
    exact ⟨sound_key _, Expr.sound_whole htest, sound_key _, yes.sound_words hyes, sound_key _, no.sound_words hno,
      sound_key _, nofun⟩
  | .loop _ _ body, ⟨htest, hbody⟩ => by
    simp only [Stmt.words, List.forall_mem_cons, List.forall_mem_append]
    exact ⟨sound_key _, Expr.sound_whole htest, sound_key _, body.sound_words hbody, sound_key _, nofun⟩
  | .block _ _ body, ⟨hbs, _, hbody⟩ => by
    simp only [Stmt.words, List.forall_mem_cons, List.forall_mem_append]
    exact ⟨sound_separator (by decide), sound_declarationWords hbs, sound_stmtWords body hbody,
      sound_separator (by decide), nofun⟩
  | .letIn _ bs body, ⟨_, hbs, hbody⟩ => by
    simp only [Stmt.words, List.forall_mem_cons, List.forall_mem_append]
    exact ⟨sound_key _, sound_commas (sound_bindingWords bs hbs), body.sound_words hbody⟩
termination_by structural x => x

theorem sound_stmtWords : ∀ xs : List Stmt, expressibleStmts spell ops xs → ∀ w ∈ stmtWords spell bare xs, w.Sound true
  | [], _ => nofun
  | x :: xs, ⟨hx, hxs⟩ => List.forall_mem_append.2 ⟨x.sound_words hx, sound_stmtWords xs hxs⟩
termination_by structural l => l

end

/-- The digits of a precedence spell it. -/
theorem precedence_digits (p : Nat) (hp : 1 ≤ p ∧ p ≤ 100) :
    (precedenceWord p).Sound true ∧
      Grammar.precedenceOf? (Decimal.ofDigits (Nat.toDigits 10 p)).nearest = some p := by
  have hall : ∀ p ∈ List.range' 1 100,
      IsLiteral (Nat.toDigits 10 p) (Decimal.ofDigits (Nat.toDigits 10 p)).nearest ∧
        Grammar.precedenceOf? (Decimal.ofDigits (Nat.toDigits 10 p)).nearest = some p := by decide +kernel
  obtain ⟨hliteral, hvalue⟩ := hall p (List.mem_range'_1.2 (by omega))
  exact ⟨sound_num hliteral, hvalue⟩

theorem Prototype.sound_words {p : Prototype} (hname : p.kind.Names p.name) (hparams : ∀ name ∈ p.params, IsName name) :
    ∀ w ∈ p.words, w.Sound true := by
  have hlist : ∀ w ∈ commas (p.params.map fun name => [.ident name]), w.Sound true :=
    sound_commas (List.forall_mem_map.2 fun name hmem => List.forall_mem_singleton.2 (sound_ident (hparams name hmem)))
  obtain ⟨pos, name, params, kind⟩ := p
  unfold words
  simp only [List.forall_mem_cons, List.forall_mem_append]
  refine ⟨?_, sound_separator (by decide), hlist, sound_separator (by decide), nofun⟩
  cases kind with
  | plain => exact List.forall_mem_singleton.2 (sound_ident hname)
  | unary op => exact List.forall_mem_cons.2 ⟨sound_key _, List.forall_mem_singleton.2 (sound_sym hname.1.symbol)⟩
  | binary op precedence =>
    obtain ⟨hop, -, hp⟩ := hname
    simp only [List.forall_mem_cons]
    exact ⟨sound_key _, sound_sym hop.symbol, (precedence_digits _ hp).1, nofun⟩

theorem Function.sound_words {f : Function} (h : f.Expressible spell ops) (bare : Bool) :
    ∀ w ∈ f.words spell bare, w.Sound true :=
  List.forall_mem_cons.2 ⟨sound_key _, List.forall_mem_append.2
    ⟨Prototype.sound_words h.named h.params, f.body.sound_words h.body⟩⟩

end Funclet
