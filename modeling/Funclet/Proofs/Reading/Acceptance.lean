import Funclet.Proofs.Reading.Soundness

/-!
# Functions that are accepted

* `State.Within items s` : what `s` has still to read stands at the end of `items`;
* `Reached.within` : a reader never leaves its text;
* `State.derives_of_clean`, `Reached.derives` : an attempt that gives a function has derived it, from the `FUNC` to the
  token behind it;
* `Expr.Uses`, `Stmt.Uses` : every operator of a tree is as stated;
* `Derives.uses` : a derived tree uses the operators in force, and perhaps `-`, which a prefix sign stands for.
-/

namespace Funclet

namespace Grammar

/-! ## Reading stays in the text -/

/-- What is still to be read stands at the end of `items`, the current token with it if it is one of the text. -/
structure State.Within (items : List Item) (s : State) : Prop where
  ahead : s.ahead <:+ items
  current : s.token.Solid → ⟨s.pos, .ok s.token⟩ :: s.ahead <:+ items

variable {items : List Item} {s s' : State} {escapes : Bool} {source : String} {ops : Operators} {f : Function}

theorem Move.within (h : Move s s') (hs : s.Within items) : s'.Within items := by
  cases h with
  | next =>
    have hahead := hs.ahead
    refine ⟨?_, fun ht => ?_⟩
    · rw [State.next_ahead]
      exact (List.tail_suffix _).trans hahead
    · revert ht
      unfold State.next
      split
      · exact fun ht => ht.elim
      · rename_i heq
        exact fun _ => heq ▸ hahead
      · exact fun ht => ht.elim
  | report _ => exact ⟨hs.ahead, hs.current⟩
  | spoil _ => exact ⟨hs.ahead, hs.current⟩

theorem Moves.within (h : Moves s s') (hs : s.Within items) : s'.Within items := by
  induction h with
  | refl => exact hs
  | tail _ hmove ih => exact hmove.within ih

/-- An attempt only moves, but for the mark of a failure, which it takes back at the start of a function. -/
theorem nextFunction_moves (ops : Operators) (s : State) :
    ∃ failed, Moves { s.toFunction with failed := failed } (s.nextFunction ops).2 := by
  unfold State.nextFunction
  dsimp only
  split
  · exact ⟨s.toFunction.failed, .refl⟩
  · refine ⟨false, ?_⟩
    have hread := travels_function ops { s.toFunction with failed := false }
    cases h : function ops { s.toFunction with failed := false } with
    | ok f t =>
      rw [h] at hread
      exact hread
    | error d t =>
      rw [h] at hread
      exact (hread.1.tail (.report t hread.2)).trans (Moves.skipFor _ _ _)

/-- What an attempt reports is lexical or syntactic. -/
theorem nextFunction_reports (ops : Operators) (s : State) :
    ∃ ds, (s.nextFunction ops).2.reports = s.reports ++ ds ∧ ∀ d ∈ ds, d.Syntactic := by
  obtain ⟨failed, hmoves⟩ := nextFunction_moves ops s
  obtain ⟨ds, hds, hsyn⟩ := (Moves.toFunction s).reports
  obtain ⟨es, hes, hsyn'⟩ := hmoves.reports
  refine ⟨ds ++ es, ?_, fun d hd => (List.mem_append.1 hd).elim (hsyn d) (hsyn' d)⟩
  rw [hes, ← List.append_assoc, ← hds]

/-- A reader never leaves its text. -/
theorem Reached.within (h : Reached escapes source s) : s.Within (scan escapes source).items := by
  induction h with
  | start => exact ⟨List.suffix_refl _, fun ht => ht.elim⟩
  | next _ ops ih =>
    obtain ⟨failed, hmoves⟩ := nextFunction_moves ops _
    have hto := (Moves.toFunction _).within ih
    exact hmoves.within ⟨hto.ahead, hto.current⟩
  | handOver _ ih => exact ⟨ih.ahead, ih.current⟩

def Attempt.function? : Attempt → Option Function
  | .function f => some f
  | .failed | .ended => none

theorem Attempt.function?_eq_some {a : Attempt} : a.function? = some f ↔ a = .function f := by
  cases a <;> simp [function?]

/-- An attempt that gives a function starts at a `FUNC` and has passed over no error. -/
theorem State.nextFunction_eq_function (h : s.nextFunction ops = (.function f, s')) :
    s.toFunction.token = .keyword .FUNC ∧ function ops { s.toFunction with failed := false } = .ok f s' ∧
      s'.failed = false := by
  unfold State.nextFunction at h
  dsimp only at h
  split at h
  · cases h
  · rename_i heof
    cases hf : function ops { s.toFunction with failed := false } with
    | error d t =>
      rw [hf] at h
      cases h
    | ok g t =>
      rw [hf] at h
      dsimp only at h
      split at h
      · cases h
      · rename_i hfailed
        cases h
        exact ⟨s.toFunction_token.resolve_left heof, rfl, Bool.eq_false_iff.2 hfailed⟩

/-- A function that is accepted has been derived where all tokens from its `FUNC` on are such of a text. -/
theorem State.derives_of_clean (hclean : Clean s.toFunction.stream) (h : s.nextFunction ops = (.function f, s')) :
    Derives ops (.function f) s.toFunction.stream s'.stream ∧
      s' = { s.toFunction with failed := false }.facing s'.stream := by
  obtain ⟨htoken, hf, hfailed⟩ := State.nextFunction_eq_function h
  generalize s.toFunction = t at *
  obtain ⟨token, pos, ahead, ending, failed, reports⟩ := t
  obtain rfl : token = .keyword .FUNC := htoken
  have hclean : Clean (⟨pos, .ok (.keyword .FUNC)⟩ :: ahead) := hclean
  have hsound := sound_function ops hclean ⟨.keyword .FUNC, pos, ahead, ending, false, reports⟩
  rw [State.facing_self, hf] at hsound
  obtain ⟨rest, rfl, hrest⟩ | hspoiled := hsound
  · rw [(hclean.derives hrest).stream_facing]
    exact ⟨hrest, rfl⟩
  · rw [hspoiled.failed] at hfailed
    cases hfailed

/-- A function that is accepted has been derived, from its `FUNC` to the current token, and nothing has been reported
on the way. -/
theorem Reached.derives (hs : Reached escapes source s) (h : s.nextFunction ops = (.function f, s')) :
    Derives ops (.function f) s.toFunction.stream s'.stream ∧
      s' = { s.toFunction with failed := false }.facing s'.stream := by
  obtain ⟨htoken, -, -⟩ := State.nextFunction_eq_function h
  have hwithin := (Moves.toFunction s).within hs.within
  have hstream : s.toFunction.stream = ⟨s.toFunction.pos, .ok s.toFunction.token⟩ :: s.toFunction.ahead :=
    if_neg (by simp [htoken])
  have hsuffix := hwithin.current (by rw [htoken]; trivial)
  rw [← hstream] at hsuffix
  refine State.derives_of_clean ⟨?_, fun item hitem t ht => Scan.solid_of_mem (hsuffix.subset hitem) ht⟩ h
  rw [hstream]
  rfl

end Grammar

/-! ## Operators of a tree -/

mutual

/-- Every unary operator of an expression has `U`, and every binary one `B`. -/
def Expr.Uses (U B : Char → Prop) : Expr → Prop
  | .number _ _ | .text _ _ | .var _ _ => True
  | .unary _ op operand => U op ∧ operand.Uses U B
  | .binary _ op lhs rhs => B op ∧ lhs.Uses U B ∧ rhs.Uses U B
  | .call _ _ args => usesExprs U B args
  | .letIn _ bindings body => usesBindings U B bindings ∧ body.Uses U B
termination_by structural e => e

def usesExprs (U B : Char → Prop) : List Expr → Prop
  | [] => True
  | e :: es => e.Uses U B ∧ usesExprs U B es
termination_by structural l => l

def usesBindings (U B : Char → Prop) : List Binding → Prop
  | [] => True
  | ⟨_, _, none⟩ :: bs => usesBindings U B bs
  | ⟨_, _, some e⟩ :: bs => e.Uses U B ∧ usesBindings U B bs
termination_by structural l => l

end

mutual

def Stmt.Uses (U B : Char → Prop) : Stmt → Prop
  | .assign _ _ value | .ret _ value => value.Uses U B
  | .print _ items => usesExprs U B items
  | .again _ => True
  | .cond _ test yes none => test.Uses U B ∧ yes.Uses U B
  | .cond _ test yes (some no) => test.Uses U B ∧ yes.Uses U B ∧ no.Uses U B
  | .loop _ test body => test.Uses U B ∧ body.Uses U B
  | .block _ declared body => usesBindings U B declared ∧ usesStmts U B body
  | .letIn _ bindings body => usesBindings U B bindings ∧ body.Uses U B
termination_by structural s => s

def usesStmts (U B : Char → Prop) : List Stmt → Prop
  | [] => True
  | s :: ss => s.Uses U B ∧ usesStmts U B ss
termination_by structural l => l

end

theorem usesBindings_append {U B : Char → Prop} (bs cs : List Binding) (hb : usesBindings U B bs)
    (hc : usesBindings U B cs) : usesBindings U B (bs ++ cs) := by
  induction bs with
  | nil => exact hc
  | cons b bs ih =>
    obtain ⟨pos, name, _ | e⟩ := b
    · exact ih hb
    · exact ⟨hb.1, ih hb.2⟩

section Mono

variable {U B U' B' : Char → Prop}

mutual

theorem Expr.Uses.mono (hU : ∀ op, U op → U' op) (hB : ∀ op, B op → B' op) : ∀ e : Expr, e.Uses U B → e.Uses U' B'
  | .number _ _, _ => trivial
  | .text _ _, _ => trivial
  | .var _ _, _ => trivial
  | .unary _ _ e, h => ⟨hU _ h.1, Expr.Uses.mono hU hB e h.2⟩
  | .binary _ _ l r, h => ⟨hB _ h.1, Expr.Uses.mono hU hB l h.2.1, Expr.Uses.mono hU hB r h.2.2⟩
  | .call _ _ args, h => usesExprs_mono hU hB args h
  | .letIn _ bs e, h => ⟨usesBindings_mono hU hB bs h.1, Expr.Uses.mono hU hB e h.2⟩
termination_by structural e => e

theorem usesExprs_mono (hU : ∀ op, U op → U' op) (hB : ∀ op, B op → B' op) :
    ∀ es : List Expr, usesExprs U B es → usesExprs U' B' es
  | [], _ => trivial
  | e :: es, h => ⟨Expr.Uses.mono hU hB e h.1, usesExprs_mono hU hB es h.2⟩
termination_by structural es => es

theorem usesBindings_mono (hU : ∀ op, U op → U' op) (hB : ∀ op, B op → B' op) :
    ∀ bs : List Binding, usesBindings U B bs → usesBindings U' B' bs
  | [], _ => trivial
  | ⟨_, _, none⟩ :: bs, h => usesBindings_mono hU hB bs h
  | ⟨_, _, some e⟩ :: bs, h => ⟨Expr.Uses.mono hU hB e h.1, usesBindings_mono hU hB bs h.2⟩
termination_by structural bs => bs

end

mutual

theorem Stmt.Uses.mono (hU : ∀ op, U op → U' op) (hB : ∀ op, B op → B' op) : ∀ x : Stmt, x.Uses U B → x.Uses U' B'
  | .assign _ _ e, h => Expr.Uses.mono hU hB e h
  | .ret _ e, h => Expr.Uses.mono hU hB e h
  | .print _ items, h => usesExprs_mono hU hB items h
  | .again _, _ => trivial
  | .cond _ test yes none, h => ⟨Expr.Uses.mono hU hB test h.1, Stmt.Uses.mono hU hB yes h.2⟩
  | .cond _ test yes (some no), h =>
    ⟨Expr.Uses.mono hU hB test h.1, Stmt.Uses.mono hU hB yes h.2.1, Stmt.Uses.mono hU hB no h.2.2⟩
  | .loop _ test body, h => ⟨Expr.Uses.mono hU hB test h.1, Stmt.Uses.mono hU hB body h.2⟩
  | .block _ bs body, h => ⟨usesBindings_mono hU hB bs h.1, usesStmts_mono hU hB body h.2⟩
  | .letIn _ bs body, h => ⟨usesBindings_mono hU hB bs h.1, Stmt.Uses.mono hU hB body h.2⟩
termination_by structural x => x

theorem usesStmts_mono (hU : ∀ op, U op → U' op) (hB : ∀ op, B op → B' op) :
    ∀ xs : List Stmt, usesStmts U B xs → usesStmts U' B' xs
  | [], _ => trivial
  | x :: xs, h => ⟨Stmt.Uses.mono hU hB x h.1, usesStmts_mono hU hB xs h.2⟩
termination_by structural xs => xs

end

end Mono

namespace Grammar

variable {ops : Operators} {φ : Phrase} {items rest : List Item}

def Unary (ops : Operators) (op : Char) : Prop := ops.isUnary (.symbol op) = true

/-- The binary operators in force, and `-`, which a prefix sign stands for whatever is in force. -/
def Binary (ops : Operators) (op : Char) : Prop := (ops.precedence? (.symbol op)).isSome ∨ op = '-'

/-- What is read uses only operators that are in force; the left operand that a climb starts with is not read by it. -/
def Phrase.Uses (ops : Operators) : Phrase → Prop
  | .expression e | .operand e | .primary e | .printItem e => e.Uses (Unary ops) (Binary ops)
  | .climb _ lhs e => lhs.Uses (Unary ops) (Binary ops) → e.Uses (Unary ops) (Binary ops)
  | .arguments es | .moreArguments es | .printItems es => usesExprs (Unary ops) (Binary ops) es
  | .initializer init => ∀ e ∈ init, e.Uses (Unary ops) (Binary ops)
  | .bindings bs | .declarations bs => usesBindings (Unary ops) (Binary ops) bs
  | .otherwise no => ∀ x ∈ no, x.Uses (Unary ops) (Binary ops)
  | .statement x => x.Uses (Unary ops) (Binary ops)
  | .block xs => usesStmts (Unary ops) (Binary ops) xs
  | .precedence _ | .signature .. | .parameters _ | .moreParameters _ | .prototype _ => True
  | .function f => f.body.Uses (Unary ops) (Binary ops)

theorem usesBindings_cons {U B : Char → Prop} {pos : Pos} {name : String} {init : Option Expr} {bs : List Binding}
    (hinit : ∀ e ∈ init, e.Uses U B) (hbs : usesBindings U B bs) : usesBindings U B (⟨pos, name, init⟩ :: bs) := by
  cases init with
  | none => exact hbs
  | some e => exact ⟨hinit e rfl, hbs⟩

/-- A derived tree uses the operators in force. -/
theorem Derives.uses (h : Derives ops φ items rest) : φ.Uses ops := by
  induction h with
  | expression _ _ ihlhs ih => exact ih ihlhs
  | climbStop _ => exact id
  | climbOn _ hp _ _ _ _ ihoperand ihrhs ih => exact fun hlhs => ih ⟨.inl (by rw [hp]; rfl), hlhs, ihrhs ihoperand⟩
  | unary _ hu _ ih => exact ⟨hu, ih⟩
  | operand _ _ ih => exact ih
  | number _ => trivial
  | var _ _ => trivial
  | call _ _ _ ih => exact ih
  | group _ _ _ ih => exact ih
  | negation _ _ ih => exact ⟨.inr rfl, trivial, ih⟩
  | letExpr _ _ _ ihbs ih => exact ⟨ihbs, ih⟩
  | noArguments _ => trivial
  | arguments _ _ ih => exact ih
  | lastArgument _ _ ih => exact ⟨ih, trivial⟩
  | nextArgument _ _ _ iharg ih => exact ⟨iharg, ih⟩
  | noInitializer _ => exact fun _ he => by cases he
  | initializer _ _ ih => exact fun _ he => Option.some.inj he ▸ ih
  | lastBinding _ _ _ ih => exact usesBindings_cons ih trivial
  | nextBinding _ _ _ _ ihinit ih => exact usesBindings_cons ihinit ih
  | text _ => trivial
  | value _ _ ih => exact ih
  | lastItem _ _ ih => exact ⟨ih, trivial⟩
  | nextItem _ _ _ ihi ih => exact ⟨ihi, ih⟩
  | noDeclarations _ => trivial
  | declarations _ _ _ ihbs ih => exact usesBindings_append _ _ ihbs ih
  | noOtherwise _ => exact fun _ hx => by cases hx
  | otherwise _ _ ih => exact fun _ hx => Option.some.inj hx ▸ ih
  | assign _ _ _ ih => exact ih
  | ret _ _ ih => exact ih
  | print _ _ ih => exact ih
  | again _ => trivial
  | @cond _ _ _ _ _ no _ _ _ _ _ _ _ _ _ _ _ _ _ ihtest ihyes ihno =>
    cases no with
    | none => exact ⟨ihtest, ihyes⟩
    | some no => exact ⟨ihtest, ihyes, ihno no rfl⟩
  | loop _ _ _ _ _ ihtest ih => exact ⟨ihtest, ih⟩
  | letStmt _ _ _ ihbs ih => exact ⟨ihbs, ih⟩
  | braces _ _ _ ihbs ih => exact ⟨ihbs, ih⟩
  | blockEnd _ => trivial
  | blockMore _ _ ihx ih => exact ⟨ihx, ih⟩
  | function _ _ _ _ ih => exact ih
  | _ => trivial

end Grammar

end Funclet
