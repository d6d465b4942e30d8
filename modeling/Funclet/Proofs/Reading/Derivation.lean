import Funclet.Proofs.Reading.Starts

/-!
# Derivations

The language as a grammar over the items of a text, with one token of lookahead.

* `first`, `State.facing` : the token at the front of some items, and the state of a reader there;
* `State.stream`, `Clean` : what a reader has still to read, and the items that are read without an error;
* `Phrase` : what the front of a text can be;
* `Derives ops φ items rest` : the front of `items`, up to `rest`, is the phrase `φ` under the operators `ops`;
* `Derives.suffix`, `Derives.faultless` : what a derivation leaves is the end of what it started with;
* `Derives.length_lt` : a phrase that cannot be empty consumes a token.
-/

namespace Funclet

/-- The token is one of the text. -/
def Token.Solid : Token → Prop
  | .eof | .invalid => False
  | _ => True

/-- Every token of a text is solid. -/
theorem Scan.solid_of_mem {escapes : Bool} {source : String} {item : Item} {t : Token}
    (hitem : item ∈ (scan escapes source).items) (ht : item.reading = .ok t) : t.Solid := by
  obtain ⟨c, cs, h⟩ := exists_lexeme_of_mem hitem ht
  have hword (word : List Char) : (wordToken word).Solid := by
    unfold wordToken
    split <;> trivial
  unfold lexeme at h
  grind [Token.Solid]

namespace Grammar

/-! ## The front of a text -/

/-- The token at the front, as a reader takes it. -/
def first : List Item → Token
  | [] => .eof
  | ⟨_, .ok t⟩ :: _ => t
  | ⟨_, .error _⟩ :: _ => .invalid

namespace State

/-- The state of the reader at the front of `items`. -/
def facing (s : State) (items : List Item) : State := { s with ahead := items }.next

variable (s : State) (items : List Item)

@[simp]
theorem facing_token : (s.facing items).token = first items := by
  rcases items with _ | ⟨⟨p, _ | t⟩, items⟩ <;> rfl

@[simp]
theorem facing_ahead : (s.facing items).ahead = items.tail := by
  rcases items with _ | ⟨⟨p, _ | t⟩, items⟩ <;> rfl

@[simp]
theorem facing_failed : (s.facing items).failed = s.failed := by
  rcases items with _ | ⟨⟨p, _ | t⟩, items⟩ <;> rfl

@[simp]
theorem facing_reports : (s.facing items).reports = s.reports := by
  rcases items with _ | ⟨⟨p, _ | t⟩, items⟩ <;> rfl

@[simp]
theorem facing_ending : (s.facing items).ending = s.ending := by
  rcases items with _ | ⟨⟨p, _ | t⟩, items⟩ <;> rfl

@[simp]
theorem facing_fault? : (s.facing items).fault? = faultOf? items.tail := by
  rcases items with _ | ⟨⟨p, _ | t⟩, items⟩ <;> rfl

@[simp]
theorem facing_next : (s.facing items).next = s.facing items.tail := by
  rcases items with _ | ⟨⟨p, _ | t⟩, _ | ⟨⟨q, _ | u⟩, items⟩⟩ <;> rfl

theorem facing_fuel : (s.facing items).fuel = 4 * items.tail.length + 8 := by
  rw [fuel, facing_ahead]

/-- Every state is the state at the front of its own token and what is ahead of it. -/
theorem facing_self : s.facing (⟨s.pos, .ok s.token⟩ :: s.ahead) = s := rfl

/-- The current token and what is ahead of it. -/
def stream : List Item := if s.token = .eof then [] else ⟨s.pos, .ok s.token⟩ :: s.ahead

end State

/-- Nothing is wrong with the first of the items, and the others are tokens of a text or else errors. -/
structure Clean (items : List Item) : Prop where
  faultless : faultOf? items = none
  solid : ∀ item ∈ items, ∀ t, item.reading = .ok t → t.Solid

namespace Clean

variable {items : List Item}

theorem first_ne (h : Clean items) : first items ≠ .invalid := by
  rcases items with _ | ⟨⟨pos, e | t⟩, rest⟩
  · simp [first]
  · cases h.faultless
  · rintro rfl
    exact h.solid _ (List.mem_cons_self ..) _ rfl

theorem stream_facing (h : Clean items) (s : State) : (s.facing items).stream = items := by
  rcases items with _ | ⟨⟨pos, e | t⟩, rest⟩
  · rfl
  · cases h.faultless
  · refine if_neg ?_
    rintro rfl
    exact h.solid _ (List.mem_cons_self ..) _ rfl

end Clean

/-! ## The grammar -/

/-- The front of `items` is the token `t` at `pos`, and nothing is wrong with what follows it. -/
inductive Takes (pos : Pos) (t : Token) : List Item → List Item → Prop
  | intro {rest : List Item} (h : faultOf? rest = none) : Takes pos t (⟨pos, .ok t⟩ :: rest) rest

/-- What the front of a text can be, with what it is read as. -/
inductive Phrase where
  | expression (e : Expr)
  /-- What follows the operand `lhs`, up to an operator of lower precedence than `least`. -/
  | climb (least : Nat) (lhs e : Expr)
  | operand (e : Expr)
  | primary (e : Expr)
  /-- Arguments, through the closing parenthesis. -/
  | arguments (args : List Expr)
  | moreArguments (args : List Expr)
  | initializer (init : Option Expr)
  | bindings (bs : List Binding)
  | printItem (i : Expr)
  | printItems (is : List Expr)
  | declarations (bs : List Binding)
  | otherwise (no : Option Stmt)
  | statement (x : Stmt)
  /-- Statements, through the closing brace. -/
  | block (xs : List Stmt)
  | precedence (p : Nat)
  | signature (pos : Pos) (name : String) (kind : FunctionKind)
  /-- Parameters, through the closing parenthesis. -/
  | parameters (params : List String)
  | moreParameters (params : List String)
  | prototype (proto : Prototype)
  | function (f : Function)

/-- The front of a text, up to what is given last, is the phrase. -/
inductive Derives (ops : Operators) : Phrase → List Item → List Item → Prop
  | expression {lhs e items mid rest} (hlhs : Derives ops (.operand lhs) items mid)
      (h : Derives ops (.climb 0 lhs e) mid rest) : Derives ops (.expression e) items rest
  | climbStop {least lhs items} (h : ∀ p ∈ ops.precedence? (first items), p < least) :
      Derives ops (.climb least lhs lhs) items items
  | climbOn {least lhs operand rhs e pos op p items a b c rest} (hop : Takes pos (.symbol op) items a)
      (hp : ops.precedence? (.symbol op) = some p) (hle : least ≤ p) (hoperand : Derives ops (.operand operand) a b)
      (hrhs : Derives ops (.climb (p + 1) operand rhs) b c)
      (h : Derives ops (.climb least (.binary pos op lhs rhs) e) c rest) :
      Derives ops (.climb least lhs e) items rest
  | unary {pos op e items mid rest} (hop : Takes pos (.symbol op) items mid) (hu : ops.isUnary (.symbol op) = true)
      (h : Derives ops (.operand e) mid rest) : Derives ops (.operand (.unary pos op e)) items rest
  | operand {e items rest} (hu : ops.isUnary (first items) = false) (h : Derives ops (.primary e) items rest) :
      Derives ops (.operand e) items rest
  | number {pos value items rest} (h : Takes pos (.number value) items rest) :
      Derives ops (.primary (.number pos value)) items rest
  | var {pos name items rest} (h : Takes pos (.ident name) items rest) (hcall : first rest ≠ .symbol '(') :
      Derives ops (.primary (.var pos name)) items rest
  | call {pos pos' name args items a b rest} (hname : Takes pos (.ident name) items a)
      (hopen : Takes pos' (.symbol '(') a b) (hargs : Derives ops (.arguments args) b rest) :
      Derives ops (.primary (.call pos name args)) items rest
  | group {pos pos' e items a b rest} (hopen : Takes pos (.symbol '(') items a) (h : Derives ops (.expression e) a b)
      (hclose : Takes pos' (.symbol ')') b rest) : Derives ops (.primary e) items rest
  | negation {pos e items mid rest} (hminus : Takes pos (.symbol '-') items mid)
      (h : Derives ops (.operand e) mid rest) : Derives ops (.primary (.binary pos '-' (.number pos 0) e)) items rest
  | letExpr {pos bs e items a b rest} (hvar : Takes pos (.keyword .VAR) items a) (hbs : Derives ops (.bindings bs) a b)
      (h : Derives ops (.expression e) b rest) : Derives ops (.primary (.letIn pos bs e)) items rest
  | noArguments {pos items rest} (hclose : Takes pos (.symbol ')') items rest) : Derives ops (.arguments []) items rest
  | arguments {args items rest} (hfirst : first items ≠ .symbol ')')
      (h : Derives ops (.moreArguments args) items rest) : Derives ops (.arguments args) items rest
  | lastArgument {pos arg items mid rest} (harg : Derives ops (.expression arg) items mid)
      (hclose : Takes pos (.symbol ')') mid rest) : Derives ops (.moreArguments [arg]) items rest
  | nextArgument {pos arg args items a b rest} (harg : Derives ops (.expression arg) items a)
      (hcomma : Takes pos (.symbol ',') a b) (h : Derives ops (.moreArguments args) b rest) :
      Derives ops (.moreArguments (arg :: args)) items rest
  | noInitializer {items} (hfirst : first items ≠ .symbol '=') : Derives ops (.initializer none) items items
  | initializer {pos e items mid rest} (heq : Takes pos (.symbol '=') items mid)
      (h : Derives ops (.expression e) mid rest) : Derives ops (.initializer (some e)) items rest
  | lastBinding {pos name init items mid rest} (hname : Takes pos (.ident name) items mid)
      (h : Derives ops (.initializer init) mid rest) (hfirst : first rest ≠ .symbol ',') :
      Derives ops (.bindings [⟨pos, name, init⟩]) items rest
  | nextBinding {pos pos' name init bs items a b c rest} (hname : Takes pos (.ident name) items a)
      (hinit : Derives ops (.initializer init) a b) (hcomma : Takes pos' (.symbol ',') b c)
      (h : Derives ops (.bindings bs) c rest) : Derives ops (.bindings (⟨pos, name, init⟩ :: bs)) items rest
  | text {pos value items rest} (h : Takes pos (.text value) items rest) :
      Derives ops (.printItem (.text pos value)) items rest
  | value {e items rest} (hfirst : ∀ value, first items ≠ .text value) (h : Derives ops (.expression e) items rest) :
      Derives ops (.printItem e) items rest
  | lastItem {i items rest} (hi : Derives ops (.printItem i) items rest) (hfirst : first rest ≠ .symbol ',') :
      Derives ops (.printItems [i]) items rest
  | nextItem {pos i is items a b rest} (hi : Derives ops (.printItem i) items a) (hcomma : Takes pos (.symbol ',') a b)
      (h : Derives ops (.printItems is) b rest) : Derives ops (.printItems (i :: is)) items rest
  | noDeclarations {items} (hfirst : first items ≠ .keyword .VAR) : Derives ops (.declarations []) items items
  | declarations {pos bs cs items a b rest} (hvar : Takes pos (.keyword .VAR) items a)
      (hbs : Derives ops (.bindings bs) a b) (h : Derives ops (.declarations cs) b rest) :
      Derives ops (.declarations (bs ++ cs)) items rest
  | noOtherwise {items} (hfirst : first items ≠ .keyword .ELSE) : Derives ops (.otherwise none) items items
  | otherwise {pos no items mid rest} (helse : Takes pos (.keyword .ELSE) items mid)
      (h : Derives ops (.statement no) mid rest) : Derives ops (.otherwise (some no)) items rest
  | assign {pos pos' name e items a b rest} (hname : Takes pos (.ident name) items a) (hto : Takes pos' .assign a b)
      (h : Derives ops (.expression e) b rest) : Derives ops (.statement (.assign pos name e)) items rest
  | ret {pos e items mid rest} (hret : Takes pos (.keyword .RETURN) items mid)
      (h : Derives ops (.expression e) mid rest) : Derives ops (.statement (.ret pos e)) items rest
  | print {pos is items mid rest} (hprint : Takes pos (.keyword .PRINT) items mid)
      (h : Derives ops (.printItems is) mid rest) : Derives ops (.statement (.print pos is)) items rest
  | again {pos items rest} (h : Takes pos (.keyword .CONTINUE) items rest) :
      Derives ops (.statement (.again pos)) items rest
  | cond {pos pos' pos'' test yes no items a b c d e rest} (hif : Takes pos (.keyword .IF) items a)
      (htest : Derives ops (.expression test) a b) (hthen : Takes pos' (.keyword .THEN) b c)
      (hyes : Derives ops (.statement yes) c d) (hno : Derives ops (.otherwise no) d e)
      (hfi : Takes pos'' (.keyword .FI) e rest) : Derives ops (.statement (.cond pos test yes no)) items rest
  | loop {pos pos' pos'' test body items a b c d rest} (hwhile : Takes pos (.keyword .WHILE) items a)
      (htest : Derives ops (.expression test) a b) (hdo : Takes pos' (.keyword .DO) b c)
      (hbody : Derives ops (.statement body) c d) (hdone : Takes pos'' (.keyword .DONE) d rest) :
      Derives ops (.statement (.loop pos test body)) items rest
  | letStmt {pos bs body items a b rest} (hvar : Takes pos (.keyword .VAR) items a)
      (hbs : Derives ops (.bindings bs) a b) (hbody : Derives ops (.statement body) b rest) :
      Derives ops (.statement (.letIn pos bs body)) items rest
  | braces {pos bs xs items a b rest} (hopen : Takes pos (.symbol '{') items a)
      (hbs : Derives ops (.declarations bs) a b) (h : Derives ops (.block xs) b rest) :
      Derives ops (.statement (.block pos bs xs)) items rest
  | blockEnd {pos items rest} (hclose : Takes pos (.symbol '}') items rest) : Derives ops (.block []) items rest
  | blockMore {x xs items mid rest} (hx : Derives ops (.statement x) items mid) (h : Derives ops (.block xs) mid rest) :
      Derives ops (.block (x :: xs)) items rest
  | statedPrecedence {pos x p items rest} (h : Takes pos (.number x) items rest) (hp : precedenceOf? x = some p) :
      Derives ops (.precedence p) items rest
  | defaultPrecedence {items} (hfirst : ∀ x, first items ≠ .number x) :
      Derives ops (.precedence Operators.defaultPrecedence) items items
  | plainSignature {pos name items rest} (h : Takes pos (.ident name) items rest) :
      Derives ops (.signature pos name .plain) items rest
  | unarySignature {pos pos' op items mid rest} (hunary : Takes pos (.keyword .unary) items mid)
      (hop : Takes pos' (.symbol op) mid rest) (hsep : isSeparator op = false) :
      Derives ops (.signature pos (unaryName op) (.unary op)) items rest
  | binarySignature {pos pos' op p items a b rest} (hbinary : Takes pos (.keyword .binary) items a)
      (hop : Takes pos' (.symbol op) a b) (hsep : isSeparator op = false) (hp : Derives ops (.precedence p) b rest) :
      Derives ops (.signature pos (binaryName op) (.binary op p)) items rest
  | lastParameter {pos pos' name items mid rest} (hname : Takes pos (.ident name) items mid)
      (hclose : Takes pos' (.symbol ')') mid rest) : Derives ops (.moreParameters [name]) items rest
  | nextParameter {pos pos' name params items a b rest} (hname : Takes pos (.ident name) items a)
      (hcomma : Takes pos' (.symbol ',') a b) (h : Derives ops (.moreParameters params) b rest) :
      Derives ops (.moreParameters (name :: params)) items rest
  | noParameters {pos items rest} (hclose : Takes pos (.symbol ')') items rest) :
      Derives ops (.parameters []) items rest
  | parameters {params items rest} (hfirst : first items ≠ .symbol ')')
      (h : Derives ops (.moreParameters params) items rest) : Derives ops (.parameters params) items rest
  | prototype {pos pos' name kind params items a b rest} (hsig : Derives ops (.signature pos name kind) items a)
      (hopen : Takes pos' (.symbol '(') a b) (h : Derives ops (.parameters params) b rest) :
      Derives ops (.prototype ⟨pos, name, params, kind⟩) items rest
  | function {pos proto body items a b rest} (hfunc : Takes pos (.keyword .FUNC) items a)
      (hproto : Derives ops (.prototype proto) a b) (hbody : Derives ops (.statement body) b rest) :
      Derives ops (.function ⟨proto, body⟩) items rest

/-! ## What a derivation leaves -/

variable {ops : Operators} {φ : Phrase} {items rest : List Item} {pos : Pos} {t : Token}

def Phrase.canBeEmpty : Phrase → Bool
  | .climb .. | .initializer _ | .declarations _ | .otherwise _ | .precedence _ => true
  | _ => false

theorem Takes.suffix (h : Takes pos t items rest) : rest <:+ items := by
  obtain ⟨_⟩ := h
  exact List.suffix_cons _ _

theorem Takes.length (h : Takes pos t items rest) : items.length = rest.length + 1 := by
  obtain ⟨_⟩ := h
  rfl

theorem Takes.first_eq (h : Takes pos t items rest) : first items = t := by
  obtain ⟨_⟩ := h
  rfl

theorem Takes.faultless (h : Takes pos t items rest) : faultOf? rest = none := by
  obtain ⟨h⟩ := h
  exact h

theorem Derives.suffix (h : Derives ops φ items rest) : rest <:+ items := by
  induction h <;> grind [→ Takes.suffix, List.suffix_refl]

theorem Derives.faultless (h : Derives ops φ items rest) (hitems : faultOf? items = none) : faultOf? rest = none := by
  induction h <;> grind [→ Takes.faultless]

theorem Clean.takes (h : Clean items) (hrest : Takes pos t items rest) : Clean rest :=
  ⟨hrest.faultless, fun item hitem => h.solid item (hrest.suffix.subset hitem)⟩

theorem Clean.derives (h : Clean items) (hrest : Derives ops φ items rest) : Clean rest :=
  ⟨hrest.faultless h.faultless, fun item hitem => h.solid item (hrest.suffix.subset hitem)⟩

/-- A phrase that cannot be empty consumes a token. -/
theorem Derives.length_lt (h : Derives ops φ items rest) (hφ : φ.canBeEmpty = false) : rest.length < items.length := by
  have hle {φ : Phrase} {items rest : List Item} (h : Derives ops φ items rest) : rest.length ≤ items.length :=
    h.suffix.length_le
  induction h <;> grind [→ Takes.length, Phrase.canBeEmpty]

/-- A statement starts with a token that a statement can start with. -/
theorem Derives.startsStatement {x : Stmt} (h : Derives ops (.statement x) items rest) :
    startsStatement (first items) = true := by
  cases h with
  | assign hname => rw [hname.first_eq]; rfl
  | ret h => rw [h.first_eq]; rfl
  | print h => rw [h.first_eq]; rfl
  | again h => rw [h.first_eq]; rfl
  | cond h => rw [h.first_eq]; rfl
  | loop h => rw [h.first_eq]; rfl
  | letStmt h => rw [h.first_eq]; rfl
  | braces h => rw [h.first_eq]; rfl

/-- A signature stands where its first token does. -/
theorem Derives.signature_takes {name : String} {kind : FunctionKind}
    (h : Derives ops (.signature pos name kind) items rest) : ∃ t mid, Takes pos t items mid := by
  cases h with
  | plainSignature h => exact ⟨_, _, h⟩
  | unarySignature h => exact ⟨_, _, h⟩
  | binarySignature h => exact ⟨_, _, h⟩

end Grammar

end Funclet
