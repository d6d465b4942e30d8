import Funclet.Proofs.Reading.ReadBack

/-!
# Binary operators are sorted out by precedence

* `Operand` : a number or a name behind any number of prefixes; `Chain` : operands with binary operators between them;
* `Tree` : a way to put a chain into parentheses; `Tree.chain` : the chain, read off the tree from left to right;
* `Tree.Sorted` : on the left of an operator stands none that binds less, on its right only one that binds tighter;
* `Sorted.unique` : a chain can be sorted in one way only, since the operator at the top has to be the last of those
  that bind least;
* `Climbs`, `exists_climbs` : what one climb makes of the chain behind its left operand, which is what the reader does;
* `expression_sorted` : a chain is read as its sorted tree, whatever the operators in force.
-/

namespace Funclet.Grammar

/-! ## Chains -/

structure Sign where
  pos : Pos
  char : Char

namespace Sign

variable (ops : Operators) (σ : Sign)

def item : Item := ⟨σ.pos, .ok (.symbol σ.char)⟩

def precedence? : Option Nat := ops.precedence? (.symbol σ.char)

/-- The operator before an operand. A minus sign subtracts it from zero, unless it is a unary operator. -/
def apply (e : Expr) : Expr :=
  if ops.isUnary (.symbol σ.char) then .unary σ.pos σ.char e else .binary σ.pos '-' (.number σ.pos 0) e

def IsPrefix : Prop := σ.char = '-' ∨ ops.isUnary (.symbol σ.char) = true

instance : Decidable (σ.IsPrefix ops) := inferInstanceAs (Decidable (_ ∨ _))

end Sign

inductive Atom where
  | number (value : Float)
  | name (name : String)

namespace Atom

def token : Atom → Token
  | number value => .number value
  | name n => .ident n

def expr (pos : Pos) : Atom → Expr
  | number value => .number pos value
  | name n => .var pos n

end Atom

/-- A number or a name behind any number of prefixes. -/
structure Operand where
  signs : List Sign
  pos : Pos
  atom : Atom

namespace Operand

variable (ops : Operators) (u : Operand)

def items : List Item := u.signs.map Sign.item ++ [⟨u.pos, .ok u.atom.token⟩]

/-- The prefixes are applied to the number or name, the last one first. -/
def expr : Expr := u.signs.foldr (Sign.apply ops) (u.atom.expr u.pos)

def Valid : Prop := ∀ σ ∈ u.signs, σ.IsPrefix ops

instance : Decidable (u.Valid ops) := inferInstanceAs (Decidable (∀ σ ∈ u.signs, σ.IsPrefix ops))

end Operand

/-- An operand, and then operators with an operand behind each. -/
structure Chain where
  head : Operand
  more : List (Sign × Operand)

namespace Chain

def itemsOf (more : List (Sign × Operand)) : List Item := more.flatMap fun m => m.1.item :: m.2.items

def items (c : Chain) : List Item := c.head.items ++ itemsOf c.more

/-- Binary operators stand between the operands, and prefixes before them. -/
structure Valid (ops : Operators) (c : Chain) : Prop where
  head : c.head.Valid ops
  more : ∀ m ∈ c.more, (m.1.precedence? ops).isSome = true ∧ m.2.Valid ops

end Chain

/-! ## Trees -/

/-- Operands below binary operators. -/
inductive Tree where
  | leaf (u : Operand)
  | node (op : Sign) (lhs rhs : Tree)

namespace Tree

def chain : Tree → Chain
  | leaf u => ⟨u, []⟩
  | node op lhs rhs => ⟨lhs.chain.head, lhs.chain.more ++ (op, rhs.chain.head) :: rhs.chain.more⟩

def expr (ops : Operators) : Tree → Expr
  | leaf u => u.expr ops
  | node op lhs rhs => .binary op.pos op.char (lhs.expr ops) (rhs.expr ops)

/-- How tightly the operator at the top binds, if there is one. -/
def precedence? (ops : Operators) : Tree → Option Nat
  | leaf _ => none
  | node op _ _ => op.precedence? ops

/-- Below each operator, the one on the left binds at least as tightly and the one on the right more tightly. -/
inductive Sorted (ops : Operators) : Tree → Prop
  | leaf (u : Operand) : Sorted ops (leaf u)
  | node {op : Sign} {p : Nat} {lhs rhs : Tree} (hop : op.precedence? ops = some p)
      (hlhs : ∀ q ∈ lhs.precedence? ops, p ≤ q) (hrhs : ∀ q ∈ rhs.precedence? ops, p < q)
      (sortedLhs : Sorted ops lhs) (sortedRhs : Sorted ops rhs) : Sorted ops (node op lhs rhs)

variable {ops : Operators} {t t' : Tree}

/-- No operator of a sorted tree binds less than the one at its top. -/
theorem Sorted.atLeast (h : t.Sorted ops) {p : Nat} (hp : ∀ q ∈ t.precedence? ops, p ≤ q) :
    ∀ m ∈ t.chain.more, ∀ q ∈ m.1.precedence? ops, p ≤ q := by
  induction h generalizing p with
  | leaf u =>
    intro m hm
    cases hm
  | node hop hlhs hrhs _ _ ihlhs ihrhs =>
    have htop := hp _ hop
    intro m hm q hq
    rcases List.mem_append.1 hm with hm | hm
    · exact ihlhs (fun r hr => Nat.le_trans htop (hlhs r hr)) m hm q hq
    · rcases List.mem_cons.1 hm with rfl | hm
      · exact hp q hq
      · exact ihrhs (fun r hr => Nat.le_trans htop (Nat.le_of_lt (hrhs r hr))) m hm q hq

/-- The operator at the top of a sorted tree cannot stand on the left of the one at the top of another. -/
theorem Sorted.not_before {op op' : Sign} {lhs rhs lhs' rhs' : Tree} (h : (Tree.node op lhs rhs).Sorted ops)
    (h' : (Tree.node op' lhs' rhs').Sorted ops) {u u' : Operand} (hop : (op, u) ∈ lhs'.chain.more)
    (hop' : (op', u') ∈ rhs.chain.more) : False := by
  cases h with
  | node hp hlhs hrhs sortedLhs sortedRhs =>
    cases h' with
    | node hp' hlhs' hrhs' sortedLhs' sortedRhs' =>
      have hlt := sortedRhs.atLeast hrhs _ hop' _ hp'
      have hle := sortedLhs'.atLeast hlhs' _ hop _ hp
      omega

theorem append_cons_cases {α : Type} {as bs cs ds : List α} {x y : α} (h : as ++ x :: bs = cs ++ y :: ds) :
    (as = cs ∧ x = y ∧ bs = ds) ∨ (x ∈ cs ∧ y ∈ bs) ∨ (y ∈ as ∧ x ∈ ds) := by
  rcases List.append_eq_append_iff.1 h with ⟨mid, rfl, hmid⟩ | ⟨mid, rfl, hmid⟩ <;>
    cases mid <;> simp_all

/-- A chain can be sorted in one way only. -/
theorem Sorted.unique (h : t.Sorted ops) (h' : t'.Sorted ops) (hchain : t.chain = t'.chain) : t = t' := by
  induction t generalizing t' with
  | leaf u =>
    cases t' with
    | leaf u' => rw [(Chain.mk.inj hchain).1]
    | node op' lhs' rhs' => simp [chain] at hchain
  | node op lhs rhs ihlhs ihrhs =>
    cases t' with
    | leaf u' => simp [chain] at hchain
    | node op' lhs' rhs' =>
      obtain ⟨hhead, hmore⟩ := Chain.mk.inj hchain
      rcases append_cons_cases hmore with ⟨hlhs, hop, hrhs⟩ | ⟨hop, hop'⟩ | ⟨hop', hop⟩
      · cases h with
        | node _ _ _ sortedLhs sortedRhs =>
          cases h' with
          | node _ _ _ sortedLhs' sortedRhs' =>
            obtain ⟨rfl, hhead'⟩ := Prod.mk.inj hop
            rw [ihlhs sortedLhs sortedLhs' (congrArg₂ Chain.mk hhead hlhs),
              ihrhs sortedRhs sortedRhs' (congrArg₂ Chain.mk hhead' hrhs)]
      · exact (h.not_before h' hop hop').elim
      · exact (h'.not_before h hop' hop).elim

end Tree

/-! ## Climbing -/

variable {ops : Operators} {rest : List Item}

theorem faultOf?_operand (u : Operand) (rest : List Item) : faultOf? (u.items ++ rest) = none := by
  obtain ⟨_ | ⟨σ, signs⟩, pos, atom⟩ := u <;> rfl

/-- An operand is read as its number or name, with the prefixes applied to it. -/
theorem Operand.derives {u : Operand} (hu : u.Valid ops) (hfault : faultOf? rest = none)
    (hcall : first rest ≠ .symbol '(') : Derives ops (.operand (u.expr ops)) (u.items ++ rest) rest := by
  obtain ⟨signs, pos, atom⟩ := u
  induction signs with
  | nil =>
    cases atom with
    | number value => exact .operand rfl (.number (.intro hfault))
    | name n => exact .operand rfl (.var (.intro hfault) hcall)
  | cons σ signs ih =>
    have hrest := ih fun τ hτ => hu τ (List.mem_cons_of_mem _ hτ)
    have htakes : Takes σ.pos (.symbol σ.char) (Operand.items ⟨σ :: signs, pos, atom⟩ ++ rest)
        (Operand.items ⟨signs, pos, atom⟩ ++ rest) := .intro (faultOf?_operand ⟨signs, pos, atom⟩ rest)
    change Derives ops (.operand (σ.apply ops _)) _ _
    unfold Sign.apply
    split
    · rename_i hunary
      exact .unary htakes hunary hrest
    · rename_i hunary
      obtain ⟨spos, char⟩ := σ
      obtain rfl : char = '-' := (hu _ List.mem_cons_self).resolve_right hunary
      refine .operand ?_ (.negation htakes hrest)
      rw [htakes.first_eq]
      exact Bool.eq_false_iff.2 hunary

def next? (ops : Operators) (more : List (Sign × Operand)) : Option Nat :=
  more.head?.bind fun m => m.1.precedence? ops

section Behind

variable {more : List (Sign × Operand)}

theorem itemsOf_cons (op : Sign) (u : Operand) (more : List (Sign × Operand)) (rest : List Item) :
    Chain.itemsOf ((op, u) :: more) ++ rest = op.item :: (u.items ++ (Chain.itemsOf more ++ rest)) := by
  simp [Chain.itemsOf]

theorem precedence?_first (hends : Ends ops rest) (more : List (Sign × Operand)) :
    ops.precedence? (first (Chain.itemsOf more ++ rest)) = next? ops more := by
  cases more with
  | nil => exact hends.noOperator
  | cons m more => rfl

/-- Behind an operand neither a call nor an error follows. -/
theorem behind_operand (hparen : ops.precedence? (.symbol '(') = none) (hends : Ends ops rest)
    (hmore : ∀ m ∈ more, (m.1.precedence? ops).isSome = true ∧ m.2.Valid ops) :
    faultOf? (Chain.itemsOf more ++ rest) = none ∧ first (Chain.itemsOf more ++ rest) ≠ .symbol '(' := by
  cases more with
  | nil => exact ⟨hends.faultless, hends.noCall⟩
  | cons m more =>
    refine ⟨rfl, fun hfirst => ?_⟩
    have hsome := (hmore m List.mem_cons_self).1
    have hchar : Token.symbol m.1.char = .symbol '(' := hfirst
    rw [Sign.precedence?, hchar, hparen] at hsome
    cases hsome

end Behind

/-- A climb from the left operand `lhs`, with `more` behind it, comes to the sorted tree `t` and leaves `left`. -/
structure Climbs (ops : Operators) (rest : List Item) (least : Nat) (lhs : Tree) (more : List (Sign × Operand))
    (t : Tree) (left : List (Sign × Operand)) : Prop where
  chain : ∃ taken, more = taken ++ left ∧ t.chain = ⟨lhs.chain.head, lhs.chain.more ++ taken⟩
  sorted : t.Sorted ops
  tight : ∀ p ∈ t.precedence? ops, least ≤ p
  stops : ∀ p ∈ next? ops left, p < least
  derives : Derives ops (.climb least (lhs.expr ops) (t.expr ops)) (Chain.itemsOf more ++ rest)
    (Chain.itemsOf left ++ rest)

/-- An operator that binds tight enough takes what is on its right, and then the climb goes on with it on the left. -/
theorem Climbs.on (hparen : ops.precedence? (.symbol '(') = none) (hends : Ends ops rest) {least p : Nat} {op : Sign}
    {u : Operand} {more mid left : List (Sign × Operand)} {lhs rhs t : Tree} (hp : op.precedence? ops = some p)
    (hle : least ≤ p) (hu : u.Valid ops) (hmore : ∀ m ∈ more, (m.1.precedence? ops).isSome = true ∧ m.2.Valid ops)
    (hrhs : Climbs ops rest (p + 1) (.leaf u) more rhs mid) (ht : Climbs ops rest least (.node op lhs rhs) mid t left) :
    Climbs ops rest least lhs ((op, u) :: more) t left where
  chain := by
    obtain ⟨taken, rfl, htaken⟩ := hrhs.chain
    obtain ⟨taken', rfl, htaken'⟩ := ht.chain
    refine ⟨(op, u) :: taken ++ taken', by simp, ?_⟩
    rw [htaken']
    simp [Tree.chain, htaken]
  sorted := ht.sorted
  tight := ht.tight
  stops := ht.stops
  derives := by
    obtain ⟨hfault, hcall⟩ := behind_operand hparen hends hmore
    rw [itemsOf_cons]
    exact .climbOn (.intro (faultOf?_operand u _)) hp hle (u.derives hu hfault hcall) hrhs.derives ht.derives

/-- From a sorted left operand, whose operator binds at least as tightly as the next one, a climb sorts the operators up
to the first one that binds less than `least`. -/
theorem exists_climbs (hparen : ops.precedence? (.symbol '(') = none) (hends : Ends ops rest) (least : Nat) (lhs : Tree)
    (more : List (Sign × Operand)) (hmore : ∀ m ∈ more, (m.1.precedence? ops).isSome = true ∧ m.2.Valid ops)
    (hlhs : lhs.Sorted ops) (htight : ∀ q ∈ lhs.precedence? ops, least ≤ q)
    (hnext : ∀ p ∈ next? ops more, ∀ q ∈ lhs.precedence? ops, p ≤ q) :
    ∃ t left, Climbs ops rest least lhs more t left := by
  -- Both climbs behind an operator start further right, the second one where the first one stopped.
  induction hn : more.length using Nat.strongRecOn generalizing least lhs more with
  | _ n ih =>
    by_cases hstop : ∀ p ∈ next? ops more, p < least
    · refine ⟨lhs, more, ⟨[], rfl, by rw [List.append_nil]⟩, hlhs, htight, hstop, .climbStop ?_⟩
      rwa [precedence?_first hends]
    · simp only [not_forall, Nat.not_lt] at hstop
      obtain ⟨p, hp, hle⟩ := hstop
      obtain _ | ⟨⟨op, u⟩, more⟩ := more
      · cases hp
      · have hop : op.precedence? ops = some p := hp
        have htop {q : Nat} (hq : op.precedence? ops = some q) : q = p := Option.some.inj (hq.symm.trans hop)
        have hmore' := fun m hm => hmore m (List.mem_cons_of_mem _ hm)
        have hlt : more.length < n := by rw [← hn]; exact Nat.lt_succ_self _
        obtain ⟨rhs, mid, hrhs⟩ := ih _ hlt (p + 1) (.leaf u) more hmore' (.leaf u) (fun q hq => by cases hq)
          (fun _ _ q hq => by cases hq) rfl
        obtain ⟨taken, htaken, -⟩ := hrhs.chain
        have hmid : mid.length < n := by
          rw [htaken, List.length_append] at hlt
          omega
        obtain ⟨t, left, ht⟩ := ih _ hmid least (.node op lhs rhs) mid
          (fun m hm => hmore' m (by rw [htaken]; exact List.mem_append_right _ hm))
          (.node hop (hnext p hp) hrhs.tight hlhs hrhs.sorted) (fun q hq => by rw [htop hq]; exact hle)
          (fun q hq r hr => by rw [htop hr]; exact Nat.le_of_lt_succ (hrhs.stops q hq)) rfl
        exact ⟨t, left, .on hparen hends hop hle (hmore (op, u) List.mem_cons_self).2 hmore' hrhs ht⟩

/-- Whatever the operators in force, if `(` is not one between operands: a chain with an end behind it is read as the
one sorted tree it can be read off from. The reader stops at the token behind the chain. -/
theorem expression_sorted (hparen : ops.precedence? (.symbol '(') = none) (c : Chain) (hc : c.Valid ops)
    (hends : Ends ops rest) :
    ∃ t : Tree, t.chain = c ∧ t.Sorted ops ∧ (∀ t' : Tree, t'.chain = c → t'.Sorted ops → t' = t) ∧
      ∀ s : State, expression ops (s.facing (c.items ++ rest)) = .ok (t.expr ops) (s.facing rest) := by
  obtain ⟨t, left, ht⟩ := exists_climbs hparen hends 0 (.leaf c.head) c.more hc.more (.leaf _) (fun q hq => by cases hq)
    (fun _ _ q hq => by cases hq)
  -- Nothing binds less than zero, so the climb stops at the end of the chain only.
  obtain rfl : left = [] := by
    cases left with
    | nil => rfl
    | cons m left =>
      obtain ⟨taken, htaken, -⟩ := ht.chain
      obtain ⟨hsome, -⟩ := hc.more m (by rw [htaken]; exact List.mem_append_right _ List.mem_cons_self)
      obtain ⟨p, hp⟩ := Option.isSome_iff_exists.1 hsome
      exact absurd (ht.stops p hp) (Nat.not_lt_zero p)
  obtain ⟨taken, htaken, hchain⟩ := ht.chain
  have hwhole : t.chain = c := by
    rw [hchain, ← List.append_nil taken, ← htaken]
    rfl
  have hread : Derives ops (.expression (t.expr ops)) (c.items ++ rest) rest := by
    obtain ⟨hfault, hcall⟩ := behind_operand hparen hends hc.more
    rw [Chain.items, List.append_assoc]
    exact .expression (c.head.derives hc.head hfault hcall) ht.derives
  refine ⟨t, hwhole, ht.sorted, fun t' hchain' hsorted => hsorted.unique ht.sorted (hchain'.trans hwhole.symm), ?_⟩
  exact Gives.fueled fun n hn => hread.isRead n (by omega)

def upDownOperators : Operators := ⟨⟨('&', 6) :: Operators.builtin⟩, ['!']⟩

/-- `a & -b * c < !d - 2 - e`, where `&` binds less than all the others. -/
def upDownTree : Tree :=
  .node ⟨⟨1, 3⟩, '&'⟩ (.leaf ⟨[], ⟨1, 1⟩, .name "a"⟩)
    (.node ⟨⟨1, 12⟩, '<'⟩
      (.node ⟨⟨1, 8⟩, '*'⟩ (.leaf ⟨[⟨⟨1, 5⟩, '-'⟩], ⟨1, 6⟩, .name "b"⟩) (.leaf ⟨[], ⟨1, 10⟩, .name "c"⟩))
      (.node ⟨⟨1, 21⟩, '-'⟩
        (.node ⟨⟨1, 17⟩, '-'⟩ (.leaf ⟨[⟨⟨1, 14⟩, '!'⟩], ⟨1, 15⟩, .name "d"⟩) (.leaf ⟨[], ⟨1, 19⟩, .number 2⟩))
        (.leaf ⟨[], ⟨1, 23⟩, .name "e"⟩)))

theorem upDownTree_sorted : upDownTree.Sorted upDownOperators := by
  refine .node rfl (by decide) (by decide) (.leaf _) (.node rfl (by decide) (by decide) ?_ ?_)
  · exact .node rfl (by decide) (by decide) (.leaf _) (.leaf _)
  · exact .node rfl (by decide) (by decide) (.node rfl (by decide) (by decide) (.leaf _) (.leaf _)) (.leaf _)

theorem expression_sorted_upDown :
    expression upDownOperators (State.ofScan ⟨upDownTree.chain.items, ⟨1, 24⟩⟩).next =
      .ok (upDownTree.expr upDownOperators) ⟨.eof, ⟨1, 24⟩, [], ⟨1, 24⟩, false, []⟩ := by
  have hvalid : upDownTree.chain.Valid upDownOperators := ⟨by decide, by decide⟩
  have hends : Ends upDownOperators [] := ⟨rfl, rfl, by decide⟩
  obtain ⟨t, -, -, hunique, hread⟩ := expression_sorted (by decide) upDownTree.chain hvalid hends
  rw [List.append_nil, ← hunique upDownTree rfl upDownTree_sorted] at hread
  exact hread (State.ofScan ⟨upDownTree.chain.items, ⟨1, 24⟩⟩)

end Funclet.Grammar
