import Funclet.Ast
import Funclet.Event
import Funclet.Token.Scan

/-!
# Trees and reports elsewhere

Everything that knows the place where it stands can be moved: `mapPos m` puts what stands at `p` to `m p` and changes
nothing else. Two trees are equal up to positions if they are equal when both are moved to one place.
-/

namespace Funclet

variable (m : Pos → Pos)

mutual

def Expr.mapPos : Expr → Expr
  | .number pos value => .number (m pos) value
  | .text pos chars => .text (m pos) chars
  | .var pos name => .var (m pos) name
  | .unary pos op operand => .unary (m pos) op operand.mapPos
  | .binary pos op lhs rhs => .binary (m pos) op lhs.mapPos rhs.mapPos
  | .call pos callee args => .call (m pos) callee (mapPosExprs args)
  | .letIn pos bindings body => .letIn (m pos) (mapPosBindings bindings) body.mapPos
termination_by structural e => e

def mapPosExprs : List Expr → List Expr
  | [] => []
  | e :: es => e.mapPos :: mapPosExprs es
termination_by structural l => l

def mapPosBindings : List Binding → List Binding
  | [] => []
  | ⟨pos, name, none⟩ :: bs => ⟨m pos, name, none⟩ :: mapPosBindings bs
  | ⟨pos, name, some e⟩ :: bs => ⟨m pos, name, some e.mapPos⟩ :: mapPosBindings bs
termination_by structural l => l

end

mutual

def Stmt.mapPos : Stmt → Stmt
  | .assign pos name value => .assign (m pos) name (value.mapPos m)
  | .ret pos value => .ret (m pos) (value.mapPos m)
  | .print pos items => .print (m pos) (mapPosExprs m items)
  | .again pos => .again (m pos)
  | .cond pos test yes none => .cond (m pos) (test.mapPos m) yes.mapPos none
  | .cond pos test yes (some no) => .cond (m pos) (test.mapPos m) yes.mapPos (some no.mapPos)
  | .loop pos test body => .loop (m pos) (test.mapPos m) body.mapPos
  | .block pos declared body => .block (m pos) (mapPosBindings m declared) (mapPosStmts body)
  | .letIn pos bindings body => .letIn (m pos) (mapPosBindings m bindings) body.mapPos
termination_by structural s => s

def mapPosStmts : List Stmt → List Stmt
  | [] => []
  | s :: ss => s.mapPos :: mapPosStmts ss
termination_by structural l => l

end

def Prototype.mapPos (p : Prototype) : Prototype := { p with pos := m p.pos }

def Function.mapPos (f : Function) : Function := ⟨f.proto.mapPos m, f.body.mapPos m⟩

def Item.mapPos (i : Item) : Item := { i with pos := m i.pos }

def Diagnostic.mapPos (d : Diagnostic) : Diagnostic := { d with pos := m d.pos }

def Event.mapPos : Event → Event
  | .note n => .note n
  | .report d => .report (d.mapPos m)

theorem mapPosBindings_append (bs cs : List Binding) :
    mapPosBindings m (bs ++ cs) = mapPosBindings m bs ++ mapPosBindings m cs := by
  induction bs with
  | nil => rfl
  | cons b bs ih =>
    obtain ⟨pos, name, _ | e⟩ := b
    · exact congrArg _ ih
    · exact congrArg _ ih

theorem mapPosBindings_cons (pos : Pos) (name : String) (init : Option Expr) (bs : List Binding) :
    mapPosBindings m (⟨pos, name, init⟩ :: bs) = ⟨m pos, name, init.map (·.mapPos m)⟩ :: mapPosBindings m bs := by
  cases init <;> rfl

theorem Stmt.mapPos_cond (pos : Pos) (test : Expr) (yes : Stmt) (no : Option Stmt) :
    (Stmt.cond pos test yes no).mapPos m =
      .cond (m pos) (test.mapPos m) (yes.mapPos m) (no.map (·.mapPos m)) := by
  cases no <;> rfl

end Funclet
