import Funclet.Ast
import Funclet.Decimal.Layout
import Funclet.Json

/-!
# Dumps of syntax trees

Syntax trees as JSON. Numbers are dumped by a function `num`, so that a caller can choose how floats
are written.
-/

namespace Funclet

/-- A float as a JSON number. There is none for infinities and for what is not a number. -/
def Json.ofFloat (x : Float) : Json :=
  if x.isFinite then .number (Decimal.render .json x) else .null

def Pos.dump (p : Pos) : Json :=
  .ofMembers [("line", .ofNat p.line), ("col", .ofNat p.col)]

/-- A node: what it is, and its place. -/
def dumpNode (kind : List (String × Json)) (p : Pos) : Json :=
  .ofMembers [("kind", .ofMembers kind), ("pos", p.dump)]

mutual

def Expr.dump (num : Float → Json) : Expr → Json
  | .number p x => dumpNode [("expr", .ofString "number"), ("value", num x)] p
  | .text p s => dumpNode [("expr", .ofString "text"), ("value", .ofString s)] p
  | .var p name => dumpNode [("expr", .ofString "variable"), ("name", .ofString name)] p
  | .unary p op e =>
    dumpNode [("expr", .ofString "unary"), ("op", .ofString op.toString), ("operand", e.dump num)] p
  | .binary p op l r =>
    dumpNode [("expr", .ofString "binary"), ("op", .ofString op.toString), ("lhs", l.dump num),
      ("rhs", r.dump num)] p
  | .call p callee args =>
    dumpNode [("expr", .ofString "call"), ("callee", .ofString callee),
      ("args", .array (dumpExprs num args))] p
  | .letIn p bindings body =>
    dumpNode [("expr", .ofString "var"), ("bindings", .array (dumpBindings num bindings)),
      ("body", body.dump num)] p
termination_by structural e => e

def dumpExprs (num : Float → Json) : List Expr → List Json
  | [] => []
  | e :: es => e.dump num :: dumpExprs num es
termination_by structural l => l

def dumpBindings (num : Float → Json) : List Binding → List Json
  | [] => []
  | ⟨p, name, none⟩ :: bs =>
    .ofMembers [("name", .ofString name), ("init", .null), ("pos", p.dump)] :: dumpBindings num bs
  | ⟨p, name, some e⟩ :: bs =>
    .ofMembers [("name", .ofString name), ("init", e.dump num), ("pos", p.dump)]
      :: dumpBindings num bs
termination_by structural l => l

end

mutual

def Stmt.dump (num : Float → Json) : Stmt → Json
  | .assign p name e =>
    dumpNode [("stmt", .ofString "assign"), ("name", .ofString name), ("value", e.dump num)] p
  | .ret p e => dumpNode [("stmt", .ofString "return"), ("value", e.dump num)] p
  | .print p items =>
    dumpNode [("stmt", .ofString "print"), ("items", .array (dumpExprs num items))] p
  | .again p => dumpNode [("stmt", .ofString "continue")] p
  | .cond p test yes none =>
    dumpNode [("stmt", .ofString "if"), ("cond", test.dump num), ("then", yes.dump num),
      ("otherwise", .null)] p
  | .cond p test yes (some no) =>
    dumpNode [("stmt", .ofString "if"), ("cond", test.dump num), ("then", yes.dump num),
      ("otherwise", no.dump num)] p
  | .loop p test body =>
    dumpNode [("stmt", .ofString "while"), ("cond", test.dump num), ("body", body.dump num)] p
  | .block p declared body =>
    dumpNode [("stmt", .ofString "block"), ("declared", .array (dumpBindings num declared)),
      ("body", .array (dumpStmts num body))] p
  | .letIn p bindings body =>
    dumpNode [("stmt", .ofString "var_decl"), ("bindings", .array (dumpBindings num bindings)),
      ("body", body.dump num)] p
termination_by structural s => s

def dumpStmts (num : Float → Json) : List Stmt → List Json
  | [] => []
  | s :: ss => s.dump num :: dumpStmts num ss
termination_by structural l => l

end

def FunctionKind.dump : FunctionKind → Json
  | plain => .ofMembers [("kind", .ofString "function")]
  | unary op => .ofMembers [("kind", .ofString "unary"), ("op", .ofString op.toString)]
  | binary op precedence =>
    .ofMembers [("kind", .ofString "binary"), ("op", .ofString op.toString),
      ("precedence", .ofNat precedence)]

def Prototype.dump (p : Prototype) : Json :=
  .ofMembers [("name", .ofString p.name), ("params", .ofStrings p.params), ("kind", p.kind.dump),
    ("pos", p.pos.dump)]

def Function.dump (num : Float → Json) (f : Function) : Json :=
  .ofMembers [("proto", f.proto.dump), ("body", f.body.dump num)]

end Funclet
