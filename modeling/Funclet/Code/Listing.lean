import Funclet.Code
import Funclet.Decimal.Layout
import Funclet.Text.Quoted

/-!
# Listings

Programs as text: first the functions without a body, then every body with its slots, regions and
instructions, one on each line. Functions go by their names.
-/

namespace Funclet

def Constant.render : Constant → String
  | number x => Decimal.render .plain x
  | text s => Text.quote s

def valueText (v : ValueId) : String := "v" ++ toString v

def valuesText (vs : List ValueId) : String := ", ".intercalate (vs.map valueText)

/-- The line of an instruction, where `nameOf` names the functions. -/
def Inst.line (nameOf : FunctionId → String) : Inst → String
  | const dest c => "    " ++ valueText dest ++ " = const " ++ c.render
  | param dest index => "    " ++ valueText dest ++ " = param " ++ toString index
  | load dest slot => "    " ++ valueText dest ++ " = load s" ++ toString slot
  | store slot v => "    store s" ++ toString slot ++ ", " ++ valueText v
  | primitive dest op lhs rhs =>
    "    " ++ valueText dest ++ " = " ++ op.mnemonic ++ " " ++ valueText lhs ++ ", " ++ valueText rhs
  | call dest callee args =>
    "    " ++ valueText dest ++ " = call @" ++ nameOf callee ++ "(" ++ valuesText args ++ ")"
  | print items => "    print " ++ valuesText items

/-- The line of a terminator, or of its absence. -/
def terminatorLine : Option Terminator → String
  | some (.branch target) => "    br r" ++ toString target
  | some (.branchIf v yes no) =>
    "    br_if " ++ valueText v ++ ", r" ++ toString yes ++ ", r" ++ toString no
  | some (.ret v) => "    ret " ++ valueText v
  | none => "    <unterminated>"

def Slot.line (s : Slot) (index : Nat) : String :=
  "  slot s" ++ toString index ++ " " ++ s.name ++ " in r" ++ toString s.region

def Region.lines (nameOf : FunctionId → String) (r : Region) (index : Nat) : List String :=
  ("  r" ++ toString index ++ "." ++ r.label ++ ":")
    :: r.insts.toList.map (Inst.line nameOf) ++ [terminatorLine r.terminator]

def Body.lines (nameOf : FunctionId → String) (b : Body) : List String :=
  ("fn @" ++ b.name ++ "(" ++ toString b.params ++ ") \x7b")
    :: b.slots.toList.mapIdx (fun i s => s.line i)
    ++ (b.regions.toList.mapIdx fun i r => r.lines nameOf i).flatten
    ++ ["\x7d"]

/-- The line of a function without a body. -/
def Declaration.line (d : Declaration) : String :=
  "declare @" ++ d.name ++ "(" ++ toString d.params ++ ")"

namespace Program

def bodiless (p : Program) : List Declaration :=
  p.declarations.filter fun d => (p.body? d.id).isNone

def lines (p : Program) : List String :=
  p.bodiless.map Declaration.line ++ p.bodies.flatMap (Body.lines p.nameOf)

def listing (p : Program) : String := String.join (p.lines.map (· ++ "\n"))

end Program

end Funclet
