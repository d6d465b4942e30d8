import Funclet.Code
import Funclet.Json

/-!
# Dumps of programs

Programs as JSON. Numbers are dumped by a function `num`, as in dumps of syntax trees.
-/

namespace Funclet

def Constant.dump (num : Float → Json) : Constant → Json
  | number x => .ofMembers [("number", num x)]
  | text s => .ofMembers [("text", .ofString s)]

def dumpIds (ids : List Nat) : Json := .array (ids.map .ofNat)

def Inst.dump (num : Float → Json) : Inst → Json
  | const dest value =>
    .ofMembers [("op", .ofString "const"), ("dest", .ofNat dest), ("value", value.dump num)]
  | param dest index =>
    .ofMembers [("op", .ofString "param"), ("dest", .ofNat dest), ("index", .ofNat index)]
  | load dest slot =>
    .ofMembers [("op", .ofString "load"), ("dest", .ofNat dest), ("slot", .ofNat slot)]
  | store slot value =>
    .ofMembers [("op", .ofString "store"), ("slot", .ofNat slot), ("value", .ofNat value)]
  | primitive dest op lhs rhs =>
    .ofMembers [("op", .ofString "primitive"), ("dest", .ofNat dest),
      ("kind", .ofString op.mnemonic), ("lhs", .ofNat lhs), ("rhs", .ofNat rhs)]
  | call dest callee args =>
    .ofMembers [("op", .ofString "call"), ("dest", .ofNat dest), ("callee", .ofNat callee),
      ("args", dumpIds args)]
  | print items => .ofMembers [("op", .ofString "print"), ("items", dumpIds items)]

def Terminator.dump : Terminator → Json
  | branch target => .ofMembers [("op", .ofString "branch"), ("target", .ofNat target)]
  | branchIf test yes no =>
    .ofMembers [("op", .ofString "branch_if"), ("cond", .ofNat test), ("then", .ofNat yes),
      ("otherwise", .ofNat no)]
  | ret value => .ofMembers [("op", .ofString "return"), ("value", .ofNat value)]

def Region.dump (num : Float → Json) (r : Region) : Json :=
  .ofMembers [("label", .ofString r.label),
    ("insts", .array (r.insts.toList.map (·.dump num))),
    ("terminator", r.terminator.elim .null Terminator.dump)]

def Slot.dump (s : Slot) : Json :=
  .ofMembers [("name", .ofString s.name), ("region", .ofNat s.region)]

def Body.dump (num : Float → Json) (b : Body) : Json :=
  .ofMembers [("id", .ofNat b.id), ("name", .ofString b.name), ("params", .ofNat b.params),
    ("slots", .array (b.slots.toList.map Slot.dump)),
    ("regions", .array (b.regions.toList.map (·.dump num))),
    ("value_count", .ofNat b.valueCount)]

def Declaration.dump (d : Declaration) : Json :=
  .ofMembers [("id", .ofNat d.id), ("name", .ofString d.name), ("params", .ofNat d.params)]

def Program.dump (num : Float → Json) (p : Program) : Json :=
  .ofMembers [("declarations", .array (p.declarations.map Declaration.dump)),
    ("functions", .array (p.bodies.map (·.dump num))),
    ("entry", p.entry.elim .null .ofNat)]

end Funclet
