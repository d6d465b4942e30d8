import Funclet.Ast.Dump
import Funclet.Diagnostic

/-!
# Dumps of diagnostics
-/

namespace Funclet

def Diagnostic.dump (d : Diagnostic) : Json :=
  .ofMembers [("message", .ofString d.message), ("pos", d.pos.dump),
    ("kind", .ofString d.stage.label)]

end Funclet
