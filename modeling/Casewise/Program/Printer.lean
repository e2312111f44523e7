import Casewise.Expr.Printer
import Casewise.Program

/-! Canonical source text of programs: one definition to a line. -/
namespace Casewise

def Definition.format (f : Definition) : Except Misuse String :=
  return "fun " ++ f.name.plain ++ " " ++ f.param.plain ++ " = " ++ (← f.body.format 0)

def Program.format (p : Program) : Except Misuse String :=
  return String.join ((← p.definitions.mapM (·.format)).map (· ++ "\n"))

end Casewise
