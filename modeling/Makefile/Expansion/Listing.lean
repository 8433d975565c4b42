import Makefile.Expansion.Code
import Makefile.Text.Quoted

/-!
# Listings of compiled text

One line for each instruction, with its address.
-/

namespace Makefile

def padRight (width : Nat) (s : String) : String :=
  s ++ String.ofList (List.replicate (width - s.length) ' ')

namespace Expansion

def quote (t : Text) : String :=
  String.ofList (Text.quoted t)

def functionName (signatures : Signatures) (f : FunctionId) : String :=
  String.ofList ((signatures[f]?.map Signature.name).getD [])

namespace Arena

def listOperand (a : Arena) : Operand → String
  | .plain t => quote (a.text t)
  | .stream entry => "sub" ++ entry.render

def listOperands (a : Arena) (operands : List Operand) : String :=
  ", ".intercalate (operands.map a.listOperand)

def listPattern (a : Arena) : Pattern TextId → String
  | .exact t => quote (a.text t) ++ quote []
  | .stem front back => quote (a.text front) ++ "%" ++ quote (a.text back)

def listInstr (signatures : Signatures) (a : Arena) : Instr → String
  | .copy t => "copy " ++ quote (a.text t)
  | .value name => "var " ++ String.ofList name
  | .computed entry => "dynvar sub" ++ entry.render
  | .substitute name search replacement =>
    "subst " ++ String.ofList name ++ " " ++ a.listPattern search ++ " -> " ++
      a.listPattern replacement
  | .call f args =>
    let verb := if args.all Operand.isPlain then "call " else "dyncall "
    verb ++ functionName signatures f ++ " [" ++ a.listOperands args ++ "]"
  | .done => "return"

end Arena

def listLine (isEntry : Bool) (a : Address) (instr : String) : String :=
  (if isEntry then ">" else " ") ++ padRight 8 a.render ++ " " ++ instr ++ "\n"

def Program.listing (signatures : Signatures) (p : Program) : String :=
  String.join (p.arena.code.toList.map fun (a, i) =>
    listLine (a == p.entry) a (p.arena.listInstr signatures i))

end Expansion

end Makefile
