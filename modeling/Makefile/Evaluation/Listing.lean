import Makefile.Evaluation.Code
import Makefile.Expansion.Listing

/-!
# Listings of compiled makefiles

The instructions of the makefile, then those of the texts in it.
-/

namespace Makefile.Evaluation

def Qualifiers.listing (q : Qualifiers) : String :=
  (if q.isLocal then "local " else "") ++ (if q.isOverride then "override " else "") ++
    (if q.isPrivate then "private " else "") ++ (if q.isExport then "export " else "")

namespace Program

def listInstr (p : Program) : Instr → String
  | .branch test otherwise _ =>
    test.keyword.spelling ++ " " ++ p.arena.listOperands test.operands ++ " else " ++
      otherwise.render
  | .jump target => "jump " ++ target.render
  | .assign a =>
    let value := match a.compiled with
      | some entry => "sub" ++ entry.render
      | none => Expansion.quote (p.arena.text a.value)
    "assign " ++ Qualifiers.listing a.qualifiers ++ p.arena.listOperand a.name ++ " " ++
      a.op.spelling ++ " " ++ value
  | .setExported names on =>
    (if on then "export [" else "unexport [") ++ p.arena.listOperands names ++ "]"
  | .setExportAll on => if on then "export-all" else "unexport-all"
  | .undefine names origin =>
    (if origin = .override then "override undefine [" else "undefine [") ++
      p.arena.listOperands names ++ "]"
  | .readFiles kind files _ => kind.spelling ++ " [" ++ p.arena.listOperands files ++ "]"
  | .startRule h =>
    "rule " ++ p.arena.listOperand h.targets ++ (if h.doubleColon then " :: " else " : ") ++
      p.arena.listOperand h.prerequisites ++ " | " ++ p.arena.listOperand h.orderOnly
  | .addCommands lines =>
    "commands [" ++ ", ".intercalate (lines.map fun t => Expansion.quote (p.arena.text t)) ++ "]"
  | .expandLine entry _ => "expand sub" ++ entry.render
  | .done => "return"

def listing (signatures : Signatures) (p : Program) : String :=
  let header := "; " ++ String.ofList p.file ++
    match p.owner with
    | none => "\n"
    | some name => " (variable " ++ String.ofList name ++ ")\n"
  let code := p.code.toList.map fun (a, i) =>
    Expansion.listLine (a == p.entry) a (p.listInstr i)
  let texts := p.arena.code.toList.map fun (a, i) =>
    Expansion.listLine false a (p.arena.listInstr signatures i)
  header ++ String.join code ++
    if texts.isEmpty then "" else "; subprograms\n" ++ String.join texts

def locations (p : Program) : List (Address × Location) :=
  p.code.toList.filterMap fun (a, i) => i.location?.map fun l => (a, l)

end Program

end Makefile.Evaluation
