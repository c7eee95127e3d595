import LuaBytecode.Prototype.Basic

namespace LuaBytecode

namespace Prototype

/-- A constant operand shows as a negative number counted from -1. -/
def shownOperand (mode : OperandMode) (value : Nat) : Int :=
  if mode = .rk && isRkConstant value then -1 - (value % 256 : Nat) else value

def operandText (i : Instruction) (op : Opcode) : String :=
  match op.format with
  | .abc =>
    let shown (mode : OperandMode) (value : Nat) : String :=
      if mode = .unused then "" else " " ++ toString (shownOperand mode value)
    Nat.repr i.a ++ shown op.bMode i.b ++ shown op.cMode i.c
  | .abx =>
    Nat.repr i.a ++
      match op.bMode with
      | .rk => " " ++ toString (-1 - (i.bx : Int))
      | .number => " " ++ Nat.repr i.bx
      | _ => ""
  | .asbx => Nat.repr i.a ++ " " ++ toString i.sbx
  | .ax => toString (-1 - (i.axField : Int))

def rkConstant? (p : Prototype) (rk : Nat) : Option Constant :=
  if isRkConstant rk then p.constants[rk % 256]? else none

def upvalueName (p : Prototype) (index : Nat) : String :=
  match p.upvalues[index]? with
  | some u => u.name
  | none => "-"

def constantTexts (p : Prototype) (operands : List Nat) : String :=
  String.join ((operands.filterMap p.rkConstant?).map fun k => " " ++ k.text)

def comment (p : Prototype) (pc : Nat) (i : Instruction) (op : Opcode) : String :=
  match op with
  | .loadK =>
    match p.constants[i.bx]? with
    | some k => "\t; " ++ k.text
    | none => ""
  | .getUpval | .setUpval => "\t; " ++ p.upvalueName i.b
  | .getTabUp => "\t; " ++ p.upvalueName i.b ++ p.constantTexts [i.c]
  | .setTabUp => "\t; " ++ p.upvalueName i.a ++ p.constantTexts [i.b, i.c]
  | .jmp | .forLoop | .forPrep | .tforLoop => "\t; to " ++ toString ((pc : Int) + 2 + i.sbx)
  | .closure => "\t; function [" ++ Nat.repr i.bx ++ "]"
  | _ =>
    if op.bMode = .rk || op.cMode = .rk then
      let shown := p.constantTexts [i.b, i.c]
      if shown.isEmpty then "" else "\t;" ++ shown
    else ""

def padded (mnemonic : String) : String :=
  mnemonic ++ String.ofList (List.replicate (9 - mnemonic.length) ' ')

def instructionText (p : Prototype) (pc : Nat) (i : Instruction) : String :=
  match i.opcode? with
  | none => i.describe
  | some op => padded op.mnemonic ++ "\t" ++ operandText i op ++ p.comment pc i op

def ownLines (p : Prototype) (source : String) (isMain : Bool) : List String :=
  let role := if isMain then "main" else "function"
  let more := if p.isVararg then "+" else ""
  let header := s!"{role} <{source}> ({p.code.size} instructions)"
  let sizes := s!"{p.params}{more} params, {p.stackSize} slots, " ++
    s!"{p.upvalues.size} upvalues, {p.locals.size} locals, {p.constants.size} constants, " ++
    s!"{p.functions.length} functions"
  let code := p.code.toList.zipIdx.map fun (i, pc) => s!"\t{pc + 1}\t[-]\t{p.instructionText pc i}"
  let constants := p.constants.toList.zipIdx.map fun (k, n) => s!"\t{n + 1}\t{k.text}"
  let locals := p.locals.toList.zipIdx.map fun (v, n) => s!"\t{n}\t{v.name}\t{v.startPc + 1}\t{v.endPc + 1}"
  let upvalues := p.upvalues.toList.zipIdx.map fun (u, n) => s!"\t{n}\t{u.name}\t{u.inStack.toNat}\t{u.index}"
  [header, sizes] ++ code ++ [s!"constants ({p.constants.size}):"] ++ constants ++
    [s!"locals ({p.locals.size}):"] ++ locals ++ [s!"upvalues ({p.upvalues.size}):"] ++ upvalues

mutual

def lines (source : String) (isMain : Bool) : Prototype → List String
  | ⟨a, b, c, d, e, f, g, h, functions⟩ =>
    ownLines ⟨a, b, c, d, e, f, g, h, functions⟩ source isMain ++ nestedLines source functions

def nestedLines (source : String) : List Prototype → List String
  | [] => []
  | p :: rest => "" :: p.lines source false ++ nestedLines source rest

end

def listing (p : Prototype) : String :=
  String.join ((p.lines (p.source.getD "?") true).map fun line => line ++ "\n")

end Prototype

end LuaBytecode
