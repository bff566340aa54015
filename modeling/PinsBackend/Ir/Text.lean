import PinsBackend.Ir.Basic

/-! The one-line text of expressions and statements, as fault messages quote them. -/
namespace PinsBackend.Ir

namespace Text

/-- A character inside a quoted string: the quote, the backslash and control characters are
escaped, and every other character stands for itself. -/
def escape (c : Char) : String :=
  if c = '"' then "\\\""
  else if c = '\\' then "\\\\"
  else if c = '\n' then "\\n"
  else if c = '\t' then "\\t"
  else if c = '\r' then "\\r"
  else if c.toNat = 0 then "\\0"
  else if c.toNat < 32 ∨ 127 ≤ c.toNat ∧ c.toNat < 160 then
    "\\u\x7b" ++ String.ofList (Nat.toDigits 16 c.toNat) ++ "\x7d"
  else c.toString

def quote (s : String) : String :=
  "\"" ++ String.join (s.toList.map escape) ++ "\""

def value : Value → String
  | .int n => "Int(" ++ toString n.toInt ++ ")"
  | .str s => "Str(" ++ quote s ++ ")"

def operator : BinOp → String
  | .add => "Add"
  | .sub => "Sub"
  | .mul => "Mul"
  | .div => "Div"
  | .mod => "Mod"
  | .eq => "Eq"
  | .ne => "Ne"
  | .lt => "Lt"
  | .le => "Le"
  | .gt => "Gt"
  | .ge => "Ge"

end Text

mutual

def Expr.text : Expr → String
  | .const v => "Const(" ++ Text.value v ++ ")"
  | .data l => "Name(" ++ Text.quote l ++ ")"
  | .temp t => "Temp(Temp(" ++ toString t ++ "))"
  | .mem a => "Mem(" ++ a.text ++ ")"
  | .binop op l r =>
    "Binop \x7b op: " ++ Text.operator op ++ ", left: " ++ l.text ++ ", right: " ++ r.text ++
      " \x7d"
  | .call l args =>
    "Call \x7b label: " ++ Text.quote l ++ ", args: [" ++ ", ".intercalate (Expr.texts args) ++
      "] \x7d"
  | .eseq s e => "Eseq \x7b stmt: " ++ s.text ++ ", expr: " ++ e.text ++ " \x7d"
  | .checkIndex i n =>
    "CheckIndex \x7b index: " ++ i.text ++ ", length: " ++ toString n ++ " \x7d"

def Expr.texts : List Expr → List String
  | [] => []
  | e :: es => e.text :: Expr.texts es

def Stmt.text : Stmt → String
  | .move d s => "Move \x7b dst: " ++ d.text ++ ", src: " ++ s.text ++ " \x7d"
  | .eval e => "Eval(" ++ e.text ++ ")"
  | .jump l => "Jump(" ++ Text.quote l ++ ")"
  | .cjump c a b =>
    "CJump \x7b cond: " ++ c.text ++ ", if_true: " ++ Text.quote a ++ ", if_false: " ++
      Text.quote b ++ " \x7d"
  | .label l => "Label(" ++ Text.quote l ++ ")"
  | .seq ss => "Seq([" ++ ", ".intercalate (Stmt.texts ss) ++ "])"

def Stmt.texts : List Stmt → List String
  | [] => []
  | s :: ss => s.text :: Stmt.texts ss

end

end PinsBackend.Ir
