import Pathwise.Json
import Pathwise.Script

/-!
# Scripts as documents

Scripts are written as nested lists. A list begins with the name of the statement or operation, and
its operands follow. Integers and truth values stand for themselves.
-/

namespace Pathwise

/-- The names of the binary operations. -/
def IntOp.names : List (String × IntOp) := [("add", .add), ("sub", .sub), ("mul", .mul),
  ("div", .div), ("rem", .rem), ("and", .and), ("or", .or), ("xor", .xor), ("shl", .shl),
  ("ashr", .ashr), ("lshr", .lshr)]

/-- The names of the comparisons. -/
def IntCompare.names : List (String × IntCompare) :=
  [("lt", .lt), ("le", .le), ("gt", .gt), ("ge", .ge), ("eq", .eq), ("ne", .ne)]

mutual
def IntExpr.ofJson? : Json → Option IntExpr
  | .num literal => do return .lit (Int64.ofInt (← Numeral.int? 10 literal))
  | .arr [.str f, x] =>
    match f with
    | "p" => x.str?.map .param
    | "v" => x.str?.map .var
    | "leaked" => x.str?.map .kept
    | "neg" => do return .unary .neg (← IntExpr.ofJson? x)
    | "not" => do return .unary .not (← IntExpr.ofJson? x)
    | "frombool" => do return .ofBool (← BoolExpr.ofJson? x)
    | _ => none
  | .arr [.str f, x, y] => do
    return .binary (← IntOp.names.lookup f) (← IntExpr.ofJson? x) (← IntExpr.ofJson? y)
  | .arr [.str "ite", c, x, y] => do
    return .ite (← BoolExpr.ofJson? c) (← IntExpr.ofJson? x) (← IntExpr.ofJson? y)
  | _ => none

def BoolExpr.ofJson? : Json → Option BoolExpr
  | .bool b => some (.lit b)
  | .arr [.str "bnot", c] => do return .not (← BoolExpr.ofJson? c)
  | .arr [.str f, x, y] =>
    match f with
    | "band" => do return .join .and (← BoolExpr.ofJson? x) (← BoolExpr.ofJson? y)
    | "bor" => do return .join .or (← BoolExpr.ofJson? x) (← BoolExpr.ofJson? y)
    | _ => do
      return .compare (← IntCompare.names.lookup f) (← IntExpr.ofJson? x) (← IntExpr.ofJson? y)
  | _ => none
end

/-- The text that a run ends with: a text as it is, a number in digits. -/
def Stmt.panicText? : Json → Option String
  | .str s => some s
  | .num literal => some literal
  | _ => none

mutual
def Stmt.ofJson? : Json → Option Stmt
  | .arr [.str f, x] =>
    match f with
    | "ret" => do return .ret (← IntExpr.ofJson? x)
    | "panic" => do return .panic (← panicText? x)
    | _ => none
  | .arr [.str f, .str name, x] =>
    match f with
    | "set" => do return .set name (← IntExpr.ofJson? x)
    | "leak" => do return .keep name (← IntExpr.ofJson? x)
    | _ => none
  | .arr [.str "if", c, .arr yes] => do return .branch (← BoolExpr.ofJson? c) (← ofItems? yes) []
  | .arr [.str "if", c, .arr yes, .arr no] => do
    return .branch (← BoolExpr.ofJson? c) (← ofItems? yes) (← ofItems? no)
  | .arr [.str "while", c, rounds, .arr body] => do
    return .loop (← BoolExpr.ofJson? c) (← rounds.int?).toNat (← ofItems? body)
  | _ => none

def Stmt.ofItems? : List Json → Option (List Stmt)
  | [] => some []
  | j :: js => do return (← ofJson? j) :: (← ofItems? js)
end

/-- The script of a document. -/
def Script.ofJson? (j : Json) : Option Script := Stmt.ofItems? j.items

end Pathwise
