import Machine16.Text.Hex

/-! Values computed at assembly time, and their written form. -/
namespace Machine16

inductive Operator
  | add | subtract | multiply | divide | and | or | xor
  deriving DecidableEq, Repr

namespace Operator

def symbol : Operator → String
  | add => "+" | subtract => "-" | multiply => "*" | divide => "/"
  | and => "&" | or => "|" | xor => "^"

/-- Operators of higher precedence bind tighter. -/
def precedence : Operator → Nat
  | multiply | divide => 3
  | add | subtract => 2
  | and | or | xor => 1

end Operator

inductive Expression
  | literal (value : UInt32)
  | symbol (name : String)
  /-- The address of `symbol` and the offset of `member` in the structure, added. -/
  | member (struct symbol member : String)
  | binary (operator : Operator) (left right : Expression)
  deriving DecidableEq, Repr

/-- Every operation stands in parentheses, so that the text has one reading. -/
def Expression.print : Expression → String
  | literal v => "$" ++ Hex.format 1 v.toNat
  | symbol n => "!" ++ n
  | member s n m => "<" ++ s ++ "> " ++ n ++ "." ++ m
  | binary op l r => "(" ++ l.print ++ " " ++ op.symbol ++ " " ++ r.print ++ ")"

end Machine16
