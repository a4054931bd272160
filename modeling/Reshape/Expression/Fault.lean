import Reshape.Expression.Operator
import Reshape.Text.Numeral

/-!
# Faults of expressions
-/

namespace Reshape.Expression

inductive Problem where
  | missingLeftOperand (o : Operator)
  | unexpectedOperator (o : Operator)
  | missingOperand (o : Operator)
  | unopenedGroup
  | unclosedGroup
  | commaOutsideGroup
  | adjacentOperands (count : Nat)
  deriving DecidableEq

def Problem.message : Problem → String
  | missingLeftOperand o => "'" ++ o.spelling ++ "' is missing its left operand"
  | unexpectedOperator o => "unexpected '" ++ o.spelling ++ "' after an operand"
  | missingOperand o => "'" ++ o.spelling ++ "' is missing an operand"
  | unopenedGroup => "unbalanced ')'"
  | unclosedGroup => "unbalanced '('"
  | commaOutsideGroup => "',' outside of parentheses"
  | adjacentOperands count =>
    String.ofList (Text.decimal count) ++ " operands without an operator between them"

/-- A `position` counts characters, an `index` tokens or items of a postorder. -/
inductive Fault where
  | unexpectedCharacter (position : Nat) (c : Char)
  | malformed (index : Nat) (problem : Problem)
  | empty
  | unboundElement
  | undefinedVariable (name : String)
  deriving DecidableEq

def Fault.message : Fault → String
  | unexpectedCharacter position c =>
    "unexpected character '" ++ c.toString ++ "' at position " ++
      String.ofList (Text.decimal position)
  | malformed index problem =>
    "syntax error at token " ++ String.ofList (Text.decimal index) ++ ": " ++ problem.message
  | empty => "empty expression"
  | unboundElement => "'@' used outside of a !sortBy, !filter or !map argument"
  | undefinedVariable name => "undefined variable: " ++ name

end Reshape.Expression
