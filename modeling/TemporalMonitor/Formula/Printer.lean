import TemporalMonitor.Formula.Basic

/-!
# Formulas as text

A unary operator is written before its operand and a binary one between its operands. An operand
is put in parentheses exactly when its own outermost symbol is a binary operator; there is no
precedence between operators.

## Main definitions

* `Formula.render` — the text of a formula
-/

namespace TemporalMonitor

/-- The text written before the operand. -/
def UnaryOp.sign : UnaryOp → String
  | .not => "!"
  | .next => "X "
  | .eventually => "<> "
  | .always => "[] "

/-- The text written between the operands. -/
def BinaryOp.sign : BinaryOp → String
  | .and => "&&"
  | .or => "||"
  | .implies => "->"
  | .iff => "<->"
  | .entails => "=>"
  | .congruent => "<=>"
  | .until => "U"
  | .release => "R"
  | .weakUntil => "W"

namespace Formula

/-- Whether the outermost symbol is a binary operator. -/
def isBinary : Formula → Bool
  | .binary _ _ _ => true
  | _ => false

/-- The text in parentheses if the condition holds, as it is otherwise. -/
def parenthesize (condition : Bool) (text : String) : String :=
  if condition then "(" ++ text ++ ")" else text

/-- The text of a formula. -/
def render : Formula → String
  | .verum => "true"
  | .falsum => "false"
  | .prop name => name
  | .unary op f => op.sign ++ parenthesize f.isBinary f.render
  | .binary op f g =>
    parenthesize f.isBinary f.render ++ " " ++ op.sign ++ " " ++ parenthesize g.isBinary g.render

end Formula

end TemporalMonitor
