import LosslessTree.Kind.Name

set_option autoImplicit false

namespace LosslessTree

def Kind.described : Kind → String
  | leftParen => "`(`"
  | rightParen => "`)`"
  | leftBracket => "`[`"
  | rightBracket => "`]`"
  | leftBrace => "`\x7b`"
  | rightBrace => "`\x7d`"
  | comma => "`,`"
  | semicolon => "`;`"
  | colon => "`:`"
  | equal => "`=`"
  | ident => "identifier"
  | eof => "end of file"
  | k => k.rawName

inductive Problem where
  | expected (kind : Kind)
  | expectedItem
  | strayItemSemicolon
  | expectedPath
  | expectedParameters
  | expectedParameter
  | untypedParameter
  | expectedStructBody
  | expectedField
  | untypedField
  | untypedConst
  | expectedBlock
  | expectedStatement
  | expectedPattern
  | expectedType
  | expectedTupleType
  | expectedExpression
  | expectedArgument
  deriving DecidableEq, Repr

def Problem.message : Problem → String
  | expected k => "expected " ++ k.described
  | expectedItem => "expected an item"
  | strayItemSemicolon => "expected item, found `;`"
  | expectedPath => "expected a path"
  | expectedParameters => "expected function parameters"
  | expectedParameter => "expected parameter"
  | untypedParameter => "missing type for function parameter"
  | expectedStructBody => "expected `\x7b` or `;`"
  | expectedField => "expected field"
  | untypedField => "missing type for field"
  | untypedConst => "missing type for `const` item"
  | expectedBlock => "expected a block"
  | expectedStatement => "expected a statement"
  | expectedPattern => "expected pattern"
  | expectedType => "expected a type"
  | expectedTupleType => "expected type"
  | expectedExpression => "expected an expression"
  | expectedArgument => "expected expression"

end LosslessTree
