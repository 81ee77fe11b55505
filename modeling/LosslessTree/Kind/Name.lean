import LosslessTree.Kind.Basic

set_option autoImplicit false

namespace LosslessTree.Kind

def rawName : Kind → String
  | leftParen => "LEFT_PAREN"
  | rightParen => "RIGHT_PAREN"
  | leftBracket => "LEFT_BRACKET"
  | rightBracket => "RIGHT_BRACKET"
  | leftBrace => "LEFT_BRACE"
  | rightBrace => "RIGHT_BRACE"
  | comma => "COMMA"
  | semicolon => "SEMICOLON"
  | colon => "COLON"
  | doubleColon => "COLON2"
  | equal => "EQ"
  | dot => "DOT"
  | doubleDot => "DOT2"
  | ampersand => "AMP"
  | hash => "POUND"
  | bang => "BANG"
  | arrow => "ARROW"
  | underscore => "UNDERSCORE"
  | binaryOperator => "BINARY_OPERATOR"
  | fnKw => "FN_KW"
  | letKw => "LET_KW"
  | mutKw => "MUT_KW"
  | refKw => "REF_KW"
  | structKw => "STRUCT_KW"
  | constKw => "CONST_KW"
  | useKw => "USE_KW"
  | modKw => "MOD_KW"
  | pubKw => "PUB_KW"
  | trueKw => "TRUE_KW"
  | falseKw => "FALSE_KW"
  | ident => "IDENT"
  | intNumber => "INT_NUMBER"
  | floatNumber => "FLOAT_NUMBER"
  | stringLiteral => "STRING"
  | whitespace => "WHITESPACE"
  | newline => "NEWLINE"
  | lineComment => "LINE_COMMENT"
  | unknown => "UNKNOWN"
  | eof => "EOF"
  | tombstone => "TOMBSTONE"
  | sourceFile => "SOURCE_FILE"
  | attr => "ATTR"
  | visibility => "VISIBILITY"
  | fnItem => "FN_ITEM"
  | structItem => "STRUCT_ITEM"
  | constItem => "CONST_ITEM"
  | useItem => "USE_ITEM"
  | modItem => "MOD_ITEM"
  | itemList => "ITEM_LIST"
  | name => "NAME"
  | nameRef => "NAME_REF"
  | path => "PATH"
  | paramList => "PARAM_LIST"
  | param => "PARAM"
  | retType => "RET_TYPE"
  | fieldList => "FIELD_LIST"
  | field => "FIELD"
  | blockExpr => "BLOCK_EXPR"
  | letStmt => "LET_STMT"
  | exprStmt => "EXPR_STMT"
  | identPat => "IDENT_PAT"
  | wildcardPat => "WILDCARD_PAT"
  | tuplePat => "TUPLE_PAT"
  | refPat => "REF_PAT"
  | literalPat => "LITERAL_PAT"
  | restPat => "REST_PAT"
  | pathType => "PATH_TYPE"
  | tupleType => "TUPLE_TYPE"
  | refType => "REF_TYPE"
  | literal => "LITERAL"
  | pathExpr => "PATH_EXPR"
  | tupleExpr => "TUPLE_EXPR"
  | parenExpr => "PAREN_EXPR"
  | binaryExpr => "BINARY_EXPR"
  | callExpr => "CALL_EXPR"
  | argList => "ARG_LIST"
  | refExpr => "REF_EXPR"
  | error => "ERROR"

def production? : Kind → Option String
  | sourceFile => some "SourceFile"
  | attr => some "Attr"
  | visibility => some "Visibility"
  | fnItem => some "FnItem"
  | structItem => some "StructItem"
  | constItem => some "ConstItem"
  | useItem => some "UseItem"
  | modItem => some "ModItem"
  | itemList => some "ItemList"
  | name => some "Name"
  | nameRef => some "NameRef"
  | path => some "Path"
  | paramList => some "ParamList"
  | param => some "Param"
  | retType => some "RetType"
  | fieldList => some "FieldList"
  | field => some "Field"
  | blockExpr => some "BlockExpr"
  | letStmt => some "LetStmt"
  | exprStmt => some "ExprStmt"
  | identPat => some "IdentPat"
  | wildcardPat => some "WildcardPat"
  | tuplePat => some "TuplePat"
  | refPat => some "RefPat"
  | literalPat => some "LiteralPat"
  | restPat => some "RestPat"
  | pathType => some "PathType"
  | tupleType => some "TupleType"
  | refType => some "RefType"
  | literal => some "Literal"
  | pathExpr => some "PathExpr"
  | tupleExpr => some "TupleExpr"
  | parenExpr => some "ParenExpr"
  | binaryExpr => some "BinaryExpr"
  | callExpr => some "CallExpr"
  | argList => some "ArgList"
  | refExpr => some "RefExpr"
  | error => some "Error"
  | _ => none

def displayName (k : Kind) : String := k.production?.getD k.rawName

def named? (name : String) : Option Kind :=
  nodes.find? fun k => k.rawName == name || k.production? == some name

theorem named?_production {k : Kind} {name : String} (h : k.production? = some name) :
    named? name = some k := by
  cases k <;> cases h <;> decide

end LosslessTree.Kind
