import LosslessTree.View.Selection

set_option autoImplicit false

namespace LosslessTree.View

variable (t : SyntaxTree)

abbrev SourceFile := Typed t (.production .sourceFile)
abbrev Attr := Typed t (.production .attr)
abbrev Visibility := Typed t (.production .visibility)
abbrev FnItem := Typed t (.production .fnItem)
abbrev StructItem := Typed t (.production .structItem)
abbrev ConstItem := Typed t (.production .constItem)
abbrev UseItem := Typed t (.production .useItem)
abbrev ModItem := Typed t (.production .modItem)
abbrev ItemList := Typed t (.production .itemList)
abbrev Name := Typed t (.production .name)
abbrev NameRef := Typed t (.production .nameRef)
abbrev Path := Typed t (.production .path)
abbrev ParamList := Typed t (.production .paramList)
abbrev Param := Typed t (.production .param)
abbrev RetType := Typed t (.production .retType)
abbrev FieldList := Typed t (.production .fieldList)
abbrev Field := Typed t (.production .field)
abbrev BlockExpr := Typed t (.production .blockExpr)
abbrev LetStmt := Typed t (.production .letStmt)
abbrev ExprStmt := Typed t (.production .exprStmt)
abbrev IdentPat := Typed t (.production .identPat)
abbrev WildcardPat := Typed t (.production .wildcardPat)
abbrev TuplePat := Typed t (.production .tuplePat)
abbrev RefPat := Typed t (.production .refPat)
abbrev LiteralPat := Typed t (.production .literalPat)
abbrev RestPat := Typed t (.production .restPat)
abbrev PathType := Typed t (.production .pathType)
abbrev TupleType := Typed t (.production .tupleType)
abbrev RefType := Typed t (.production .refType)
abbrev Literal := Typed t (.production .literal)
abbrev PathExpr := Typed t (.production .pathExpr)
abbrev TupleExpr := Typed t (.production .tupleExpr)
abbrev ParenExpr := Typed t (.production .parenExpr)
abbrev BinaryExpr := Typed t (.production .binaryExpr)
abbrev CallExpr := Typed t (.production .callExpr)
abbrev ArgList := Typed t (.production .argList)
abbrev RefExpr := Typed t (.production .refExpr)

abbrev Pat := Typed t (.category .pat)
abbrev Item := Typed t (.category .item)
abbrev Expr := Typed t (.category .expr)
abbrev Ty := Typed t (.category .type)
abbrev Stmt := Typed t (.category .stmt)

end LosslessTree.View
