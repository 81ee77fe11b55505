import LosslessTree.View.Production

set_option autoImplicit false

namespace LosslessTree.View

variable {t : SyntaxTree}

def IdentPat.name? (x : IdentPat t) : Option (Name t) := t.firstChildAs (.production .name) x.node

def IdentPat.isRef (x : IdentPat t) : Bool := (t.tokenChild? x.node .refKw).isSome

def IdentPat.isMut (x : IdentPat t) : Bool := (t.tokenChild? x.node .mutKw).isSome

def TuplePat.pats (x : TuplePat t) : List (Pat t) := t.childrenAs (.category .pat) x.node

def RefPat.pat? (x : RefPat t) : Option (Pat t) := t.firstChildAs (.category .pat) x.node

def RefPat.isMut (x : RefPat t) : Bool := (t.tokenChild? x.node .mutKw).isSome

def LiteralPat.literal? (x : LiteralPat t) : Option (Literal t) :=
  t.firstChildAs (.production .literal) x.node

def PathType.path? (x : PathType t) : Option (Path t) := t.firstChildAs (.production .path) x.node

def TupleType.fields (x : TupleType t) : List (Ty t) := t.childrenAs (.category .type) x.node

def RefType.isMut (x : RefType t) : Bool := (t.tokenChild? x.node .mutKw).isSome

def RefType.type? (x : RefType t) : Option (Ty t) := t.firstChildAs (.category .type) x.node

end LosslessTree.View
