import LosslessTree.View.Production

set_option autoImplicit false

namespace LosslessTree.View

variable {t : SyntaxTree}

def SourceFile.attrs (x : SourceFile t) : List (Attr t) := t.childrenAs (.production .attr) x.node

def SourceFile.items (x : SourceFile t) : List (Item t) := t.childrenAs (.category .item) x.node

def Attr.path? (x : Attr t) : Option (Path t) := t.firstChildAs (.production .path) x.node

def Visibility.pubToken? (x : Visibility t) : Option Nat := t.tokenChild? x.node .pubKw

def FnItem.attrs (x : FnItem t) : List (Attr t) := t.childrenAs (.production .attr) x.node

def FnItem.visibility? (x : FnItem t) : Option (Visibility t) :=
  t.firstChildAs (.production .visibility) x.node

def FnItem.name? (x : FnItem t) : Option (Name t) := t.firstChildAs (.production .name) x.node

def FnItem.paramList? (x : FnItem t) : Option (ParamList t) :=
  t.firstChildAs (.production .paramList) x.node

def FnItem.retType? (x : FnItem t) : Option (RetType t) :=
  t.firstChildAs (.production .retType) x.node

def FnItem.body? (x : FnItem t) : Option (BlockExpr t) :=
  t.firstChildAs (.production .blockExpr) x.node

def StructItem.attrs (x : StructItem t) : List (Attr t) := t.childrenAs (.production .attr) x.node

def StructItem.visibility? (x : StructItem t) : Option (Visibility t) :=
  t.firstChildAs (.production .visibility) x.node

def StructItem.name? (x : StructItem t) : Option (Name t) :=
  t.firstChildAs (.production .name) x.node

def StructItem.fieldList? (x : StructItem t) : Option (FieldList t) :=
  t.firstChildAs (.production .fieldList) x.node

def ConstItem.attrs (x : ConstItem t) : List (Attr t) := t.childrenAs (.production .attr) x.node

def ConstItem.visibility? (x : ConstItem t) : Option (Visibility t) :=
  t.firstChildAs (.production .visibility) x.node

def ConstItem.name? (x : ConstItem t) : Option (Name t) := t.firstChildAs (.production .name) x.node

def ConstItem.type? (x : ConstItem t) : Option (Ty t) := t.firstChildAs (.category .type) x.node

def ConstItem.body? (x : ConstItem t) : Option (Expr t) := t.firstChildAs (.category .expr) x.node

def UseItem.attrs (x : UseItem t) : List (Attr t) := t.childrenAs (.production .attr) x.node

def UseItem.visibility? (x : UseItem t) : Option (Visibility t) :=
  t.firstChildAs (.production .visibility) x.node

def UseItem.path? (x : UseItem t) : Option (Path t) := t.firstChildAs (.production .path) x.node

def ModItem.attrs (x : ModItem t) : List (Attr t) := t.childrenAs (.production .attr) x.node

def ModItem.visibility? (x : ModItem t) : Option (Visibility t) :=
  t.firstChildAs (.production .visibility) x.node

def ModItem.name? (x : ModItem t) : Option (Name t) := t.firstChildAs (.production .name) x.node

def ModItem.itemList? (x : ModItem t) : Option (ItemList t) :=
  t.firstChildAs (.production .itemList) x.node

def ItemList.items (x : ItemList t) : List (Item t) := t.childrenAs (.category .item) x.node

def Name.identToken? (x : Name t) : Option Nat := t.tokenChild? x.node .ident

def Name.text (x : Name t) : Text := t.trimmedText x.node

def NameRef.identToken? (x : NameRef t) : Option Nat := t.tokenChild? x.node .ident

def NameRef.text (x : NameRef t) : Text := t.trimmedText x.node

def Path.segments (x : Path t) : List (NameRef t) := t.childrenAs (.production .nameRef) x.node

def ParamList.params (x : ParamList t) : List (Param t) := t.childrenAs (.production .param) x.node

def Param.pat? (x : Param t) : Option (Pat t) := t.firstChildAs (.category .pat) x.node

def Param.type? (x : Param t) : Option (Ty t) := t.firstChildAs (.category .type) x.node

def RetType.type? (x : RetType t) : Option (Ty t) := t.firstChildAs (.category .type) x.node

def FieldList.fields (x : FieldList t) : List (Field t) := t.childrenAs (.production .field) x.node

def Field.attrs (x : Field t) : List (Attr t) := t.childrenAs (.production .attr) x.node

def Field.visibility? (x : Field t) : Option (Visibility t) :=
  t.firstChildAs (.production .visibility) x.node

def Field.name? (x : Field t) : Option (Name t) := t.firstChildAs (.production .name) x.node

def Field.type? (x : Field t) : Option (Ty t) := t.firstChildAs (.category .type) x.node

inductive ItemForm (t : SyntaxTree) where
  | fn (item : FnItem t)
  | struct (item : StructItem t)
  | const (item : ConstItem t)
  | use (item : UseItem t)
  | mod (item : ModItem t)

theorem item_kinds {k : Kind} (h : (View.category .item).accepts k = true) :
    k = .fnItem ∨ k = .structItem ∨ k = .constItem ∨ k = .useItem ∨ k = .modItem := by
  revert h
  cases k <;> decide

def Item.form (x : Item t) : ItemForm t :=
  if h : t.kind x.node = .fnItem then .fn ⟨x.node, by simp [accepts, h]⟩
  else if h : t.kind x.node = .structItem then .struct ⟨x.node, by simp [accepts, h]⟩
  else if h : t.kind x.node = .constItem then .const ⟨x.node, by simp [accepts, h]⟩
  else if h : t.kind x.node = .useItem then .use ⟨x.node, by simp [accepts, h]⟩
  else .mod ⟨x.node, by have := item_kinds x.accepted; simp_all [accepts]⟩

-- The name that an item declares; an import declares none.
def Item.name? (x : Item t) : Option (Name t) :=
  match x.form with
  | .fn item => item.name?
  | .struct item => item.name?
  | .const item => item.name?
  | .mod item => item.name?
  | .use _ => none

def Item.visibility? (x : Item t) : Option (Visibility t) :=
  match x.form with
  | .fn item => item.visibility?
  | .struct item => item.visibility?
  | .const item => item.visibility?
  | .use item => item.visibility?
  | .mod item => item.visibility?

end LosslessTree.View
