import LosslessTree.Outline

set_option autoImplicit false

namespace LosslessTree.Outline

structure Collector where
  entries : List Entry
  depth : Nat

namespace Collector

variable {t : SyntaxTree}

def push {v : View} (keyword : String) (name : Text) (x : Typed t v) (c : Collector) : Collector :=
  ⟨c.entries ++ [entry t c.depth keyword name x], c.depth⟩

def pushField (c : Collector) (f : View.Field t) : Collector :=
  ⟨c.entries ++ [fieldEntry t c.depth f], c.depth⟩

def raise (c : Collector) : Collector := ⟨c.entries, c.depth + 1⟩

-- The depth cannot be lowered below zero.
def lower (c : Collector) : Option Collector :=
  if c.depth = 0 then none else some ⟨c.entries, c.depth - 1⟩

-- Adds the entries of an item; `inner` adds those of an item of a module. A module without a list
-- of items is left before the depth is raised.
def visit (inner : Collector → View.Item t → Option Collector) (c : Collector) (x : View.Item t) :
    Option Collector :=
  match x.form with
  | .fn f => some (c.push "fn" (signature t f) x)
  | .struct s => ((fields t s).foldl pushField (c.push "struct" (nameText t s.name?) x).raise).lower
  | .const k => some (c.push "const" (nameText t k.name?) x)
  | .use u => some (c.push "use" (textOr t u.path?) x)
  | .mod m =>
      match m.itemList? with
      | none => some (c.push "mod" (nameText t m.name?) x)
      | some list => (list.items.foldlM inner (c.push "mod" (nameText t m.name?) x).raise).bind lower

def visitLevels : Nat → Collector → View.Item t → Option Collector
  | 0 => fun c _ => some c
  | n + 1 => visit (visitLevels n)

def collected (c : Collector) (entries : List Entry) : Collector := ⟨c.entries ++ entries, c.depth⟩

theorem foldl_pushField (c : Collector) (fields : List (View.Field t)) :
    fields.foldl pushField c = c.collected (fields.map (fieldEntry t c.depth)) := by
  induction fields generalizing c with
  | nil => simp [collected]
  | cons f fields ih =>
      rw [List.foldl_cons, ih]
      simp [collected, pushField]

theorem foldlM_collected {inner : Collector → View.Item t → Option Collector}
    {entries : Nat → View.Item t → List Entry}
    (each : ∀ c x, inner c x = some (c.collected (entries c.depth x))) (c : Collector)
    (items : List (View.Item t)) :
    items.foldlM inner c = some (c.collected (items.flatMap (entries c.depth))) := by
  induction items generalizing c with
  | nil => simp [collected]
  | cons x items ih =>
      rw [List.foldlM_cons, each, Option.bind_eq_bind, Option.bind_some, ih]
      simp [collected]

theorem visit_eq {inner : Collector → View.Item t → Option Collector}
    {entries : Nat → View.Item t → List Entry}
    (each : ∀ c x, inner c x = some (c.collected (entries c.depth x))) (c : Collector) (x : View.Item t) :
    visit inner c x = some (c.collected (itemEntries t entries c.depth x)) := by
  rw [visit, itemEntries]
  cases x.form with
  | fn f => rfl
  | struct s =>
      simp only [foldl_pushField]
      simp [lower, collected, raise, push]
  | const k => rfl
  | use u => rfl
  | mod m =>
      simp only [items]
      cases m.itemList? with
      | none => rfl
      | some list =>
          simp only [foldlM_collected each]
          simp [lower, collected, raise, push]

theorem visitLevels_eq (n : Nat) (c : Collector) (x : View.Item t) :
    visitLevels n c x = some (c.collected (levels t n c.depth x)) := by
  induction n generalizing c x with
  | zero => simp [visitLevels, levels, collected]
  | succ n ih => exact visit_eq ih c x

theorem foldlM_visitLevels (n : Nat) (items : List (View.Item t)) :
    items.foldlM (visitLevels n) ⟨[], 0⟩ = some ⟨items.flatMap (levels t n 0), 0⟩ :=
  foldlM_collected (visitLevels_eq n) ⟨[], 0⟩ items

end Collector

end LosslessTree.Outline
