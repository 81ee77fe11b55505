/-!
# Source texts

A text is the list of its characters. Offsets count bytes of the UTF-8 form, so a text can be
cut only where a character starts.
-/

set_option autoImplicit false

namespace LosslessTree

def total {α : Type} (size : α → Nat) : List α → Nat
  | [] => 0
  | a :: rest => size a + total size rest

@[simp] theorem total_nil {α : Type} (size : α → Nat) : total size [] = 0 := rfl

@[simp] theorem total_cons {α : Type} (size : α → Nat) (a : α) (rest : List α) :
    total size (a :: rest) = size a + total size rest := rfl

@[simp] theorem total_append {α : Type} (size : α → Nat) (xs ys : List α) :
    total size (xs ++ ys) = total size xs + total size ys := by
  induction xs with
  | nil => simp
  | cons a rest ih => simp [ih, Nat.add_assoc]

theorem total_map {α β : Type} (size : β → Nat) (f : α → β) (xs : List α) :
    total size (xs.map f) = total (fun a => size (f a)) xs := by
  induction xs with
  | nil => rfl
  | cons a rest ih => simp [ih]

abbrev Text := List Char

namespace Text

def byteLength : Text → Nat
  | [] => 0
  | c :: rest => c.utf8Size + byteLength rest

@[simp] theorem byteLength_nil : byteLength [] = 0 := rfl

@[simp] theorem byteLength_cons (c : Char) (rest : Text) :
    byteLength (c :: rest) = c.utf8Size + byteLength rest := rfl

@[simp] theorem byteLength_append (a b : Text) :
    byteLength (a ++ b) = byteLength a + byteLength b := by
  induction a with
  | nil => simp
  | cons c a ih => simp [ih, Nat.add_assoc]

theorem byteLength_pos {t : Text} (h : t ≠ []) : 0 < byteLength t := by
  cases t with
  | nil => exact absurd rfl h
  | cons c rest => simp only [byteLength_cons]; have := c.utf8Size_pos; omega

-- The characters before a byte offset; one that the offset cuts through belongs to them.
def takeBytes : Text → Nat → Text
  | [], _ => []
  | c :: rest, n => if n = 0 then [] else c :: takeBytes rest (n - c.utf8Size)

def dropBytes : Text → Nat → Text
  | [], _ => []
  | c :: rest, n => if n = 0 then c :: rest else dropBytes rest (n - c.utf8Size)

theorem takeBytes_append_dropBytes (t : Text) (n : Nat) :
    takeBytes t n ++ dropBytes t n = t := by
  induction t generalizing n with
  | nil => rfl
  | cons c rest ih =>
      simp only [takeBytes, dropBytes]
      split <;> simp [ih]

theorem takeBytes_byteLength (a b : Text) : takeBytes (a ++ b) (byteLength a) = a := by
  induction a with
  | nil => cases b <;> simp [takeBytes]
  | cons c a ih =>
      have := c.utf8Size_pos
      simp [takeBytes, ih]
      omega

theorem dropBytes_byteLength (a b : Text) : dropBytes (a ++ b) (byteLength a) = b := by
  have h := takeBytes_append_dropBytes (a ++ b) (byteLength a)
  rw [takeBytes_byteLength] at h
  exact List.append_cancel_left h

-- The offset is the start of a character or the end of the text.
def isBoundary : Text → Nat → Bool
  | [], n => n == 0
  | c :: rest, n => n == 0 || (c.utf8Size ≤ n && isBoundary rest (n - c.utf8Size))

theorem isBoundary_iff (t : Text) (n : Nat) :
    t.isBoundary n = true ↔ ∃ a b, t = a ++ b ∧ byteLength a = n := by
  induction t generalizing n with
  | nil =>
      constructor
      · intro h
        exact ⟨[], [], rfl, (beq_iff_eq.mp h).symm⟩
      · rintro ⟨a, b, h, rfl⟩
        simp [(List.append_eq_nil_iff.mp h.symm).1, isBoundary]
  | cons c rest ih =>
      have pos := c.utf8Size_pos
      simp only [isBoundary, Bool.or_eq_true, beq_iff_eq, Bool.and_eq_true, decide_eq_true_eq, ih]
      constructor
      · rintro (rfl | ⟨hc, a, b, rfl, hn⟩)
        · exact ⟨[], c :: rest, rfl, rfl⟩
        · exact ⟨c :: a, b, rfl, by simp only [byteLength_cons]; omega⟩
      · rintro ⟨a, b, h, rfl⟩
        cases a with
        | nil => exact .inl rfl
        | cons d a =>
            simp only [List.cons_append, List.cons.injEq] at h
            obtain ⟨rfl, rfl⟩ := h
            exact .inr ⟨by simp, a, b, rfl, by simp⟩

end Text

end LosslessTree
