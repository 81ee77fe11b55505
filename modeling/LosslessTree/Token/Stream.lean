import LosslessTree.Token.Basic

set_option autoImplicit false

namespace LosslessTree

-- The tokens of a text, with the end of the file apart from the others.
structure TokenStream where
  tokens : List Token
  eof : Token
  deriving DecidableEq, Repr

namespace TokenStream

def ofTextAt (offset : Nat) (t : Text) : TokenStream :=
  let first := Token.scan offset t
  if _more : first.1.kind ≠ .eof then
    let rest := ofTextAt first.1.fullSpan.stop first.2
    ⟨first.1 :: rest.tokens, rest.eof⟩
  else ⟨[], first.1⟩
termination_by t.length
decreasing_by exact Token.scan_length _more

def ofText (t : Text) : TokenStream := ofTextAt 0 t

def all (s : TokenStream) : List Token := s.tokens ++ [s.eof]

theorem ofTextAt_eof (offset : Nat) (t : Text) : (ofTextAt offset t).eof.kind = .eof := by
  fun_induction ofTextAt offset t with
  | case1 offset t first more rest ih => exact ih
  | case2 offset t first ended => simpa using ended

theorem ofTextAt_text (offset : Nat) (t : Text) :
    ((ofTextAt offset t).all.map Token.fullText).flatten = t := by
  fun_induction ofTextAt offset t with
  | case1 offset t first more rest ih =>
      have whole := Token.scan_text offset t
      simp only [all, List.cons_append, List.map_cons, List.flatten_cons] at ih ⊢
      rw [ih, whole]
  | case2 offset t first ended =>
      have whole := Token.scan_text offset t
      have nothing : first.2 = [] := by
        simp only [first, Token.scan] at ended ⊢
        split
        · rfl
        · next kind n found =>
            have := Lexeme.measure_isLexeme found
            simp_all [Lexeme.isLexeme]
      simpa [all, first, nothing] using whole

end TokenStream

end LosslessTree
