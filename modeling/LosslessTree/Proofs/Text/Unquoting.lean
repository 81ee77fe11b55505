import LosslessTree.Text.Quoted

set_option autoImplicit false

namespace LosslessTree.Text

inductive Escape where
  | none | backslash | codeStart
  | code (value : Nat)

def unescaped? : Char → Option Char
  | '"' => some '"'
  | '\\' => some '\\'
  | 't' => some '\t'
  | 'r' => some '\r'
  | 'n' => some '\n'
  | '0' => some '\x00'
  | _ => none

def hexValue (c : Char) : Nat := if c.isDigit then c.toNat - 48 else c.toNat - 87

def unquotedFrom : Escape → Text → Option Text
  | _, [] => none
  | .none, c :: rest =>
      if c = '"' then if rest = [] then some [] else none
      else if c = '\\' then unquotedFrom .backslash rest
      else (unquotedFrom .none rest).map (c :: ·)
  | .backslash, c :: rest =>
      if c = 'u' then unquotedFrom .codeStart rest
      else (unescaped? c).bind fun c' => (unquotedFrom .none rest).map (c' :: ·)
  | .codeStart, c :: rest => if c = '\x7b' then unquotedFrom (.code 0) rest else none
  | .code value, c :: rest =>
      if c = '\x7d' then (unquotedFrom .none rest).map (Char.ofNat value :: ·)
      else unquotedFrom (.code (16 * value + hexValue c)) rest

def unquoted : Text → Option Text
  | '"' :: rest => unquotedFrom .none rest
  | _ => none

theorem hexValue_digitChar : ∀ d < 16, hexValue d.digitChar = d := by decide

theorem digitChar_plain : ∀ d < 16, d.digitChar ≠ '\x7d' ∧ d.digitChar ≠ '\n' := by decide

theorem toDigits_plain (n : Nat) : ∀ c ∈ Nat.toDigits 16 n, c ≠ '\x7d' ∧ c ≠ '\n' := by
  induction n using Nat.strongRecOn with
  | ind n ih =>
      intro c mem
      rcases Nat.lt_or_ge n 16 with less | le
      · rw [Nat.toDigits_of_lt_base less, List.mem_singleton] at mem
        exact mem ▸ digitChar_plain n less
      · rw [Nat.toDigits_of_base_le (by decide) le, List.mem_append, List.mem_singleton] at mem
        rcases mem with before | rfl
        · exact ih (n / 16) (by omega) c before
        · exact digitChar_plain _ (Nat.mod_lt n (by decide))

theorem foldl_hexValue (n : Nat) :
    (Nat.toDigits 16 n).foldl (fun value c => 16 * value + hexValue c) 0 = n := by
  induction n using Nat.strongRecOn with
  | ind n ih =>
      rcases Nat.lt_or_ge n 16 with less | le
      · rw [Nat.toDigits_of_lt_base less, List.foldl_cons, List.foldl_nil, hexValue_digitChar n less]
        omega
      · rw [Nat.toDigits_of_base_le (by decide) le, List.foldl_append, ih (n / 16) (by omega),
          List.foldl_cons, List.foldl_nil, hexValue_digitChar _ (Nat.mod_lt n (by decide))]
        exact Nat.div_add_mod n 16

theorem unquotedFrom_code {digits : Text} (plain : ∀ c ∈ digits, c ≠ '\x7d') (value : Nat) (rest : Text) :
    unquotedFrom (.code value) (digits ++ '\x7d' :: rest) = (unquotedFrom .none rest).map
      (Char.ofNat (digits.foldl (fun value c => 16 * value + hexValue c) value) :: ·) := by
  induction digits generalizing value with
  | nil => rfl
  | cons c digits ih =>
      obtain ⟨own, behind⟩ := List.forall_mem_cons.mp plain
      rw [List.cons_append, unquotedFrom, if_neg own, ih behind]
      rfl

theorem unquotedFrom_codeEscape (c : Char) (rest : Text) :
    unquotedFrom .none (codeEscape c ++ rest) = (unquotedFrom .none rest).map (c :: ·) := by
  have code := unquotedFrom_code (fun d mem => (toDigits_plain c.toNat d mem).1) 0 rest
  rw [foldl_hexValue, Char.ofNat_toNat] at code
  rw [← code, codeEscape, List.append_assoc, List.append_assoc]
  rfl

theorem quotedChar_cases (c : Char) :
    (∃ letter, quotedChar c = ['\\', letter] ∧ unescaped? letter = some c ∧ letter ≠ 'u' ∧ letter ≠ '\n') ∨
      quotedChar c = codeEscape c ∨
      quotedChar c = [c] ∧ c ≠ '"' ∧ c ≠ '\\' ∧ c ≠ '\n' := by
  unfold quotedChar
  split
  · next same => exact .inl ⟨'"', rfl, congrArg some same.symm, by decide, by decide⟩
  split
  · next same => exact .inl ⟨'\\', rfl, congrArg some same.symm, by decide, by decide⟩
  split
  · next same => exact .inl ⟨'t', rfl, congrArg some same.symm, by decide, by decide⟩
  split
  · next same => exact .inl ⟨'r', rfl, congrArg some same.symm, by decide, by decide⟩
  split
  · next same => exact .inl ⟨'n', rfl, congrArg some same.symm, by decide, by decide⟩
  split
  · next same => exact .inl ⟨'0', rfl, congrArg some same.symm, by decide, by decide⟩
  split
  · exact .inr (.inl rfl)
  · next noQuote noBackslash _ _ noNewline _ _ => exact .inr (.inr ⟨rfl, noQuote, noBackslash, noNewline⟩)

theorem unquotedFrom_quotedChar (c : Char) (rest : Text) :
    unquotedFrom .none (quotedChar c ++ rest) = (unquotedFrom .none rest).map (c :: ·) := by
  rcases quotedChar_cases c with ⟨letter, form, stands, noCode, -⟩ | form | ⟨form, noQuote, noBackslash, -⟩
  · have step : unquotedFrom .none ('\\' :: letter :: rest) = unquotedFrom .backslash (letter :: rest) := rfl
    rw [form, List.cons_append, List.singleton_append, step, unquotedFrom, if_neg noCode, stands,
      Option.bind_some]
  · rw [form, unquotedFrom_codeEscape]
  · rw [form, List.singleton_append, unquotedFrom, if_neg noQuote, if_neg noBackslash]

theorem codeEscape_oneLine (c : Char) : '\n' ∉ codeEscape c := by
  intro mem
  rcases List.mem_append.mp mem with front | last
  · rcases List.mem_append.mp front with opening | digit
    · exact absurd opening (by decide)
    · exact (toDigits_plain c.toNat _ digit).2 rfl
  · exact absurd last (by decide)

theorem quotedChar_oneLine (c : Char) : '\n' ∉ quotedChar c := by
  intro mem
  rcases quotedChar_cases c with ⟨letter, form, -, -, noNewline⟩ | form | ⟨form, -, -, noNewline⟩
  · rw [form, List.mem_cons, List.mem_singleton] at mem
    exact mem.elim (by decide) fun same => noNewline same.symm
  · exact codeEscape_oneLine c (form ▸ mem)
  · rw [form, List.mem_singleton] at mem
    exact noNewline mem.symm

theorem quoted_oneLine (t : Text) : '\n' ∉ t.quoted := by
  intro mem
  rcases List.mem_append.mp mem with front | last
  · rcases List.mem_cons.mp front with quote | inside
    · exact absurd quote (by decide)
    · obtain ⟨c, -, own⟩ := List.mem_flatMap.mp inside
      exact quotedChar_oneLine c own
  · exact absurd last (by decide)

theorem unquoted_quoted (t : Text) : unquoted t.quoted = some t := by
  change unquotedFrom .none (t.flatMap quotedChar ++ ['"']) = some t
  induction t with
  | nil => rfl
  | cons c t ih => rw [List.flatMap_cons, List.append_assoc, unquotedFrom_quotedChar, ih, Option.map_some]

theorem quoted_injective : Function.Injective quoted := fun t t' same =>
  Option.some_inj.mp (unquoted_quoted t ▸ same ▸ unquoted_quoted t')

end LosslessTree.Text
