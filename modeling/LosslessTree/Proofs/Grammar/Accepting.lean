import LosslessTree.Proofs.Grammar.Passing

set_option autoImplicit false

namespace LosslessTree.Rule

open Form

variable {eof : Token} {tokens rest : List Token}

-- The rule answers that something was here.
abbrev Finds (eof : Token) (rule : Rule (Option Kind)) (tokens rest : List Token) :
    Prop :=
  Passes eof rule tokens fun kind _ left => kind.isSome = true ∧ left = rest

theorem reads_name {kept : KindSet} (h : Spells (token .ident) tokens rest) :
    Reads eof (name kept) tokens rest := by
  obtain ⟨t, rfl, kind, _⟩ := spells_token.mp h
  simp [name, kind]

theorem reads_segments (h : Spells (many (row [token .doubleColon, token .ident])) tokens rest)
    (behind : seen eof rest ≠ .doubleColon) : Reads eof (loop segment) tokens rest := by
  refine passes_many rfl h ?last ?round
  case last => simp [segment, behind]
  case round =>
    intro before after _ one _
    obtain ⟨_, colons, ident⟩ := spells_seq.mp one
    obtain ⟨c, rfl, colonKind, _⟩ := spells_token.mp colons
    obtain ⟨i, rfl, identKind, _⟩ := spells_token.mp ident
    simp [segment, nameRef, colonKind, identKind]

theorem reads_path (h : Spells (symbol .path) tokens rest)
    (behind : seen eof rest ≠ .doubleColon) : Reads eof path tokens rest := by
  obtain ⟨_, ident, segments⟩ := spells_seq.mp (spells_symbol.mp h)
  obtain ⟨t, rfl, _, _⟩ := spells_token.mp ident
  simpa [path, nameRef] using reads_segments segments behind

section Optional

variable {k : Kind} {f : Form Symbol}

theorem seen_optional (eof : Token) (h : Spells (opt f) tokens rest) (full : f.nullable = false)
    (only : f.heads Symbol.heads = .ofList [k]) :
    seen eof tokens = k ∧ Spells f tokens rest ∨ tokens = rest := by
  rcases spells_opt.mp h with here | same
  · exact .inl ⟨here.seen_eq full only, here⟩
  · exact .inr same

theorem reads_whenSees {rule : Rule Unit} (h : Spells (opt f) tokens rest)
    (full : f.nullable = false) (only : f.heads Symbol.heads = .ofList [k])
    (here : Spells f tokens rest → Reads eof rule tokens rest) (behind : seen eof rest ≠ k) :
    Reads eof (whenSees k rule) tokens rest := by
  simp only [Reads, whenSees, passes_bind, passes_sees, passes_ite, beq_iff_eq]
  rcases seen_optional eof h full only with ⟨sees, inner⟩ | rfl
  · rw [if_pos sees]
    exact here inner
  · rw [if_neg behind]
    exact passes_pure.mpr rfl

end Optional

section Lists

variable {opening closing : Kind} {missing : Problem} {first : KindSet} {element : Rule Bool}
  {f : Form Symbol} {before after : List Token} {Q : Bool → Forest → List Token → Prop}

-- Neither a separator nor an end stands where an element starts.
theorem passes_element (notEnd : seen eof before ≠ closing) (notEof : seen eof before ≠ .eof)
    (notComma : seen eof before ≠ .comma) :
    Passes eof (bracketedRound closing .comma missing first element) before Q ↔
      Passes eof element before fun here parts left =>
        if here = true then
          Passes eof (separation .comma first) left fun more parts' left' =>
            Q more (parts ++ parts') left'
        else Q false parts left := by
  have inside : (KindSet.ofList [closing, .eof]).contains (seen eof before) = false := by
    simp [KindSet.contains_ofList, notEnd, notEof]
  simp [bracketedRound, atEnd, inside, notComma]

theorem reads_element (full : f.nullable = false)
    (apart : ∀ k ∈ [closing, .comma, .eof], (f.heads Symbol.heads).contains k = false)
    (h : Spells f before after)
    (found : Passes eof element before fun here _ left => here = true ∧ left = after)
    (behind : ∀ parts, Passes eof (separation .comma first) after fun more parts' left =>
      Q more (parts ++ parts') left) :
    Passes eof (bracketedRound closing .comma missing first element) before Q := by
  have other (k : Kind) (mem : k ∈ [closing, .comma, .eof]) : seen eof before ≠ k :=
    h.seen_ne full (apart k mem)
  rw [passes_element (other _ (by simp)) (other _ (by simp)) (other _ (by simp))]
  refine found.imp ?_
  rintro _ parts _ ⟨rfl, rfl⟩
  rw [if_pos rfl]
  exact behind parts

theorem reads_elements (full : f.nullable = false)
    (apart : ∀ k ∈ [closing, .comma, .eof], (f.heads Symbol.heads).contains k = false)
    (notFirst : first.contains closing = false) (notComma : closing ≠ .comma)
    (h : Spells (elements f) before rest) (closes : seen eof rest = closing)
    (found : ∀ front after, front.length ≤ before.length → Spells f front after →
      seen eof after = .comma ∨ seen eof after = closing →
      Passes eof element front fun here _ left => here = true ∧ left = after) :
    Reads eof (loop (bracketedRound closing .comma missing first element)) before rest := by
  induction size : before.length using Nat.strongRecOn generalizing before with
  | ind n ih =>
      rw [Reads, passes_loop]
      obtain ⟨middle, separated, last⟩ := spells_seq.mp h
      rcases spells_many.mp separated with rfl | ⟨after, one, further⟩
      · rcases spells_opt.mp last with last | rfl
        · -- The last element, without a comma behind it.
          refine reads_element full apart last (found _ _ (Nat.le_refl _) last (.inr closes)) ?_
          simp [separation, closes, notComma, notFirst]
        · simp [bracketedRound, atEnd, closes, KindSet.contains_ofList]
      · obtain ⟨_, one, comma⟩ := spells_seq.mp one
        obtain ⟨c, rfl, commaKind, _⟩ := spells_token.mp comma
        have shorter := one.rest_lt full
        simp only [List.length_cons] at shorter
        have more : Spells (elements f) after rest := spells_seq.mpr ⟨middle, further, last⟩
        have next := ih _ (by omega) more (fun front after within => found front after (by omega)) rfl
        refine reads_element full apart one (found _ _ (Nat.le_refl _) one (.inl commaKind)) ?_
        intro parts
        simpa [separation, commaKind] using next

theorem reads_bracketed (full : f.nullable = false)
    (apart : ∀ k ∈ [closing, .comma, .eof], (f.heads Symbol.heads).contains k = false)
    (notFirst : first.contains closing = false) (notComma : closing ≠ .comma)
    (h : Spells (list opening closing f) tokens rest)
    (found : ∀ before after, before.length < tokens.length → Spells f before after →
      seen eof after = .comma ∨ seen eof after = closing →
      Passes eof element before fun here _ left => here = true ∧ left = after) :
    Reads eof (bracketed opening closing .comma missing first element) tokens rest := by
  obtain ⟨start, opens, inside⟩ := spells_seq.mp h
  obtain ⟨o, rfl, _, _⟩ := spells_token.mp opens
  obtain ⟨_, separated, closes⟩ := spells_seq.mp inside
  obtain ⟨c, rfl, closingKind, _⟩ := spells_token.mp closes
  have inner : Reads eof (loop (bracketedRound closing .comma missing first element)) start
      (c :: rest) :=
    reads_elements full apart notFirst notComma
      (separated.sub fun _ h => derives_commaSeparated.mp h) closingKind
      fun front after within => found front after (Nat.lt_succ_of_le within)
  simp only [bracketed, passes_bind, passes_takeKind, List.tail_cons, passes_expect]
  refine inner.imp ?_
  rintro _ _ _ rfl
  exact ⟨closingKind, rfl⟩

end Lists

-- An optional keyword in front of something that starts with another kind.
theorem reads_optional {k : Kind} {f : Form Symbol} {Q : Unit → Forest → List Token → Prop}
    (full : f.nullable = false) (apart : (f.heads Symbol.heads).contains k = false)
    (h : Spells (.seq (opt (token k)) f) tokens rest)
    (behind : ∀ parts middle, middle.length ≤ tokens.length → Spells f middle rest →
      Q () parts middle) :
    Passes eof (discard (eat k)) tokens Q := by
  obtain ⟨middle, optional, inner⟩ := spells_seq.mp h
  simp only [passes_discard, passes_eat]
  rcases spells_opt.mp optional with word | rfl
  · obtain ⟨t, rfl, rfl, _⟩ := spells_token.mp word
    rw [seen_cons, if_pos rfl]
    exact behind _ _ (Nat.le_succ _) inner
  · rw [if_neg (inner.seen_ne full apart)]
    exact behind _ _ (Nat.le_refl _) inner

theorem finds_type (h : Spells (symbol .type) tokens rest) (behind : seen eof rest ≠ .doubleColon) :
    Finds eof type tokens rest := by
  induction size : tokens.length using Nat.strongRecOn generalizing tokens rest with
  | ind n ih =>
      have inner {before after : List Token} (shorter : before.length < tokens.length)
          (one : Spells (symbol .type) before after) (behind : seen eof after ≠ .doubleColon) :
          Passes eof innerType before fun here _ left => here = true ∧ left = after := by
        simpa [innerType, Production.rule] using ih _ (size ▸ shorter) one behind rfl
      rcases spells_alt.mp (spells_symbol.mp h) with named | other
      · obtain ⟨_, ident, _⟩ := spells_seq.mp (spells_symbol.mp named)
        obtain ⟨t, rfl, kind, _⟩ := spells_token.mp ident
        simpa [type, kind] using reads_path named behind
      rcases spells_alt.mp other with tuple | reference
      · obtain ⟨_, opens, _⟩ := spells_seq.mp tuple
        obtain ⟨t, rfl, kind, _⟩ := spells_token.mp opens
        have listed : Reads eof tupleType (t :: _) rest :=
          reads_bracketed rfl (by decide) (by decide) (by decide) tuple
            fun before after shorter one behind =>
              inner shorter one (by rcases behind with b | b <;> simp [b])
        simpa [type, kind] using listed
      · obtain ⟨middle, ampersand, referent⟩ := spells_seq.mp reference
        obtain ⟨t, rfl, kind, _⟩ := spells_token.mp ampersand
        simp only [type, kind, seen_cons, passes_bind, passes_peekKind, passes_made, refType,
          passes_take, List.tail_cons]
        refine reads_optional rfl (by decide) referent fun _ before within one => ?_
        refine (inner (Nat.lt_succ_of_le within) one behind).imp ?_
        rintro _ _ _ ⟨rfl, rfl⟩
        simp

theorem reads_expectType (h : Spells (symbol .type) tokens rest)
    (behind : seen eof rest ≠ .doubleColon) : Reads eof expectType tokens rest := by
  rw [Reads, expectType, passes_bind]
  refine (finds_type h behind).imp ?_
  rintro _ _ _ ⟨here, rfl⟩
  simp [here]

theorem reads_ascription (h : Spells (row [token .colon, symbol .type]) tokens rest)
    (behind : seen eof rest ≠ .doubleColon) : Reads eof ascription tokens rest := by
  obtain ⟨_, colon, annotation⟩ := spells_seq.mp h
  obtain ⟨t, rfl, _, _⟩ := spells_token.mp colon
  simpa [ascription] using reads_expectType annotation behind

theorem reads_identPattern
    (h : Spells (row [opt (token .refKw), opt (token .mutKw), token .ident]) tokens rest) :
    Reads eof identPattern tokens rest := by
  rw [Reads, identPattern, passes_bind]
  refine reads_optional rfl (by decide) h fun _ before _ named => ?_
  rw [passes_bind]
  refine reads_optional rfl (by decide) named fun _ _ _ ident => ?_
  exact reads_name ident

-- What is left of a pattern behind `mut` is a pattern, whether the pattern or what is in front of
-- it takes the keyword.
theorem pattern_behind_mut (h : Spells (.seq (opt (token .mutKw)) (symbol .pat)) tokens rest)
    {Q : Unit → Forest → List Token → Prop}
    (behind : ∀ parts middle, middle.length ≤ tokens.length → Spells (symbol .pat) middle rest →
      Q () parts middle) :
    Passes eof (discard (eat .mutKw)) tokens Q := by
  obtain ⟨middle, optional, inner⟩ := spells_seq.mp h
  simp only [passes_discard, passes_eat]
  rcases spells_opt.mp optional with word | rfl
  · obtain ⟨t, rfl, kind, _⟩ := spells_token.mp word
    rw [seen_cons, if_pos kind]
    exact behind _ _ (Nat.le_succ _) inner
  · split
    · next here =>
        rcases spells_alt.mp (spells_symbol.mp inner) with ident | other
        · obtain ⟨_, byRef, mutable⟩ := spells_seq.mp ident
          obtain ⟨_, byMut, named⟩ := spells_seq.mp mutable
          obtain ⟨i, rfl, identKind, _⟩ := spells_token.mp named
          have alone : Spells (symbol .pat) (i :: rest) rest :=
            spells_symbol.mpr (spells_alt.mpr (.inl (spells_seq.mpr ⟨_, spells_opt.mpr (.inr rfl),
              spells_seq.mpr ⟨_, spells_opt.mpr (.inr rfl), named⟩⟩)))
          rcases spells_opt.mp byRef with byRef | rfl
          · obtain ⟨t, rfl, kind, _⟩ := spells_token.mp byRef
            cases kind.symm.trans here
          rcases spells_opt.mp byMut with byMut | rfl
          · obtain ⟨t, rfl, _, _⟩ := spells_token.mp byMut
            exact behind _ _ (Nat.le_succ _) alone
          · cases identKind.symm.trans here
        · exact absurd here (other.seen_ne rfl (by decide))
    · exact behind _ _ (Nat.le_refl _) inner

theorem finds_pattern (h : Spells (symbol .pat) tokens rest) : Finds eof pattern tokens rest := by
  induction size : tokens.length using Nat.strongRecOn generalizing tokens rest with
  | ind n ih =>
      have inner {before after : List Token} (shorter : before.length < tokens.length)
          (one : Spells (symbol .pat) before after) :
          Passes eof innerPattern before fun here _ left => here = true ∧ left = after := by
        simpa [innerPattern, Production.rule] using ih _ (size ▸ shorter) one rfl
      rcases spells_alt.mp (spells_symbol.mp h) with ident | other
      · have head : (Form.heads Symbol.heads _).contains (seen eof tokens) = true :=
          ident.seen_heads rfl
        have named : Finds eof (made .identPat identPattern) tokens rest := by
          simpa using reads_identPattern ident
        simp only [Finds, pattern, passes_bind, passes_peekKind]
        generalize seen eof tokens = k at head
        cases k <;> first | exact named | exact absurd head (by decide)
      rcases spells_alt.mp other with wildcard | other
      · obtain ⟨t, rfl, kind, _⟩ := spells_token.mp wildcard
        simp [pattern, kind]
      rcases spells_alt.mp other with dots | other
      · obtain ⟨t, rfl, kind, _⟩ := spells_token.mp dots
        simp [pattern, kind]
      rcases spells_alt.mp other with reference | other
      · obtain ⟨middle, ampersand, referent⟩ := spells_seq.mp reference
        obtain ⟨t, rfl, kind, _⟩ := spells_token.mp ampersand
        simp only [pattern, kind, seen_cons, passes_bind, passes_peekKind, passes_made, refPattern,
          passes_take, List.tail_cons]
        refine pattern_behind_mut referent fun _ before within one => ?_
        refine (inner (Nat.lt_succ_of_le within) one).imp ?_
        rintro _ _ _ ⟨rfl, rfl⟩
        simp
      rcases spells_alt.mp other with tuple | constant
      · obtain ⟨_, opens, _⟩ := spells_seq.mp tuple
        obtain ⟨t, rfl, kind, _⟩ := spells_token.mp opens
        have listed : Reads eof tuplePattern (t :: _) rest :=
          reads_bracketed rfl (by decide) (by decide) (by decide) tuple
            fun before after shorter one _ => inner shorter one
        simpa [pattern, kind] using listed
      · obtain ⟨t, rfl, kind, _⟩ := spells_oneOf.mp constant
        simp only [List.mem_cons, List.not_mem_nil, or_false] at kind
        rcases kind with kind | kind | kind | kind | kind <;>
          simp [pattern, kind, literal, literalFirst, KindSet.contains_ofList]

theorem reads_expectPattern (h : Spells (symbol .pat) tokens rest) :
    Reads eof expectPattern tokens rest := by
  rw [Reads, expectPattern, passes_bind]
  refine (finds_pattern h).imp ?_
  rintro _ _ _ ⟨here, rfl⟩
  simp [here]

end LosslessTree.Rule
