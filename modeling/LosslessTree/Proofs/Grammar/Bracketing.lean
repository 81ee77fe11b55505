import LosslessTree.Proofs.Grammar.Elements

set_option autoImplicit false

namespace LosslessTree

namespace Rule

variable {β : Type} {eof : Token} {productions : Productions} {tokens : List Token}

theorem run_sees_bind {k : Kind} {next : Bool → Rule β} :
    (sees k >>= next).run eof productions tokens =
      (next (seen eof tokens == k)).run eof productions tokens := rfl

theorem run_seesAny_bind {kinds : KindSet} {next : Bool → Rule β} :
    (seesAny kinds >>= next).run eof productions tokens =
      (next (kinds.contains (seen eof tokens))).run eof productions tokens := rfl

theorem seen_ne_eof_cons (atEof : eof.kind = .eof) (inside : seen eof tokens ≠ .eof) :
    ∃ t rest, tokens = t :: rest := by
  cases tokens with
  | nil => exact absurd atEof inside
  | cons t rest => exact ⟨t, rest, rfl⟩

theorem expect_cases (productions : Productions) {k : Kind} (atEof : eof.kind = .eof) (inside : k ≠ .eof)
    (tokens : List Token) :
    let s := (expect k).run eof productions tokens
    (∃ t rest, tokens = t :: rest ∧ t.kind = k ∧ s.reports = [] ∧ s.rest = rest) ∨
      seen eof tokens ≠ k ∧ s.rest = tokens ∧
        s.reports = [⟨(Problem.expected k).message, (tokens.headD eof).span⟩] := by
  simp only [expect, run_sees_bind]
  by_cases here : seen eof tokens = k
  · obtain ⟨t, rest, rfl⟩ := seen_ne_eof_cons atEof (here ▸ inside)
    rw [if_pos (beq_iff_eq.mpr here)]
    exact .inl ⟨t, rest, rfl, here, rfl, rfl⟩
  · have away : (seen eof tokens == k) = false := by simpa using here
    rw [away]
    exact .inr ⟨here, rfl, rfl⟩

section Lists

variable (eof productions)
variable (opening closing separator : Kind) (missing : Problem) (first : KindSet) (element : Rule Bool)

/-- What a round of a list does at some tokens: whether it asks for another one, what it reports and what
it leaves. -/
inductive Round (tokens : List Token) : Bool → List Diagnostic → List Token → Prop where
  | ended (at_ : seen eof tokens = closing ∨ seen eof tokens = .eof) : Round tokens false [] tokens
  | stray {t : Token} {rest : List Token} (at_ : t.kind = separator) (here : tokens = t :: rest) :
      Round tokens true [⟨missing.message, t.span⟩] rest
  | failed (open_ : seen eof tokens ≠ closing)
      (none : (element.run eof productions tokens).value = false) :
      Round tokens false (element.run eof productions tokens).reports
        (element.run eof productions tokens).rest
  | separated {t : Token} {rest : List Token} (open_ : seen eof tokens ≠ closing)
      (found : (element.run eof productions tokens).value = true) (at_ : t.kind = separator)
      (behind : (element.run eof productions tokens).rest = t :: rest) :
      Round tokens true (element.run eof productions tokens).reports rest
  | adjacent {missed : Diagnostic} (open_ : seen eof tokens ≠ closing)
      (found : (element.run eof productions tokens).value = true)
      (apart : seen eof (element.run eof productions tokens).rest ≠ separator)
      (more : first.contains (seen eof (element.run eof productions tokens).rest) = true) :
      Round tokens true ((element.run eof productions tokens).reports ++ [missed])
        (element.run eof productions tokens).rest
  | last (open_ : seen eof tokens ≠ closing)
      (found : (element.run eof productions tokens).value = true)
      (apart : seen eof (element.run eof productions tokens).rest ≠ separator)
      (none : first.contains (seen eof (element.run eof productions tokens).rest) = false) :
      Round tokens false (element.run eof productions tokens).reports
        (element.run eof productions tokens).rest

variable {eof productions opening closing separator missing first element}

theorem run_round_ended (at_ : seen eof tokens = closing ∨ seen eof tokens = .eof) :
    (bracketedRound closing separator missing first element).run eof productions tokens =
      ⟨false, .nil, [], tokens⟩ := by
  have ended : (KindSet.ofList [closing, .eof]).contains (seen eof tokens) = true := by
    rcases at_ with here | here <;> simp [KindSet.contains_ofList, here]
  rw [bracketedRound, atEnd, run_seesAny_bind, ended]
  rfl

theorem run_round_stray (open_ : seen eof tokens ≠ closing ∧ seen eof tokens ≠ .eof)
    (here : seen eof tokens = separator) :
    (bracketedRound closing separator missing first element).run eof productions tokens =
      (skipToken missing >>= fun _ => Pure.pure true).run eof productions tokens := by
  have inside : (KindSet.ofList [closing, .eof]).contains (seen eof tokens) = false := by
    simp [KindSet.contains_ofList, open_]
  have same : (seen eof tokens == separator) = true := by simpa using here
  rw [bracketedRound, atEnd, run_seesAny_bind, inside, if_neg Bool.false_ne_true, run_sees_bind, same]
  rfl

theorem run_round_element (open_ : seen eof tokens ≠ closing ∧ seen eof tokens ≠ .eof)
    (away : seen eof tokens ≠ separator) :
    (bracketedRound closing separator missing first element).run eof productions tokens =
      (element >>= fun here => if here = true then separation separator first else Pure.pure false).run
        eof productions tokens := by
  have inside : (KindSet.ofList [closing, .eof]).contains (seen eof tokens) = false := by
    simp [KindSet.contains_ofList, open_]
  have differ : (seen eof tokens == separator) = false := by simpa using away
  rw [bracketedRound, atEnd, run_seesAny_bind, inside, if_neg Bool.false_ne_true, run_sees_bind, differ]
  rfl

theorem run_eat {k : Kind} :
    (eat k).run eof productions tokens =
      if seen eof tokens = k then (take >>= fun _ => Pure.pure true).run eof productions tokens
      else ⟨false, .nil, [], tokens⟩ := by
  rw [eat, run_sees_bind]
  by_cases here : seen eof tokens = k
  · have same : (seen eof tokens == k) = true := by simpa using here
    rw [same, if_pos here]
    rfl
  · have away : (seen eof tokens == k) = false := by simpa using here
    rw [away, if_neg here]
    rfl

theorem run_separation_eaten (here : seen eof tokens = separator) :
    (separation separator first).run eof productions tokens =
      (take >>= fun _ => Pure.pure true).run eof productions tokens := by
  change Step.andThen ((eat separator).run eof productions tokens) _ = _
  rw [run_eat, if_pos here]
  cases tokens <;> rfl

theorem run_separation_away (away : seen eof tokens ≠ separator) :
    (separation separator first).run eof productions tokens =
      if first.contains (seen eof tokens) = true then
        ⟨true, .nil, [⟨(Problem.expected separator).message, (tokens.headD eof).span⟩], tokens⟩
      else ⟨false, .nil, [], tokens⟩ := by
  change Step.andThen ((eat separator).run eof productions tokens) _ = _
  rw [run_eat, if_neg away]
  change (seesAny first >>= _).run eof productions tokens = _
  rw [run_seesAny_bind]
  cases first.contains (seen eof tokens) <;> rfl

theorem round_cases (atEof : eof.kind = .eof) (apart : separator ≠ .eof) :
    let s := (bracketedRound closing separator missing first element).run eof productions tokens
    Round eof productions closing separator missing first element tokens s.value s.reports s.rest := by
  intro s
  by_cases ended : seen eof tokens = closing ∨ seen eof tokens = .eof
  · simp only [s, run_round_ended ended]
    exact .ended ended
  rw [not_or] at ended
  by_cases stray : seen eof tokens = separator
  · obtain ⟨t, rest, rfl⟩ := seen_ne_eof_cons atEof ended.2
    simp only [s, run_round_stray ended stray]
    exact .stray stray rfl
  have split : s = (element.run eof productions tokens).andThen fun here =>
      (if here = true then separation separator first else Pure.pure false).run eof productions :=
    run_round_element ended stray
  simp only [split, Step.andThen]
  cases found : (element.run eof productions tokens).value with
  | false =>
      change Round _ _ _ _ _ _ _ tokens false (_ ++ []) _
      rw [List.append_nil]
      exact .failed ended.1 found
  | true =>
      rw [if_pos rfl]
      by_cases behind : seen eof (element.run eof productions tokens).rest = separator
      · obtain ⟨t, rest, next⟩ := seen_ne_eof_cons atEof (behind ▸ apart)
        rw [next] at behind ⊢
        rw [run_separation_eaten behind]
        change Round _ _ _ _ _ _ _ tokens true (_ ++ []) rest
        rw [List.append_nil]
        exact .separated ended.1 found behind next
      rw [run_separation_away behind]
      cases more : first.contains (seen eof (element.run eof productions tokens).rest) with
      | true => exact .adjacent ended.1 found behind more
      | false =>
          change Round _ _ _ _ _ _ _ tokens false (_ ++ []) _
          rw [List.append_nil]
          exact .last ended.1 found behind more

end Lists

def Accepts (eof : Token) (productions : Productions) (rule : Rule Bool) (tokens rest : List Token) :
    Prop :=
  (rule.run eof productions tokens).value = true ∧ (rule.run eof productions tokens).reports = [] ∧
    (rule.run eof productions tokens).rest = rest

inductive Row (accepts : List Token → List Token → Prop) (separator : Kind) :
    List Token → List Token → Prop where
  | one {tokens rest : List Token} (element : accepts tokens rest) : Row accepts separator tokens rest
  | more {t : Token} {tokens next rest : List Token} (element : accepts tokens (t :: next))
      (between : t.kind = separator) (later : Row accepts separator next rest) :
      Row accepts separator tokens rest

def Items (accepts : List Token → List Token → Prop) (separator : Kind) (tokens rest : List Token) :
    Prop :=
  tokens = rest ∨ Row accepts separator tokens rest ∨
    ∃ t : Token, t.kind = separator ∧ Row accepts separator tokens (t :: rest)

def Enclosed (accepts : List Token → List Token → Prop) (opening closing separator : Kind)
    (tokens rest : List Token) : Prop :=
  ∃ bra inner ket, tokens = bra :: inner ∧ bra.kind = opening ∧ ket.kind = closing ∧
    Items accepts separator inner (ket :: rest)

section Lists

variable {opening closing separator : Kind} {missing : Problem} {first : KindSet} {element : Rule Bool}
  {all : List Token} {again : Bool} {reports : List Diagnostic} {rest : List Token}

section Rounds

variable (h : Elements eof productions [separator, closing, .eof] element all) (inside : tokens <:+ all)
  (round : Round eof productions closing separator missing first element tokens again reports rest)
include h inside round

theorem Round.left : rest <:+ tokens ∧ (again = true → rest.length < tokens.length) := by
  have own := h.left tokens inside
  cases round with
  | ended => exact ⟨List.suffix_rfl, nofun⟩
  | stray _ here =>
      subst here
      exact ⟨List.suffix_cons _ _, fun _ => Nat.lt_succ_self _⟩
  | failed => exact ⟨own, nofun⟩
  | separated _ found at_ behind =>
      have less := h.takes tokens inside found
      rw [behind] at own less
      exact ⟨(List.suffix_cons _ _).trans own, fun _ => Nat.lt_of_succ_lt less⟩
  | adjacent _ found => exact ⟨own, fun _ => h.takes tokens inside found⟩
  | last => exact ⟨own, nofun⟩

theorem Round.of_accepted {behind : List Token} (accepted : Accepts eof productions element tokens behind) :
    (again = true ∧ reports = [] ∧ ∃ t, t.kind = separator ∧ behind = t :: rest) ∨
      (seen eof behind ≠ separator ∧ first.contains (seen eof behind) = true) ∨
      (seen eof behind ≠ separator ∧ again = false ∧ reports = [] ∧ rest = behind) := by
  obtain ⟨found, quiet, rfl⟩ := accepted
  have out := h.begins tokens inside found
  simp only [List.mem_cons, List.not_mem_nil, or_false, not_or] at out
  cases round with
  | ended at_ => exact (at_.elim out.2.1 out.2.2).elim
  | stray at_ here =>
      subst here
      exact absurd at_ out.1
  | failed _ none =>
      rw [found] at none
      cases none
  | separated _ _ at_ behind => exact .inl ⟨rfl, quiet, _, at_, behind⟩
  | adjacent _ _ apart more => exact .inr (.inl ⟨apart, more⟩)
  | last _ _ apart => exact .inr (.inr ⟨apart, rfl, quiet, rfl⟩)

theorem Round.before_separator {t : Token} {next : List Token}
    (accepted : Accepts eof productions element tokens (t :: next)) (between : t.kind = separator) :
    again = true ∧ reports = [] ∧ rest = next := by
  rcases Round.of_accepted h inside round accepted with ⟨more, quiet, t', -, same⟩ | other | other
  · exact ⟨more, quiet, (List.cons.inj same).2.symm⟩
  · exact absurd between other.1
  · exact absurd between other.1

theorem Round.before_closing {behind : List Token} (apart : closing ≠ separator)
    (outside : first.contains closing = false)
    (accepted : Accepts eof productions element tokens behind) (closes : seen eof behind = closing) :
    again = false ∧ reports = [] ∧ rest = behind := by
  rcases Round.of_accepted h inside round accepted with ⟨-, -, t, at_, rfl⟩ | other | other
  · exact absurd (closes.symm.trans at_) apart
  · rw [closes, outside] at other
    cases other.2
  · exact other.2

theorem Round.quiet_last (last : again = false) (quiet : reports = []) (closes : seen eof rest = closing) :
    tokens = rest ∨ Accepts eof productions element tokens rest := by
  cases round with
  | ended => exact .inl rfl
  | stray | separated | adjacent => cases last
  | failed open_ none =>
      -- An element that is not there is reported, or nothing of it was taken in front of the bracket.
      rcases h.fails tokens inside none with same | told
      · exact absurd (same ▸ closes) open_
      · exact absurd quiet told
  | last _ found => exact .inr ⟨found, quiet, rfl⟩

omit h inside in
theorem Round.quiet_more (more : again = true) (quiet : reports = []) :
    ∃ t : Token, t.kind = separator ∧ Accepts eof productions element tokens (t :: rest) := by
  cases round with
  | ended | failed | last => cases more
  | stray => cases quiet
  | separated _ found at_ behind => exact ⟨_, at_, found, quiet, behind⟩
  | adjacent => exact absurd quiet (by simp)

end Rounds

theorem Round.of_closing (apart : closing ≠ separator)
    (round : Round eof productions closing separator missing first element tokens again reports rest)
    (closes : seen eof tokens = closing) : again = false ∧ reports = [] ∧ rest = tokens := by
  cases round with
  | ended => exact ⟨rfl, rfl, rfl⟩
  | stray at_ here =>
      subst here
      exact absurd (closes.symm.trans at_) apart
  | failed open_ | separated open_ | adjacent open_ | last open_ => exact absurd closes open_

section Loops

variable (atEof : eof.kind = .eof) (apart : [separator, closing, .eof].Nodup)
  (h : Elements eof productions [separator, closing, .eof] element all)
include atEof apart h

omit h in
theorem round_told (left : List Token) :
    let s := (bracketedRound closing separator missing first element).run eof productions left
    Round eof productions closing separator missing first element left s.value s.reports s.rest := by
  refine round_cases atEof fun same => ?_
  simp [same] at apart

variable (missing first) in
theorem elements_repeat (inside : tokens <:+ all) :
    Step.Repeats (fun left s =>
        s = (bracketedRound closing separator missing first element).run eof productions left) tokens
      ((loop (bracketedRound closing separator missing first element)).run eof productions tokens) := by
  refine Step.repeats_of_shorter (P := (· <:+ all)) ?_ (fun left within more => ?_) inside
    (Nat.lt_succ_self _)
  · exact fun _ _ => rfl
  · exact (Round.left h within (round_told atEof apart left)).imp (fun own => own.trans within)
      fun less => less more

end Loops

section Items

variable (h : Elements eof productions [separator, closing, .eof] element all) (inside : tokens <:+ all)
  {s : Step Unit} (rounds : Step.Repeats (fun left s =>
    Round eof productions closing separator missing first element left s.value s.reports s.rest) tokens s)
include h inside rounds

theorem rounds_suffix : s.rest <:+ tokens := by
  induction rounds with
  | last round => exact (Round.left h inside round).1
  | again round _ _ ih =>
      have own := (Round.left h inside round).1
      exact (ih (own.trans inside)).trans own

theorem items_of_quiet (quiet : s.reports = []) (closes : seen eof s.rest = closing) :
    Items (Accepts eof productions element) separator tokens s.rest := by
  induction rounds with
  | last round ended =>
      exact (Round.quiet_last h inside round ended quiet closes).imp_right fun one => .inl (.one one)
  | again round more _ ih =>
      obtain ⟨quiet, later⟩ := List.append_eq_nil_iff.mp quiet
      obtain ⟨t, between, one⟩ := Round.quiet_more round more quiet
      have own := (Round.left h inside round).1
      rcases ih (own.trans inside) later closes with same | row | ⟨t', trailing, row⟩
      · exact .inr (.inr ⟨t, between, .one (same ▸ one)⟩)
      · exact .inr (.inl (.more one between row))
      · exact .inr (.inr ⟨t', trailing, .more one between row⟩)

theorem rounds_behind {t : Token} {next : List Token}
    (accepted : Accepts eof productions element tokens (t :: next)) (between : t.kind = separator) :
    ∃ s' : Step Unit, Step.Repeats (fun left s =>
        Round eof productions closing separator missing first element left s.value s.reports s.rest)
          next s' ∧ s.reports = s'.reports ∧ s.rest = s'.rest := by
  cases rounds with
  | last round ended =>
      obtain ⟨more, -⟩ := Round.before_separator h inside round accepted between
      rw [ended] at more
      cases more
  | @again _ _ s' round _ later =>
      obtain ⟨-, quiet, rfl⟩ := Round.before_separator h inside round accepted between
      exact ⟨s', later, by simp [Step.andThen, quiet], rfl⟩

variable (apart : closing ≠ separator) (outside : first.contains closing = false)
include apart

omit h inside in
theorem rounds_closing (closes : seen eof tokens = closing) : s.reports = [] ∧ s.rest = tokens := by
  cases rounds with
  | last round => exact (Round.of_closing apart round closes).2
  | again round more =>
      obtain ⟨ended, -⟩ := Round.of_closing apart round closes
      rw [more] at ended
      cases ended

include outside

theorem rounds_before_closing {rest : List Token}
    (accepted : Accepts eof productions element tokens rest) (closes : seen eof rest = closing) :
    s.reports = [] ∧ s.rest = rest := by
  cases rounds with
  | last round => exact (Round.before_closing h inside round apart outside accepted closes).2
  | again round more =>
      obtain ⟨ended, -⟩ := Round.before_closing h inside round apart outside accepted closes
      rw [more] at ended
      cases ended

theorem quiet_of_row {rest final : List Token} (closes : seen eof final = closing)
    (row : Row (Accepts eof productions element) separator tokens rest)
    (ends : rest = final ∨ ∃ t : Token, t.kind = separator ∧ rest = t :: final) :
    s.reports = [] ∧ s.rest = final := by
  -- Rounds behind an element and its separator are rounds of what is left.
  induction row generalizing s with
  | one element =>
      rcases ends with rfl | ⟨t, trailing, rfl⟩
      · exact rounds_before_closing h inside rounds apart outside element closes
      · obtain ⟨s', later, quiet, same⟩ := rounds_behind h inside rounds element trailing
        rw [quiet, same]
        exact rounds_closing later apart closes
  | more element between _ ih =>
      obtain ⟨s', later, quiet, same⟩ := rounds_behind h inside rounds element between
      rw [quiet, same]
      have own := h.left _ inside
      rw [element.2.2] at own
      exact ih (((List.suffix_cons _ _).trans own).trans inside) later ends

theorem quiet_of_items {rest : List Token} (closes : seen eof rest = closing)
    (items : Items (Accepts eof productions element) separator tokens rest) :
    s.reports = [] ∧ s.rest = rest := by
  rcases items with rfl | row | ⟨t, trailing, row⟩
  · exact rounds_closing rounds apart closes
  · exact quiet_of_row h inside rounds apart outside closes row (.inl rfl)
  · exact quiet_of_row h inside rounds apart outside closes row (.inr ⟨t, trailing, rfl⟩)

theorem enclosed_iff {bra : Token} (opens : bra.kind = opening) (rest : List Token) :
    Enclosed (Accepts eof productions element) opening closing separator (bra :: tokens) rest ↔
      s.reports = [] ∧ ∃ ket : Token, s.rest = ket :: rest ∧ ket.kind = closing := by
  constructor
  · rintro ⟨_, _, ket, same, -, closes, items⟩
    obtain ⟨rfl, rfl⟩ := List.cons.inj same
    have closed : seen eof (ket :: rest) = closing := closes
    obtain ⟨quiet, left⟩ := quiet_of_items h inside rounds apart outside closed items
    exact ⟨quiet, ket, left, closes⟩
  · rintro ⟨quiet, ket, left, closes⟩
    have closed : seen eof s.rest = closing := left ▸ closes
    exact ⟨bra, tokens, ket, rfl, opens, closes, left ▸ items_of_quiet h inside rounds quiet closed⟩

end Items

theorem run_bracketed {bra : Token} :
    let rounds := (loop (bracketedRound closing separator missing first element)).run eof productions tokens
    let closed := (expect closing).run eof productions rounds.rest
    let s := (bracketed opening closing separator missing first element).run eof productions (bra :: tokens)
    s.reports = rounds.reports ++ closed.reports ∧ s.rest = closed.rest := ⟨rfl, rfl⟩

variable (missing) in
/-- A list gets to an end, whatever is behind its opening bracket. It reads without a report what is
enclosed as it should be, up to there, and nothing else. It takes the opening bracket in any case, and then
the closing one last, or reports that it is missing where it stops. No element begins with the closing
bracket, so that it is not among the kinds that elements start with. -/
theorem bracketed_encloses {bra : Token} (atEof : eof.kind = .eof) (opens : bra.kind = opening)
    (apart : [separator, closing, .eof].Nodup) (outside : first.contains closing = false)
    (h : Elements eof productions [separator, closing, .eof] element tokens) :
    let s := (bracketed opening closing separator missing first element).run eof productions (bra :: tokens)
    Step.Repeats (fun left s =>
        s = (bracketedRound closing separator missing first element).run eof productions left) tokens
      ((loop (bracketedRound closing separator missing first element)).run eof productions tokens) ∧
    (∀ rest, Enclosed (Accepts eof productions element) opening closing separator (bra :: tokens) rest ↔
      s.reports = [] ∧ s.rest = rest) ∧
    s.rest <:+ tokens ∧
    ((∃ front ket, tokens = front ++ ket :: s.rest ∧ ket.kind = closing) ∨
      s.reports.getLast? = some ⟨(Problem.expected closing).message, (s.rest.headD eof).span⟩) := by
  intro s
  have repeats := elements_repeat missing first atEof apart h List.suffix_rfl
  refine ⟨repeats, ?_⟩
  have rounds := repeats.imp fun left _ same => same ▸ round_told atEof apart left
  have suffix := rounds_suffix h List.suffix_rfl rounds
  have differ : closing ≠ separator := by
    rintro rfl
    simp at apart
  have inner : closing ≠ .eof := by
    rintro rfl
    simp at apart
  obtain ⟨reports, rest⟩ : s.reports = _ ∧ s.rest = _ := run_bracketed
  have enclosed := enclosed_iff h List.suffix_rfl rounds differ outside opens
  -- What comes behind the rounds depends on nothing but what they left.
  generalize (loop (bracketedRound closing separator missing first element)).run eof productions tokens =
    within at *
  rcases expect_cases productions atEof inner within.rest with
    ⟨ket, behind, left, closed, quiet, taken⟩ | ⟨away, same, told⟩
  · rw [quiet, List.append_nil] at reports
    rw [taken] at rest
    rw [left] at suffix
    rw [reports, rest]
    obtain ⟨front, split⟩ := suffix
    refine ⟨fun rest => ?_, ⟨front ++ [ket], by simpa using split⟩, .inl ⟨front, ket, split.symm, closed⟩⟩
    rw [enclosed, left]
    refine and_congr_right fun _ => ⟨?_, ?_⟩
    · rintro ⟨_, same, -⟩
      exact (List.cons.inj same).2
    · rintro rfl
      exact ⟨ket, rfl, closed⟩
  · rw [told] at reports
    rw [same] at rest
    rw [reports, rest]
    refine ⟨fun rest => ?_, suffix, .inr (by simp)⟩
    rw [enclosed]
    constructor
    · rintro ⟨-, ket, left, closed⟩
      exact absurd (left ▸ closed) away
    · rintro ⟨quiet, -⟩
      simp at quiet

-- Parameters with a separator behind the last one.
theorem bracketed_encloses_parameters :
    let s := TokenStream.ofText ['(', 'a', ':', 't', ',', ')', ';']
    let productions := Productions.upTo Production.rule s.eof s.tokens.length
    s.tokens.map Token.kind =
        [.leftParen, .ident, .colon, .ident, .comma, .rightParen, .semicolon] ∧
      Elements s.eof productions [.comma, .rightParen, .eof] parameter s.tokens.tail ∧
      Enclosed (Accepts s.eof productions parameter) .leftParen .rightParen .comma s.tokens
        (s.tokens.drop 6) := by
  intro s productions
  have atEof : s.eof.kind = .eof := TokenStream.ofText_eof _
  have split : s.tokens = s.tokens.headD s.eof :: s.tokens.tail := by decide +kernel
  have fewer : s.tokens.tail.length < s.tokens.length := by decide +kernel
  have elements := (elements_of_lists atEof fewer).1
  have opens : (s.tokens.headD s.eof).kind = .leftParen := by decide +kernel
  have outside : patternFirst.contains .rightParen = false := by decide
  obtain ⟨-, encloses, -⟩ :=
    bracketed_encloses .expectedParameter atEof opens (by decide) outside elements
  refine ⟨by decide +kernel, elements, ?_⟩
  rw [split]
  exact (encloses _).mpr (by decide +kernel)

-- A separator and the closing bracket are missing, and there is one separator too many.
example :
    let s := TokenStream.ofText ['(', 'a', ':', 't', ' ', 'b', ':', 't', ',', ',', 'c', ':', 't', ']']
    let list := (bracketed .leftParen .rightParen .comma .expectedParameter patternFirst parameter).run
      s.eof (.upTo Production.rule s.eof s.tokens.length) s.tokens
    list.reports.map Diagnostic.message = ["expected `,`", "expected parameter", "expected `)`"] ∧
      list.rest = s.tokens.drop 12 := by decide +kernel

end Lists

end Rule

end LosslessTree
