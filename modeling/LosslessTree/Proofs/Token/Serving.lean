import LosslessTree.Proofs.Token.Tiling

set_option autoImplicit false

namespace LosslessTree

namespace Lexer

def after : List Call → Lexer → Lexer
  | [], l => l
  | c :: calls, l => after calls (answer c l).2

def taken : List Call → Lexer → List Token
  | [], _ => []
  | c :: calls, l => (if c = .peek then [] else (answer c l).1.toList) ++ taken calls (answer c l).2

def skip : Nat → Lexer → Lexer
  | 0, l => l
  | n + 1, l => skip n l.take.2

variable {l : Lexer} {calls : List Call}

theorem length_takes (n : Nat) (l : Lexer) : (takes n l).length = n := by
  induction n generalizing l with
  | zero => rfl
  | succ n ih => rw [takes, List.length_cons, ih]

theorem answer_cases (c : Call) (l : Lexer) :
    (answer c l).2 = l ∧ taken [c] l = [] ∨ (answer c l).2 = l.take.2 ∧ taken [c] l = [l.current] := by
  cases c with
  | peek => exact .inl ⟨rfl, rfl⟩
  | take => exact .inr ⟨rfl, rfl⟩
  | next =>
    by_cases ended : l.current.kind = .eof
    · left
      simp [answer, next?, taken, ended]
    · right
      simp [answer, next?, taken, ended, take]

-- How far a lexer is goes by the tokens taken, whatever the calls between them.
theorem after_eq (calls : List Call) (l : Lexer) :
    taken calls l = takes (taken calls l).length l ∧ after calls l = skip (taken calls l).length l := by
  induction calls generalizing l with
  | nil => exact ⟨rfl, rfl⟩
  | cons c calls ih =>
    have step : taken (c :: calls) l = taken [c] l ++ taken calls (answer c l).2 := by simp [taken]
    obtain ⟨own, behind⟩ := ih (answer c l).2
    rw [step, after]
    rcases answer_cases c l with ⟨same, none⟩ | ⟨same, one⟩
    · rw [same] at own behind ⊢
      rw [none, List.nil_append]
      exact ⟨own, behind⟩
    · rw [same] at own behind ⊢
      rw [one, List.singleton_append, List.length_cons]
      exact ⟨congrArg (l.current :: ·) own, behind⟩

theorem getElem?_takes {n m : Nat} (l : Lexer) (less : n < m) :
    (takes m l)[n]? = some (skip n l).current := by
  induction m generalizing n l with
  | zero => cases less
  | succ m ih =>
    cases n with
    | zero => rfl
    | succ n => exact ih l.take.2 (Nat.lt_of_succ_lt_succ less)

end Lexer

namespace TokenStream

-- The token of a text that is taken once so many others have been. Behind the end of the file is
-- the end of the file again, without trivia.
def shown (text : Text) (n : Nat) : Token := (ofText text).all[n]?.getD (Lexer.eofAt text.byteLength)

theorem shown_eof_iff (text : Text) (n : Nat) :
    (shown text n).kind = .eof ↔ (ofText text).tokens.length ≤ n := by
  rw [shown, all]
  rcases Nat.lt_trichotomy n (ofText text).tokens.length with less | rfl | more
  · have real := ofText_lexed text (ofText text).tokens[n] (List.getElem_mem less)
    simp [List.getElem?_append_left less, real.ne_eof, less]
  · simp [ofText_eof]
  · have none : ((ofText text).tokens ++ [(ofText text).eof])[n]? = none :=
      List.getElem?_eq_none (by rw [List.length_append]; exact more)
    simp [none, Lexer.eofAt, Nat.le_of_lt more]

end TokenStream

namespace Scanner

variable {text : Text} {l : Lexer}

theorem answer_eq (short : text.byteLength < Assembly.offsetLimit) (within : l.Within text)
    (c : Lexer.Call) : answer (beside text l) c =
      .ok ((Lexer.answer c l).1.map Token.scanned, beside text (Lexer.answer c l).2) := by
  have step := next_beside short within
  cases c with
  | peek => rfl
  | take =>
    simp only [answer, step, bind, Except.bind]
    rfl
  | next =>
    have same : (beside text l).current.kind = l.current.kind := rfl
    by_cases ended : l.current.kind = .eof
    · simp [answer, same, ended, Lexer.answer, Lexer.next?]
    · simp only [answer, same, ended, if_false, step, bind, Except.bind, Lexer.answer, Lexer.next?,
        beq_iff_eq]
      rfl

theorem answers_eq (short : text.byteLength < Assembly.offsetLimit) (within : l.Within text)
    (calls : List Lexer.Call) :
    answers calls (beside text l) = .ok ((Lexer.answers calls l).map (Option.map Token.scanned)) := by
  induction calls generalizing l with
  | nil => rfl
  | cons c calls ih =>
    have kept : (Lexer.answer c l).2.Within text := by
      rcases Lexer.answer_cases c l with ⟨same, -⟩ | ⟨same, -⟩
      · rwa [same]
      · rw [same]
        exact within.take
    simp only [answers, answer_eq short within, bind, Except.bind, ih kept]
    rfl

end Scanner

namespace Lexer

open TokenStream

variable {text : Text} {n : Nat}

theorem current_skip (text : Text) (n : Nat) : (skip n (start text)).current = shown text n := by
  have found := getElem?_takes (start text) (Nat.lt_add_left (ofText text).all.length n.lt_succ_self)
  have whole : takes ((ofText text).all.length + (n + 1)) (start text) = _ := takes_scan 0 (n + 1) text
  rw [whole, Nat.zero_add] at found
  refine Option.some.inj (found.symm.trans ?_)
  change ((ofText text).all ++ _)[n]? = some ((ofText text).all[n]?.getD _)
  by_cases inside : n < (ofText text).all.length
  · rw [List.getElem?_append_left inside, List.getElem?_eq_getElem inside, Option.getD_some]
  · have beyond := Nat.le_of_not_lt inside
    rw [List.getElem?_append_right beyond, List.getElem?_eq_none beyond,
      List.getElem?_replicate_of_lt (by omega), Option.getD_none]

theorem takes_start (text : Text) (n : Nat) : takes n (start text) = (List.range n).map (shown text) := by
  refine List.ext_getElem? fun i => ?_
  by_cases inside : i < n
  · rw [getElem?_takes _ inside, current_skip]
    simp [inside]
  · have beyond := Nat.le_of_not_lt inside
    rw [List.getElem?_eq_none (by rwa [length_takes]), List.getElem?_eq_none (by simpa using beyond)]

structure Serves (text : Text) (n : Nat) (l : Lexer) : Prop where
  -- A look at the current token changes nothing.
  peek : answer .peek l = (some (shown text n), l)
  take : (answer .take l).1 = some (shown text n)
  -- At the end of the file, and only there, nothing is given and nothing changes.
  next : answer .next l = if n < (ofText text).tokens.length then answer .take l else (none, l)

theorem serves_skip (text : Text) (n : Nat) : Serves text n (skip n (start text)) := by
  have current := current_skip text n
  refine ⟨by rw [answer, current], by rw [answer, take, current], ?_⟩
  have ended := shown_eof_iff text n
  rw [← current] at ended
  by_cases less : n < (ofText text).tokens.length
  · have real := Nat.not_le.mpr less
    simp [answer, next?, ended, less, real]
  · have last := Nat.le_of_not_lt less
    simp [answer, next?, ended, less, last]

/-- Calls in any order. Those that take a token take the tokens of the text in turn, the end of the file with
all that is left of the text, and then the end of the file without trivia. A scanner gives the same. -/
theorem serves_calls (text : Text) :
    (∀ calls, ∃ n, taken calls (start text) = (List.range n).map (shown text) ∧
      Serves text n (after calls (start text))) ∧
    ((ofText text).eof.kind = .eof ∧ (ofText text).eof.span = .empty text.byteLength ∧
      (ofText text).eof.trailing = [] ∧
      ((ofText text).tokens.map Token.fullText).flatten ++ Trivia.textOf (ofText text).eof.leading = text) ∧
    (text.byteLength < Assembly.offsetLimit → ∀ calls,
      (Scanner.start text >>= Scanner.answers calls) =
        .ok ((answers calls (start text)).map (Option.map Token.scanned))) := by
  refine ⟨fun calls => ?_, ?_, fun short calls => ?_⟩
  · obtain ⟨order, state⟩ := after_eq calls (start text)
    refine ⟨(taken calls (start text)).length, ?_, ?_⟩
    · rw [← takes_start]
      exact order
    · rw [state]
      exact serves_skip text _
  · have whole : ((ofText text).all.map Token.fullText).flatten = text := ofTextAt_text 0 text
    have none : (ofText text).eof.text = [] := ofTextAt_eof_text 0 text
    have trailing : (ofText text).eof.trailing = [] := eof_trailing 0 text
    refine ⟨ofText_eof text, eof_span text, trailing, ?_⟩
    simpa [all, Token.fullText, none, trailing, Trivia.textOf] using whole
  · rw [Scanner.start_eq short]
    exact Scanner.answers_eq short (within_scan (List.nil_append text).symm) calls

-- Calls up to the end of the file and on behind it.
theorem serves_calls_behind_end :
    Text.byteLength ['x', '\n'] < Assembly.offsetLimit ∧
      (Scanner.start ['x', '\n'] >>= Scanner.answers [.next, .next, .peek, .take, .peek]) =
        .ok [some ⟨[], .ident, ⟨0, 1⟩, []⟩, none, some ⟨[⟨.newline, 1⟩], .eof, ⟨2, 2⟩, []⟩,
          some ⟨[⟨.newline, 1⟩], .eof, ⟨2, 2⟩, []⟩, some (.eofAt 2)] := by
  have short : Text.byteLength ['x', '\n'] < Assembly.offsetLimit := by decide
  refine ⟨short, ?_⟩
  rw [(serves_calls ['x', '\n']).2.2 short]
  decide +kernel

end Lexer

end LosslessTree
