import LosslessTree.Proofs.Token.Replacing
import LosslessTree.Proofs.Tree.Trimming

set_option autoImplicit false

namespace LosslessTree

open Lexeme

def Token.shift (n : Nat) (t : Token) : Token := { t with start := t.start + n }

namespace Token

variable {n offset : Nat} {t : Token}

theorem shift_fullSpan_stop : (t.shift n).fullSpan.stop = t.fullSpan.stop + n := by
  simp only [shift, fullSpan, stop]
  omega

theorem scan_shift (n offset : Nat) (text : Text) :
    scan (offset + n) text = ((scan offset text).1.shift n, (scan offset text).2) := by
  simp only [scan]
  split <;> simp [shift] <;> omega

end Token

namespace TokenStream

variable {offset : Nat} {text rest : Text} {t : Token} {tokens : List Token}

theorem ofTextAt_shift (n offset : Nat) (text : Text) :
    (ofTextAt (offset + n) text).tokens = (ofTextAt offset text).tokens.map (Token.shift n) := by
  fun_induction ofTextAt offset text with
  | case1 offset text first more rest ih =>
      have there : (Token.scan (offset + n) text).1.kind ≠ .eof := by
        rw [Token.scan_shift]
        exact more
      rw [ofTextAt, dif_pos there]
      simp only [Token.scan_shift, Token.shift_fullSpan_stop, List.map_cons]
      exact congrArg _ ih
  | case2 offset text first ended =>
      have there : ¬(Token.scan (offset + n) text).1.kind ≠ .eof := by
        rw [Token.scan_shift]
        exact ended
      rw [ofTextAt, dif_neg there]
      rfl

theorem ofTextAt_unshift {own behind : List Token} (split : (ofTextAt offset text).tokens = own ++ behind) :
    ∃ base behind', (ofTextAt 0 text).tokens = base ++ behind' ∧ base.map (Token.shift offset) = own ∧
      behind'.map (Token.shift offset) = behind := by
  have shifted := ofTextAt_shift offset 0 text
  rw [Nat.zero_add, split] at shifted
  exact List.map_eq_append_iff.mp shifted.symm

theorem ofTextAt_of_reads {after : Text} (reads : Token.Reads offset text t after rest) :
    (ofTextAt offset text).tokens = t :: (ofTextAt t.fullSpan.stop rest).tokens := by
  have scanned := reads.scan
  have more : (Token.scan offset text).1.kind ≠ .eof := by
    rw [scanned]
    have lexeme := measure_isLexeme reads.lexeme
    rintro eof
    rw [eof] at lexeme
    cases lexeme
  rw [ofTextAt, dif_pos more]
  simp only [scanned]

theorem reads_of_cons (split : (ofTextAt offset text).tokens = t :: tokens) :
    ∃ after rest, Token.Reads offset text t after rest ∧
      tokens = (ofTextAt t.fullSpan.stop rest).tokens := by
  rw [ofTextAt] at split
  split at split
  · next more =>
      cases split
      obtain ⟨after, reads⟩ := Token.reads_of_scan more
      exact ⟨after, _, reads, rfl⟩
  · cases split

theorem ofTextAt_nil (offset : Nat) : (ofTextAt offset []).tokens = [] := by
  cases split : (ofTextAt offset []).tokens with
  | nil => rfl
  | cons t tokens =>
      obtain ⟨after, rest, reads, -⟩ := reads_of_cons split
      obtain ⟨c, more, text, -⟩ := reads.head
      have empty := reads.text
      rw [text] at empty
      simp at empty

theorem ofTextAt_behind {front behind : List Token} (split : (ofTextAt offset text).tokens = front ++ behind) :
    ∃ rest, text = (front.map Token.fullText).flatten ++ rest ∧
      behind = (ofTextAt (offset + Text.byteLength (front.map Token.fullText).flatten) rest).tokens := by
  induction front generalizing offset text with
  | nil => exact ⟨text, rfl, split.symm⟩
  | cons t front ih =>
      obtain ⟨after, rest, reads, further⟩ := reads_of_cons split
      obtain ⟨rest', text', behind_⟩ := ih further.symm
      refine ⟨rest', ?_, ?_⟩
      · rw [reads.text, reads.after_eq, text']
        simp [Token.fullText]
      · rw [behind_, reads.stop]
        simp [Nat.add_assoc]

theorem ofTextAt_unled (split : (ofTextAt offset text).tokens = t :: tokens) :
    ∃ rest, text = Trivia.textOf t.leading ++ rest ∧ t.start = offset + Trivia.lengthOf t.leading ∧
      (ofTextAt t.start rest).tokens = { t with leading := [] } :: tokens := by
  obtain ⟨after, rest, reads, rfl⟩ := reads_of_cons split
  have none := Trivia.measure_scan .leading text
  rw [reads.leading] at none
  have bare : Token.Reads t.start (t.text ++ after) { t with leading := [] } after rest :=
    ⟨Trivia.scan_of_none none, reads.lexeme, reads.trailing, rfl⟩
  exact ⟨t.text ++ after, reads.text, reads.start, ofTextAt_of_reads bare⟩

end TokenStream

def Token.reach (front : List Token) (last : Token) : Text :=
  (front.map Token.fullText).flatten ++ (Trivia.textOf last.leading ++ last.text)

theorem Token.reach_nil (last : Token) : reach [] last = Trivia.textOf last.leading ++ last.text := rfl

theorem Token.reach_cons (t : Token) (front : List Token) (last : Token) :
    reach (t :: front) last = t.fullText ++ reach front last := by
  simp [reach]

namespace TokenStream

variable {offset : Nat} {behind later : Text} {front tokens : List Token} {last : Token}

theorem dark_reach (mem : ∃ offset text, last ∈ (ofTextAt offset text).tokens) :
    Trivia.Dark (Token.reach front last) := by
  obtain ⟨offset, text, mem⟩ := mem
  obtain ⟨before, after, split⟩ := List.append_of_mem mem
  obtain ⟨rest, -, further⟩ := ofTextAt_behind split
  obtain ⟨_, _, reads, -⟩ := reads_of_cons further.symm
  obtain ⟨c, chars, text, dark⟩ := reads.head
  exact ⟨c, by simp [Token.reach, text], dark⟩

theorem ofTextAt_replace
    (split : (ofTextAt offset (Token.reach front last ++ behind)).tokens = front ++ last :: tokens)
    (closed : last.kind = .stringLiteral → behind ≠ []) (ends : ∀ c ∈ later.head?, isBreak c = true) :
    (ofTextAt offset (Token.reach front last ++ later)).tokens =
      front ++ { last with trailing := (Trivia.scan .trailing later).1 } ::
        (ofTextAt (offset + (Token.reach front last).byteLength +
          Trivia.lengthOf (Trivia.scan .trailing later).1) (Trivia.scan .trailing later).2).tokens := by
  induction front generalizing offset with
  | nil =>
      obtain ⟨after, rest, reads, -⟩ := reads_of_cons split
      obtain rfl : behind = after := by
        have text := reads.text
        rw [Token.reach_nil, List.append_assoc] at text
        exact List.append_cancel_left (List.append_cancel_left text)
      have stop : (Token.fullSpan { last with trailing := (Trivia.scan .trailing later).1 }).stop =
          offset + (Token.reach [] last).byteLength + Trivia.lengthOf (Trivia.scan .trailing later).1 := by
        simp only [Token.fullSpan, Token.stop, reads.start, Token.reach_nil, Text.byteLength_append,
          Trivia.byteLength_textOf]
        omega
      rw [Token.reach_nil, ofTextAt_of_reads (reads.replace_behind closed ends), stop]
      rfl
  | cons t front ih =>
      obtain ⟨after, rest, reads, further⟩ := reads_of_cons split
      have dark : Trivia.Dark (Token.reach front last) :=
        dark_reach ⟨_, _, by rw [← further]; simp⟩
      obtain rfl : Token.reach front last ++ behind = rest := by
        have text := reads.text
        rw [reads.after_eq, Token.reach_cons, Token.fullText] at text
        simpa only [List.append_assoc, List.append_cancel_left_eq] using text
      have between := reads.after_eq
      rw [← List.append_assoc] at between
      have again := (between ▸ reads).replace_within dark ends
      have stop : offset + (Token.reach (t :: front) last).byteLength =
          t.fullSpan.stop + (Token.reach front last).byteLength := by
        rw [reads.stop, Token.reach_cons, Text.byteLength_append, Nat.add_assoc]
      rw [ofTextAt_of_reads again, ih further.symm, stop]
      rfl

theorem reads_last
    (split : (ofTextAt offset (Token.reach front last ++ behind)).tokens = front ++ last :: tokens) :
    ∃ own text rest, Token.Reads own text last behind rest ∧
      last.stop = offset + (Token.reach front last).byteLength ∧
      tokens = (ofTextAt last.fullSpan.stop rest).tokens := by
  obtain ⟨text, whole, further⟩ := ofTextAt_behind split
  obtain ⟨after, rest, reads, more⟩ := reads_of_cons further.symm
  obtain rfl : behind = after := by
    rw [reads.text, Token.reach, List.append_assoc, List.append_assoc] at whole
    exact List.append_cancel_left (List.append_cancel_left (List.append_cancel_left whole))
  refine ⟨_, text, rest, reads, ?_, more⟩
  simp [Token.stop, reads.start, Token.reach, Trivia.byteLength_textOf, Nat.add_assoc]

theorem behind_ne_nil
    (split : (ofTextAt offset (Token.reach front last ++ behind)).tokens = front ++ last :: tokens)
    (more : tokens ≠ []) : behind ≠ [] := by
  rintro rfl
  obtain ⟨_, _, rest, reads, -, tokens_⟩ := reads_last split
  obtain ⟨-, rfl⟩ := List.append_eq_nil_iff.mp reads.after_eq.symm
  exact more (tokens_.trans (ofTextAt_nil _))

theorem measure_reach
    (split : (ofTextAt offset (Token.reach front last ++ behind)).tokens = front ++ last :: tokens)
    (unled : ∀ t ∈ (front ++ [last]).head?, t.leading = []) (ends : ∀ c ∈ later.head?, isBreak c = true) :
    Trivia.measure .leading (Token.reach front last ++ later) = none := by
  obtain ⟨t, tokens', cons⟩ : ∃ t tokens', front ++ last :: tokens = t :: tokens' :=
    List.exists_cons_of_ne_nil (by simp)
  have bare : t.leading = [] := unled t (by simpa [List.head?_append] using congrArg List.head? cons)
  obtain ⟨_, _, first, -⟩ := reads_of_cons (split.trans cons)
  have none := Trivia.measure_scan .leading (Token.reach front last ++ behind)
  have text := first.text
  rw [bare, Trivia.textOf, List.map_nil, List.flatten_nil, List.nil_append] at text
  rw [first.leading, ← text] at none
  exact Trivia.measure_none_replace none (dark_reach ⟨_, _, by rw [split]; simp⟩) ends

theorem trim_reach
    (split : (ofTextAt offset (Token.reach front last ++ behind)).tokens = front ++ last :: tokens)
    (closed : last.kind = .stringLiteral → behind ≠ [])
    (unled : ∀ t ∈ (front ++ [last]).head?, t.leading = []) :
    (Token.reach front last).trim = Token.reach front last := by
  obtain ⟨_, _, _, reads, -, -⟩ := reads_last split
  obtain ⟨first, chars, lexeme, dark⟩ := reads.head
  refine Text.trim_of_ends (fun c mem => ?_) ?_
  · obtain ⟨chars, begins⟩ := List.head?_eq_some_iff.mp mem
    have none : Trivia.measure .leading (Token.reach front last ++ []) = .none :=
      measure_reach split unled (by simp)
    rw [List.append_nil, begins] at none
    exact Trivia.isBlank_of_measure none
  · have some_ : last.text ≠ [] := by simp [lexeme]
    rw [Token.reach, ← List.append_assoc, List.getLast?_append_of_ne_nil _ some_]
    refine last_of_measure (measure_within reads.lexeme (Nat.le_refl _)) (fun string => ?_) ?_
    · exact closes_of_more (string ▸ reads.lexeme) (Nat.le_refl _) (.inr (closed string))
    · rw [lexeme]
      simpa using dark

end TokenStream

namespace Token

-- The trivia between tokens that stand next to one another: what is behind the first, and what is
-- in front of the second.
def gaps (tokens : List Token) : List (List Trivia × List Trivia) :=
  tokens.zipWith (fun t u => (t.trailing, u.leading)) tokens.tail

structure Alike (n : Nat) (tokens tokens' : List Token) : Prop where
  moved : List.Forall₂ (Moved n) tokens tokens'
  gaps : gaps tokens' = gaps tokens

theorem Moved.head {n : Nat} {tokens tokens' : List Token} (h : List.Forall₂ (Moved n) tokens tokens')
    (some_ : tokens ≠ []) :
    ∃ t t', tokens.head? = some t ∧ tokens'.head? = some t' ∧ t.Moved n t' := by
  cases h with
  | nil => exact absurd rfl some_
  | cons first _ => exact ⟨_, _, rfl, rfl, first⟩

theorem Moved.last {n : Nat} {tokens tokens' : List Token} (h : List.Forall₂ (Moved n) tokens tokens')
    (some_ : tokens ≠ []) :
    ∃ t t', tokens.getLast? = some t ∧ tokens'.getLast? = some t' ∧ t.Moved n t' := by
  simp only [← List.head?_reverse]
  exact Moved.head (List.rel_reverse h) (by simpa using some_)

theorem gaps_unled (t : Token) (pieces : List Trivia) (tokens : List Token) :
    gaps ({ t with leading := pieces } :: tokens) = gaps (t :: tokens) := by
  cases tokens <;> rfl

theorem gaps_untrailed (front : List Token) (last : Token) (pieces : List Trivia) :
    gaps (front ++ [{ last with trailing := pieces }]) = gaps (front ++ [last]) := by
  induction front with
  | nil => rfl
  | cons t front ih =>
      cases front with
      | nil => rfl
      | cons u front => exact congrArg ((t.trailing, u.leading) :: ·) ih

theorem gaps_shift (n : Nat) (tokens : List Token) : gaps (tokens.map (shift n)) = gaps tokens := by
  induction tokens with
  | nil => rfl
  | cons t tokens ih =>
      cases tokens with
      | nil => rfl
      | cons u tokens => exact congrArg ((t.trailing, u.leading) :: ·) ih

theorem moved_shift (n : Nat) (tokens : List Token) :
    List.Forall₂ (Moved n) tokens (tokens.map (shift n)) := by
  rw [List.forall₂_map_right_iff]
  exact List.forall₂_same.mpr fun _ _ => ⟨rfl, rfl, rfl⟩

theorem alike_of_shift {n : Nat} {base own : List Token} {t : Token}
    (shifted : base.map (shift n) = { t with leading := [] } :: own) : Alike n base (t :: own) := by
  constructor
  · have moved := moved_shift n base
    rw [shifted, List.forall₂_cons_right_iff] at moved
    obtain ⟨first, others, here, moved, rfl⟩ := moved
    exact .cons ⟨here.kind, here.text, here.start⟩ moved
  · rw [← gaps_shift n base, shifted]
    exact (gaps_unled t [] own).symm

end Token

-- A text with no trivia at its ends that has these tokens wherever it stands.
structure Passage (excerpt : Text) (base : List Token) : Prop where
  some_ : base ≠ []
  start : ∀ t ∈ base.head?, t.start = 0
  stop : ∀ t ∈ base.getLast?, t.stop = excerpt.byteLength
  trimmed : excerpt.trim = excerpt
  unled : ∀ later : Text, (∀ c ∈ later.head?, isBreak c = true) →
    Trivia.measure .leading (excerpt ++ later) = none
  again : ∀ offset later, (∀ c ∈ later.head?, isBreak c = true) → ∃ own, Token.Alike offset base own ∧
    (TokenStream.ofTextAt offset (excerpt ++ later)).tokens = own ++ (TokenStream.ofTextAt
      (offset + excerpt.byteLength + Trivia.lengthOf (Trivia.scan .trailing later).1)
      (Trivia.scan .trailing later).2).tokens

namespace TokenStream

variable {text : Text}

theorem reach_again {front behind : List Token} {last : Token} {more later : Text}
    (split : (ofTextAt 0 (Token.reach front last ++ more)).tokens = front ++ last :: behind)
    (closed : last.kind = .stringLiteral → more ≠ []) (offset : Nat)
    (ends : ∀ c ∈ later.head?, isBreak c = true) :
    ∃ own, Token.Alike offset (front ++ [last]) own ∧
      (ofTextAt offset (Token.reach front last ++ later)).tokens = own ++ (ofTextAt
        (offset + (Token.reach front last).byteLength + Trivia.lengthOf (Trivia.scan .trailing later).1)
        (Trivia.scan .trailing later).2).tokens := by
  refine ⟨(front ++ [{ last with trailing := (Trivia.scan .trailing later).1 }]).map (Token.shift offset),
    ⟨?_, ?_⟩, ?_⟩
  · rw [List.forall₂_map_right_iff]
    exact List.rel_append (List.forall₂_same.mpr fun _ _ => ⟨rfl, rfl, rfl⟩)
      (.cons ⟨rfl, rfl, rfl⟩ .nil)
  · rw [Token.gaps_shift, Token.gaps_untrailed]
  · have shifted := ofTextAt_shift offset 0 (Token.reach front last ++ later)
    rw [ofTextAt_replace split closed ends, List.append_cons, List.map_append, ← ofTextAt_shift,
      Nat.zero_add] at shifted
    rw [shifted]
    congr 3
    omega

theorem passage_of_reach {front behind : List Token} {last : Token} {more : Text}
    (split : (ofTextAt 0 (Token.reach front last ++ more)).tokens = front ++ last :: behind)
    (closed : last.kind = .stringLiteral → behind ≠ [])
    (unled : ∀ t ∈ (front ++ [last]).head?, t.leading = []) :
    Passage (Token.reach front last) (front ++ [last]) := by
  have shut (string : last.kind = .stringLiteral) : more ≠ [] := behind_ne_nil split (closed string)
  refine ⟨by simp, fun t mem => ?_, fun t mem => ?_, trim_reach split shut unled,
    fun later => measure_reach split unled, fun offset later => reach_again split shut offset⟩
  · have head : (front ++ last :: behind).head? = some t := by
      rw [List.append_cons, List.head?_append, Option.mem_def.mp mem, Option.some_or]
    obtain ⟨tokens, cons⟩ := List.head?_eq_some_iff.mp head
    obtain ⟨_, _, first, -⟩ := reads_of_cons (split.trans cons)
    rw [first.start, unled t mem]
    rfl
  · obtain ⟨_, _, _, _, stop, -⟩ := reads_last split
    rw [List.getLast?_concat, Option.mem_some] at mem
    rw [← mem, stop, Nat.zero_add]

theorem passage_of_ends (some_ : (ofText text).tokens ≠ [])
    (whole : ((ofText text).tokens.map Token.fullText).flatten = text)
    (first : ∀ t ∈ (ofText text).tokens.head?, t.leading = [])
    (last : ∀ t ∈ (ofText text).tokens.getLast?, t.trailing = [] ∧ t.kind ≠ .stringLiteral) :
    Passage text (ofText text).tokens := by
  obtain none | ⟨front, final, split⟩ := List.eq_nil_or_concat (ofText text).tokens
  · exact absurd none some_
  rw [List.concat_eq_append] at split
  rw [split] at whole first last ⊢
  obtain ⟨bare, noString⟩ := last final (by simp)
  have reach : Token.reach front final = text := by
    rw [← whole]
    simp [Token.reach, Token.fullText, bare, Trivia.textOf]
  rw [← reach]
  have tokens : (ofTextAt 0 (Token.reach front final ++ [])).tokens = front ++ final :: [] := by
    rw [List.append_nil, reach]
    exact split
  exact passage_of_reach tokens (fun string => absurd string noString) first

theorem exists_passage {front own behind : List Token} (split : (ofText text).tokens = front ++ (own ++ behind))
    (some_ : own ≠ []) (closed : ∀ t ∈ own.getLast?, t.kind = .stringLiteral → behind ≠ []) :
    ∃ before excerpt after base, text = before ++ (excerpt ++ after) ∧ Passage excerpt base ∧
      Token.Alike before.byteLength base own := by
  obtain ⟨t, own, rfl⟩ := List.exists_cons_of_ne_nil some_
  obtain ⟨_, whole, further⟩ := ofTextAt_behind split
  obtain ⟨rest, rfl, start, unled⟩ := ofTextAt_unled further.symm
  -- The passage begins with the first token.
  have place : t.start = Text.byteLength ((front.map Token.fullText).flatten ++ Trivia.textOf t.leading) := by
    rw [start, Text.byteLength_append, Trivia.byteLength_textOf]
    omega
  have unled : (ofTextAt t.start rest).tokens = { t with leading := [] } :: own ++ behind := unled
  obtain ⟨base, behind', split', base_, behind_⟩ := ofTextAt_unshift unled
  have alike := Token.alike_of_shift base_
  rw [place] at alike
  obtain rfl | ⟨front', last, rfl⟩ := List.eq_nil_or_concat base
  · cases base_
  rw [List.concat_eq_append] at split' base_ alike
  obtain ⟨more, reach, -⟩ := ofTextAt_behind split'
  have reach : rest = Token.reach front' last ++ (Trivia.textOf last.trailing ++ more) := by
    rw [reach]
    simp [Token.reach, Token.fullText]
  refine ⟨_, Token.reach front' last, Trivia.textOf last.trailing ++ more, front' ++ [last], ?_, ?_, alike⟩
  · rw [whole, reach, List.append_assoc]
  · rw [reach] at split'
    refine passage_of_reach (by simpa using split') (fun string none => ?_) fun first head => ?_
    · have kinds := congrArg List.getLast? (Token.Moved.map_kind alike.moved)
      rw [List.map_append, List.map_singleton, List.getLast?_concat, List.getLast?_map,
        Option.map_eq_some_iff] at kinds
      obtain ⟨final, mem, kind⟩ := kinds
      refine closed final mem (kind.trans string) ?_
      rw [← behind_, none, List.map_nil]
    · have heads := congrArg List.head? base_
      rw [List.head?_map, head] at heads
      exact congrArg Token.leading (Option.some.inj heads)

end TokenStream

end LosslessTree
