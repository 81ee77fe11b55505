import LosslessTree.Proofs.Token.Scanning

set_option autoImplicit false

namespace LosslessTree

/-- Spans that follow each other without gaps from an offset to another one. -/
def Span.Tiles : Nat → List Span → Nat → Prop
  | start, [], stop => start = stop
  | start, s :: spans, stop => s.start = start ∧ s.start ≤ s.stop ∧ Tiles s.stop spans stop

theorem Span.Tiles.append {spans more : List Span} {start middle stop : Nat}
    (h : Tiles start spans middle) (h' : Tiles middle more stop) :
    Tiles start (spans ++ more) stop := by
  induction spans generalizing start with
  | nil => exact h ▸ h'
  | cons s spans ih => exact ⟨h.1, h.2.1, ih h.2.2⟩

def Text.lay : Nat → List (Kind × Text) → List (Kind × Span)
  | _, [] => []
  | offset, (k, w) :: parts =>
      (k, ⟨offset, offset + w.byteLength⟩) :: lay (offset + w.byteLength) parts

namespace Text

variable {offset : Nat} {parts : List (Kind × Text)}

def joined (parts : List (Kind × Text)) : Text := (parts.map Prod.snd).flatten

theorem joined_cons (part : Kind × Text) (parts : List (Kind × Text)) :
    joined (part :: parts) = part.2 ++ joined parts := rfl

theorem joined_append (parts more : List (Kind × Text)) :
    joined (parts ++ more) = joined parts ++ joined more := by simp [joined]

theorem lay_append (offset : Nat) (parts more : List (Kind × Text)) :
    lay offset (parts ++ more) =
      lay offset parts ++ lay (offset + (joined parts).byteLength) more := by
  induction parts generalizing offset with
  | nil => rfl
  | cons part parts ih => simp [lay, ih, joined, Nat.add_assoc]

theorem lay_tiles (offset : Nat) (parts : List (Kind × Text)) :
    Span.Tiles offset ((lay offset parts).map Prod.snd) (offset + (joined parts).byteLength) := by
  induction parts generalizing offset with
  | nil => rfl
  | cons part parts ih =>
    refine ⟨rfl, Nat.le_add_right _ _, ?_⟩
    simpa [joined, Nat.add_assoc] using ih (offset + part.2.byteLength)

theorem mem_lay {k : Kind} {s : Span} (mem : (k, s) ∈ lay offset parts) :
    ∃ before w behind, parts = before ++ (k, w) :: behind ∧
      s = ⟨offset + (joined before).byteLength, offset + (joined before ++ w).byteLength⟩ := by
  induction parts generalizing offset with
  | nil => cases mem
  | cons part parts ih =>
    obtain ⟨k', w'⟩ := part
    rcases List.mem_cons.mp mem with same | mem
    · cases same
      exact ⟨[], w', parts, rfl, by simp [joined]⟩
    · obtain ⟨before, w, behind, rfl, rfl⟩ := ih mem
      exact ⟨(k', w') :: before, w, behind, rfl, by simp [joined, Nat.add_assoc]⟩

-- A character of two texts is in the first one or in the second.
theorem append_eq_append_cons {v w a b : Text} {c : Char} (split : v ++ w = a ++ c :: b) :
    (∃ more, a = v ++ more ∧ w = more ++ c :: b) ∨ ∃ more, v = a ++ c :: more := by
  rcases List.append_eq_append_iff.mp split with ⟨more, rfl, rest⟩ | ⟨more, rfl, rest⟩
  · exact .inl ⟨more, rfl, rest⟩
  · cases more with
    | nil => exact .inl ⟨[], (List.append_nil _).symm.trans (List.append_nil _).symm, rest.symm⟩
    | cons d more =>
      obtain ⟨rfl, -⟩ := List.cons.inj rest
      exact .inr ⟨more, rfl⟩

theorem exists_lay (offset : Nat) {a b : Text} {c : Char} (split : joined parts = a ++ c :: b) :
    ∃ (k : Kind) (inner outer : Text) (s : Span), (k, inner ++ c :: outer) ∈ parts ∧
      (k, s) ∈ lay offset parts ∧ s.start + inner.byteLength = offset + a.byteLength ∧
      s.stop = s.start + byteLength (inner ++ c :: outer) := by
  induction parts generalizing offset a with
  | nil => simp [joined] at split
  | cons part parts ih =>
    obtain ⟨k, w⟩ := part
    have split : w ++ joined parts = a ++ c :: b := split
    rcases append_eq_append_cons split with ⟨more, rfl, rest⟩ | ⟨more, rfl⟩
    · obtain ⟨k', inner, outer, s, mem, laid, start, stop⟩ := ih (offset + w.byteLength) rest
      refine ⟨k', inner, outer, s, List.mem_cons_of_mem _ mem, List.mem_cons_of_mem _ laid, ?_, stop⟩
      rw [start, byteLength_append, Nat.add_assoc]
    · exact ⟨k, a, more, _, List.mem_cons_self, List.mem_cons_self, rfl, rfl⟩

end Text

namespace Lexeme

open Cursor

theorem isBreak_endMark : isBreak endMark = true := by decide +kernel

theorem measure_endMark (rest : Text) : measure (endMark :: rest) = some (.unknown, 1) := by
  have letter : isIdentStart endMark = false := by decide +kernel
  have digit : isDigit endMark = false := by decide
  have other : ∀ entry ∈ fixed, entry.1.head? ≠ some endMark := by decide
  rw [measure, fixed?_of_head other, Option.getD_none, free, if_neg (by decide), digit, letter]
  rfl

theorem measure_of_endMark {t before behind : Text} {k : Kind} {n : Nat}
    (found : measure t = some (k, n)) (split : t.take n = before ++ endMark :: behind) :
    (k = .unknown ∧ before = [] ∧ behind = []) ∨ k = .stringLiteral := by
  have whole : t = before ++ endMark :: (behind ++ t.drop n) := by
    rw [← List.cons_append, ← List.append_assoc, ← split, List.take_append_drop]
  cases measured : measure before with
  | none =>
    obtain rfl := (measure_eq_none_iff before).mp measured
    rw [whole, List.nil_append, measure_endMark] at found
    cases found
    rw [whole] at split
    exact .inl ⟨rfl, rfl, by simpa using split⟩
  | some entry =>
    obtain ⟨k', n'⟩ := entry
    right
    by_cases string : k' = .stringLiteral
    · obtain ⟨rest, rfl, -⟩ := quote_of_measure (string ▸ measured)
      rw [whole, List.cons_append, measure_quote, Option.some.injEq, Prod.mk.injEq] at found
      exact found.1.symm
    · -- What is measured before the NUL ends there, so it cannot take the NUL with it.
      have same := measure_break isBreak_endMark measured (fun string' => absurd string' string)
        (behind ++ t.drop n)
      rw [← whole, found] at same
      cases same
      have within := measure_le measured
      have length := congrArg List.length split
      simp only [List.length_take, List.length_append, List.length_cons] at length
      omega

end Lexeme

namespace Trivia

theorem measure_of_endMark {side : Side} {t : Text} {k : TriviaKind} {n : Nat}
    (found : measure side t = some (k, n)) (mem : Cursor.endMark ∈ t.take n) : k = .comment := by
  have dark : Unicode.isBlank Cursor.endMark = false := by decide +kernel
  have inline : ∀ c, isInline c = true → c ≠ Cursor.endMark := by
    rintro c inline rfl
    simp [isInline, dark] at inline
  revert found mem
  fun_cases measure side t with
  | case1 => simp
  | case2 rest =>
    rintro ⟨⟩ mem
    simp [Cursor.endMark] at mem
  | case3 => simp
  | case4 rest =>
    rintro ⟨⟩ mem
    simp [Cursor.endMark] at mem
  | case5 => simp
  | case6 =>
    rintro ⟨⟩ -
    rfl
  | case7 _ c rest _ _ _ blank =>
    rintro ⟨⟩ mem
    have other : Cursor.endMark ≠ c := by
      rintro rfl
      simp [dark] at blank
    -- The piece is a carriage return alone or inline throughout.
    rcases Nat.eq_zero_or_pos ((c :: rest).takeWhile isInline).length with none | some_
    · simp [none, other] at mem
    · rw [Nat.max_eq_right some_, ← List.prefix_iff_eq_take.mp (List.takeWhile_prefix _)] at mem
      exact absurd rfl (inline _ (List.all_eq_true.mp List.all_takeWhile _ mem))
  | case8 => simp

theorem scan_pieces (side : Side) (t : Text) :
    ∀ p ∈ (scan side t).1, p.text ≠ [] ∧ (Cursor.endMark ∈ p.text → p.kind = .comment) := by
  fun_induction scan side t with
  | case1 => simp
  | case2 t k n found more ih =>
    refine List.forall_mem_cons.mpr ⟨⟨?_, measure_of_endMark found⟩, ih⟩
    obtain ⟨some_, pos⟩ := measure_pos found
    simp only [ne_eq, List.take_eq_nil_iff, not_or]
    exact ⟨by omega, some_⟩

end Trivia

namespace Token

def spelt (t : Token) : List (Kind × Text) :=
  t.leading.map (fun p => (p.kind.kind, p.text)) ++
    (t.kind, t.text) :: t.trailing.map fun p => (p.kind.kind, p.text)

variable {offset : Nat} {t : Text}

theorem joined_spelt (t : Token) : Text.joined t.spelt = t.fullText := by
  rw [← pieces_flatten]
  simp [Text.joined, spelt, pieces, Function.comp_def]

theorem lay_pieces (offset : Nat) (pieces : List Trivia) :
    Text.lay offset (pieces.map fun p => (p.kind.kind, p.text)) =
      Piece.placed offset (pieces.map Trivia.piece) := by
  induction pieces generalizing offset with
  | nil => rfl
  | cons p pieces ih => exact congrArg (_ :: ·) (ih _)

theorem joined_pieces (pieces : List Trivia) :
    Text.joined (pieces.map fun p => (p.kind.kind, p.text)) = Trivia.textOf pieces := by
  simp [Text.joined, Trivia.textOf, Function.comp_def]

theorem placed_scan (offset : Nat) (t : Text) :
    (scan offset t).1.placed = Text.lay offset (scan offset t).1.spelt := by
  have first : (scan offset t).1.fullSpan.start = offset := by rw [scan_fullSpan]
  rw [placed, spelt, Text.lay_append, lay_pieces, joined_pieces, Trivia.byteLength_textOf, first, Text.lay,
    lay_pieces, ← scan_start]
  rfl

end Token

namespace TokenStream

theorem exists_scan {offset : Nat} {text : Text} {t : Token}
    (mem : t ∈ (ofTextAt offset text).all) : ∃ offset' text', t = (Token.scan offset' text').1 := by
  fun_induction ofTextAt offset text with
  | case1 offset text first more rest ih =>
    rcases List.mem_cons.mp mem with rfl | mem
    · exact ⟨offset, text, rfl⟩
    · exact ih mem
  | case2 offset text first ended =>
    obtain rfl := List.mem_singleton.mp mem
    exact ⟨offset, text, rfl⟩

theorem placed_all (offset : Nat) (text : Text) :
    (ofTextAt offset text).all.flatMap Token.placed =
      Text.lay offset ((ofTextAt offset text).all.flatMap Token.spelt) := by
  fun_induction ofTextAt offset text with
  | case1 offset text first more rest ih =>
    have stop : first.1.fullSpan.stop = offset + (Text.joined first.1.spelt).byteLength := by
      rw [Token.joined_spelt, Token.scan_fullSpan]
    simp only [all, List.cons_append, List.flatMap_cons, Text.lay_append] at ih ⊢
    rw [← stop, ← Token.placed_scan]
    exact congrArg (first.1.placed ++ ·) ih
  | case2 offset text first ended =>
    simpa [all] using Token.placed_scan offset text

theorem joined_all (offset : Nat) (text : Text) :
    Text.joined ((ofTextAt offset text).all.flatMap Token.spelt) = text := by
  have each (tokens : List Token) : Text.joined (tokens.flatMap Token.spelt) =
      (tokens.map Token.fullText).flatten := by
    induction tokens with
    | nil => rfl
    | cons t tokens ih =>
      rw [List.flatMap_cons, Text.joined_append, Token.joined_spelt, ih, List.map_cons,
        List.flatten_cons]
  rw [each]
  exact ofTextAt_text offset text

theorem fullSpans_tile (offset : Nat) (text : Text) :
    Span.Tiles offset ((ofTextAt offset text).all.map Token.fullSpan)
      (offset + text.byteLength) := by
  fun_induction ofTextAt offset text with
  | case1 offset text first more rest ih =>
    have own : first.1.fullSpan = _ := Token.scan_fullSpan offset text
    have stop : first.1.fullSpan.stop + _ = _ := Token.scan_stop offset text
    rw [stop] at ih
    exact ⟨by rw [own], by rw [own]; exact Nat.le_add_right _ _, ih⟩
  | case2 offset text first ended =>
    have own : first.1.fullSpan = _ := Token.scan_fullSpan offset text
    have stop : first.1.fullSpan.stop + _ = _ := Token.scan_stop offset text
    rw [Lexer.rest_of_eof (Classical.not_not.mp ended), Text.byteLength_nil, Nat.add_zero] at stop
    exact ⟨by rw [own], by rw [own]; exact Nat.le_add_right _ _, stop⟩

theorem eof_span (text : Text) : (ofText text).eof.span = .empty text.byteLength := by
  have start := ofTextAt_eof_start 0 text
  have none := ofTextAt_eof_text 0 text
  rw [Token.span, Token.stop, ofText, none, start, Nat.zero_add]
  rfl

theorem eof_trailing (offset : Nat) (text : Text) : (ofTextAt offset text).eof.trailing = [] := by
  fun_induction ofTextAt offset text with
  | case1 offset text first more rest ih => exact ih
  | case2 offset text first ended =>
    have none := Token.skip_of_eof (Classical.not_not.mp ended)
    rw [← Trivia.scan_leading] at none
    simp [first, Token.scan, none, Lexeme.measure]

end TokenStream

namespace Scanned

def placed (t : Scanned) (offset : Nat) : List (Kind × Span) :=
  Piece.placed offset t.leading ++ (t.kind, t.span) :: Piece.placed t.span.stop t.trailing

/-- A token with its trivia takes up a span of a text, piece by piece. -/
structure Fills (text : Text) (t : Scanned) (full : Span) : Prop where
  fullSpan : t.fullSpan = .ok full
  tiled : Span.Tiles full.start ((t.placed full.start).map Prod.snd) full.stop
  boundaries : ∀ s ∈ (t.placed full.start).map Prod.snd,
    text.isBoundary s.start = true ∧ text.isBoundary s.stop = true
  pieces : ∀ p ∈ t.leading ++ t.trailing, 0 < p.length

end Scanned

/-- Tokens take up a text from its start to its end, where the end of the file is. -/
structure Scanned.Tile (text : Text) (tokens : List Scanned) (eof : Scanned) (spans : List Span) :
    Prop where
  fill : List.Forall₂ (Fills text) (tokens ++ [eof]) spans
  tiled : Span.Tiles 0 spans text.byteLength
  real : ∀ t ∈ tokens, t.kind ≠ .eof ∧ t.span.start < t.span.stop
  last : eof.kind = .eof ∧ eof.span = .empty text.byteLength ∧ eof.trailing = []
  -- A NUL is a token of its own or a character of a string or a comment.
  endMarks : ∀ a b, text = a ++ Cursor.endMark :: b →
    ∃ t full k s, (t, full) ∈ (tokens ++ [eof]).zip spans ∧ (k, s) ∈ t.placed full.start ∧
      s.contains ⟨a.byteLength, a.byteLength + 1⟩ = true ∧
      (k = .unknown ∧ s = ⟨a.byteLength, a.byteLength + 1⟩ ∨
        k = .stringLiteral ∨ k = .lineComment)

namespace Token

variable {offset : Nat} {text : Text} {k : Kind}

theorem pieces_scan {p : Trivia}
    (mem : p ∈ (scan offset text).1.leading ++ (scan offset text).1.trailing) :
    p.text ≠ [] ∧ (Cursor.endMark ∈ p.text → p.kind = .comment) := by
  simp only [scan] at mem
  split at mem
  · rw [List.append_nil] at mem
    exact Trivia.scan_pieces _ _ p mem
  · rcases List.mem_append.mp mem with mem | mem
    · exact Trivia.scan_pieces _ _ p mem
    · exact Trivia.scan_pieces _ _ p mem

theorem text_scan {inner outer : Text}
    (split : (scan offset text).1.text = inner ++ Cursor.endMark :: outer) :
    ((scan offset text).1.kind = .unknown ∧ inner = [] ∧ outer = []) ∨
      (scan offset text).1.kind = .stringLiteral := by
  simp only [scan] at split ⊢
  split at split
  · cases inner <;> cases split
  · next measured => exact Lexeme.measure_of_endMark measured split

theorem spelt_scan {inner outer : Text}
    (mem : (k, inner ++ Cursor.endMark :: outer) ∈ (scan offset text).1.spelt) :
    (k = .unknown ∧ inner = [] ∧ outer = []) ∨ k = .stringLiteral ∨ k = .lineComment := by
  have piece {p : Trivia}
      (here : p ∈ (scan offset text).1.leading ++ (scan offset text).1.trailing)
      (same : (p.kind.kind, p.text) = (k, inner ++ Cursor.endMark :: outer)) :
      k = .lineComment := by
    obtain ⟨rfl, spelled⟩ := Prod.mk.inj same
    rw [(pieces_scan here).2 (by simp [spelled])]
    rfl
  rcases List.mem_append.mp mem with lead | mem
  · obtain ⟨p, here, same⟩ := List.mem_map.mp lead
    exact .inr (.inr (piece (List.mem_append_left _ here) same))
  rcases List.mem_cons.mp mem with own | trail
  · obtain ⟨rfl, spelled⟩ := Prod.mk.inj own
    exact (text_scan spelled.symm).imp id .inl
  · obtain ⟨p, here, same⟩ := List.mem_map.mp trail
    exact .inr (.inr (piece (List.mem_append_right _ here) same))

end Token

namespace TokenStream

variable {text : Text} {t : Token}

theorem boundaries_placed (mem : t ∈ (ofText text).all) {k : Kind} {s : Span}
    (laid : (k, s) ∈ t.placed) : text.isBoundary s.start = true ∧ text.isBoundary s.stop = true := by
  have whole : (k, s) ∈ (ofText text).all.flatMap Token.placed :=
    List.mem_flatMap.mpr ⟨t, mem, laid⟩
  rw [ofText, placed_all] at whole
  obtain ⟨before, w, behind, parts, rfl⟩ := Text.mem_lay whole
  have split := joined_all 0 text
  rw [parts, Text.joined_append] at split
  have split' : (Text.joined before ++ w) ++ Text.joined behind = text := by
    rw [List.append_assoc]
    exact split
  simp only [Nat.zero_add, Text.isBoundary_iff]
  exact ⟨⟨_, _, split.symm, rfl⟩, ⟨_, _, split'.symm, rfl⟩⟩

theorem scanned_fills (mem : t ∈ (ofText text).all) : t.scanned.Fills text t.fullSpan := by
  obtain ⟨offset, text', same⟩ := exists_scan mem
  have start : t.start = offset + Trivia.lengthOf t.leading := by
    rw [same]
    exact Token.scan_start offset text'
  have full : t.fullSpan = ⟨offset, offset + t.fullText.byteLength⟩ := by
    rw [same]
    exact Token.scan_fullSpan offset text'
  have placed : t.placed = Text.lay offset t.spelt := by
    rw [same]
    exact Token.placed_scan offset text'
  refine ⟨?_, ?_, ?_, ?_⟩
  · have lead := Token.lengthOf_pieces t.leading
    change (Text.less t.start (Piece.lengthOf (t.leading.map Trivia.piece)) >>= _) = _
    rw [lead, Text.less, if_pos (by omega)]
    exact congrArg (fun n => Except.ok (Span.mk (t.start - Trivia.lengthOf t.leading) (t.stop + n)))
      (Token.lengthOf_pieces t.trailing)
  · change Span.Tiles t.fullSpan.start (t.placed.map Prod.snd) t.fullSpan.stop
    have tiles := Text.lay_tiles offset t.spelt
    rw [Token.joined_spelt] at tiles
    rw [placed, full]
    exact tiles
  · intro s mem'
    obtain ⟨⟨k, s⟩, laid, rfl⟩ := List.mem_map.mp mem'
    exact boundaries_placed mem laid
  · intro p mem'
    rw [Token.scanned, ← List.map_append] at mem'
    obtain ⟨piece, here, rfl⟩ := List.mem_map.mp mem'
    rw [same] at here
    exact Text.byteLength_pos (Token.pieces_scan here).1

theorem scanned_tile (text : Text) :
    Scanned.Tile text ((ofText text).tokens.map Token.scanned) (ofText text).eof.scanned
      ((ofText text).all.map Token.fullSpan) := by
  have scanned : (ofText text).tokens.map Token.scanned ++ [(ofText text).eof.scanned] =
      (ofText text).all.map Token.scanned := by
    simp [all]
  refine ⟨?_, ?_, ?_, ?_, ?_⟩
  · rw [scanned, List.forall₂_map_left_iff, List.forall₂_map_right_iff, List.forall₂_same]
    exact fun t mem => scanned_fills mem
  · simpa [ofText] using fullSpans_tile 0 text
  · intro t mem
    obtain ⟨own, mem', rfl⟩ := List.mem_map.mp mem
    have lexed := ofText_lexed text own mem'
    exact ⟨lexed.ne_eof, Nat.lt_add_of_pos_right (Text.byteLength_pos lexed.text_ne_nil)⟩
  · exact ⟨ofText_eof text, eof_span text, congrArg (List.map Trivia.piece) (eof_trailing 0 text)⟩
  · intro a b split
    rw [← joined_all 0 text] at split
    obtain ⟨k, inner, outer, s, spelt, laid, start, stop⟩ := Text.exists_lay 0 split
    obtain ⟨t, mem, spelt⟩ := List.mem_flatMap.mp spelt
    obtain ⟨offset, text', rfl⟩ := exists_scan mem
    rw [← placed_all] at laid
    obtain ⟨t, mem, laid⟩ := List.mem_flatMap.mp laid
    have length : Cursor.endMark.utf8Size = 1 := rfl
    simp only [Text.byteLength_append, Text.byteLength_cons, length] at stop
    refine ⟨t.scanned, t.fullSpan, k, s, ?_, laid, ?_, ?_⟩
    · rw [scanned, List.zip_map']
      exact List.mem_map_of_mem mem
    · rw [Span.contains_iff]
      simp only
      omega
    · refine (Token.spelt_scan spelt).imp ?_ id
      rintro ⟨unknown, rfl, rfl⟩
      obtain ⟨low, high⟩ := s
      simp only [Text.byteLength_nil, Nat.add_zero, Nat.zero_add] at start stop
      exact ⟨unknown, by rw [stop, start]⟩

end TokenStream

/-- What calls on a new scanner give: the tokens that a lexer gives, which tile the text, and then the
end of the file over and over. -/
theorem Scanner.run_tiles {text : Text} (short : text.byteLength < Assembly.offsetLimit) :
    ∃ (tokens : List Scanned) (eof : Scanned) (spans : List Span),
      (∀ n, (start text >>= calls (tokens.length + 1 + n)) =
        .ok (tokens ++ eof :: List.replicate n (.eofAt text.byteLength))) ∧
      tokens ++ [eof] = (Lexer.start text).drain.map Token.scanned ∧
      Scanned.Tile text tokens eof spans := by
  refine ⟨_, _, _, fun n => ?_, ?_, TokenStream.scanned_tile text⟩
  · have run := run_eq short n
    simpa [TokenStream.all] using run
  · simp [Lexer.drain_start, TokenStream.all]

-- A NUL on its own and one in a comment behind a lone carriage return.
theorem Scanner.run_tiles_marks :
    Text.byteLength ['\x00', '\r', '/', '/', '\x00'] < Assembly.offsetLimit ∧
    ∃ (tokens : List Scanned) (eof : Scanned) (spans : List Span),
      (∀ n, (start ['\x00', '\r', '/', '/', '\x00'] >>= calls (tokens.length + 1 + n)) =
        .ok (tokens ++ eof :: List.replicate n (.eofAt 5))) ∧
      tokens ++ [eof] = (Lexer.start ['\x00', '\r', '/', '/', '\x00']).drain.map Token.scanned ∧
      Scanned.Tile ['\x00', '\r', '/', '/', '\x00'] tokens eof spans :=
  ⟨by decide, Scanner.run_tiles (by decide)⟩

end LosslessTree
