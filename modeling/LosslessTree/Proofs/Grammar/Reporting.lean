import LosslessTree.Proofs.Tree.Glimpses

set_option autoImplicit false

namespace LosslessTree

def Token.front (eof : Token) (tokens : List Token) : Nat := (tokens.headD eof).start

def Token.Ordered (eof : Token) (tokens : List Token) : Prop :=
  (tokens ++ [eof]).Pairwise fun t t' => t.start ≤ t'.start

-- Reports of a step in order, between where it began and where it ended, and at tokens.
structure Step.Advances {α : Type} (eof : Token) (tokens : List Token) (s : Step α) : Prop where
  rest : s.rest <:+ tokens
  low : ∀ e ∈ s.reports, Token.front eof tokens ≤ e.span.start
  high : ∀ e ∈ s.reports, e.span.start ≤ Token.front eof s.rest
  sorted : s.reports.Pairwise fun e e' => e.span.start ≤ e'.span.start
  anchored : ∀ e ∈ s.reports, ∃ t ∈ tokens ++ [eof], e.span = t.span

namespace Token

variable {eof : Token} {tokens rest : List Token}

theorem Ordered.suffix (h : Ordered eof tokens) (later : rest <:+ tokens) : Ordered eof rest := by
  obtain ⟨taken, rfl⟩ := later
  rw [Ordered, List.append_assoc] at h
  exact (List.pairwise_append.mp h).2.1

theorem Ordered.front_le (h : Ordered eof tokens) (later : rest <:+ tokens) :
    front eof tokens ≤ front eof rest := by
  obtain ⟨taken, rfl⟩ := later
  cases taken with
  | nil => exact Nat.le_refl _
  | cons t taken =>
    obtain ⟨first, -⟩ := List.pairwise_cons.mp h
    cases rest with
    | nil => exact first eof (by simp)
    | cons t' rest => exact first t' (by simp)

end Token

namespace Step

variable {α β : Type} {eof : Token} {tokens : List Token}

theorem advances_nothing (a : α) (tokens : List Token) :
    (⟨a, .nil, [], tokens⟩ : Step α).Advances eof tokens := by
  constructor <;> simp

theorem Advances.andThen {s : Step α} {next : α → List Token → Step β} (h : s.Advances eof tokens)
    (ordered : Token.Ordered eof tokens)
    (further : Token.Ordered eof s.rest → (next s.value s.rest).Advances eof s.rest) :
    (s.andThen next).Advances eof tokens := by
  have more := further (ordered.suffix h.rest)
  have begun := ordered.front_le h.rest
  have ended := (ordered.suffix h.rest).front_le more.rest
  refine ⟨more.rest.trans h.rest, ?_, ?_, ?_, ?_⟩
  · intro e mem
    rcases List.mem_append.mp mem with mem | mem
    · exact h.low e mem
    · exact Nat.le_trans begun (more.low e mem)
  · intro e mem
    rcases List.mem_append.mp mem with mem | mem
    · exact Nat.le_trans (h.high e mem) ended
    · exact more.high e mem
  · exact List.pairwise_append.mpr ⟨h.sorted, more.sorted, fun e mem e' mem' =>
      Nat.le_trans (h.high e mem) (more.low e' mem')⟩
  · intro e mem
    rcases List.mem_append.mp mem with mem | mem
    · exact h.anchored e mem
    · obtain ⟨t, inside, span⟩ := more.anchored e mem
      refine ⟨t, List.mem_append.mpr ?_, span⟩
      exact (List.mem_append.mp inside).imp_left fun left => h.rest.subset left

theorem Advances.of_eq {s : Step α} {s' : Step β} (h : s.Advances eof tokens)
    (reports : s'.reports = s.reports) (rest : s'.rest = s.rest) : s'.Advances eof tokens :=
  ⟨rest ▸ h.rest, reports ▸ h.low, reports ▸ rest ▸ h.high, reports ▸ h.sorted,
    reports ▸ h.anchored⟩

theorem Advances.wrapped {s : Step (Option Kind × α)} (h : s.Advances eof tokens) :
    s.wrapped.Advances eof tokens := by
  obtain ⟨⟨_ | k, a⟩, parts, reports, rest⟩ := s
  · exact h.of_eq rfl rfl
  · exact h.of_eq rfl rfl

theorem advances_repeating {body : List Token → Step Bool}
    (each : ∀ tokens, Token.Ordered eof tokens → (body tokens).Advances eof tokens) (n : Nat)
    (ordered : Token.Ordered eof tokens) : (repeating body n tokens).Advances eof tokens := by
  induction n generalizing tokens with
  | zero => exact advances_nothing _ _
  | succ n ih =>
    refine (each tokens ordered).andThen ordered fun later => ?_
    split
    · exact ih later
    · exact advances_nothing _ _

theorem advances_growing {more : α → List Token → Option β} {step : β → List Token → Step (Kind × α)}
    (each : ∀ b tokens, Token.Ordered eof tokens → (step b tokens).Advances eof tokens) (n : Nat)
    {built : Step α} (h : built.Advances eof tokens) (ordered : Token.Ordered eof tokens) :
    (growing more step n built).Advances eof tokens := by
  induction n generalizing built with
  | zero => exact h
  | succ n ih =>
    simp only [growing]
    split
    · exact h
    · next b _ =>
      have all : (built.andThen fun _ rest => step b rest).Advances eof tokens :=
        h.andThen ordered (each b _)
      exact ih (all.of_eq rfl rfl)

end Step

theorem Rule.run_advances {eof : Token} {productions : Productions}
    (calls : ∀ production tokens, Token.Ordered eof tokens →
      (productions production tokens).Advances eof tokens) {α : Type} (rule : Rule α)
    {tokens : List Token} (ordered : Token.Ordered eof tokens) :
    (rule.run eof productions tokens).Advances eof tokens := by
  induction rule generalizing tokens with
  | pure => exact Step.advances_nothing _ _
  | bind first next begun further => exact (begun ordered).andThen ordered (further _)
  | peek => exact Step.advances_nothing _ _
  | ensure => exact Step.advances_nothing _ _
  | take =>
    cases tokens with
    | nil => exact Step.advances_nothing _ _
    | cons t tokens =>
      constructor
      case rest => exact List.suffix_cons t tokens
      all_goals simp [run]
  | report problem =>
    constructor
    case rest => exact List.suffix_rfl
    case anchored => cases tokens <;> simp [run]
    all_goals simp [run, Token.front, Token.span]
  | wrap body ih => exact (ih ordered).wrapped
  | grow first more step begun further =>
    exact Step.advances_growing (fun b _ => further b) _ (begun ordered) ordered
  | loop body ih => exact Step.advances_repeating (fun _ => ih) _ ordered
  | call production => exact calls production tokens ordered

theorem Productions.upTo_advances (rules : Production → Rule (Option Kind)) (eof : Token) (n : Nat)
    (production : Production) (tokens : List Token) (ordered : Token.Ordered eof tokens) :
    (upTo rules eof n production tokens).Advances eof tokens := by
  induction n generalizing production tokens with
  | zero => exact Step.advances_nothing _ _
  | succ n ih => exact (rules production).run_advances ih ordered

namespace TokenStream

theorem ofTextAt_ordered (offset : Nat) (text : Text) :
    (∀ t ∈ (ofTextAt offset text).all, offset ≤ t.start) ∧
      Token.Ordered (ofTextAt offset text).eof (ofTextAt offset text).tokens := by
  fun_induction ofTextAt offset text with
  | case1 offset text first more rest ih =>
    have start : first.1.start = offset + _ := Token.scan_start offset text
    have stop : first.1.start ≤ first.1.fullSpan.stop := by
      simp only [Token.fullSpan, Token.stop]
      omega
    refine ⟨List.forall_mem_cons.mpr ⟨by omega, fun t mem => ?_⟩, .cons (fun t mem => ?_) ih.2⟩
    · have := ih.1 t mem
      omega
    · exact Nat.le_trans stop (ih.1 t mem)
  | case2 offset text first ended =>
    have start : first.1.start = offset + _ := Token.scan_start offset text
    refine ⟨fun t mem => ?_, List.pairwise_singleton _ _⟩
    obtain rfl : t = first.1 := List.mem_singleton.mp mem
    omega

theorem ofText_ordered (text : Text) : Token.Ordered (ofText text).eof (ofText text).tokens :=
  (ofTextAt_ordered 0 text).2

end TokenStream

theorem parse_advances (text : Text) :
    ((TokenStream.ofText text).run .file).Advances (TokenStream.ofText text).eof
      (TokenStream.ofText text).tokens :=
  Rule.file.run_advances (Productions.upTo_advances _ _ _) (TokenStream.ofText_ordered text)

theorem parse_errors_sorted (text : Text) :
    (parse text).errors.Pairwise fun e e' => e.span.start ≤ e'.span.start :=
  (parse_advances text).sorted

theorem exists_token_of_error {text : Text} {e : Diagnostic} (mem : e ∈ (parse text).errors) :
    ∃ t ∈ (TokenStream.ofText text).all, e.span = t.span :=
  (parse_advances text).anchored e mem

end LosslessTree
