import LosslessTree.Proofs.Grammar.Giving
import LosslessTree.Proofs.Grammar.Language
import LosslessTree.Proofs.Token.Lexing

/-!
# Passing without problems

A rule passes if it reports nothing. What it returns, what it builds and the tokens that it leaves
are followed from its first token on, where the tokens in front of those that are left spell a form.
-/

set_option autoImplicit false

namespace LosslessTree

open Form

def Spells (f : Form Symbol) (tokens rest : List Token) : Prop :=
  ∃ front, tokens = front ++ rest ∧ (∀ t ∈ front, t.Lexed) ∧
    Derives Symbol.rule f (front.map Token.kind)

section Spelling

variable {f g : Form Symbol} {k : Kind} {s : Symbol} {eof t : Token}
  {tokens rest rest' : List Token}

theorem spells_empty : Spells .empty tokens rest ↔ tokens = rest := by
  constructor
  · rintro ⟨front, rfl, _, none⟩
    rw [List.map_eq_nil_iff.mp (derives_empty.mp none), List.nil_append]
  · rintro rfl
    exact ⟨[], rfl, by simp, .empty⟩

theorem spells_oneOf {kinds : List Kind} :
    Spells (oneOf kinds) tokens rest ↔
      ∃ t, tokens = t :: rest ∧ t.kind ∈ kinds ∧ t.Lexed := by
  constructor
  · rintro ⟨front, rfl, lexed, one⟩
    obtain ⟨k, mem, only⟩ := derives_oneOf.mp one
    obtain ⟨t, rfl, rfl⟩ := List.map_eq_singleton_iff.mp only
    exact ⟨t, rfl, mem, lexed t List.mem_cons_self⟩
  · rintro ⟨t, rfl, mem, lexed⟩
    exact ⟨[t], rfl, by simpa using lexed, .oneOf mem⟩

theorem spells_token :
    Spells (token k) tokens rest ↔ ∃ t, tokens = t :: rest ∧ t.kind = k ∧ t.Lexed := by
  simp [token, spells_oneOf]

theorem spells_symbol : Spells (symbol s) tokens rest ↔ Spells s.rule tokens rest := by
  simp [Spells]

theorem spells_seq :
    Spells (.seq f g) tokens rest ↔ ∃ middle, Spells f tokens middle ∧ Spells g middle rest := by
  constructor
  · rintro ⟨front, rfl, lexed, both⟩
    obtain ⟨u, v, split, hu, hv⟩ := derives_seq.mp both
    obtain ⟨a, b, rfl, rfl, rfl⟩ := List.map_eq_append_iff.mp split
    refine ⟨b ++ rest, ⟨a, by simp, fun t mem => ?_, hu⟩, b, rfl, fun t mem => ?_, hv⟩
    · exact lexed t (List.mem_append_left _ mem)
    · exact lexed t (List.mem_append_right _ mem)
  · rintro ⟨_, ⟨a, rfl, lexed, hu⟩, b, rfl, lexed', hv⟩
    refine ⟨a ++ b, by simp, fun t mem => ?_, ?_⟩
    · exact (List.mem_append.mp mem).elim (lexed t) (lexed' t)
    · rw [List.map_append]
      exact .seq hu hv

theorem spells_alt :
    Spells (.alt f g) tokens rest ↔ Spells f tokens rest ∨ Spells g tokens rest := by
  simp [Spells, and_or_left, exists_or]

theorem spells_opt : Spells (opt f) tokens rest ↔ Spells f tokens rest ∨ tokens = rest := by
  rw [opt, spells_alt, spells_empty]

theorem spells_many :
    Spells (many f) tokens rest ↔
      tokens = rest ∨ ∃ middle, Spells f tokens middle ∧ Spells (many f) middle rest := by
  rw [← spells_empty, ← spells_seq]
  constructor
  · rintro ⟨front, split, lexed, h⟩
    rcases derives_many.mp h with none | ⟨u, v, both, hu, hv⟩
    · exact .inl ⟨front, split, lexed, derives_empty.mpr none⟩
    · exact .inr ⟨front, split, lexed, both ▸ .seq hu hv⟩
  · rintro (⟨front, split, lexed, h⟩ | ⟨front, split, lexed, h⟩)
    · refine ⟨front, split, lexed, ?_⟩
      rw [derives_empty.mp h]
      exact .none
    · refine ⟨front, split, lexed, ?_⟩
      obtain ⟨_, _, both, hu, hv⟩ := derives_seq.mp h
      rw [both]
      exact .more hu hv

theorem Spells.sub (h : Spells f tokens rest) (sub : Within Symbol.rule f g) :
    Spells g tokens rest := by
  obtain ⟨front, split, lexed, spelled⟩ := h
  exact ⟨front, split, lexed, sub _ spelled⟩

theorem Spells.rest_le (h : Spells f tokens rest) : rest.length ≤ tokens.length := by
  obtain ⟨front, rfl, _⟩ := h
  simp

@[simp] theorem seen_cons : seen eof (t :: tokens) = t.kind := rfl

-- A form starts with one of its heads if it is not empty.
theorem Spells.starts (h : Spells f tokens rest) :
    f.nullable = true ∧ tokens = rest ∨ ∃ t after, tokens = t :: after ∧
      (f.heads Symbol.heads).contains t.kind = true ∧ rest.length ≤ after.length := by
  obtain ⟨front, rfl, _, spelled⟩ := h
  rcases Symbol.starts spelled with ⟨null, none⟩ | ⟨k, v, kinds, head⟩
  · exact .inl ⟨null, by rw [List.map_eq_nil_iff.mp none, List.nil_append]⟩
  · obtain ⟨t, after, rfl, rfl, rfl⟩ := List.map_eq_cons_iff.mp kinds
    exact .inr ⟨t, after ++ rest, rfl, head, by simp⟩

theorem Spells.opens (h : Spells f tokens rest) (full : f.nullable = false) :
    ∃ t after, tokens = t :: after ∧ (f.heads Symbol.heads).contains t.kind = true ∧
      rest.length ≤ after.length := by
  rcases h.starts with ⟨null, _⟩ | opened
  · rw [full] at null
    cases null
  · exact opened

theorem Spells.seen_heads (h : Spells f tokens rest) (full : f.nullable = false) :
    (f.heads Symbol.heads).contains (seen eof tokens) = true := by
  obtain ⟨t, after, rfl, head, _⟩ := h.opens full
  exact head

theorem Spells.seen_eq (h : Spells f tokens rest) (full : f.nullable = false)
    (only : f.heads Symbol.heads = .ofList [k]) : seen eof tokens = k := by
  have head : (f.heads Symbol.heads).contains (seen eof tokens) = true := h.seen_heads full
  rw [only] at head
  simpa [KindSet.contains_ofList] using head

theorem Spells.seen_ne (h : Spells f tokens rest) (full : f.nullable = false)
    (out : (f.heads Symbol.heads).contains k = false) : seen eof tokens ≠ k := by
  rintro rfl
  rw [h.seen_heads full] at out
  cases out

-- A kind that is no head stands in front only if it stands behind.
theorem Spells.seen_behind (h : Spells f tokens rest)
    (out : (f.heads Symbol.heads).contains k = false) (behind : seen eof rest ≠ k) :
    seen eof tokens ≠ k := by
  rcases h.starts with ⟨-, rfl⟩ | ⟨t, after, rfl, head, _⟩
  · exact behind
  · rintro rfl
    rw [seen_cons, head] at out
    cases out

theorem Spells.not_atEnd (h : Spells f tokens rest) (full : f.nullable = false)
    (out : ∀ k' ∈ [k, .eof], (f.heads Symbol.heads).contains k' = false) :
    (KindSet.ofList [k, .eof]).contains (seen eof tokens) = false := by
  rw [KindSet.contains_ofList]
  have notHere : seen eof tokens ≠ k := h.seen_ne full (out k (by simp))
  have notEof : seen eof tokens ≠ .eof := h.seen_ne full (out .eof (by simp))
  simp [notHere, notEof]

theorem Spells.rest_lt (h : Spells f tokens rest) (full : f.nullable = false) :
    rest.length < tokens.length := by
  obtain ⟨t, after, rfl, _, less⟩ := h.opens full
  simp only [List.length_cons]
  omega

end Spelling

def Forest.taken : List Token → Forest
  | [] => nil
  | t :: _ => leaf t.leaf nil

@[simp] theorem Forest.taken_cons {t : Token} {tokens : List Token} :
    Forest.taken (t :: tokens) = leaf t.leaf nil := rfl

def Forest.within : Option Kind → Forest → Forest
  | none, f => f
  | some k, f => node k f nil

@[simp] theorem Forest.within_none {f : Forest} : within none f = f := rfl

@[simp] theorem Forest.within_some {k : Kind} {f : Forest} : within (some k) f = node k f nil := rfl

namespace Step

variable {α : Type} {s : Step (Option Kind × α)}

@[simp] theorem wrapped_value : s.wrapped.value = s.value.2 := by
  unfold wrapped
  split <;> simp_all

@[simp] theorem wrapped_parts : s.wrapped.parts = s.parts.within s.value.1 := by
  unfold wrapped
  split <;> simp_all

@[simp] theorem wrapped_reports : s.wrapped.reports = s.reports := by
  unfold wrapped
  split <;> rfl

@[simp] theorem wrapped_rest : s.wrapped.rest = s.rest := by
  unfold wrapped
  split <;> rfl

end Step

namespace Rule

variable {eof t : Token} {α β : Type} {tokens rest middle : List Token} {k : Kind}
  {parts : Forest} {Q : α → Forest → List Token → Prop}

def Passes (eof : Token) (rule : Rule α) (tokens : List Token)
    (Q : α → Forest → List Token → Prop) : Prop :=
  ∃ s, rule.Gives eof (Production.Gives eof) tokens s ∧ s.reports = [] ∧
    Q s.value s.parts s.rest

abbrev Reads (eof : Token) (rule : Rule α) (tokens rest : List Token) : Prop :=
  Passes eof rule tokens fun _ _ left => left = rest

theorem Passes.imp {rule : Rule α} {R : α → Forest → List Token → Prop}
    (h : Passes eof rule tokens Q) (weaker : ∀ a parts rest, Q a parts rest → R a parts rest) :
    Passes eof rule tokens R := by
  obtain ⟨s, given, quiet, ends⟩ := h
  exact ⟨s, given, quiet, weaker _ _ _ ends⟩

theorem Passes.rest_le {rule : Rule α} (h : Passes eof rule tokens Q) :
    Passes eof rule tokens fun a parts rest => rest.length ≤ tokens.length ∧ Q a parts rest := by
  obtain ⟨s, given, quiet, ends⟩ := h
  exact ⟨s, given, quiet, given.keeps.rest_le, ends⟩

@[simp] theorem passes_pure {a : α} :
    Passes eof (Pure.pure a) tokens Q ↔ Q a .nil tokens := by
  simp [Passes, Gives, Pure.pure]

@[simp] theorem passes_bind {first : Rule β} {next : β → Rule α} :
    Passes eof (first >>= next) tokens Q ↔
      Passes eof first tokens fun b parts rest =>
        Passes eof (next b) rest fun a parts' rest' => Q a (parts ++ parts') rest' := by
  constructor
  · rintro ⟨_, ⟨r, begun, r', ended, rfl⟩, quiet, ends⟩
    obtain ⟨quiet, quiet'⟩ := List.append_eq_nil_iff.mp quiet
    exact ⟨r, begun, quiet, r', ended, quiet', ends⟩
  · rintro ⟨r, begun, quiet, r', ended, quiet', ends⟩
    exact ⟨_, ⟨r, begun, r', ended, rfl⟩, List.append_eq_nil_iff.mpr ⟨quiet, quiet'⟩, ends⟩

@[simp] theorem passes_peek {Q : Lookahead → Forest → List Token → Prop} :
    Passes eof peek tokens Q ↔ Q (ahead eof tokens) .nil tokens := by
  simp [Passes, Gives]

@[simp] theorem passes_ensure {kinds : KindSet} {Q : Unit → Forest → List Token → Prop} :
    Passes eof (ensure kinds) tokens Q ↔ Q () .nil tokens := by
  simp [Passes, Gives]

@[simp] theorem passes_take {Q : Unit → Forest → List Token → Prop} :
    Passes eof take tokens Q ↔ Q () (.taken tokens) tokens.tail := by
  cases tokens <;> simp [Passes, Gives, Forest.taken]

@[simp] theorem passes_report {problem : Problem} {Q : Unit → Forest → List Token → Prop} :
    Passes eof (report problem) tokens Q ↔ False := by
  simp [Passes, Gives]

@[simp] theorem passes_wrap {body : Rule (Option Kind × α)} :
    Passes eof (wrap body) tokens Q ↔
      Passes eof body tokens fun result parts rest => Q result.2 (parts.within result.1) rest := by
  constructor
  · rintro ⟨_, ⟨r, inside, rfl⟩, quiet, ends⟩
    exact ⟨r, inside, by simpa using quiet, by simpa using ends⟩
  · rintro ⟨r, inside, quiet, ends⟩
    exact ⟨_, ⟨r, inside, rfl⟩, by simpa using quiet, by simpa using ends⟩

@[simp] theorem passes_call {production : Production} {Q : Option Kind → Forest → List Token → Prop} :
    Passes eof (call production) tokens Q ↔ Passes eof production.rule tokens Q := by
  simp only [Passes, Gives, Production.gives_iff]

@[simp] theorem passes_peekKind {Q : Kind → Forest → List Token → Prop} :
    Passes eof peekKind tokens Q ↔ Q (seen eof tokens) .nil tokens := by
  simp [peekKind]

@[simp] theorem passes_sees {Q : Bool → Forest → List Token → Prop} :
    Passes eof (sees k) tokens Q ↔ Q (seen eof tokens == k) .nil tokens := by
  simp [sees]

@[simp] theorem passes_seesAny {kinds : KindSet} {Q : Bool → Forest → List Token → Prop} :
    Passes eof (seesAny kinds) tokens Q ↔ Q (kinds.contains (seen eof tokens)) .nil tokens := by
  simp [seesAny]

@[simp] theorem passes_takeOf {kinds : KindSet} {Q : Unit → Forest → List Token → Prop} :
    Passes eof (takeOf kinds) tokens Q ↔ Q () (.taken tokens) tokens.tail := by
  simp [takeOf]

@[simp] theorem passes_takeKind {Q : Unit → Forest → List Token → Prop} :
    Passes eof (takeKind k) tokens Q ↔ Q () (.taken tokens) tokens.tail := by
  simp [takeKind]

@[simp] theorem passes_ite {condition : Prop} [Decidable condition] {a b : Rule α} :
    Passes eof (if condition then a else b) tokens Q ↔
      if condition then Passes eof a tokens Q else Passes eof b tokens Q := by
  split <;> rfl

@[simp] theorem passes_eat {Q : Bool → Forest → List Token → Prop} :
    Passes eof (eat k) tokens Q ↔
      if seen eof tokens = k then Q true (.taken tokens) tokens.tail else Q false .nil tokens := by
  simp [eat]

@[simp] theorem passes_expect {Q : Unit → Forest → List Token → Prop} :
    Passes eof (expect k) tokens Q ↔ seen eof tokens = k ∧ Q () (.taken tokens) tokens.tail := by
  simp [expect]

@[simp] theorem passes_discard {rule : Rule β} {Q : Unit → Forest → List Token → Prop} :
    Passes eof (discard rule) tokens Q ↔
      Passes eof rule tokens fun _ parts rest => Q () parts rest := by
  simp [discard]

@[simp] theorem passes_node {body : Rule Unit} {Q : Unit → Forest → List Token → Prop} :
    Passes eof (node k body) tokens Q ↔
      Passes eof body tokens fun _ parts rest => Q () (.node k parts .nil) rest := by
  simp [node]

@[simp] theorem passes_made {body : Rule Unit} {Q : Option Kind → Forest → List Token → Prop} :
    Passes eof (made k body) tokens Q ↔
      Passes eof body tokens fun _ parts rest => Q (some k) (.node k parts .nil) rest := by
  simp [made]

@[simp] theorem passes_nodeIf {body : Rule (Option Kind)}
    {Q : Option Kind → Forest → List Token → Prop} :
    Passes eof (nodeIf body) tokens Q ↔
      Passes eof body tokens fun kind parts rest => Q kind (parts.within kind) rest := by
  simp [nodeIf]

theorem passes_loop {body : Rule Bool} {Q : Unit → Forest → List Token → Prop} :
    Passes eof (loop body) tokens Q ↔
      Passes eof body tokens fun again parts rest =>
        if again = true then
          Passes eof (loop body) rest fun _ parts' rest' => Q () (parts ++ parts') rest'
        else Q () parts rest := by
  constructor
  · rintro ⟨_, repeats, quiet, ends⟩
    cases repeats with
    | last round ended => exact ⟨_, round, quiet, by simpa [ended] using ends⟩
    | again round more further =>
        obtain ⟨quiet, quiet'⟩ := List.append_eq_nil_iff.mp quiet
        refine ⟨_, round, quiet, ?_⟩
        simp only [more, if_true]
        exact ⟨_, further, quiet', ends⟩
  · rintro ⟨s, round, quiet, ends⟩
    cases again : s.value with
    | false =>
        simp only [again, Bool.false_eq_true, if_false] at ends
        exact ⟨_, .last round again, quiet, ends⟩
    | true =>
        simp only [again, if_true] at ends
        obtain ⟨_, further, quiet', ends⟩ := ends
        exact ⟨_, .again round again further, List.append_eq_nil_iff.mpr ⟨quiet, quiet'⟩, ends⟩

-- A round for each of the rows of the form, and one that finds no further.
theorem passes_many {body : Rule Bool} {f : Form Symbol} (full : f.nullable = false)
    (h : Spells (many f) tokens rest) {Q : List Token → Prop}
    (last : Passes eof body rest fun again _ left => again = false ∧ Q left)
    (round : ∀ before after, before.length ≤ tokens.length → Spells f before after →
      Spells (many f) after rest →
      Passes eof body before fun again _ left => again = true ∧ left = after) :
    Passes eof (loop body) tokens fun _ _ left => Q left := by
  induction size : tokens.length using Nat.strongRecOn generalizing tokens with
  | ind n ih =>
      rw [passes_loop]
      rcases spells_many.mp h with rfl | ⟨after, one, further⟩
      · refine last.imp ?_
        rintro _ _ _ ⟨rfl, ends⟩
        simpa using ends
      · refine (round tokens after (Nat.le_refl _) one further).imp ?_
        rintro _ _ _ ⟨rfl, rfl⟩
        have shorter := one.rest_lt full
        rw [if_pos rfl]
        exact ih _ (size ▸ shorter) further
          (fun before after within => round before after (by omega)) rfl

def PassesOn (eof : Token) (more : α → Lookahead → Option β) (step : β → Rule (Kind × α))
    (a : α) (parts : Forest) (tokens : List Token) (Q : α → Forest → List Token → Prop) : Prop :=
  ∃ s, Step.Grows (fun a rest => more a (ahead eof rest))
      (fun b => (step b).Gives eof (Production.Gives eof)) ⟨a, parts, [], tokens⟩ s ∧
    s.reports = [] ∧ Q s.value s.parts s.rest

variable {first : Rule α} {more : α → Lookahead → Option β} {step : β → Rule (Kind × α)}

@[simp] theorem passes_grow :
    Passes eof (grow first more step) tokens Q ↔
      Passes eof first tokens fun a parts rest => PassesOn eof more step a parts rest Q := by
  constructor
  · rintro ⟨s, ⟨⟨a, parts, reports, rest⟩, begun, grows⟩, quiet, ends⟩
    obtain rfl : reports = [] := grows.reports_nil quiet
    exact ⟨_, begun, rfl, s, grows, quiet, ends⟩
  · rintro ⟨⟨a, parts, reports, rest⟩, begun, rfl, s, grows, quiet, ends⟩
    exact ⟨s, ⟨_, begun, grows⟩, quiet, ends⟩

theorem PassesOn.last {a : α} (last : more a (ahead eof tokens) = none) (h : Q a parts tokens) :
    PassesOn eof more step a parts tokens Q :=
  ⟨_, .done last, rfl, h⟩

theorem PassesOn.grown {a : α} {b : β} (found : more a (ahead eof tokens) = some b)
    (h : Passes eof (step b) tokens fun result parts' rest =>
      PassesOn eof more step result.2 (.node result.1 (parts ++ parts') .nil) rest Q) :
    PassesOn eof more step a parts tokens Q := by
  obtain ⟨r, round, quiet, s, grows, quiet', ends⟩ := h
  refine ⟨s, .grown found round ?_, quiet', ends⟩
  simpa [Step.around, Step.andThen, quiet] using grows

end Rule

end LosslessTree
