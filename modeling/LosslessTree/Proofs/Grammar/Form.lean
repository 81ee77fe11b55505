import LosslessTree.Kind.Set

set_option autoImplicit false

namespace LosslessTree

inductive Form (σ : Type) where
  | empty
  | oneOf (kinds : List Kind)
  | symbol (s : σ)
  | seq (a b : Form σ)
  | alt (a b : Form σ)
  | many (a : Form σ)

namespace Form

variable {σ : Type}

def token (k : Kind) : Form σ := oneOf [k]

def opt (a : Form σ) : Form σ := alt a empty

def row : List (Form σ) → Form σ
  | [] => empty
  | [a] => a
  | a :: b :: forms => seq a (row (b :: forms))

def choice : List (Form σ) → Form σ
  | [] => oneOf []
  | [a] => a
  | a :: b :: forms => alt a (choice (b :: forms))

inductive Derives (rules : σ → Form σ) : Form σ → List Kind → Prop where
  | empty : Derives rules empty []
  | oneOf {kinds : List Kind} {k : Kind} (mem : k ∈ kinds) : Derives rules (oneOf kinds) [k]
  | symbol {s : σ} {w : List Kind} (h : Derives rules (rules s) w) : Derives rules (symbol s) w
  | seq {a b : Form σ} {u v : List Kind} (ha : Derives rules a u) (hb : Derives rules b v) :
      Derives rules (seq a b) (u ++ v)
  | left {a b : Form σ} {w : List Kind} (h : Derives rules a w) : Derives rules (alt a b) w
  | right {a b : Form σ} {w : List Kind} (h : Derives rules b w) : Derives rules (alt a b) w
  | none {a : Form σ} : Derives rules (many a) []
  | more {a : Form σ} {u v : List Kind} (ha : Derives rules a u) (hm : Derives rules (many a) v) :
      Derives rules (many a) (u ++ v)

variable {rules : σ → Form σ} {a b : Form σ} {u v w : List Kind}

@[simp] theorem derives_empty : Derives rules empty w ↔ w = [] := by
  constructor
  · intro h
    cases h
    rfl
  · rintro rfl
    exact .empty

@[simp] theorem derives_oneOf {kinds : List Kind} :
    Derives rules (oneOf kinds) w ↔ ∃ k ∈ kinds, w = [k] := by
  constructor
  · intro h
    cases h with
    | oneOf mem => exact ⟨_, mem, rfl⟩
  · rintro ⟨k, mem, rfl⟩
    exact .oneOf mem

@[simp] theorem derives_token {k : Kind} : Derives rules (token k) w ↔ w = [k] := by
  simp [token]

@[simp] theorem derives_symbol {s : σ} : Derives rules (symbol s) w ↔ Derives rules (rules s) w := by
  constructor
  · intro h
    cases h
    assumption
  · exact .symbol

@[simp] theorem derives_seq :
    Derives rules (seq a b) w ↔ ∃ u v, w = u ++ v ∧ Derives rules a u ∧ Derives rules b v := by
  constructor
  · intro h
    cases h with
    | seq ha hb => exact ⟨_, _, rfl, ha, hb⟩
  · rintro ⟨u, v, rfl, ha, hb⟩
    exact .seq ha hb

@[simp] theorem derives_alt :
    Derives rules (alt a b) w ↔ Derives rules a w ∨ Derives rules b w := by
  constructor
  · intro h
    cases h with
    | left h => exact .inl h
    | right h => exact .inr h
  · rintro (h | h)
    · exact .left h
    · exact .right h

@[simp] theorem derives_opt : Derives rules (opt a) w ↔ Derives rules a w ∨ w = [] := by
  simp [opt]

theorem derives_many :
    Derives rules (many a) w ↔
      w = [] ∨ ∃ u v, w = u ++ v ∧ Derives rules a u ∧ Derives rules (many a) v := by
  constructor
  · intro h
    cases h with
    | none => exact .inl rfl
    | more ha hm => exact .inr ⟨_, _, rfl, ha, hm⟩
  · rintro (rfl | ⟨u, v, rfl, ha, hm⟩)
    · exact .none
    · exact .more ha hm

theorem Derives.token {k : Kind} : Derives rules (token k) [k] := derives_token.mpr rfl

theorem Derives.once (h : Derives rules a w) : Derives rules (many a) w := by
  simpa using Derives.more h .none

theorem Derives.append (hu : Derives rules (many a) u) (hv : Derives rules (many a) v) :
    Derives rules (many a) (u ++ v) := by
  generalize form : many a = f at hu
  induction hu with
  | none =>
      cases form
      simpa using hv
  | more ha _ _ ih =>
      cases form
      rw [List.append_assoc]
      exact .more ha (ih rfl)
  | _ => cases form

theorem Derives.snoc (hu : Derives rules (many a) u) (hv : Derives rules a v) :
    Derives rules (many a) (u ++ v) := hu.append hv.once

theorem derives_many_last (h : Derives rules (many a) w) :
    w = [] ∨ ∃ u v, w = u ++ v ∧ Derives rules (many a) u ∧ Derives rules a v := by
  generalize form : many a = f at h
  induction h with
  | none => exact .inl rfl
  | more ha _ _ ih =>
      cases form
      rcases ih rfl with rfl | ⟨u, v, rfl, hu, hv⟩
      · exact .inr ⟨[], _, by simp, .none, ha⟩
      · exact .inr ⟨_ ++ u, v, by simp, .more ha hu, hv⟩
  | _ => cases form

theorem derives_row_cons {forms : List (Form σ)} :
    Derives rules (row (a :: forms)) w ↔
      ∃ u v, w = u ++ v ∧ Derives rules a u ∧ Derives rules (row forms) v := by
  cases forms with
  | nil => simp [row]
  | cons b forms => simp [row]

theorem derives_choice_cons {forms : List (Form σ)} :
    Derives rules (choice (a :: forms)) w ↔
      Derives rules a w ∨ Derives rules (choice forms) w := by
  cases forms with
  | nil => simp [choice]
  | cons b forms => simp [choice]

theorem derives_row_append {forms more : List (Form σ)} :
    Derives rules (row (forms ++ more)) w ↔
      ∃ u v, w = u ++ v ∧ Derives rules (row forms) u ∧ Derives rules (row more) v := by
  induction forms generalizing w with
  | nil =>
      constructor
      · exact fun h => ⟨[], w, rfl, .empty, h⟩
      · rintro ⟨_, v, rfl, none, h⟩
        rwa [derives_empty.mp none]
  | cons f forms ih =>
      simp only [List.cons_append, derives_row_cons, ih]
      constructor
      · rintro ⟨u, _, rfl, hf, v, x, rfl, hv, hx⟩
        exact ⟨u ++ v, x, by simp, ⟨u, v, rfl, hf, hv⟩, hx⟩
      · rintro ⟨_, x, rfl, ⟨u, v, rfl, hf, hv⟩, hx⟩
        exact ⟨u, v ++ x, by simp, hf, v, x, rfl, hv, hx⟩

theorem derives_choice_map {L : Kind → Form σ} {kinds : List Kind} :
    Derives rules (choice (kinds.map L)) w ↔ ∃ k ∈ kinds, Derives rules (L k) w := by
  induction kinds with
  | nil => simp [choice]
  | cons k kinds ih => simp [derives_choice_cons, ih]

def nullable : Form σ → Bool
  | empty | many _ => true
  | oneOf _ | symbol _ => false
  | seq a b => a.nullable && b.nullable
  | alt a b => a.nullable || b.nullable

theorem Derives.ne_nil {f : Form Empty} {env : Empty → Form Empty} (h : Derives env f w)
    (full : f.nullable = false) : w ≠ [] := by
  induction h with
  | empty | none | more => simp [nullable] at full
  | oneOf => simp
  | seq _ _ ha hb =>
      simp only [nullable, Bool.and_eq_false_iff] at full
      rcases full with full | full
      · simp [ha full]
      · simp [hb full]
  | left _ ih | right _ ih =>
      simp only [nullable, Bool.or_eq_false_iff] at full
      exact ih (by simp [full])
  | @symbol s => exact s.elim

def heads (table : σ → KindSet) : Form σ → KindSet
  | empty => .empty
  | oneOf kinds => .ofList kinds
  | symbol s => table s
  | seq a b => if a.nullable then (a.heads table).union (b.heads table) else a.heads table
  | alt a b => (a.heads table).union (b.heads table)
  | many a => a.heads table

-- The table has to hold what the rules make of it.
theorem Derives.starts {f : Form σ} {table : σ → KindSet}
    (filled : ∀ s, (rules s).nullable = false)
    (closed : ∀ s, ((rules s).heads table).union (table s) = table s) (h : Derives rules f w) :
    f.nullable = true ∧ w = [] ∨ ∃ k v, w = k :: v ∧ (f.heads table).contains k = true := by
  induction h with
  | empty => exact .inl ⟨rfl, rfl⟩
  | oneOf mem => exact .inr ⟨_, [], rfl, by simpa [heads, KindSet.contains_ofList] using mem⟩
  | @symbol s w _ ih =>
      rcases ih with ⟨null, -⟩ | ⟨k, v, split, mem⟩
      · simp [filled s] at null
      · refine .inr ⟨k, v, split, ?_⟩
        rw [heads, ← closed s, KindSet.contains_union, mem, Bool.true_or]
  | seq _ _ iha ihb =>
      rcases iha with ⟨null, rfl⟩ | ⟨k, v, rfl, mem⟩
      · simp only [nullable, null, heads, List.nil_append, if_true, KindSet.contains_union]
        rcases ihb with ⟨null, rfl⟩ | ⟨k, v, rfl, mem⟩
        · exact .inl ⟨null, rfl⟩
        · exact .inr ⟨k, v, rfl, by rw [mem, Bool.or_true]⟩
      · refine .inr ⟨k, _, rfl, ?_⟩
        rw [heads]
        split
        · rw [KindSet.contains_union, mem, Bool.true_or]
        · exact mem
  | left _ ih =>
      rcases ih with ⟨null, rfl⟩ | ⟨k, v, rfl, mem⟩
      · exact .inl ⟨by rw [nullable, null, Bool.true_or], rfl⟩
      · exact .inr ⟨k, v, rfl, by rw [heads, KindSet.contains_union, mem, Bool.true_or]⟩
  | right _ ih =>
      rcases ih with ⟨null, rfl⟩ | ⟨k, v, rfl, mem⟩
      · exact .inl ⟨by rw [nullable, null, Bool.or_true], rfl⟩
      · exact .inr ⟨k, v, rfl, by rw [heads, KindSet.contains_union, mem, Bool.or_true]⟩
  | none => exact .inl ⟨rfl, rfl⟩
  | more _ _ iha ihm =>
      rcases iha with ⟨-, rfl⟩ | ⟨k, v, rfl, mem⟩
      · exact ihm
      · exact .inr ⟨k, _, rfl, mem⟩

def Within (rules : σ → Form σ) (a b : Form σ) : Prop := ∀ w, Derives rules a w → Derives rules b w

namespace Within

variable {c d : Form σ}

theorem refl (rules : σ → Form σ) (a : Form σ) : Within rules a a := fun _ h => h

theorem trans (hab : Within rules a b) (hbc : Within rules b c) : Within rules a c :=
  fun w h => hbc w (hab w h)

theorem seq (hac : Within rules a c) (hbd : Within rules b d) :
    Within rules (a.seq b) (c.seq d) := by
  intro w h
  obtain ⟨u, v, rfl, ha, hb⟩ := derives_seq.mp h
  exact .seq (hac u ha) (hbd v hb)

theorem alt (hac : Within rules a c) (hbc : Within rules b c) : Within rules (a.alt b) c := by
  intro w h
  rcases derives_alt.mp h with ha | hb
  · exact hac w ha
  · exact hbc w hb

theorem opt (hab : Within rules a b) : Within rules a.opt b.opt :=
  alt (fun _ h => .left (hab _ h)) fun _ h => .right h

theorem many (hab : Within rules a b) : Within rules a.many b.many := by
  intro w h
  generalize form : Form.many a = f at h
  induction h with
  | none => exact .none
  | more ha _ _ ih =>
      cases form
      exact .more (hab _ ha) (ih rfl)
  | _ => cases form

theorem symbol (s : σ) (h : Within rules a (rules s)) : Within rules a (.symbol s) :=
  fun w ha => .symbol (h w ha)

theorem group (rules : σ → Form σ) (a b c : Form σ) :
    Within rules (a.seq (b.seq c)) ((a.seq b).seq c) := by
  intro w h
  obtain ⟨u, _, rfl, ha, rest⟩ := derives_seq.mp h
  obtain ⟨v, x, rfl, hb, hc⟩ := derives_seq.mp rest
  rw [← List.append_assoc]
  exact .seq (.seq ha hb) hc

theorem ungroup (rules : σ → Form σ) (a b c : Form σ) :
    Within rules ((a.seq b).seq c) (a.seq (b.seq c)) := by
  intro w h
  obtain ⟨_, x, rfl, both, hc⟩ := derives_seq.mp h
  obtain ⟨u, v, rfl, ha, hb⟩ := derives_seq.mp both
  rw [List.append_assoc]
  exact .seq ha (.seq hb hc)

theorem nothing (a : Form σ) : Within rules (oneOf []) a := by
  intro w h
  simp at h

end Within

def expand (L : Kind → Form σ) : Form Empty → Form σ
  | empty => .empty
  | oneOf kinds => choice (kinds.map L)
  | seq a b => .seq (a.expand L) (b.expand L)
  | alt a b => .alt (a.expand L) (b.expand L)
  | many a => .many (a.expand L)

theorem Derives.expand {f : Form Empty} {L : Kind → Form σ} {kinds : List Kind}
    {env : Empty → Form Empty} (h : Derives env f kinds)
    (spelled : Derives rules (row (kinds.map L)) w) : Derives rules (f.expand L) w := by
  induction h generalizing w with
  | empty => exact spelled
  | oneOf mem => exact derives_choice_map.mpr ⟨_, mem, spelled⟩
  | @symbol s => exact s.elim
  | seq _ _ iha ihb =>
      rw [List.map_append, derives_row_append] at spelled
      obtain ⟨u, v, rfl, hu, hv⟩ := spelled
      exact .seq (iha hu) (ihb hv)
  | left _ ih => exact .left (ih spelled)
  | right _ ih => exact .right (ih spelled)
  | none =>
      obtain rfl := derives_empty.mp spelled
      exact .none
  | more _ _ iha ihm =>
      rw [List.map_append, derives_row_append] at spelled
      obtain ⟨u, v, rfl, hu, hv⟩ := spelled
      exact .more (iha hu) (ihm hv)

def lacks (p : Kind → Bool) : Form Empty → Bool
  | empty => true
  | oneOf kinds => !kinds.any p
  | seq a b | alt a b => a.lacks p && b.lacks p
  | many a => a.lacks p

def never (p q : Kind → Bool) : Form Empty → Bool
  | empty | oneOf _ => true
  | seq a b => a.never p q && b.never p q && (a.lacks p || b.lacks q)
  | alt a b => a.never p q && b.never p q
  | many a => a.never p q && (a.lacks p || a.lacks q)

variable {p q : Kind → Bool} {f : Form Empty} {env : Empty → Form Empty}

theorem Derives.not_of_lacks (h : Derives env f w) (lacking : f.lacks p = true) :
    ∀ k ∈ w, p k = false := by
  induction h with
  | empty | none => simp
  | oneOf mem => simp_all [lacks]
  | seq _ _ ha hb =>
      simp only [lacks, Bool.and_eq_true] at lacking
      intro k mem
      exact (List.mem_append.mp mem).elim (ha lacking.1 k) (hb lacking.2 k)
  | left _ ih | right _ ih => simp_all [lacks]
  | more _ _ ha hm =>
      intro k mem
      exact (List.mem_append.mp mem).elim (ha lacking k) (hm lacking k)
  | @symbol s => exact s.elim

theorem apart_of_lacks {c d : Form Empty} (hu : Derives env c u) (hv : Derives env d v)
    (lacking : (c.lacks p || d.lacks q) = true) :
    ∀ x ∈ u, ∀ y ∈ v, ¬(p x = true ∧ q y = true) := by
  rintro x mem y mem' ⟨hp, hq⟩
  rcases Bool.or_eq_true_iff.mp lacking with without | without
  · have := hu.not_of_lacks without x mem
    simp_all
  · have := hv.not_of_lacks without y mem'
    simp_all

theorem Derives.pairwise_of_never (h : Derives env f w) (apart : f.never p q = true) :
    w.Pairwise fun x y => ¬(p x = true ∧ q y = true) := by
  induction h with
  | empty | none => exact .nil
  | oneOf mem => exact List.pairwise_singleton _ _
  | seq ha hb iha ihb =>
      simp only [never, Bool.and_eq_true] at apart
      exact List.pairwise_append.mpr
        ⟨iha apart.1.1, ihb apart.1.2, apart_of_lacks ha hb apart.2⟩
  | left _ ih | right _ ih => simp_all [never]
  | more ha hm iha ihm =>
      have each := apart
      simp only [never, Bool.and_eq_true] at each
      exact List.pairwise_append.mpr
        ⟨iha each.1, ihm apart, apart_of_lacks (d := many _) ha hm each.2⟩
  | @symbol s => exact s.elim

end Form

end LosslessTree
