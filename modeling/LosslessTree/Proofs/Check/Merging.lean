import LosslessTree.Proofs.Check.Duplicates

set_option autoImplicit false

namespace LosslessTree

section Merging

variable {α : Type} (key : α → Nat) (l : List α)

theorem pairwise_mergeSort_key :
    (l.mergeSort fun a b => key a ≤ key b).Pairwise fun a b => key a ≤ key b := by
  have sorted : (l.mergeSort fun a b => key a ≤ key b).Pairwise
      fun a b => decide (key a ≤ key b) = true :=
    List.pairwise_mergeSort (fun a b c => by simpa using Nat.le_trans)
      (fun a b => by simpa using Nat.le_total _ _) l
  simpa using sorted

theorem sublist_mergeSort_key {part : List α} (sorted : part.Pairwise fun a b => key a ≤ key b)
    (sub : part.Sublist l) : part.Sublist (l.mergeSort fun a b => key a ≤ key b) :=
  List.sublist_mergeSort (fun a b c => by simpa using Nat.le_trans)
    (fun a b => by simpa using Nat.le_total _ _) (by simpa using sorted) sub

theorem filter_mergeSort_key (n : Nat) :
    (l.mergeSort fun a b => key a ≤ key b).filter (fun a => key a == n) =
      l.filter fun a => key a == n := by
  have same : (l.filter fun a => key a == n).Pairwise fun a b => key a ≤ key b := by
    refine List.pairwise_of_forall_mem_list fun a mem b mem' => ?_
    have first := (List.mem_filter.mp mem).2
    have second := (List.mem_filter.mp mem').2
    simp only [beq_iff_eq] at first second
    omega
  have kept := (sublist_mergeSort_key key l same List.filter_sublist).filter fun a => key a == n
  rw [List.filter_filter] at kept
  simp only [Bool.and_self] at kept
  refine (kept.eq_of_length ?_).symm
  exact (((List.mergeSort_perm l _).filter _).length_eq).symm

end Merging

/-- The diagnostics of two lists by the start of their spans. At equal starts those of the first list come
first, and those of the same list in their order. -/
structure Diagnostic.Merged (first second whole : List Diagnostic) : Prop where
  perm : whole.Perm (first ++ second)
  sorted : whole.Pairwise fun d d' => d.span.start ≤ d'.span.start
  stable : ∀ offset, whole.filter (fun d => d.span.start == offset) =
    first.filter (fun d => d.span.start == offset) ++
      second.filter fun d => d.span.start == offset

theorem Diagnostic.merged_mergeSort (first second : List Diagnostic) :
    Merged first second
      ((first ++ second).mergeSort fun a b => a.span.start ≤ b.span.start) where
  perm := List.mergeSort_perm _ _
  sorted := pairwise_mergeSort_key (fun d : Diagnostic => d.span.start) _
  stable := fun offset => by
    rw [filter_mergeSort_key (fun d : Diagnostic => d.span.start), List.filter_append]

theorem parse_name_token {text : Text} {n : Nat} (isName : (parse text).tree.kind n = .name) :
    ∃ i ∈ (parse text).tree.tokensOf 0, ((parse text).tree.token i).parent = n ∧
      ((parse text).tree.tokenSpan i).start < ((parse text).tree.tokenSpan i).stop ∧
        ((parse text).tree.trimmedSpan n).start = ((parse text).tree.tokenSpan i).start := by
  have root : (parse text).tree.Rooted .sourceFile _ := SyntaxTree.ofRoot_rooted text .sourceFile _
  have inside : n < (parse text).tree.nodes.size :=
    SyntaxTree.lt_size_of_kind (by rw [isName]; decide)
  obtain ⟨_, p, k, inner, rfl, site, fits, shaped, plain⟩ := parse_site inside
  obtain rfl : k = .name := by rw [← site.kind, isName]
  obtain ⟨l, rest, rfl, kind, nothing⟩ :=
    Forest.eq_leaf_of_tops shaped (Form.derives_token.mp fits) rfl
  obtain rfl := Forest.eq_nil_of_tops nothing
  have solid : ∀ l' ∈ (Forest.leaf l .nil).leaves, l'.Solid := by
    intro l' mem
    obtain rfl := List.mem_singleton.mp mem
    exact ⟨by rw [kind]; rfl, (plain l' mem).2 (by rw [kind]; decide)⟩
  obtain ⟨i, only⟩ := List.length_eq_one_iff.mp (site.length_significantTokens solid)
  have mem : i ∈ (parse text).tree.significantTokens p.node := by simp [only]
  have own : i ∈ (parse text).tree.tokensOf p.node := (List.mem_filter.mp mem).1
  refine ⟨i, root.tokensOf_subset site own, ?_, site.significant_solid solid mem, ?_⟩
  · rcases site.token_parent own with here | below
    · exact here
    · rw [site.descendants] at below
      cases below
  · have trimmed : (parse text).tree.trimmedSpan p.node =
        ⟨((parse text).tree.tokenSpan i).start, ((parse text).tree.tokenSpan i).stop⟩ :=
      SyntaxTree.trimmedSpan_of_ends (by rw [only]; rfl) (by rw [only]; rfl)
    rw [trimmed]

theorem parse_name_start {text : Text} {a b : Nat} (isName : (parse text).tree.kind a = .name)
    (isName' : (parse text).tree.kind b = .name)
    (same : ((parse text).tree.trimmedSpan a).start = ((parse text).tree.trimmedSpan b).start) :
    a = b := by
  have root : (parse text).tree.Rooted .sourceFile _ := SyntaxTree.ofRoot_rooted text .sourceFile _
  obtain ⟨i, here, rfl, solid, start⟩ := parse_name_token isName
  obtain ⟨j, there, rfl, solid', start'⟩ := parse_name_token isName'
  rw [start, start'] at same
  rw [root.token_eq here there solid solid' (.inl same)]

/-- All diagnostics of a file: those of the parse in their order, and one for each item behind an item of
the same scope with the same name, where that name is. -/
theorem parse_check (text : Text) :
    ∃ found : List (Nat × Nat),
      (∀ item name, (item, name) ∈ found ↔ (parse text).tree.Redeclares item name) ∧
      (found.map Prod.fst).Nodup ∧
      (found.map fun x => ((parse text).tree.trimmedSpan x.2).start).Nodup ∧
      Diagnostic.Merged (parse text).errors
        (found.map fun x =>
          ⟨"the name `" ++ String.ofList ((parse text).tree.trimmedText x.2) ++
            "` is defined multiple times", (parse text).tree.trimmedSpan x.2⟩)
        (parse text).check ∧
      (parse text).errors.Sublist (parse text).check := by
  have h := SyntaxTree.parse_family text
  have mem (item name : Nat) :
      (item, name) ∈ (0 :: (parse text).tree.moduleScopes).flatMap (parse text).tree.redeclared ↔
        (parse text).tree.Redeclares item name := by
    simp only [List.mem_flatMap, h.mem_scopes, h.mem_redeclared, SyntaxTree.Redeclares,
      exists_and_left]
  refine ⟨_, mem, h.redeclared_nodup, ?_, ?_, ?_⟩
  -- Names that start at the same byte are the same name, which is that of one item.
  · refine List.pairwise_map.mpr ((List.pairwise_map.mp h.redeclared_nodup).imp_of_mem ?_)
    rintro ⟨item, name⟩ ⟨item', name'⟩ here there apart same
    obtain ⟨_, _, _, _, _, _, -, -, ⟨-, child, isName⟩, -⟩ := (mem item name).mp here
    obtain ⟨_, _, _, _, _, _, -, -, ⟨-, child', isName'⟩, -⟩ := (mem item' name').mp there
    obtain rfl := parse_name_start isName isName' same
    exact apart ((h.around_eq child).symm.trans (h.around_eq child'))
  · have reported : (0 :: (parse text).tree.moduleScopes).flatMap (parse text).tree.duplicatesIn =
        ((0 :: (parse text).tree.moduleScopes).flatMap (parse text).tree.redeclared).map fun x =>
          ⟨"the name `" ++ String.ofList ((parse text).tree.trimmedText x.2) ++
            "` is defined multiple times", (parse text).tree.trimmedSpan x.2⟩ := by
      rw [List.map_flatMap]
      refine congrArg (List.flatMap · _) (funext fun scope => ?_)
      rw [SyntaxTree.redeclared, List.map_map]
      rfl
    rw [← reported]
    exact Diagnostic.merged_mergeSort _ _
  · exact sublist_mergeSort_key (fun d : Diagnostic => d.span.start) _ (parse_errors_sorted text)
      (List.sublist_append_left _ _)

end LosslessTree
