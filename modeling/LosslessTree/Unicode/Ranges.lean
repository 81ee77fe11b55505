set_option autoImplicit false

namespace LosslessTree.Unicode

abbrev Ranges := List (Nat × Nat)

-- Membership; the search ends at the first range above the code point.
def Ranges.holds : Ranges → Nat → Bool
  | [], _ => false
  | (low, high) :: rest, n => low ≤ n && (n ≤ high || Ranges.holds rest n)

def Ranges.rising (least : Nat) : Ranges → Bool
  | [] => true
  | (low, high) :: rest => least ≤ low && low ≤ high && rising (high + 1) rest

theorem Ranges.holds_eq_false {least n : Nat} (h : n < least) :
    ∀ {rs : Ranges}, rs.rising least = true → rs.holds n = false
  | [], _ => rfl
  | (low, high) :: rest, hr => by
      simp only [rising, Bool.and_eq_true, decide_eq_true_eq] at hr
      simp only [holds, Bool.and_eq_false_iff, decide_eq_false_iff_not]
      exact .inl (by omega)

theorem Ranges.holds_iff {rs : Ranges} {least : Nat} (h : rs.rising least = true) (n : Nat) :
    rs.holds n = true ↔ ∃ r ∈ rs, r.1 ≤ n ∧ n ≤ r.2 := by
  induction rs generalizing least with
  | nil => simp [holds]
  | cons r rest ih =>
      obtain ⟨low, high⟩ := r
      simp only [rising, Bool.and_eq_true, decide_eq_true_eq] at h
      simp only [holds, Bool.and_eq_true, Bool.or_eq_true, decide_eq_true_eq, ih h.2,
        List.mem_cons, exists_eq_or_imp]
      constructor
      · rintro ⟨hl, hh | hr⟩
        · exact .inl ⟨hl, hh⟩
        · exact .inr hr
      · rintro (hr | hr)
        · exact ⟨hr.1, .inl hr.2⟩
        · refine ⟨?_, .inr hr⟩
          by_cases hn : n < high + 1
          · have := holds_eq_false hn h.2
            rw [(ih h.2).mpr hr] at this
            contradiction
          · omega

end LosslessTree.Unicode
