import HiddenText.Proofs.Report.Tallies
import HiddenText.Proofs.Scan.Repeats

/-!
# Findings grouped by label

What `Report.counts` makes of a list of findings, told without going through it: every label once,
where it is first seen, with the number of its findings (`Report.map_counts`), under a name that one
of them has (`Report.exists_mem_of_mem_counts`).
-/

namespace HiddenText.Report

/-- The labels of findings in the order in which they are first seen, each with the number of its
findings. -/
def labelCounts (findings : List Finding) : List (Text × Nat) :=
  (findings.map Finding.codepoint).eraseDups.map fun label =>
    (label, (findings.map Finding.codepoint).count label)

theorem counts_append_singleton (findings : List Finding) (f : Finding) :
    counts (findings ++ [f]) = tally (counts findings) f := by
  rw [counts, List.foldl_append]
  rfl

theorem any_codepoint_iff {ts : List Tally} {label : Text} :
    ts.any (·.codepoint == label) = true ↔ label ∈ labels ts := by
  rw [labels, List.any_eq_true, List.mem_map]
  simp only [beq_iff_eq]

/-- Every label is counted once, and all its findings. -/
theorem map_counts (findings : List Finding) :
    (counts findings).map (fun t => (t.codepoint, t.count)) = labelCounts findings := by
  induction findings using List.reverseRecOn with
  | nil => rfl
  | append_singleton findings f ih =>
    have hlabels : labels (counts findings) = (findings.map Finding.codepoint).eraseDups := by
      have h := congrArg (List.map Prod.fst) ih
      rw [labelCounts, List.map_map, List.map_map] at h
      exact h.trans (List.map_id _)
    have hiff : (counts findings).any (·.codepoint == f.codepoint) = true ↔
        f.codepoint ∈ findings.map Finding.codepoint := by
      rw [any_codepoint_iff, hlabels, List.mem_eraseDups]
    rw [counts_append_singleton, tally, labelCounts, List.map_append, List.map_singleton]
    by_cases hmem : f.codepoint ∈ findings.map Finding.codepoint
    · have hdistinct : (findings.map Finding.codepoint ++ [f.codepoint]).eraseDups =
          (findings.map Finding.codepoint).eraseDups := Scan.distinct_append_of_mem hmem
      -- one more finding of a label is one more in its pair
      have hpair : (fun t : Tally => (t.codepoint, t.count)) ∘
          (fun t => if t.codepoint == f.codepoint then { t with count := t.count + 1 } else t) =
            (fun p : Text × Nat => (p.1, p.2 + [f.codepoint].count p.1)) ∘
              fun t => (t.codepoint, t.count) := by
        funext t
        rw [Function.comp_apply, Function.comp_apply, List.count_singleton]
        by_cases h : t.codepoint = f.codepoint
        · simp [h]
        · simp [h, Ne.symm h]
      rw [if_pos (hiff.mpr hmem), hdistinct, List.map_map, hpair, ← List.map_map, ih, labelCounts,
        List.map_map]
      simp only [Function.comp_def, List.count_append]
    · have hdistinct : (findings.map Finding.codepoint ++ [f.codepoint]).eraseDups =
          (findings.map Finding.codepoint).eraseDups ++ [f.codepoint] :=
        Scan.distinct_append_of_not_mem hmem
      have hold : ∀ label ∈ (findings.map Finding.codepoint).eraseDups,
          (label, (findings.map Finding.codepoint ++ [f.codepoint]).count label) =
            (label, (findings.map Finding.codepoint).count label) := by
        intro label hlabel
        have hne : f.codepoint ≠ label := by
          rintro rfl
          exact hmem (List.mem_eraseDups.mp hlabel)
        rw [List.count_append, List.count_singleton, if_neg (by simpa using hne), Nat.add_zero]
      rw [if_neg (mt hiff.mp hmem), hdistinct, List.map_append, List.map_append, ih, labelCounts,
        List.map_congr_left hold, List.map_singleton, List.map_singleton, List.count_append,
        List.count_eq_zero_of_not_mem hmem, List.count_singleton_self]

theorem exists_mem_of_mem_counts {findings : List Finding} {t : Tally} (h : t ∈ counts findings) :
    ∃ f ∈ findings, f.codepoint = t.codepoint ∧ f.name = t.name := by
  induction findings using List.reverseRecOn generalizing t with
  | nil => cases h
  | append_singleton findings f ih =>
    rw [counts_append_singleton, tally] at h
    split at h
    · obtain ⟨u, hu, rfl⟩ := List.mem_map.mp h
      obtain ⟨g, hg, hlabel, hname⟩ := ih hu
      refine ⟨g, List.mem_append_left _ hg, ?_⟩
      split <;> exact ⟨hlabel, hname⟩
    · rcases List.mem_append.mp h with h | h
      · obtain ⟨g, hg, hlabel, hname⟩ := ih h
        exact ⟨g, List.mem_append_left _ hg, hlabel, hname⟩
      · obtain rfl := List.mem_singleton.mp h
        exact ⟨f, List.mem_append_right _ List.mem_cons_self, rfl, rfl⟩

end HiddenText.Report
