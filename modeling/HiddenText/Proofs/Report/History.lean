import HiddenText.Proofs.Report.Contents
import HiddenText.Proofs.Scan.Repeats

/-!
# Reports from any history

What a report holds after any adds whatever, told from the history of the adds alone.  Only adds
with findings count (`effective`), and of those for one path only the first: the step lemmas
`files_prefix_add` and `lookup_add` say that one more add keeps what is there in its order, and what
it does to the findings of a path.

Main statement: `ofHistory_holds_first`.
-/

namespace HiddenText.Report

variable {r : Report} {path : Text} {findings : List Finding}
  {history : List (Text × List Finding)}

/-- The report after a history of adds to the empty report. -/
def ofHistory (history : List (Text × List Finding)) : Report :=
  history.foldl (fun r (path, found) => r.add path found) {}

/-- The adds with findings. -/
def effective (history : List (Text × List Finding)) : List (Text × List Finding) :=
  history.filter fun entry => !entry.2.isEmpty

theorem inv_ofHistory (history : List (Text × List Finding)) : (ofHistory history).Inv :=
  inv_empty.foldl_add history

theorem ofHistory_concat (history : List (Text × List Finding)) (entry : Text × List Finding) :
    ofHistory (history ++ [entry]) = (ofHistory history).add entry.1 entry.2 := by
  rw [ofHistory, List.foldl_append]
  rfl

theorem effective_concat_nil (history : List (Text × List Finding)) (path : Text) :
    effective (history ++ [(path, [])]) = effective history := by
  rw [effective, List.filter_append]
  exact List.append_nil _

theorem effective_concat (history : List (Text × List Finding)) (path : Text)
    (hne : findings ≠ []) :
    effective (history ++ [(path, findings)]) = effective history ++ [(path, findings)] := by
  have hshows : (!findings.isEmpty) = true := by simpa using hne
  rw [effective, List.filter_append, List.filter_singleton, hshows]
  rfl

/-! ## One more add -/

theorem files_prefix_add (r : Report) (path : Text) (findings : List Finding) :
    r.files <+: (r.add path findings).files := by
  by_cases hold : findings = [] ∨ path ∈ r.paths
  · exact ⟨[], by rw [add_of_old hold, List.append_nil]⟩
  · obtain ⟨hne, hnew⟩ := not_or.mp hold
    rw [add_of_new hne hnew]
    exact List.prefix_append _ _

theorem files_prefix_foldl_add (r : Report) (more : List (Text × List Finding)) :
    r.files <+: (more.foldl (fun r (path, found) => r.add path found) r).files := by
  induction more generalizing r with
  | nil => exact List.prefix_refl _
  | cons entry more ih => exact (files_prefix_add r entry.1 entry.2).trans (ih _)

theorem lookup_eq_none_iff : r.files.lookup path = none ↔ path ∉ r.paths := by
  rw [List.lookup_eq_none_iff, paths, List.mem_map]
  simp only [bne_iff_ne, ne_eq, not_exists, not_and]
  constructor
  · intro h entry hentry heq
    exact h entry hentry heq.symm
  · intro h entry hentry heq
    exact h entry hentry heq.symm

/-- An add with findings counts if the path has none so far. -/
theorem lookup_add (hne : findings ≠ []) (p : Text) :
    (r.add path findings).files.lookup p =
      (r.files.lookup p).or ([(path, findings)].lookup p) := by
  by_cases hmem : path ∈ r.paths
  · rw [add_of_old (.inr hmem)]
    by_cases hp : p = path
    · obtain ⟨found, hfound⟩ := Option.ne_none_iff_exists'.mp
        (mt lookup_eq_none_iff.mp (not_not.mpr (hp ▸ hmem)))
      rw [hfound, Option.some_or]
    · rw [List.lookup_cons, beq_eq_false_iff_ne.mpr hp]
      exact Option.or_none.symm
  · rw [add_of_new hne hmem, List.lookup_append]

/-! ## Histories -/

theorem paths_ofHistory (history : List (Text × List Finding)) :
    (ofHistory history).paths = Scan.distinct ((effective history).map Prod.fst) := by
  induction history using List.reverseRecOn with
  | nil => rfl
  | append_singleton history entry ih =>
    obtain ⟨path, findings⟩ := entry
    rw [ofHistory_concat]
    by_cases hne : findings = []
    · rw [hne, add_of_old (.inl rfl), effective_concat_nil, ih]
    · rw [effective_concat history path hne, List.map_append, List.map_singleton]
      by_cases hmem : path ∈ (effective history).map Prod.fst
      · have hold : path ∈ (ofHistory history).paths := by rwa [ih, Scan.mem_distinct]
        rw [add_of_old (.inr hold), ih, Scan.distinct_append_of_mem hmem]
      · have hnew : path ∉ (ofHistory history).paths := by rwa [ih, Scan.mem_distinct]
        rw [add_of_new hne hnew, paths_append, List.map_singleton, ← paths, ih,
          Scan.distinct_append_of_not_mem hmem]

/-- The findings of a path are those of its first add with findings. -/
theorem lookup_ofHistory (history : List (Text × List Finding)) (p : Text) :
    (ofHistory history).files.lookup p = (effective history).lookup p := by
  induction history using List.reverseRecOn with
  | nil => rfl
  | append_singleton history entry ih =>
    obtain ⟨path, findings⟩ := entry
    rw [ofHistory_concat]
    by_cases hne : findings = []
    · rw [hne, add_of_old (.inl rfl), effective_concat_nil, ih]
    · rw [lookup_add hne, effective_concat history path hne, List.lookup_append, ih]

theorem mem_paths_ofHistory :
    path ∈ (ofHistory history).paths ↔ ∃ findings, findings ≠ [] ∧ (path, findings) ∈ history := by
  rw [paths_ofHistory, Scan.mem_distinct, List.mem_map]
  constructor
  · rintro ⟨⟨p, findings⟩, hentry, rfl⟩
    obtain ⟨hmem, hne⟩ := List.mem_filter.mp hentry
    exact ⟨findings, by simpa using hne, hmem⟩
  · rintro ⟨findings, hne, hmem⟩
    exact ⟨(path, findings), List.mem_filter.mpr ⟨hmem, by simpa using hne⟩, rfl⟩

/-- **A report holds the first findings of every path.**  After any history of adds, the paths of
the report are those that were added with findings, each once, in the order of their first adds with
findings, and each has the findings of that add.  None of them is without findings, the total is
their number, and whatever is added then leaves them as they are, in the same order. -/
theorem ofHistory_holds_first (history more : List (Text × List Finding)) :
    (∀ path, path ∈ (ofHistory history).paths ↔
      ∃ findings, findings ≠ [] ∧ (path, findings) ∈ history) ∧
    (ofHistory history).paths.Nodup ∧
    (ofHistory history).paths = Scan.firsts ((effective history).map Prod.fst) ∧
    (∀ path, (ofHistory history).files.lookup path = (effective history).lookup path) ∧
    (∀ entry ∈ (ofHistory history).files, entry.2 ≠ []) ∧
    (ofHistory history).total =
      ((ofHistory history).files.map fun entry => (entry.2.length : Int)).sum ∧
    (ofHistory history).files <+: (ofHistory (history ++ more)).files := by
  have hinv := inv_ofHistory history
  refine ⟨fun _ => mem_paths_ofHistory, hinv.nodup, ?_, lookup_ofHistory history, hinv.ne_nil,
    hinv.total_eq, ?_⟩
  · rw [paths_ofHistory, Scan.distinct_eq_firsts]
  · rw [ofHistory, ofHistory, List.foldl_append]
    exact files_prefix_foldl_add _ more

/-- A path without findings at first, and another one that is added twice. -/
example : ofHistory [(lit "a", []), (lit "b", Finding.all (lit "\u200B")), (lit "a",
      Finding.all (lit "\u202E")), (lit "b", Finding.all (lit "\uFEFF\uFEFF"))] =
    { files := [(lit "b", Finding.all (lit "\u200B")), (lit "a", Finding.all (lit "\u202E"))]
      total := 2 } := by
  decide +kernel

end HiddenText.Report
