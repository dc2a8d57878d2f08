import HiddenText.Proofs.Report.Grouped

/-!
# What it means to group findings

`Report.Groups` says which tallies group some findings, without saying how they are made: each label
stands once, in the order of first occurrence, with the name of its first finding and the number of
all of them.  Only one list of tallies does (`Groups.unique`), and counting finds it
(`groups_counts`).  So what counting two lists one behind the other comes to need not be followed
finding by finding: it is enough that the merged tallies group them (`Groups.merge`).

Main statement: `Report.groups_iff_eq_counts`.
-/

namespace HiddenText.Report

variable {findings more : List Finding} {ts us : List Tally} {label : Text}

/-- The labels of findings, one for each of them. -/
def labelsOf (findings : List Finding) : List Text := findings.map Finding.codepoint

/-- The number of findings with a label. -/
def occurrences (findings : List Finding) (label : Text) : Nat := (labelsOf findings).count label

/-- The first finding with a label. -/
def first? (findings : List Finding) (label : Text) : Option Finding :=
  findings.find? (·.codepoint == label)

/-- The tallies group the findings. -/
structure Groups (findings : List Finding) (ts : List Tally) : Prop where
  /-- Every label is behind those that are seen before it, and so stands only once. -/
  ordered : (labels ts).Pairwise fun a b =>
    (labelsOf findings).idxOf a < (labelsOf findings).idxOf b
  mem_labels : ∀ label, label ∈ labels ts ↔ label ∈ labelsOf findings
  name : ∀ t ∈ ts, (first? findings t.codepoint).map Finding.name = some t.name
  count : ∀ t ∈ ts, t.count = occurrences findings t.codepoint

theorem labelsOf_append (findings more : List Finding) :
    labelsOf (findings ++ more) = labelsOf findings ++ labelsOf more := List.map_append

theorem occurrences_append (findings more : List Finding) (label : Text) :
    occurrences (findings ++ more) label = occurrences findings label + occurrences more label := by
  rw [occurrences, labelsOf_append, List.count_append]
  rfl

theorem first?_append (findings more : List Finding) (label : Text) :
    first? (findings ++ more) label = (first? findings label).or (first? more label) :=
  List.find?_append

theorem first?_eq_none_iff : first? findings label = none ↔ label ∉ labelsOf findings := by
  simp [first?, labelsOf]

/-! ## One grouping -/

namespace Groups

theorem nodup_labels (h : Groups findings ts) : (labels ts).Nodup :=
  h.ordered.imp fun {a b} hlt heq => by
    rw [heq] at hlt
    exact Nat.lt_irrefl _ hlt

theorem labels_eq (h : Groups findings ts) (h' : Groups findings us) : labels ts = labels us := by
  have hperm : (labels ts).Perm (labels us) :=
    (List.perm_ext_iff_of_nodup h.nodup_labels h'.nodup_labels).mpr fun label =>
      (h.mem_labels label).trans (h'.mem_labels label).symm
  refine hperm.eq_of_pairwise ?_ h.ordered h'.ordered
  intro a b _ _ hab hba
  omega

/-- A label has one tally. -/
theorem eq_map_labels (h : Groups findings ts) : ts = (labels ts).map fun label =>
    ⟨label, ((first? findings label).map Finding.name).getD [], occurrences findings label⟩ := by
  rw [labels, List.map_map]
  refine (List.map_id ts).symm.trans (List.map_congr_left fun t ht => ?_)
  rw [Function.comp_apply, h.name t ht, ← h.count t ht]
  rfl

theorem unique (h : Groups findings ts) (h' : Groups findings us) : ts = us := by
  rw [h.eq_map_labels, h'.eq_map_labels, h.labels_eq h']

theorem one_le_count (h : Groups findings ts) {t : Tally} (ht : t ∈ ts) : 1 ≤ t.count := by
  have hmem : t.codepoint ∈ labelsOf findings :=
    (h.mem_labels _).mp (List.mem_map_of_mem ht)
  rw [h.count t ht]
  exact List.one_le_count_iff.mpr hmem

end Groups

/-! ## Counting groups -/

theorem labels_counts (findings : List Finding) :
    labels (counts findings) = (labelsOf findings).eraseDups := by
  have h := congrArg (List.map Prod.fst) (map_counts findings)
  rw [labelCounts, List.map_map, List.map_map] at h
  exact h.trans (List.map_id _)

/-- Without its repeats a list is in the order of first occurrence. -/
theorem pairwise_idxOf_distinct (l : List Text) :
    (Scan.distinct l).Pairwise fun a b => l.idxOf a < l.idxOf b := by
  induction l using List.reverseRecOn with
  | nil => exact .nil
  | append_singleton l x ih =>
    have hold : (Scan.distinct l).Pairwise fun a b => (l ++ [x]).idxOf a < (l ++ [x]).idxOf b := by
      refine ih.imp_of_mem fun {a b} ha hb hab => ?_
      rwa [List.idxOf_append_of_mem (Scan.mem_distinct.mp ha),
        List.idxOf_append_of_mem (Scan.mem_distinct.mp hb)]
    by_cases hx : x ∈ l
    · rwa [Scan.distinct_append_of_mem hx]
    · rw [Scan.distinct_append_of_not_mem hx, List.pairwise_append]
      refine ⟨hold, List.pairwise_singleton _ _, ?_⟩
      intro a ha b hb
      have ha := Scan.mem_distinct.mp ha
      rw [List.mem_singleton.mp hb, List.idxOf_append_of_mem ha, List.idxOf_append_of_notMem hx]
      exact Nat.lt_add_right _ (List.idxOf_lt_length_of_mem ha)

theorem map_name_first? {t : Tally} (h : t ∈ counts findings) :
    (first? findings t.codepoint).map Finding.name = some t.name := by
  induction findings using List.reverseRecOn generalizing t with
  | nil => cases h
  | append_singleton findings f ih =>
    have hkept : ∀ u ∈ counts findings,
        (first? (findings ++ [f]) u.codepoint).map Finding.name = some u.name := by
      intro u hu
      rw [first?_append, Option.map_or, ih hu, Option.some_or]
    rw [counts_append_singleton, tally] at h
    split at h
    · obtain ⟨u, hu, rfl⟩ := List.mem_map.mp h
      split <;> exact hkept u hu
    · next hany =>
      rcases List.mem_append.mp h with h | h
      · exact hkept t h
      · obtain rfl := List.mem_singleton.mp h
        rw [any_codepoint_iff, labels_counts, List.mem_eraseDups] at hany
        rw [first?_append, first?_eq_none_iff.mpr hany, Option.none_or]
        simp [first?]

theorem groups_counts (findings : List Finding) : Groups findings (counts findings) where
  ordered := by
    rw [labels_counts]
    exact pairwise_idxOf_distinct (labelsOf findings)
  mem_labels := by
    intro label
    rw [labels_counts, List.mem_eraseDups]
  name := fun t => map_name_first?
  count := by
    intro t ht
    have hpair : (t.codepoint, t.count) ∈ labelCounts findings := by
      rw [← map_counts]
      exact List.mem_map_of_mem (f := fun t : Tally => (t.codepoint, t.count)) ht
    obtain ⟨label, -, heq⟩ := List.mem_map.mp hpair
    obtain ⟨rfl, hcount⟩ := Prod.mk.inj heq
    exact hcount.symm

/-! ## Two lists of findings -/

/-- The number that some tallies have for a label. -/
def countOf (ts : List Tally) (label : Text) : Nat :=
  ((ts.find? (·.codepoint == label)).map Tally.count).getD 0

/-- The tallies of one list of findings and of another one behind it: labels that both have stay
where the first has them, under its names, and those that only the second has come last. -/
def merge (ts us : List Tally) : List Tally :=
  (ts.map fun t => { t with count := t.count + countOf us t.codepoint }) ++
    us.filter fun u => !(labels ts).contains u.codepoint

theorem labels_merge (ts us : List Tally) : labels (merge ts us) =
    labels ts ++ (labels us).filter fun label => !(labels ts).contains label := by
  rw [merge, labels, List.map_append, List.map_map, labels, labels, List.filter_map]
  rfl

theorem Groups.countOf_eq (h : Groups findings ts) (label : Text) :
    countOf ts label = occurrences findings label := by
  rw [countOf]
  cases hfind : ts.find? (·.codepoint == label) with
  | none =>
    have hnot : label ∉ labels ts := by
      intro hmem
      obtain ⟨t, ht, rfl⟩ := List.mem_map.mp hmem
      exact absurd (List.find?_eq_none.mp hfind t ht) (by simp)
    rw [h.mem_labels] at hnot
    exact (List.count_eq_zero_of_not_mem hnot).symm
  | some t =>
    have hlabel : t.codepoint = label := by simpa using List.find?_some hfind
    rw [Option.map_some, Option.getD_some, h.count t (List.mem_of_find?_eq_some hfind), hlabel]

theorem Groups.not_mem_labelsOf (h : Groups findings ts)
    (hnew : (!(labels ts).contains label) = true) : label ∉ labelsOf findings := by
  rw [← h.mem_labels]
  simpa using hnew

/-- Merged tallies group the findings of both lists. -/
theorem Groups.merge (h : Groups findings ts) (h' : Groups more us) :
    Groups (findings ++ more) (merge ts us) where
  ordered := by
    rw [labels_merge, labelsOf_append, List.pairwise_append]
    refine ⟨?_, ?_, ?_⟩
    · refine h.ordered.imp_of_mem fun {a b} ha hb hab => ?_
      rwa [List.idxOf_append_of_mem ((h.mem_labels a).mp ha),
        List.idxOf_append_of_mem ((h.mem_labels b).mp hb)]
    · refine (h'.ordered.filter _).imp_of_mem fun {a b} ha hb hab => ?_
      have hnew : ∀ c ∈ (labels us).filter fun label => !(labels ts).contains label,
          c ∉ labelsOf findings := fun c hc => h.not_mem_labelsOf (List.mem_filter.mp hc).2
      rw [List.idxOf_append_of_notMem (hnew a ha), List.idxOf_append_of_notMem (hnew b hb)]
      exact Nat.add_lt_add_left hab _
    · intro a ha b hb
      have ha := (h.mem_labels a).mp ha
      have hb := h.not_mem_labelsOf (List.mem_filter.mp hb).2
      rw [List.idxOf_append_of_mem ha, List.idxOf_append_of_notMem hb]
      exact Nat.lt_add_right _ (List.idxOf_lt_length_of_mem ha)
  mem_labels := by
    intro label
    rw [labels_merge, labelsOf_append, List.mem_append, List.mem_append, ← h.mem_labels,
      ← h'.mem_labels, List.mem_filter]
    by_cases hmem : label ∈ labels ts <;> simp [hmem]
  name := by
    intro t ht
    rw [first?_append, Option.map_or]
    rcases List.mem_append.mp ht with ht | ht
    · obtain ⟨u, hu, rfl⟩ := List.mem_map.mp ht
      rw [h.name u hu, Option.some_or]
    · obtain ⟨hu, hnew⟩ := List.mem_filter.mp ht
      have hnone := first?_eq_none_iff.mpr (h.not_mem_labelsOf hnew)
      rw [hnone, Option.map_none, Option.none_or, h'.name t hu]
  count := by
    intro t ht
    rw [occurrences_append]
    rcases List.mem_append.mp ht with ht | ht
    · obtain ⟨u, hu, rfl⟩ := List.mem_map.mp ht
      rw [← h.count u hu, ← h'.countOf_eq]
    · obtain ⟨hu, hnew⟩ := List.mem_filter.mp ht
      have hzero := List.count_eq_zero_of_not_mem (h.not_mem_labelsOf hnew)
      rw [occurrences, hzero, Nat.zero_add, h'.count t hu]

/-- **Counting groups findings exactly.**  Whatever the labels and names of some findings, the
tallies that counting gives are those, and only those, with every label once in the order of first
occurrence, under the name of its first finding, and with the number of its findings.  So no number
is 0, the numbers add up to that of all findings, and the tallies of two lists one behind the other
are the merged tallies of both. -/
theorem groups_iff_eq_counts (findings : List Finding) :
    (∀ ts, Groups findings ts ↔ ts = counts findings) ∧
      (∀ t ∈ counts findings, 1 ≤ t.count) ∧
      ((counts findings).map Tally.count).sum = findings.length ∧
      ∀ more, counts (findings ++ more) = merge (counts findings) (counts more) := by
  refine ⟨?_, fun t => (groups_counts findings).one_le_count, sumCount_counts findings, ?_⟩
  · intro ts
    constructor
    · exact fun h => h.unique (groups_counts findings)
    · rintro rfl
      exact groups_counts findings
  · intro more
    exact (groups_counts _).unique ((groups_counts findings).merge (groups_counts more))

/-- A label that comes again under another name. -/
example : counts [⟨[], lit "b", lit "x", 0, 1⟩, ⟨[], lit "a", lit "y", 1, 1⟩,
    ⟨[], lit "b", lit "z", 2, 1⟩] = [⟨lit "b", lit "x", 2⟩, ⟨lit "a", lit "y", 1⟩] := by decide

end HiddenText.Report
