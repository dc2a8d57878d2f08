import HiddenText.CommandLine.Usage
import HiddenText.Proofs.Json.RoundTrip
import HiddenText.Proofs.Report.History
import HiddenText.Proofs.Report.Tallies
import HiddenText.Report.Summary

/-!
# The outputs of a report agree

A report has three outputs: its status, which is that of its total, its JSON text, which is that of
its files, and its summary, which has both and groups the findings anew.  They tell the same: the
numbers in the summary (`summaryOf`) are those that a reader of the JSON text counts, and every file
there has one block in the summary, whose counts make up the length of its list.

Main statement: `outputs_agree`.
-/

namespace HiddenText.Report

variable {r : Report}

/-! ## Clean reports -/

theorem Inv.exitStatus_eq_zero_iff_eq_empty (h : r.Inv) : r.exitStatus = 0 ↔ r = {} := by
  rw [exitStatus_eq_zero_iff, h.isClean_iff]

theorem render_empty : render {} = lit "\x7b\x7d" := rfl

theorem Inv.render_eq_iff_eq_empty (h : r.Inv) : r.render = lit "\x7b\x7d" ↔ r = {} := by
  constructor
  · intro hrender
    have hvalue : r.toValue = toValue {} := by
      rw [← Option.some_inj, ← decode_render, ← decode_render, hrender, render_empty]
    exact h.eq_empty_iff.mpr (files_eq_of_toValue_eq hvalue)
  · rintro rfl
    exact render_empty

/-! ## Summaries -/

/-- The text of a summary with numbers of findings and files, and with a block of tallies for each
file. -/
def summaryOf (findings files : Nat) (blocks : List (Text × List Tally)) (reportPath : Text) :
    Text :=
  Text.ofLines <|
    [lit "⚠️  Found " ++ Numeral.ofNat findings ++ lit " unsafe character(s) in "
      ++ Numeral.ofNat files ++ lit " file(s):", []]
    ++ blocks.flatMap (fun (path, ts) =>
      (lit "📄 " ++ path ++ lit ":") :: ts.map Tally.line ++ [[]])
    ++ [lit "📊 Summary: " ++ Numeral.ofNat findings ++ lit " total findings",
      lit "📁 JSON report: " ++ reportPath]

/-- The findings of every file, by label. -/
def blocks (r : Report) : List (Text × List Tally) :=
  r.files.map fun (path, findings) => (path, counts findings)

/-- How many findings the files have. -/
def size (r : Report) : Nat := (r.files.map fun entry => entry.2.length).sum

theorem Inv.total_eq_size (h : r.Inv) : r.total = r.size := by
  rw [h.total_eq, findingCount, size]
  induction r.files with
  | nil => rfl
  | cons entry files ih =>
    rw [List.map_cons, List.sum_cons, List.map_cons, List.sum_cons, ih, Nat.cast_add]

theorem ofInt_natCast (n : Nat) : Numeral.ofInt n = Numeral.ofNat n := by
  rw [Numeral.ofInt, if_neg (by omega), Int.natAbs_natCast]

theorem Inv.summary_eq (h : r.Inv) (hne : r ≠ {}) (reportPath : Text) :
    r.summary reportPath = summaryOf r.size r.files.length r.blocks reportPath := by
  rw [summary, summaryLines, if_neg (mt h.isClean_iff.mp hne), headerLine, h.total_eq_size,
    ofInt_natCast, summaryOf, blocks, List.flatMap_map]
  rfl

/-- A summary with numbers does not start like the line of a clean report. -/
theorem summaryOf_ne_clean (findings files : Nat) (blocks : List (Text × List Tally))
    (reportPath : Text) :
    summaryOf findings files blocks reportPath ≠ Text.ofLines [cleanLine] := by
  intro heq
  have hhead : (summaryOf findings files blocks reportPath).head? =
      some (CodePoint.ofChar '⚠') := rfl
  have hclean : (Text.ofLines [cleanLine]).head? = some (CodePoint.ofChar '✅') := rfl
  rw [heq, hclean] at hhead
  exact absurd hhead (by decide)

theorem Inv.summary_eq_clean_iff (h : r.Inv) (reportPath : Text) :
    r.summary reportPath = Text.ofLines [cleanLine] ↔ r = {} := by
  constructor
  · intro hsummary
    by_contra hne
    rw [h.summary_eq hne] at hsummary
    exact summaryOf_ne_clean _ _ _ _ hsummary
  · rintro rfl
    rfl

theorem sum_sumCount_blocks (r : Report) : (r.blocks.map fun b => sumCount b.2).sum = r.size := by
  rw [blocks, List.map_map, size]
  exact congrArg List.sum (List.map_congr_left fun entry _ => sumCount_counts entry.2)

/-! ## Agreement -/

/-- The members of the JSON object of a report, with the items of their arrays. -/
def members (r : Report) : List (Text × List Json.Value) :=
  r.files.map fun (path, findings) => (path, findings.map Finding.toValue)

theorem sum_length_members (r : Report) : (r.members.map fun m => m.2.length).sum = r.size := by
  rw [members, List.map_map, size]
  exact congrArg List.sum (List.map_congr_left fun _ _ => List.length_map _)

theorem toValue_eq_members (r : Report) :
    r.toValue = .object (r.members.map fun (path, items) => (path, .array items)) := by
  rw [toValue, members, List.map_map]
  rfl

/-- **The status, the JSON text and the summary agree.**  After any history of adds, the status is 0
just in case the JSON text is the empty object, and just in case the summary is the success line.
The JSON text is read as an object with distinct names, the members of the report.  If the status is
not 0, the header and the last total of the summary show how many items the members have together,
and the header how many members there are; the blocks of the summary belong to the members one by
one, and the counts in a block add up to the number of items of its member, so that all the counts
add up to the total. -/
theorem outputs_agree (history : List (Text × List Finding)) (reportPath : Text) :
    let r := ofHistory history
    let findings := (r.members.map fun m => m.2.length).sum
    (r.exitStatus = 0 ↔ r.render = lit "\x7b\x7d") ∧
    (r.exitStatus = 0 ↔ r.summary reportPath = Text.ofLines [cleanLine]) ∧
    Json.decode r.render =
      some (.object (r.members.map fun (path, items) => (path, .array items))) ∧
    (r.members.map Prod.fst).Nodup ∧
    (r.exitStatus ≠ 0 →
      r.summary reportPath = summaryOf findings r.members.length r.blocks reportPath) ∧
    List.Forall₂ (fun b m => b.1 = m.1 ∧ (b.2.map Tally.count).sum = m.2.length)
      r.blocks r.members ∧
    (r.blocks.flatMap fun b => b.2.map Tally.count).sum = findings := by
  intro r findings
  have hinv : r.Inv := inv_ofHistory history
  have hfindings : findings = r.size := sum_length_members r
  refine ⟨?_, ?_, ?_, ?_, ?_, ?_, ?_⟩
  · rw [hinv.exitStatus_eq_zero_iff_eq_empty, hinv.render_eq_iff_eq_empty]
  · rw [hinv.exitStatus_eq_zero_iff_eq_empty, hinv.summary_eq_clean_iff]
  · rw [decode_render, toValue_eq_members]
  · rw [members, List.map_map]
    exact hinv.nodup
  · intro hstatus
    rw [hfindings, members, List.length_map,
      hinv.summary_eq (mt hinv.exitStatus_eq_zero_iff_eq_empty.mpr hstatus)]
  · rw [blocks, members, List.forall₂_map_left_iff, List.forall₂_map_right_iff, List.forall₂_same]
    intro entry _
    exact ⟨rfl, (sumCount_counts entry.2).trans (List.length_map _).symm⟩
  · rw [hfindings, List.flatMap_def, List.sum_flatten, List.map_map]
    exact sum_sumCount_blocks r

end HiddenText.Report
