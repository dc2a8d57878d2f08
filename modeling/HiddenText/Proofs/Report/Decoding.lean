import HiddenText.CommandLine.Usage
import HiddenText.Proofs.Finding.Collect
import HiddenText.Proofs.Json.Lexing
import HiddenText.Proofs.Report.Agreement
import HiddenText.Proofs.Report.Grouped
import HiddenText.Proofs.Scan.Refused
import HiddenText.Report.Summary

/-!
# Reading a summary

A summary is read line by line.  Its lines are told apart by how they start (`SummaryLine.ofText`):
a file is named after a page, a label stands behind blanks, and the totals start with a chart, after
which nothing counts.  Whatever a path looks like, it stands behind its page and in front of a colon
and cannot start a line of its own, unless it has a line feed.  So the groups of a report can be
read off its summary (`Report.IsOfTexts.readSummary_summary`).

Main statement: `Report.groups_eq_of_summary_eq`.
-/

namespace HiddenText

/-- What a line of a summary tells. -/
inductive SummaryLine
  | file (path : Text)
  | tally (label : Text) (count : Nat)
  | totals
  | other
  deriving DecidableEq

namespace SummaryLine

/-- The number at the end of a text. -/
def lastNumber (t : Text) : Nat := Json.decimal (t.reverse.takeWhile Json.isDecimal).reverse

def ofText : Text → SummaryLine
  | [] => .other
  | c :: rest =>
    if c = CodePoint.ofChar '📄' then .file (rest.drop 1).dropLast
    else if c = CodePoint.ofChar '📊' then .totals
    else if c = CodePoint.space then
      .tally ((rest.drop 2).takeWhile (· != CodePoint.space)) (lastNumber rest.dropLast)
    else .other

/-- The groups that are told by some lines: first the labels whose file is still to come, which
stands in front of them, and then the files with their labels. -/
def read : List SummaryLine → List (Text × Nat) × List (Text × List (Text × Nat))
  | [] => ([], [])
  | .file path :: rest => ([], (path, (read rest).1) :: (read rest).2)
  | .tally label count :: rest => ((label, count) :: (read rest).1, (read rest).2)
  | .totals :: _ => ([], [])
  | .other :: rest => read rest

end SummaryLine

namespace Report

/-- The files of a report with the labels found in each, in the order in which they are first seen,
and the number of findings of every label. -/
def groups (r : Report) : List (Text × List (Text × Nat)) :=
  r.files.map fun (path, findings) => (path, labelCounts findings)

/-- The groups that a summary tells. -/
def readSummary (t : Text) : List (Text × List (Text × Nat)) :=
  (SummaryLine.read ((Text.split CodePoint.newline t).map SummaryLine.ofText)).2

/-- The lines about one file. -/
def blockLines (block : Text × List Tally) : List Text :=
  (lit "📄 " ++ block.1 ++ lit ":") :: block.2.map Tally.line ++ [[]]

/-- The lines of a summary up to the totals. -/
def front (findings files : Nat) (blocks : List (Text × List Tally)) : List Text :=
  [lit "⚠️  Found " ++ Numeral.ofNat findings ++ lit " unsafe character(s) in "
      ++ Numeral.ofNat files ++ lit " file(s):", []]
    ++ blocks.flatMap blockLines
    ++ [lit "📊 Summary: " ++ Numeral.ofNat findings ++ lit " total findings"]

/-- A report of a scan in which the findings of every path are those of some text. -/
def IsOfTexts (r : Report) : Prop :=
  ∃ (ε : Type) (workers : Int) (scan : Scan.Scanner ε) (paths : List Text),
    (∀ path findings, (scan path).result = .ok findings → ∃ t, findings = Finding.all t) ∧
      (Scan.run workers scan paths).result = .ok r

end Report

/-! ## Lines -/

/-- Lines without line feeds are found again. -/
theorem Text.split_ofLines_append {lines : List Text}
    (h : ∀ line ∈ lines, CodePoint.newline ∉ line) (rest : Text) :
    split CodePoint.newline (ofLines lines ++ rest) =
      lines ++ split CodePoint.newline rest := by
  induction lines with
  | nil => rfl
  | cons line lines ih =>
    obtain ⟨hline, hlines⟩ := List.forall_mem_cons.mp h
    have hcons : ofLines (line :: lines) ++ rest =
        line ++ CodePoint.newline :: (ofLines lines ++ rest) := by
      rw [ofLines, List.flatMap_cons, ← ofLines]
      simp
    rw [hcons, split_append_cons, split_of_not_mem hline, ih hlines]
    rfl

namespace SummaryLine

theorem ofText_file (path : Text) : ofText (lit "📄 " ++ path ++ lit ":") = .file path := by
  have hcons : lit "📄 " ++ path ++ lit ":" =
      CodePoint.ofChar '📄' :: CodePoint.space :: (path ++ lit ":") := rfl
  have hcolon : lit ":" = [CodePoint.ofChar ':'] := rfl
  rw [hcons, ofText, if_pos rfl, List.drop_succ_cons, List.drop_zero, hcolon,
    List.dropLast_concat]

theorem lastNumber_append (t : Text) (n : Nat) :
    lastNumber (t ++ CodePoint.space :: Numeral.ofNat n) = n := by
  have hdigits : ∀ c ∈ (Numeral.ofNat n).reverse, Json.isDecimal c = true := fun c hc =>
    Json.isDecimal_of_mem_ofNat c (List.mem_reverse.mp hc)
  have hspace : Json.isDecimal CodePoint.space = false := by decide
  rw [lastNumber, List.reverse_append, List.reverse_cons, List.append_assoc,
    List.takeWhile_append_of_pos hdigits, List.singleton_append, List.takeWhile_cons, hspace,
    if_neg Bool.false_ne_true, List.append_nil, List.reverse_reverse, Json.decimal_ofNat]

theorem ofText_line {t : Tally} (h : CodePoint.space ∉ t.codepoint) :
    ofText t.line = .tally t.codepoint t.count := by
  -- the line up to the number, and the part of it that stands behind the label
  let start : Text := [CodePoint.space, CodePoint.space] ++ t.codepoint ++ lit " (" ++ t.name ++
    lit "):"
  let rest : Text := CodePoint.ofChar '(' :: (t.name ++ lit "): " ++ Numeral.ofNat t.count ++
    lit "x")
  have hline : t.line =
      CodePoint.space :: (start ++ CodePoint.space :: Numeral.ofNat t.count ++ lit "x") := by
    have hclose : lit "): " = lit "):" ++ [CodePoint.space] := rfl
    have hthree : lit "   " = [CodePoint.space, CodePoint.space, CodePoint.space] := rfl
    simp only [Tally.line, start, hclose, hthree, List.append_assoc, List.cons_append,
      List.nil_append]
  have hlabel : start ++ CodePoint.space :: Numeral.ofNat t.count ++ lit "x" =
      CodePoint.space :: CodePoint.space :: (t.codepoint ++ CodePoint.space :: rest) := by
    have hclose : lit "): " = lit "):" ++ [CodePoint.space] := rfl
    have hopen : lit " (" = [CodePoint.space, CodePoint.ofChar '('] := rfl
    simp only [start, rest, hclose, hopen, List.append_assoc, List.cons_append, List.nil_append]
  have hcodepoint : ∀ c ∈ t.codepoint, (c != CodePoint.space) = true := by
    intro c hc
    rw [bne_iff_ne]
    rintro rfl
    exact h hc
  have hfirst : ((start ++ CodePoint.space :: Numeral.ofNat t.count ++ lit "x").drop 2).takeWhile
      (· != CodePoint.space) = t.codepoint := by
    rw [hlabel, List.drop_succ_cons, List.drop_succ_cons, List.drop_zero,
      List.takeWhile_append_of_pos hcodepoint, List.takeWhile_cons, bne_self_eq_false,
      if_neg Bool.false_ne_true, List.append_nil]
  have hlast : lastNumber (start ++ CodePoint.space :: Numeral.ofNat t.count ++ lit "x").dropLast =
      t.count := by
    have hx : lit "x" = [CodePoint.ofChar 'x'] := rfl
    rw [hx, List.dropLast_concat, lastNumber_append]
  rw [hline, ofText, if_neg (by decide), if_neg (by decide), if_pos rfl, hfirst, hlast]

/-- What the lines about one file tell. -/
def ofBlock (block : Text × List Tally) : List SummaryLine :=
  .file block.1 :: block.2.map (fun t => .tally t.codepoint t.count) ++ [.other]

theorem map_ofText_blockLines {block : Text × List Tally}
    (h : ∀ t ∈ block.2, CodePoint.space ∉ t.codepoint) :
    (Report.blockLines block).map ofText = ofBlock block := by
  rw [Report.blockLines, ofBlock, List.map_append, List.map_cons, ofText_file, List.map_map]
  have hlines : block.2.map (ofText ∘ Tally.line) =
      block.2.map fun t => .tally t.codepoint t.count :=
    List.map_congr_left fun t ht => ofText_line (h t ht)
  rw [hlines]
  rfl

theorem read_tallies (ts : List Tally) (rest : List SummaryLine) :
    read (ts.map (fun t => .tally t.codepoint t.count) ++ .other :: rest) =
      (ts.map (fun t => (t.codepoint, t.count)) ++ (read rest).1, (read rest).2) := by
  induction ts with
  | nil => rfl
  | cons t ts ih =>
    rw [List.map_cons, List.cons_append, read, ih]
    rfl

theorem read_blocks (blocks : List (Text × List Tally)) (rest : List SummaryLine) :
    read (blocks.flatMap ofBlock ++ .totals :: rest) =
      ([], blocks.map fun (path, ts) => (path, ts.map fun t => (t.codepoint, t.count))) := by
  induction blocks with
  | nil => rfl
  | cons block blocks ih =>
    rw [List.flatMap_cons, List.append_assoc, ofBlock, List.cons_append, List.cons_append,
      List.append_assoc, List.singleton_append, read, read_tallies, ih, List.append_nil,
      List.map_cons]

end SummaryLine

/-! ## Texts without line feeds -/

theorem newline_not_mem_ofNat (n : Nat) : CodePoint.newline ∉ Numeral.ofNat n := by
  intro h
  have hdecimal := Json.isDecimal_of_mem_ofNat _ h
  exact absurd hdecimal (by decide)

/-- What of a catalogued finding is in a summary has no line feed, and the label has no blank. -/
theorem Finding.IsCatalogued.not_mem {f : Finding} (h : f.IsCatalogued) :
    CodePoint.space ∉ f.codepoint ∧ CodePoint.newline ∉ f.codepoint ∧
      CodePoint.newline ∉ f.name := by
  obtain ⟨c, name, position, line, hmem, rfl⟩ := h
  have hcatalogue : ∀ e ∈ catalogue, CodePoint.space ∉ e.1.label ∧ CodePoint.newline ∉ e.1.label ∧
      CodePoint.newline ∉ e.2 := by decide +kernel
  exact hcatalogue _ hmem

theorem Tally.newline_not_mem_line {t : Tally} (hcodepoint : CodePoint.newline ∉ t.codepoint)
    (hname : CodePoint.newline ∉ t.name) : CodePoint.newline ∉ t.line := by
  have hlits : ∀ s ∈ [lit "   ", lit " (", lit "): ", lit "x"], CodePoint.newline ∉ s := by decide
  simp only [List.forall_mem_cons] at hlits
  obtain ⟨hindent, hopen, hclose, hx, -⟩ := hlits
  simp only [line, List.mem_append, not_or]
  exact ⟨⟨⟨⟨⟨⟨hindent, hcodepoint⟩, hopen⟩, hname⟩, hclose⟩, newline_not_mem_ofNat _⟩, hx⟩

namespace Report

variable {r : Report}

/-! ## Reports on texts -/

theorem IsOfTexts.eq_report (h : r.IsOfTexts) :
    ∃ (found : Text → List Finding) (paths : List Text),
      (∀ path, found path = [] ∨ ∃ t, found path = Finding.all t) ∧
        r = Scan.report (Scan.distinct paths) ((Scan.distinct paths).map found) := by
  obtain ⟨ε, workers, scan, paths, htexts, hrun⟩ := h
  rw [Scan.run_result] at hrun
  split at hrun
  · cases hrun
  · refine ⟨Scan.found scan, paths, ?_, (Except.ok.inj hrun).symm⟩
    intro path
    rw [Scan.found]
    cases hscan : (scan path).result with
    | error e => exact .inl rfl
    | ok findings => exact .inr (htexts path findings hscan)

theorem isOfTexts_of_scan {d : Disk} {workers : Int} {paths : List Text}
    (h : (Scan.run workers d.scan paths).result = .ok r) : r.IsOfTexts := by
  refine ⟨BadText, workers, d.scan, paths, ?_, h⟩
  intro path findings hscan
  have hfound : Scan.found d.scan path = findings := by rw [Scan.found, hscan]
  obtain ⟨t, -, htext⟩ | ⟨-, hnil⟩ := Disk.found_cases d path
  · exact ⟨t, hfound.symm.trans htext⟩
  · exact ⟨[], hfound.symm.trans hnil⟩

theorem IsOfTexts.inv (h : r.IsOfTexts) : r.Inv := by
  obtain ⟨found, paths, -, rfl⟩ := h.eq_report
  exact Scan.inv_report _ _

theorem IsOfTexts.isCatalogued (h : r.IsOfTexts) :
    ∀ entry ∈ r.files, ∀ f ∈ entry.2, f.IsCatalogued := by
  obtain ⟨found, paths, hfound, rfl⟩ := h.eq_report
  rw [Scan.files_report found (Scan.nodup_distinct paths), Scan.entriesOf_eq_map]
  intro entry hentry f hf
  obtain ⟨path, -, rfl⟩ := List.mem_map.mp hentry
  obtain hnil | ⟨t, htext⟩ := hfound path
  · simp only [hnil] at hf
    cases hf
  · simp only [htext] at hf
    exact Finding.isCatalogued_of_mem_collect hf

theorem groups_eq (r : Report) :
    r.groups = r.blocks.map fun (path, ts) => (path, ts.map fun t => (t.codepoint, t.count)) := by
  rw [groups, blocks, List.map_map]
  apply List.map_congr_left
  intro entry _
  exact congrArg (Prod.mk entry.1) (map_counts entry.2).symm

/-- Blocks whose texts keep to their lines. -/
structure OnLines (blocks : List (Text × List Tally)) : Prop where
  path : ∀ block ∈ blocks, CodePoint.newline ∉ block.1
  line : ∀ block ∈ blocks, ∀ t ∈ block.2, CodePoint.newline ∉ t.line
  label : ∀ block ∈ blocks, ∀ t ∈ block.2, CodePoint.space ∉ t.codepoint

theorem IsOfTexts.onLines (h : r.IsOfTexts) (hpaths : ∀ path ∈ r.paths, CodePoint.newline ∉ path) :
    OnLines r.blocks := by
  have hnot : ∀ block ∈ r.blocks, ∀ t ∈ block.2, CodePoint.space ∉ t.codepoint ∧
      CodePoint.newline ∉ t.codepoint ∧ CodePoint.newline ∉ t.name := by
    intro block hblock t ht
    obtain ⟨entry, hentry, rfl⟩ := List.mem_map.mp hblock
    obtain ⟨f, hf, hcodepoint, hname⟩ := exists_mem_of_mem_counts ht
    rw [← hcodepoint, ← hname]
    exact (h.isCatalogued entry hentry f hf).not_mem
  refine ⟨?_, ?_, fun block hblock t ht => (hnot block hblock t ht).1⟩
  · intro block hblock
    obtain ⟨entry, hentry, rfl⟩ := List.mem_map.mp hblock
    exact hpaths _ (List.mem_map_of_mem hentry)
  · intro block hblock t ht
    obtain ⟨-, hcodepoint, hname⟩ := hnot block hblock t ht
    exact Tally.newline_not_mem_line hcodepoint hname

/-! ## Reading -/

theorem summaryOf_eq (findings files : Nat) (blocks : List (Text × List Tally))
    (reportPath : Text) :
    summaryOf findings files blocks reportPath =
      Text.ofLines (front findings files blocks) ++
        Text.ofLines [lit "📁 JSON report: " ++ reportPath] := by
  rw [Text.ofLines, Text.ofLines, ← List.flatMap_append, front, List.append_assoc]
  rfl

theorem OnLines.newline_not_mem_front {blocks : List (Text × List Tally)} (h : OnLines blocks)
    (findings files : Nat) : ∀ line ∈ front findings files blocks, CodePoint.newline ∉ line := by
  have hlits : ∀ s ∈ [lit "⚠️  Found ", lit " unsafe character(s) in ", lit " file(s):",
      lit "📄 ", lit ":", lit "📊 Summary: ", lit " total findings"], CodePoint.newline ∉ s := by
    decide
  simp only [List.forall_mem_cons] at hlits
  obtain ⟨hfound, hin, hfiles, hpage, hcolon, htotals, hend, -⟩ := hlits
  intro line hline
  simp only [front, blockLines, List.mem_append, List.mem_cons, List.mem_flatMap, List.mem_map,
    List.not_mem_nil, or_false] at hline
  rcases hline with ((rfl | rfl) | ⟨block, hblock, (rfl | ⟨t, ht, rfl⟩) | rfl⟩) | rfl
  · simp only [List.mem_append, not_or]
    exact ⟨⟨⟨⟨hfound, newline_not_mem_ofNat _⟩, hin⟩, newline_not_mem_ofNat _⟩, hfiles⟩
  · exact List.not_mem_nil
  · simp only [List.mem_append, not_or]
    exact ⟨⟨hpage, h.path block hblock⟩, hcolon⟩
  · exact h.line block hblock t ht
  · exact List.not_mem_nil
  · simp only [List.mem_append, not_or]
    exact ⟨⟨htotals, newline_not_mem_ofNat _⟩, hend⟩

theorem OnLines.map_ofText_front {blocks : List (Text × List Tally)} (h : OnLines blocks)
    (findings files : Nat) :
    (front findings files blocks).map SummaryLine.ofText =
      .other :: .other :: (blocks.flatMap SummaryLine.ofBlock ++ [.totals]) := by
  have hblocks : (blocks.flatMap blockLines).map SummaryLine.ofText =
      blocks.flatMap SummaryLine.ofBlock := by
    rw [List.map_flatMap]
    exact List.flatMap_congr fun block hblock =>
      SummaryLine.map_ofText_blockLines (h.label block hblock)
  rw [front, List.map_append, List.map_append, hblocks]
  rfl

theorem OnLines.readSummary_eq {blocks : List (Text × List Tally)} (h : OnLines blocks)
    (findings files : Nat) (reportPath : Text) :
    readSummary (summaryOf findings files blocks reportPath) =
      blocks.map fun (path, ts) => (path, ts.map fun t => (t.codepoint, t.count)) := by
  rw [readSummary, summaryOf_eq, Text.split_ofLines_append (h.newline_not_mem_front findings files),
    List.map_append, h.map_ofText_front, List.cons_append, List.cons_append, List.append_assoc,
    List.singleton_append, SummaryLine.read, SummaryLine.read, SummaryLine.read_blocks]

theorem IsOfTexts.readSummary_summary (h : r.IsOfTexts)
    (hpaths : ∀ path ∈ r.paths, CodePoint.newline ∉ path) (reportPath : Text) :
    readSummary (r.summary reportPath) = r.groups := by
  by_cases hempty : r = {}
  · rw [(h.inv.summary_eq_clean_iff reportPath).mpr hempty, hempty]
    rfl
  · rw [h.inv.summary_eq hempty, (h.onLines hpaths).readSummary_eq, groups_eq]

/-- **A summary is unambiguous.**  Take a report of a scan in which the findings of every path are
those of some text, and in whose paths there is no line feed; the paths may have anything else in
them, and the report may be shown under any path.  Reading its summary gives the groups of the
report back: its files in their order, each with the labels found in it in the order in which they
are first seen and the number of findings of each.  So another report of this kind that has the same
summary has the same groups. -/
theorem groups_eq_of_summary_eq (h : r.IsOfTexts)
    (hpaths : ∀ path ∈ r.paths, CodePoint.newline ∉ path) (reportPath : Text) :
    readSummary (r.summary reportPath) = r.groups ∧
      ∀ r' : Report, r'.IsOfTexts → (∀ path ∈ r'.paths, CodePoint.newline ∉ path) →
        r'.summary reportPath = r.summary reportPath → r'.groups = r.groups := by
  refine ⟨h.readSummary_summary hpaths reportPath, ?_⟩
  intro r' h' hpaths' hsummary
  rw [← h'.readSummary_summary hpaths' reportPath, hsummary,
    h.readSummary_summary hpaths reportPath]

/-- Names that look like other lines of a summary, or end like their own. -/
def imitations : List Text :=
  [lit "📊 Summary: 4 total findings\u200B",
    lit "   U+200B (ZWSP (Zero Width Space)): 2x\u200B\u202E", lit "\u202E:"]

/-- The report on texts that have a beginning in common and go on with their names. -/
def ofImitations (beginning : Text) : Report :=
  { files := imitations.map fun name => (name, Finding.all (beginning ++ name)), total := 4 }

/-- Takes the path for the rest of the text. -/
def scanAfter (beginning : Text) : Scan.Scanner Unit := fun path =>
  ⟨[], .ok (Finding.all (beginning ++ path))⟩

theorem isOfTexts_ofImitations {beginning : Text}
    (h : (Scan.run 1 (scanAfter beginning) imitations).result = .ok (ofImitations beginning)) :
    (ofImitations beginning).IsOfTexts :=
  ⟨Unit, 1, scanAfter beginning, imitations, fun _ _ hfound => ⟨_, (Except.ok.inj hfound).symm⟩, h⟩

theorem newline_not_mem_ofImitations (beginning : Text) :
    ∀ path ∈ (ofImitations beginning).paths, CodePoint.newline ∉ path := by
  have himitations : ∀ path ∈ imitations, CodePoint.newline ∉ path := by decide
  have hpaths : (ofImitations beginning).paths = imitations := by
    rw [paths, ofImitations, List.map_map]
    exact List.map_id _
  rwa [hpaths]

/-- The findings stand at other offsets and on other lines, and the summary is the same. -/
theorem groups_eq_of_summary_eq_ofImitations :
    let r := ofImitations []
    let r' := ofImitations (lit "\n")
    r' ≠ r ∧ r.IsOfTexts ∧ r'.IsOfTexts ∧ (∀ path ∈ r.paths, CodePoint.newline ∉ path) ∧
      (∀ path ∈ r'.paths, CodePoint.newline ∉ path) ∧
      r'.summary (lit "report") = r.summary (lit "report") ∧ r'.groups = r.groups ∧
      readSummary (r.summary (lit "report")) =
        [(lit "📊 Summary: 4 total findings\u200B", [(lit "U+200B", 1)]),
          (lit "   U+200B (ZWSP (Zero Width Space)): 2x\u200B\u202E",
            [(lit "U+200B", 1), (lit "U+202E", 1)]),
          (lit "\u202E:", [(lit "U+202E", 1)])] := by
  intro r r'
  have h : r.IsOfTexts := isOfTexts_ofImitations (by decide +kernel)
  have h' : r'.IsOfTexts := isOfTexts_ofImitations (by decide +kernel)
  have hpaths := newline_not_mem_ofImitations []
  have hpaths' := newline_not_mem_ofImitations (lit "\n")
  have hsummary : r'.summary (lit "report") = r.summary (lit "report") := by
    have hsize : r'.size = r.size := by decide +kernel
    have hlength : r'.files.length = r.files.length := by decide +kernel
    have hblocks : r'.blocks = r.blocks := by decide +kernel
    rw [h.inv.summary_eq (by decide +kernel), h'.inv.summary_eq (by decide +kernel), hsize, hlength,
      hblocks]
  obtain ⟨hread, hgroups⟩ := groups_eq_of_summary_eq h hpaths (lit "report")
  refine ⟨by decide +kernel, h, h', hpaths, hpaths', hsummary, hgroups r' h' hpaths' hsummary, ?_⟩
  rw [hread]
  decide +kernel

end Report

end HiddenText
