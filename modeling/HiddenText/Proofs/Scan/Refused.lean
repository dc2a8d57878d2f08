import HiddenText.Proofs.Files.Steps
import HiddenText.Proofs.Scan.Reading
import HiddenText.Proofs.Scan.Repeats

/-!
# Refused paths

A file that cannot be opened, or is not UTF-8 throughout, has no findings, and a scan of many paths
goes past it.  But a text that is no path is refused before anything is opened
(`Path.toBytes_eq_error_iff`), unless opening it has a fault.  This is the one way in which a scan
can fail (`Disk.scan_eq_error_iff`), and a refused path is the failure of all the paths it is listed
with.  Without one there is a report, and paths that give no text may be left out of the list.

Main statement: `Disk.run_fails_iff_refuses`.
-/

namespace HiddenText

def CodePoint.null : CodePoint := .ofNat 0

/-- What is wrong with a text that is no path: it has a code point without bytes, or else it has a
null character. -/
def BadText.Spoils : BadText → Text → Prop
  | .unencodable, path => ∃ c ∈ path, Utf8.encodable c = false
  | .nullCharacter, path => CodePoint.null ∈ path ∧ ∀ c ∈ path, Utf8.encodable c = true

theorem Path.toBytes_eq_error_iff {path : Text} {b : BadText} :
    toBytes path = .error b ↔ b.Spoils path := by
  have hnull : CodePoint.null.val < 0x80 := by decide
  rw [toBytes]
  cases hencode : Utf8.encode? path with
  | none =>
    obtain ⟨c, hc, hbad⟩ := Utf8.encode?_eq_none_iff.mp hencode
    have hsome : ¬∀ c ∈ path, Utf8.encodable c = true := by
      intro hall
      rw [hall c hc] at hbad
      cases hbad
    cases b with
    | unencodable => exact iff_of_true rfl ⟨c, hc, hbad⟩
    | nullCharacter => simp [BadText.Spoils, hsome]
  | some bytes =>
    have hall := (Utf8.encode?_eq_some_iff.mp hencode).1
    have hzero : 0 ∈ bytes ↔ CodePoint.null ∈ path := Utf8.ascii_mem_iff hnull hencode
    have hnone : ¬∃ c ∈ path, Utf8.encodable c = false := by
      rw [← Utf8.encode?_eq_none_iff, hencode]
      exact Option.some_ne_none bytes
    by_cases hmem : 0 ∈ bytes
    · cases b with
      | unencodable => simp [BadText.Spoils, hnone, hmem]
      | nullCharacter => simpa [BadText.Spoils, hmem, hzero.mp hmem] using hall
    · cases b with
      | unencodable => simp [BadText.Spoils, hnone, hmem]
      | nullCharacter => simp [BadText.Spoils, hmem, mt hzero.mpr hmem]

namespace Disk

variable {d : Disk} {path : Text} {b : BadText} {paths : List Text}

/-- The text is not even looked up as a path. -/
def Refuses (d : Disk) (path : Text) (b : BadText) : Prop :=
  d.faults.files.lookup path = none ∧ b.Spoils path

/-- The path leads to a file that holds the text. -/
def Holds (d : Disk) (path t : Text) : Prop :=
  ∃ data, d.read path = .ok data ∧ Utf8.Encodes data t

theorem read_eq_badText_iff : d.read path = .error (.badText b) ↔ d.Refuses path b := by
  rw [read, Refuses, ← Path.toBytes_eq_error_iff]
  cases d.faults.files.lookup path with
  | some c => simp [FileSystem.fail]
  | none =>
    simp only [true_and]
    rw [FileSystem.read]
    cases Path.toBytes path with
    | error b' => simp
    | ok bytes =>
      simp only
      cases d.files.stat bytes with
      | error c => simp [FileSystem.fail]
      | ok node => cases node <;> simp [FileSystem.fail]

/-! ## One path -/

theorem scan_eq_error_iff : (d.scan path).result = .error b ↔ d.Refuses path b := by
  rw [← read_eq_badText_iff, scan]
  cases hread : d.read path with
  | error e => cases e <;> simp [Scan.ofRead]
  | ok data =>
    rw [Scan.ofRead]
    cases Utf8.decode data <;> simp

theorem scan_isOk_iff : (d.scan path).result.isOk ↔ ∀ b, ¬d.Refuses path b := by
  simp only [← scan_eq_error_iff]
  cases (d.scan path).result <;> simp [Except.isOk, Except.toBool]

theorem scan_of_holds {t : Text} (h : d.Holds path t) :
    (d.scan path).result = .ok (Finding.all t) := by
  obtain ⟨data, hread, ht⟩ := h
  rw [scan_of_encodes hread ht]

theorem found_cases (d : Disk) (path : Text) :
    (∃ t, d.Holds path t ∧ Scan.found d.scan path = Finding.all t) ∨
      (∀ t, ¬d.Holds path t) ∧ Scan.found d.scan path = [] := by
  by_cases h : ∃ t, d.Holds path t
  · obtain ⟨t, ht⟩ := h
    refine .inl ⟨t, ht, ?_⟩
    rw [Scan.found, scan_of_holds ht]
  · have hnone := not_exists.mp h
    refine .inr ⟨hnone, ?_⟩
    rw [Scan.found, scan]
    cases hread : d.read path with
    | error e => cases e <;> rfl
    | ok data =>
      rw [Scan.ofRead]
      cases hdecode : Utf8.decode data with
      | error fault => rfl
      | ok t => exact absurd ⟨data, hread, Utf8.encodes_of_decode hdecode⟩ (hnone t)

theorem found_eq_nil_of_not_holds (h : ∀ t, ¬d.Holds path t) : Scan.found d.scan path = [] := by
  obtain ⟨t, ht, -⟩ | ⟨-, hnil⟩ := found_cases d path
  · exact absurd ht (h t)
  · exact hnil

theorem scan_of_not_refuses (h : ∀ b, ¬d.Refuses path b) :
    (d.scan path).result = .ok (Scan.found d.scan path) := by
  rw [Scan.found]
  cases hscan : (d.scan path).result with
  | ok findings => rfl
  | error b => exact absurd (scan_eq_error_iff.mp hscan) (h b)

/-! ## Many paths -/

theorem run_eq_error_iff (workers : Int) :
    (Scan.run workers d.scan paths).result = .error b ↔ ∃ before path after,
      paths = before ++ path :: after ∧ (∀ p ∈ before, ∀ e, ¬d.Refuses p e) ∧
        d.Refuses path b := by
  simp only [Scan.run_result_eq_error_iff, scan_isOk_iff, scan_eq_error_iff]

theorem run_of_not_refuses (h : ∀ path ∈ paths, ∀ b, ¬d.Refuses path b) (workers : Int) :
    (Scan.run workers d.scan paths).result = .ok (Scan.report (Scan.distinct paths)
      ((Scan.distinct paths).map (Scan.found d.scan))) := by
  have hnone : paths.findSome? (Scan.failure? d.scan) = none := by
    rw [List.findSome?_eq_none_iff]
    exact fun path hpath => Scan.failure?_eq_none_iff.mpr (scan_isOk_iff.mpr (h path hpath))
  rw [Scan.run_result, hnone]

/-- **A scan fails only at a refused path.**  The scan of one path fails just in case the path is
refused.  If it does not fail there is a list of findings, that of the text which the file holds; it
is empty if the path cannot be opened or read or the file holds no text.  The scan of many paths
fails just in case one of them is refused, the first of these being the failure.  If it does not fail
there is a report, and it stays the same when paths are left out of the list that lead to no text. -/
theorem run_fails_iff_refuses (d : Disk) :
    (∀ path b, (d.scan path).result = .error b ↔ d.Refuses path b) ∧
    (∀ path, (∀ b, ¬d.Refuses path b) → (∀ t, ¬d.Holds path t) → (d.scan path).result = .ok []) ∧
    (∀ path t, d.Holds path t → (d.scan path).result = .ok (Finding.all t)) ∧
    ∀ workers paths,
      (∀ b, (Scan.run workers d.scan paths).result = .error b ↔ ∃ before path after,
        paths = before ++ path :: after ∧ (∀ p ∈ before, ∀ e, ¬d.Refuses p e) ∧
          d.Refuses path b) ∧
      ((∀ path ∈ paths, ∀ b, ¬d.Refuses path b) → ∃ report,
        (Scan.run workers d.scan paths).result = .ok report ∧
        ∀ kept : Text → Bool, (∀ path ∈ paths, ∀ t, d.Holds path t → kept path = true) →
          (Scan.run workers d.scan (paths.filter kept)).result = .ok report) := by
  refine ⟨fun _ _ => scan_eq_error_iff, ?_, fun _ _ => scan_of_holds, ?_⟩
  · intro path hrefuses hholds
    rw [scan_of_not_refuses hrefuses, found_eq_nil_of_not_holds hholds]
  · intro workers paths
    refine ⟨fun _ => run_eq_error_iff workers, ?_⟩
    intro hrefuses
    refine ⟨_, run_of_not_refuses hrefuses workers, ?_⟩
    intro kept hkept
    have hfound : ∀ path ∈ paths, Scan.found d.scan path ≠ [] → kept path = true := by
      intro path hpath hne
      by_contra hnot
      refine hne (found_eq_nil_of_not_holds ?_)
      intro t ht
      exact hnot (hkept path hpath t ht)
    have hrest : ∀ path ∈ paths.filter kept, ∀ b, ¬d.Refuses path b := fun path hpath =>
      hrefuses path (List.mem_of_mem_filter hpath)
    rw [run_of_not_refuses hrest, Scan.report_congr (Scan.entriesOf_filter hfound)]

/-- A directory with one file, which holds an override. -/
def overrideDisk : Disk := ofFile [0x61] [0xE2, 0x80, 0xAE]

/-- A missing file fails no scan, and does not show in the report on the file before it. -/
theorem run_fails_iff_refuses_overrideDisk :
    (∀ path ∈ [lit "a", lit "b"], ∀ b, ¬overrideDisk.Refuses path b) ∧
      overrideDisk.Holds (lit "a") (lit "\u202E") ∧ (∀ t, ¬overrideDisk.Holds (lit "b") t) ∧
      (overrideDisk.scan (lit "a")).result = .ok (Finding.all (lit "\u202E")) ∧
      (overrideDisk.scan (lit "b")).result = .ok [] ∧
      ∃ report, (Scan.run 1 overrideDisk.scan [lit "a", lit "b"]).result = .ok report ∧
        (Scan.run 1 overrideDisk.scan [lit "a"]).result = .ok report := by
  obtain ⟨hone, hempty, hfindings, hmany⟩ := run_fails_iff_refuses overrideDisk
  have hread : overrideDisk.read (lit "b") = .error (FileSystem.fail .noEntry (lit "b")) := rfl
  have ha : overrideDisk.Holds (lit "a") (lit "\u202E") := ⟨_, rfl, Utf8.encodes_of_decode rfl⟩
  have hb : ∀ t, ¬overrideDisk.Holds (lit "b") t := by
    rintro t ⟨data, hdata, -⟩
    rw [hread] at hdata
    cases hdata
  have hrefuses : ∀ path ∈ [lit "a", lit "b"], ∀ b, ¬overrideDisk.Refuses path b := by
    have hresults : ∀ path ∈ [lit "a", lit "b"], ∀ b ∈ [BadText.nullCharacter, .unencodable],
        (overrideDisk.scan path).result ≠ .error b := by decide +kernel
    intro path hpath b hrefused
    refine hresults path hpath b ?_ ((hone path b).mpr hrefused)
    cases b <;> decide
  obtain ⟨report, hrun, hkept⟩ := (hmany 1 [lit "a", lit "b"]).2 hrefuses
  have hpaths : [lit "a", lit "b"].filter (· == lit "a") = [lit "a"] := by decide
  refine ⟨hrefuses, ha, hb, hfindings _ _ ha, ?_, report, hrun, ?_⟩
  · exact hempty _ (hrefuses _ (List.mem_cons_of_mem _ List.mem_cons_self)) hb
  · rw [← hpaths]
    refine hkept (· == lit "a") ?_
    intro path hpath t ht
    rcases List.mem_pair.mp hpath with rfl | rfl
    · exact beq_self_eq_true _
    · exact absurd ht (hb t)

/-- A text with a null character is refused, and the file before it has no report either. -/
theorem scan_null_fails :
    (overrideDisk.scan (lit "a\x00b")).result = .error .nullCharacter ∧
      (Scan.run 1 overrideDisk.scan [lit "a"]).result =
        .ok { files := [(lit "a", Finding.all (lit "\u202E"))], total := 1 } ∧
      (Scan.run 1 overrideDisk.scan [lit "a", lit "a\x00b"]).result = .error .nullCharacter := by
  decide +kernel

end Disk

end HiddenText
