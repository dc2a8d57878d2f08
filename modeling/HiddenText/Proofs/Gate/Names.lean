import HiddenText.Proofs.Files.Steps
import HiddenText.Proofs.Finding.Offsets
import HiddenText.Proofs.Gate.Verdict
import HiddenText.Proofs.Json.Bytes
import HiddenText.Proofs.Json.RoundTrip
import HiddenText.Proofs.Listing.Tracked
import HiddenText.Proofs.Scan.Refused
import HiddenText.Proofs.Scan.Schedule

/-!
# Names from git to the report

A tracked name is read from the output of git, is a path that is opened, a key of the report, and
part of its text, which is written as bytes and read again.  It stays the same all the way, because
the text of a report is what its own bytes are read as (`Report.isRead_render`).

Main statement: `Gate.names_kept`.
-/

namespace HiddenText

/-! ## The text of a report -/

namespace Finding

/-- No text of a finding has a kept byte. -/
theorem IsCatalogued.isRead {f : Finding} (h : f.IsCatalogued) :
    ∀ t ∈ f.toJson.texts, Utf8.IsRead t := by
  obtain ⟨c, name, position, line, hmem, rfl⟩ := h
  have hnames : ∀ t ∈ [lit "char", lit "codepoint", lit "name", lit "position", lit "line"],
      Utf8.IsAscii t := by decide
  have hcatalogue : ∀ e ∈ catalogue, Utf8.IsAscii e.1.label ∧ Utf8.IsAscii e.2 := by
    decide +kernel
  have hchar : ∀ d ∈ [c], d.isSurrogate = false :=
    List.forall_mem_singleton.mpr (Catalogue.isSurrogate_of_mem hmem)
  have htexts : (ofChar c name position line).toJson.texts =
      [lit "char", [c], lit "codepoint", c.label, lit "name", name, lit "position", lit "line"] :=
    rfl
  simp only [List.forall_mem_cons] at hnames
  obtain ⟨hfield, hcodepoint, hname, hposition, hline, -⟩ := hnames
  rw [htexts]
  simp only [List.forall_mem_cons]
  exact ⟨Utf8.isRead_of_ascii hfield, Utf8.isRead_of_scalar hchar, Utf8.isRead_of_ascii hcodepoint,
    Utf8.isRead_of_ascii (hcatalogue _ hmem).1, Utf8.isRead_of_ascii hname,
    Utf8.isRead_of_ascii (hcatalogue _ hmem).2, Utf8.isRead_of_ascii hposition,
    Utf8.isRead_of_ascii hline, by simp⟩

end Finding

/-- The texts of a report come from reading bytes, if its paths do. -/
theorem Report.isRead_texts {r : Report} (hpaths : ∀ path ∈ r.paths, Utf8.IsRead path)
    (hfound : ∀ entry ∈ r.files, ∀ f ∈ entry.2, f.IsCatalogued) :
    ∀ t ∈ r.toJson.texts, Utf8.IsRead t := by
  intro t ht
  rw [toJson, Json.texts, Json.mem_fieldTexts] at ht
  obtain ⟨field, hfield, ht⟩ := ht
  obtain ⟨entry, hentry, rfl⟩ := List.mem_map.mp hfield
  rcases ht with rfl | ht
  · exact hpaths _ (List.mem_map_of_mem hentry)
  · rw [Json.texts, Json.mem_itemTexts] at ht
    obtain ⟨v, hv, ht⟩ := ht
    obtain ⟨f, hf, rfl⟩ := List.mem_map.mp hv
    exact (hfound entry hentry f hf).isRead t ht

/-- The text of a report is what its own bytes are read as, if its texts are. -/
theorem Report.isRead_render {r : Report} (h : ∀ t ∈ r.toJson.texts, Utf8.IsRead t) :
    Utf8.IsRead r.render :=
  Json.isRead_print 0 r.toJson h

/-! ## What has been scanned -/

namespace Disk

variable {d : Disk} {workers : Int} {paths : List Text} {report : Report}

instance (d : Disk) (path : Text) : Decidable (d.Shows path) :=
  decidable_of_iff _ found_ne_nil_iff

theorem isCatalogued_of_mem_found {path : Text} {f : Finding} (h : f ∈ Scan.found d.scan path) :
    f.IsCatalogued := by
  obtain ⟨t, -, hfound⟩ | ⟨-, hnil⟩ := found_cases d path
  · rw [hfound] at h
    exact Finding.isCatalogued_of_mem_collect h
  · rw [hnil] at h
    cases h

/-- The files of a report are the paths that show something, each with what is found. -/
theorem files_of_scan (h : (Scan.run workers d.scan paths).result = .ok report) :
    report.files = ((Scan.distinct paths).filter fun path => d.Shows path).map
      fun path => (path, Scan.found d.scan path) := by
  rw [Scan.run_result] at h
  split at h
  · cases h
  · obtain rfl := Except.ok.inj h
    rw [Scan.files_report _ (Scan.nodup_distinct paths), Scan.entriesOf_eq_map]
    congr 1
    apply List.filter_congr
    intro path _
    rw [Bool.eq_iff_iff, Bool.not_eq_true', List.isEmpty_eq_false_iff, found_ne_nil_iff,
      decide_eq_true_iff]

theorem paths_of_scan (h : (Scan.run workers d.scan paths).result = .ok report) :
    report.paths = (Scan.distinct paths).filter fun path => d.Shows path := by
  rw [Report.paths, files_of_scan h, List.map_map]
  exact List.map_id _

end Disk

/-- With a report, every distinct path has been opened. -/
theorem Scan.opened_eq_distinct {ε : Type} {scan : Scanner ε} {workers : Int} {paths : List Text}
    {report : Report} (h : (run workers scan paths).result = .ok report) :
    opened workers scan paths = distinct paths := by
  have hnone : paths.findSome? (failure? scan) = none := by
    rw [run_result] at h
    cases hfailure : paths.findSome? (failure? scan) with
    | none => rfl
    | some e =>
      rw [hfailure] at h
      cases h
  rw [opened]
  split
  · rfl
  · apply begun_eq_self
    rw [inTurn_map_result, findSome?_distinct, hnone]

/-- Elements that a map keeps apart repeat where their images do. -/
theorem eraseDups_map {α β : Type} [BEq α] [LawfulBEq α] [BEq β] [LawfulBEq β] {f : α → β}
    (hf : Function.Injective f) (l : List α) : (l.map f).eraseDups = l.eraseDups.map f := by
  induction l using List.reverseRecOn with
  | nil => rfl
  | append_singleton l a ih =>
    rw [List.map_append, List.eraseDups_append, List.eraseDups_append, List.map_append, ih]
    congr 1
    rw [List.map_singleton, List.removeAll, List.removeAll, List.filter_singleton,
      List.filter_singleton]
    by_cases h : a ∈ l <;> simp [h, hf.eq_iff, List.eraseDups_cons]

namespace Gate

variable {w : World} {arguments : List Text} {plan : Plan} {paths : List Text} {report : Report}

theorem opened_finish (log : List Event) :
    (finish w plan log paths).opened = Scan.opened plan.workers w.disk.scan paths := by
  rw [finish]
  rcases Scan.run plan.workers w.disk.scan paths with ⟨scanLog, _ | report⟩ <;> rfl

theorem Reported.opened_eq (h : Reported w arguments plan paths report) :
    (run w arguments).opened = Scan.distinct paths := by
  obtain ⟨o, hoptions, hplan⟩ := h.accepted
  obtain ⟨log, hcarry⟩ := carryOut_of_list h.listed
  rw [run_of_plan hoptions hplan, hcarry, opened_finish, Scan.opened_eq_distinct h.scanned]

theorem Reported.paths_eq {names : List Name} {errors : Bytes} {code : Int}
    (h : Reported w arguments plan paths report) (hprovider : plan.provider = .git)
    (hgit : w.git = .finished (GitOutcome.terminated names) errors code)
    (hnames : ∀ n ∈ names, 0 ∉ n ∧ GitOutcome.isBlankName n = false) :
    paths = names.map Utf8.decodeEscaped := by
  have hlisted := h.listed
  rw [hprovider, hgit, Provider.list, GitOutcome.list] at hlisted
  by_cases hcode : code ≠ 0
  · rw [if_pos hcode] at hlisted
    cases hlisted
  · rw [if_neg hcode] at hlisted
    have hall : (names.filter fun n => !GitOutcome.isBlankName n) = names := by
      rw [List.filter_eq_self]
      intro n hn
      rw [(hnames n hn).2]
      rfl
    obtain rfl := Except.ok.inj hlisted
    rw [GitOutcome.paths_terminated fun n hn => (hnames n hn).1, hall]

section

variable {names : List Name} (h : Reported w arguments plan (names.map Utf8.decodeEscaped) report)
include h

theorem Reported.keys_eq :
    report.paths = (names.eraseDups.filter fun n => w.disk.Shows (Utf8.decodeEscaped n)).map
      Utf8.decodeEscaped := by
  have hinjective : Function.Injective Utf8.decodeEscaped :=
    fun _ _ => Utf8.decodeEscaped_injective
  rw [Disk.paths_of_scan h.scanned, Scan.distinct, eraseDups_map hinjective, List.filter_map]
  rfl

theorem Reported.exists_name {key : Text} (hkey : key ∈ report.paths) :
    ∃ n ∈ names, Utf8.decodeEscaped n = key := by
  rw [h.keys_eq] at hkey
  obtain ⟨n, hn, rfl⟩ := List.mem_map.mp hkey
  exact ⟨n, List.mem_eraseDups.mp (List.mem_of_mem_filter hn), rfl⟩

theorem Reported.isRead_render : Utf8.IsRead report.render := by
  apply Report.isRead_render
  apply Report.isRead_texts
  · intro key hkey
    obtain ⟨n, -, hn⟩ := h.exists_name hkey
    exact ⟨n, hn⟩
  · rw [Disk.files_of_scan h.scanned]
    intro entry hentry f hf
    obtain ⟨path, -, rfl⟩ := List.mem_map.mp hentry
    exact Disk.isCatalogued_of_mem_found hf

end

/-- **The bytes of names survive from git to the report.**  Take a run on tracked files that writes
its report, where git ends every name with a null byte, and no name has one in it or is of blanks
alone.  Then the report file is read as the text that was meant, whatever bytes the names have.  The
keys of the object in it have the bytes of the names whose files show something, in the order of git
and each once.  No two keys are the same, and each one is a path that was opened, under the very
bytes of a name. -/
theorem names_kept {names : List Name} {errors : Bytes} {code : Int}
    (h : Reported w arguments plan paths report) (hprovider : plan.provider = .git)
    (hgit : w.git = .finished (GitOutcome.terminated names) errors code)
    (hnames : ∀ n ∈ names, 0 ∉ n ∧ GitOutcome.isBlankName n = false) :
    ∃ bytes members, (run w arguments).files.read plan.reportPath = .ok bytes ∧
      Utf8.decodeEscaped bytes = report.render ∧
      Json.decode (Utf8.decodeEscaped bytes) = some (.object members) ∧
      members.map (fun member => Utf8.encode? member.1) =
        (names.eraseDups.filter fun n => w.disk.Shows (Utf8.decodeEscaped n)).map some ∧
      (members.map Prod.fst).Nodup ∧
      ∀ key ∈ members.map Prod.fst, key ∈ (run w arguments).opened ∧
        ∃ n ∈ names, Path.toBytes key = .ok n := by
  obtain rfl := h.paths_eq hprovider hgit hnames
  obtain ⟨bytes, hdata, hread⟩ := Report.read_of_write h.written
  obtain ⟨-, hencode⟩ := Report.data_eq_ok_iff.mp hdata
  have hrender := h.isRead_render.decodeEscaped_eq hencode
  obtain ⟨members, hvalue, hkeys⟩ :
      ∃ members, report.toValue = .object members ∧ members.map Prod.fst = report.paths :=
    ⟨_, rfl, List.map_map⟩
  have hencodings : (members.map Prod.fst).map Utf8.encode? =
      members.map fun member => Utf8.encode? member.1 := List.map_map
  refine ⟨bytes, members, ?_, hrender, ?_, ?_, ?_, ?_⟩
  · rw [h.files_run, hread]
  · rw [hrender, Report.decode_render, hvalue]
  · rw [← hencodings, hkeys, h.keys_eq, GitOutcome.map_encode?_decodeEscaped]
  · rw [hkeys, Disk.paths_of_scan h.scanned]
    exact (Scan.nodup_distinct _).filter _
  · intro key hkey
    rw [hkeys] at hkey
    obtain ⟨n, hn, rfl⟩ := h.exists_name hkey
    refine ⟨?_, n, hn, ?_⟩
    · rw [h.opened_eq, Scan.mem_distinct]
      exact List.mem_map_of_mem hn
    · exact Path.toBytes_eq_ok_iff.mpr ⟨Utf8.encode?_decodeEscaped n, (hnames n hn).1⟩

/-- Three files with odd names, the first of which git prints twice.  The first file has an override
and the last one an invisible mark. -/
def oddWorld : World :=
  { disk := {
      files := {
        root := .dir [([0xFF, 0x61], .file [0xE2, 0x80, 0xAE]), ([0x62, 0xE2, 0x80], .file [0x78]),
          ([0x20, 0x22, 0x5C], .file [0xE2, 0x80, 0x8B])]
        working := [] } }
    git := .finished (GitOutcome.terminated (GitOutcome.oddNames ++ [[0xFF, 0x61]])) [] 0 }

def oddReport : Report :=
  { files := [(Utf8.decodeEscaped [0xFF, 0x61], Finding.all [.ofNat 0x202E]),
      (Utf8.decodeEscaped [0x20, 0x22, 0x5C], Finding.all [.ofNat 0x200B])]
    total := 2 }

theorem names_kept_oddWorld :
    ∃ plan paths bytes members, Reported oddWorld [lit "--report", lit "r"] plan paths oddReport ∧
      (run oddWorld [lit "--report", lit "r"]).files.read (lit "r") = .ok bytes ∧
      Json.decode (Utf8.decodeEscaped bytes) = some (.object members) ∧
      members.map (fun member => Utf8.encode? member.1) =
        [some [0xFF, 0x61], some [0x20, 0x22, 0x5C]] := by
  let plan : Plan := { provider := .git, workers := 1, reportPath := lit "r", verbosity := 0 }
  have h : Reported oddWorld [lit "--report", lit "r"] plan
      ((GitOutcome.oddNames ++ [[0xFF, 0x61]]).map Utf8.decodeEscaped) oddReport :=
    { accepted := ⟨_, rfl, rfl⟩
      listed := by decide +kernel
      scanned := by decide +kernel
      written := by decide +kernel }
  obtain ⟨bytes, members, hread, -, hdecode, hkeys, -, -⟩ := names_kept h rfl rfl (by decide)
  refine ⟨plan, _, bytes, members, h, hread, hdecode, ?_⟩
  rw [hkeys]
  decide +kernel

end Gate

end HiddenText
