import HiddenText.Main
import HiddenText.Samples
import HiddenText.Proofs.Utf8.Boundaries
import HiddenText.Proofs.Finding.Collect
import HiddenText.Proofs.Finding.Offsets
import HiddenText.Proofs.Scan.Outcome
import HiddenText.Proofs.Scan.Schedule
import HiddenText.Proofs.Json.Reader
import HiddenText.Proofs.Json.Lexing
import HiddenText.Proofs.Json.RoundTrip
import HiddenText.Proofs.Files.Places
import HiddenText.Proofs.Files.Written
import HiddenText.Proofs.Gate.Verdict
import HiddenText.Proofs.Scan.Repeats
import HiddenText.Proofs.Listing.Tracked
import HiddenText.Proofs.Listing.Reach
import HiddenText.Proofs.Gate.Again
import HiddenText.Proofs.Report.Agreement
import HiddenText.Proofs.Listing.Listed
import HiddenText.Proofs.Json.Bytes
import HiddenText.Proofs.Gate.Names
import HiddenText.Proofs.Scan.Reading
import HiddenText.Proofs.Gate.Named
import HiddenText.Proofs.Finding.Positions
import HiddenText.Proofs.Files.Below
import HiddenText.Proofs.Files.Reordered
import HiddenText.Proofs.Listing.Sorted
import HiddenText.Proofs.Files.Made
import HiddenText.Proofs.Gate.Emission
import HiddenText.Proofs.Listing.Skipped
import HiddenText.Proofs.CommandLine.RoundTrip
import HiddenText.Proofs.Settings.Workers
import HiddenText.Proofs.Report.Decoding
import HiddenText.Proofs.Scan.Refused
import HiddenText.Proofs.Finding.Parts
import HiddenText.Proofs.Report.Grouping
import HiddenText.Proofs.Gate.Verbosity
import HiddenText.Proofs.Gate.Jobs
