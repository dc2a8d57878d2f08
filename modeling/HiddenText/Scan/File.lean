import HiddenText.Files.Disk
import HiddenText.Finding
import HiddenText.Log

/-!
# Scanning a file

A file that cannot be read, or whose bytes are not UTF-8 throughout, has no findings, and the log
says why.  Offsets are those of the file as it is stored: no line ending is changed, and a byte
order mark at the start is a finding like any other.
-/

namespace HiddenText

/-- The findings of a file, given what reading it gave.  Only a text that is no path fails. -/
def Scan.ofRead (path : Text) :
    Except AccessError Bytes → Logged (Except BadText (List Finding))
  | .error (.system e) => ⟨[.unreadableFile path e], .ok []⟩
  | .error (.badText b) => ⟨[], .error b⟩
  | .ok data =>
    match Utf8.decode data with
    | .ok text => ⟨[], .ok (Finding.all text)⟩
    | .error f => ⟨[.notUtf8 path f], .ok []⟩

/-- The findings of a file on a disk. -/
def Disk.scan (d : Disk) (path : Text) : Logged (Except BadText (List Finding)) :=
  Scan.ofRead path (d.read path)

end HiddenText
