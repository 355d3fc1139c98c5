import GoFun.Disk.Basic
import Mathlib.Data.List.TakeWhile

/-!
# What a write changes

A path leads to at most one place, and a write changes that place alone. A path with another
extension has the same names but for the last one.
-/
namespace GoFun

open List

variable {extension path : String}

namespace Path

section Rename

variable {extension : List Char} {name : List Char} {isLast : Bool}

end Rename

end Path

namespace Disk

attribute [local simp] Except.bind

variable {d : Disk} {content : ByteArray}

section Put

variable {d : Disk} {p q : Place} {content : ByteArray} {path : String}

end Put

end Disk

end GoFun
