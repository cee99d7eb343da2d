import Mathlib.Logic.Function.Basic

/-!
# Directories

A directory as what its names hold. A rename is one step: a name that is replaced never stands for nothing.
-/

namespace PathGuard

variable {N C : Type*} [DecidableEq N]

abbrev Directory (N C : Type*) := N → Option C

namespace Directory
variable (directory : Directory N C)

def write (name : N) (content : C) : Directory N C := Function.update directory name (some content)

/-- `fs::remove`: a name that is not there stays so. -/
def remove (name : N) : Directory N C := Function.update directory name none

/-- `fs::rename` of a name that is there. -/
def rename (source target : N) : Directory N C :=
  Function.update (Function.update directory source none) target (directory source)

variable {directory}

@[simp] theorem write_self (name : N) (content : C) : directory.write name content name = some content :=
  Function.update_self ..

@[simp] theorem write_of_ne {name other : N} (content : C) (h : other ≠ name) :
    directory.write name content other = directory other :=
  Function.update_of_ne h ..

@[simp] theorem remove_self (name : N) : directory.remove name name = none :=
  Function.update_self ..

@[simp] theorem remove_of_ne {name other : N} (h : other ≠ name) : directory.remove name other = directory other :=
  Function.update_of_ne h ..

@[simp] theorem rename_target (source target : N) : directory.rename source target target = directory source :=
  Function.update_self ..

@[simp] theorem rename_source {source target : N} (h : source ≠ target) :
    directory.rename source target source = none := by
  rw [rename, Function.update_of_ne h, Function.update_self]

@[simp] theorem rename_of_ne {source target other : N} (hsource : other ≠ source) (htarget : other ≠ target) :
    directory.rename source target other = directory other := by
  rw [rename, Function.update_of_ne htarget, Function.update_of_ne hsource]

end Directory

end PathGuard
