import Mathlib.Data.List.Basic

/-!
# Mount namespaces

Directories form trees, one for each file system, and a directory is named by the way to it from the root of its
tree. A mount shows a directory and all below it, and is attached at a place: a directory of another mount. A lookup
goes from directory to directory and, at every step, into the mount that is topmost there.

When all mounts are attached at places of one mount, `base`, a lookup that starts there leaves it at most once: the
outermost mount on the way decides.

* `lookup`, `enter`, `attach` : the kernel's walk and a new mount;
* `Flat` : all mounts are attached at places of one mount;
* `Flat.lookup_outermost` : the outermost mount on the way decides.
-/

namespace PathGuard

section Trees
variable {F N : Type*}

structure Dir (F N : Type*) where
  fs : F
  path : List N
  deriving DecidableEq

/-- The directory `names` below `dir`. -/
def Dir.descend (dir : Dir F N) (names : List N) : Dir F N := ⟨dir.fs, dir.path ++ names⟩

@[simp] theorem Dir.descend_nil (dir : Dir F N) : dir.descend [] = dir := by
  rw [Dir.descend, List.append_nil]

@[simp] theorem Dir.descend_append (dir : Dir F N) (names names' : List N) :
    dir.descend (names ++ names') = (dir.descend names).descend names' := by
  rw [Dir.descend, Dir.descend, Dir.descend, List.append_assoc]

/-- Which directories there are: with every directory the one it is in. -/
structure DirTrees (F N : Type*) where
  isDir : Dir F N → Bool
  isDir_of_child : ∀ dir name, isDir (dir.descend [name]) = true → isDir dir = true

theorem DirTrees.isDir_of_descend (trees : DirTrees F N) {dir : Dir F N} {names : List N}
    (h : trees.isDir (dir.descend names) = true) : trees.isDir dir = true := by
  induction names generalizing dir with
  | nil => simpa using h
  | cons name names ih =>
      rw [← List.singleton_append, Dir.descend_append] at h
      exact trees.isDir_of_child dir name (ih h)

/-- A directory of a mount. -/
structure Place (F N : Type*) where
  mount : Nat
  dir : Dir F N
  deriving DecidableEq

structure Mount (F N : Type*) where
  id : Nat
  point : Place F N
  root : Dir F N
  deriving DecidableEq

def Mount.top (mount : Mount F N) : Place F N := ⟨mount.id, mount.root⟩

end Trees

section Lookup
variable {F N : Type*} [DecidableEq F] [DecidableEq N]

/-- The topmost mount at a place; `mounts` lists the mounts in the order they were attached in. -/
def enter (mounts : List (Mount F N)) (place : Place F N) : Place F N :=
  mounts.foldl (fun place mount => if mount.point = place then mount.top else place) place

/-- A new mount, on top of what is at `place`. -/
def attach (mounts : List (Mount F N)) (id : Nat) (place : Place F N) (root : Dir F N) : List (Mount F N) :=
  mounts ++ [⟨id, enter mounts place, root⟩]

def lookup (trees : DirTrees F N) (mounts : List (Mount F N)) : Place F N → List N → Option (Place F N)
  | place, [] => some place
  | place, name :: names =>
      if trees.isDir (place.dir.descend [name]) then
        lookup trees mounts (enter mounts ⟨place.mount, place.dir.descend [name]⟩) names
      else none

theorem enter_of_forall_ne {mounts : List (Mount F N)} {place : Place F N} (h : ∀ mount ∈ mounts, mount.point ≠ place) :
    enter mounts place = place := by
  induction mounts with
  | nil => rfl
  | cons mount mounts ih =>
      rw [List.forall_mem_cons] at h
      rw [enter, List.foldl_cons, if_neg h.1]
      exact ih h.2

variable {trees : DirTrees F N} {mounts : List (Mount F N)}

theorem lookup_inside {id : Nat} (h : ∀ mount ∈ mounts, mount.point.mount ≠ id) (dir : Dir F N) (names : List N) :
    lookup trees mounts ⟨id, dir⟩ names =
      if names = [] ∨ trees.isDir (dir.descend names) = true then some ⟨id, dir.descend names⟩ else none := by
  induction names generalizing dir with
  | nil => simp [lookup]
  | cons name names ih =>
      have henter : enter mounts ⟨id, dir.descend [name]⟩ = ⟨id, dir.descend [name]⟩ :=
        enter_of_forall_ne fun mount hmount heq => h mount hmount (by rw [heq])
      have hsplit : dir.descend (name :: names) = (dir.descend [name]).descend names := by
        rw [← List.singleton_append, Dir.descend_append]
      rw [lookup, hsplit, henter, ih]
      by_cases hdir : trees.isDir (dir.descend [name]) = true
      · rw [if_pos hdir]
        by_cases hnil : names = []
        · simp [hnil, hdir]
        · simp [hnil]
      · rw [if_neg hdir, if_neg]
        rintro (hnil | hdeep)
        · cases hnil
        · exact hdir (trees.isDir_of_descend hdeep)

/-! ## Mounts attached at places of one mount -/

structure Flat (base : Nat) (mounts : List (Mount F N)) : Prop where
  point : ∀ mount ∈ mounts, mount.point.mount = base
  id : ∀ mount ∈ mounts, mount.id ≠ base
  distinct : mounts.Pairwise fun a b => a.point ≠ b.point

omit [DecidableEq F] [DecidableEq N] in
theorem flat_nil (base : Nat) : Flat (F := F) (N := N) base [] :=
  ⟨List.forall_mem_nil _, List.forall_mem_nil _, List.Pairwise.nil⟩

theorem Flat.attach {base : Nat} (h : Flat base mounts) {id : Nat} {place : Place F N} (hid : id ≠ base)
    (hplace : place.mount = base) (hfresh : ∀ mount ∈ mounts, mount.point ≠ place) (root : Dir F N) :
    attach mounts id place root = mounts ++ [⟨id, place, root⟩] ∧ Flat base (attach mounts id place root) := by
  have heq : PathGuard.attach mounts id place root = mounts ++ [⟨id, place, root⟩] := by
    rw [PathGuard.attach, enter_of_forall_ne hfresh]
  rw [heq]
  refine ⟨rfl, ?_, ?_, ?_⟩
  · simp only [List.forall_mem_append, List.forall_mem_singleton]
    exact ⟨h.point, hplace⟩
  · simp only [List.forall_mem_append, List.forall_mem_singleton]
    exact ⟨h.id, hid⟩
  · rw [List.pairwise_append]
    refine ⟨h.distinct, List.pairwise_singleton _ _, fun a ha b hb => ?_⟩
    rw [List.mem_singleton.mp hb]
    exact hfresh a ha

theorem Flat.enter_point {base : Nat} (h : Flat base mounts) {mount : Mount F N} (hmount : mount ∈ mounts) :
    enter mounts mount.point = mount.top := by
  obtain ⟨before, after, rfl⟩ := List.append_of_mem hmount
  have hbefore : enter before mount.point = mount.point :=
    enter_of_forall_ne fun other hother =>
      (List.pairwise_append.mp h.distinct).2.2 other hother mount List.mem_cons_self
  have hafter : enter after mount.top = mount.top := by
    refine enter_of_forall_ne fun other hother heq => h.id mount hmount ?_
    have hpoint := h.point other (by simp [hother])
    rw [heq] at hpoint
    exact hpoint
  have hsplit : enter (before ++ mount :: after) mount.point =
      enter after (if mount.point = enter before mount.point then mount.top else enter before mount.point) := by
    rw [enter, List.foldl_append, List.foldl_cons]
    rfl
  rw [hsplit, hbefore, if_pos rfl, hafter]

/-- **The outermost mount decides.** A lookup from the base goes into the first mount on its way and stays there. -/
theorem Flat.lookup_outermost {base : Nat} (h : Flat base mounts) {mount : Mount F N} (hmount : mount ∈ mounts)
    {dir : Dir F N} {names : List N} (hne : names ≠ []) (hpoint : mount.point = ⟨base, dir.descend names⟩)
    (hdir : trees.isDir (dir.descend names) = true)
    (hfirst : ∀ other ∈ mounts, ∀ front rest, front ≠ [] → rest ≠ [] → names = front ++ rest →
      other.point ≠ ⟨base, dir.descend front⟩) (rest : List N) :
    lookup trees mounts ⟨base, dir⟩ (names ++ rest) = lookup trees mounts mount.top rest := by
  induction names generalizing dir with
  | nil => exact absurd rfl hne
  | cons name names ih =>
      have hsplit : dir.descend (name :: names) = (dir.descend [name]).descend names := by
        rw [← List.singleton_append, Dir.descend_append]
      rw [hsplit] at hpoint hdir
      have hchild : trees.isDir (dir.descend [name]) = true := trees.isDir_of_descend hdir
      rw [List.cons_append, lookup, if_pos hchild]
      cases names with
      | nil =>
          rw [Dir.descend_nil] at hpoint
          rw [← hpoint, h.enter_point hmount, List.nil_append]
      | cons next names =>
          rw [enter_of_forall_ne fun other hother => hfirst other hother [name] (next :: names) (by simp) (by simp) rfl]
          refine ih (by simp) hpoint hdir fun other hother front rest' hfront hrest heq => ?_
          rw [← Dir.descend_append]
          exact hfirst other hother ([name] ++ front) rest' (by simp) hrest (by rw [heq, List.append_assoc]; rfl)

end Lookup

end PathGuard
