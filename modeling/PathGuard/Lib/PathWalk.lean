import Mathlib.Data.List.Basic

/-!
# Path walks

How a kernel follows a path through a tree of directories: by the entries of one directory after the other, by `.` and
`..`, and into symbolic links, whose targets are walked in turn. A walk may be told to stay beneath where it starts and
to follow no link. A link that is last stands for itself, unless it is to be followed.

A path of plain names that are all directories is walked alike under all rules; a walk that follows no link gets nowhere
else; and opening the names one at a time comes out where that walk does.

* `walk`, `WalkRules` : the kernel's walk and what it is told;
* `walk_of_descend` : plain names that are directories are walked alike under all rules;
* `openEach_eq_walk` : opening name by name is as good as a walk without links.
-/

namespace PathGuard

/-- A component of a path. -/
inductive PathStep (N : Type*)
  | stay
  | up
  | name (name : N)
  deriving DecidableEq

/-- What a name in a directory stands for. -/
inductive Entry (D N : Type*)
  | directory (dir : D)
  | file
  | link (absolute : Bool) (target : List (PathStep N))

/-- Directories `D` with names `N` in them. `search` says why a directory cannot be searched, and looking a name up fails
with an error of its own. -/
structure FileTree (D N E : Type*) where
  root : D
  parent : D → D
  search : D → Option E
  entry : D → N → Except E (Entry D N)

structure WalkRules where
  beneath : Bool := false
  noLinks : Bool := false

inductive WalkError (E : Type*)
  | lookup (error : E)
  | notDirectory
  | link
  | outside
  deriving DecidableEq

section Walk
variable {D N E : Type*} [DecidableEq D]

/-- A walk from `here` up to its first link, where `followed` goes on. The result is `none` for what is not a directory. -/
def walkTo (tree : FileTree D N E) (rules : WalkRules) (start : D) (followLast : Bool)
    (followed : D → List (PathStep N) → Except (WalkError E) (Option D)) :
    D → List (PathStep N) → Except (WalkError E) (Option D)
  | here, [] => .ok (some here)
  | here, step :: steps =>
      match tree.search here with
      | some error => .error (.lookup error)
      | none =>
          match step with
          | .stay => walkTo tree rules start followLast followed here steps
          | .up =>
              if rules.beneath && here = start then .error .outside
              else walkTo tree rules start followLast followed (tree.parent here) steps
          | .name name =>
              match tree.entry here name with
              | .error error => .error (.lookup error)
              | .ok (.directory next) => walkTo tree rules start followLast followed next steps
              | .ok .file => if steps = [] && !followLast then .ok none else .error .notDirectory
              | .ok (.link absolute target) =>
                  if steps = [] && !followLast then .ok none
                  else if rules.noLinks then .error .link
                  else if !absolute then followed here (target ++ steps)
                  else if rules.beneath then .error .outside
                  else followed tree.root (target ++ steps)

/-- A walk that follows at most `links` links. -/
def walk (tree : FileTree D N E) (rules : WalkRules) (start : D) (followLast : Bool) :
    Nat → D → List (PathStep N) → Except (WalkError E) (Option D)
  | 0 => walkTo tree rules start followLast fun _ _ => .error .link
  | links + 1 => walkTo tree rules start followLast (walk tree rules start followLast links)

/-- The directory below `here`, by names that are all directories. -/
def FileTree.descend (tree : FileTree D N E) : D → List N → Option D
  | here, [] => some here
  | here, name :: names =>
      match tree.search here, tree.entry here name with
      | none, .ok (.directory next) => tree.descend next names
      | _, _ => none

/-- A directory is what was asked for. -/
def directoryOf : Except (WalkError E) (Option D) → Except (WalkError E) D
  | .ok (some dir) => .ok dir
  | .ok none => .error .notDirectory
  | .error error => .error error

/-- One name, which is not followed when it is a link. -/
def openName (tree : FileTree D N E) (links : Nat) (here : D) (name : N) : Except (WalkError E) D :=
  directoryOf (walk tree {} here false links here [.name name])

/-- The names one at a time. -/
def openEach (tree : FileTree D N E) (links : Nat) : D → List N → Except (WalkError E) D
  | here, [] => .ok here
  | here, name :: names => do
      let next ← openName tree links here name
      openEach tree links next names

variable {tree : FileTree D N E} {rules : WalkRules} {start here dir : D} {followLast : Bool} {links : Nat}
  {followed : D → List (PathStep N) → Except (WalkError E) (Option D)}

theorem walk_eq_walkTo :
    ∃ followed, walk tree rules start followLast links = walkTo tree rules start followLast followed := by
  cases links <;> exact ⟨_, rfl⟩

/-! ## Names that are all directories -/

omit [DecidableEq D] in
theorem descend_cons {name : N} {names : List N} :
    tree.descend here (name :: names) = some dir ↔
      tree.search here = none ∧
        ∃ next, tree.entry here name = .ok (.directory next) ∧ tree.descend next names = some dir := by
  rw [FileTree.descend]
  split
  · next next hsearch hentry => simp [hsearch, hentry]
  · next hother =>
    simp only [reduceCtorEq, false_iff, not_and, not_exists]
    intro hsearch next hentry
    exact absurd hentry (hother next hsearch)

theorem walkTo_of_descend {names : List N} (h : tree.descend here names = some dir) :
    walkTo tree rules start followLast followed here (names.map PathStep.name) = .ok (some dir) := by
  induction names generalizing here with
  | nil => exact congrArg (Except.ok ∘ some) (Option.some.inj h)
  | cons name names ih =>
      obtain ⟨hsearch, next, hentry, hrest⟩ := descend_cons.mp h
      rw [List.map_cons, walkTo, hsearch]
      simp only [hentry]
      exact ih hrest

theorem walk_of_descend {names : List N} (h : tree.descend here names = some dir) :
    walk tree rules start followLast links here (names.map PathStep.name) = .ok (some dir) := by
  obtain ⟨followed, heq⟩ := @walk_eq_walkTo D N E _ tree rules start followLast links
  rw [heq, walkTo_of_descend h]

/-! ## Names one at a time -/

theorem openName_eq (name : N) :
    openName tree links here name =
      match tree.search here with
      | some error => .error (.lookup error)
      | none =>
          match tree.entry here name with
          | .error error => .error (.lookup error)
          | .ok (.directory next) => .ok next
          | .ok _ => .error .notDirectory := by
  obtain ⟨followed, heq⟩ := @walk_eq_walkTo D N E _ tree {} here false links
  rw [openName, heq, walkTo]
  cases tree.search here with
  | some error => rfl
  | none =>
      simp only
      cases tree.entry here name with
      | error error => rfl
      | ok entry => cases entry <;> rfl

theorem openName_eq_ok {name : N} {next : D} :
    openName tree links here name = .ok next ↔ tree.descend here [name] = some next := by
  rw [openName_eq, descend_cons]
  cases hsearch : tree.search here with
  | some error => simp
  | none =>
      cases hentry : tree.entry here name with
      | error error => simp
      | ok entry => cases entry <;> simp [FileTree.descend]

theorem openEach_eq_ok {names : List N} :
    openEach tree links here names = .ok dir ↔ tree.descend here names = some dir := by
  induction names generalizing here with
  | nil => simp [openEach, FileTree.descend]
  | cons name names ih =>
      rw [openEach, descend_cons]
      cases hopen : openName tree links here name with
      | ok next =>
          obtain ⟨hsearch, next', hentry, hnext⟩ := descend_cons.mp (openName_eq_ok.mp hopen)
          obtain rfl : next' = next := Option.some.inj hnext
          change openEach tree links next' names = .ok dir ↔ _
          simp [hsearch, hentry, ih]
      | error error =>
          simp only [reduceCtorEq, false_iff, not_and, not_exists, bind, Except.bind]
          intro hsearch next hentry
          have hok : openName tree links here name = .ok next :=
            openName_eq_ok.mpr (descend_cons.mpr ⟨hsearch, next, hentry, rfl⟩)
          rw [hok] at hopen
          cases hopen

/-- Going name by name, a link is not a directory. -/
def plainError : WalkError E → WalkError E
  | .link => .notDirectory
  | error => error

/-- **Name by name is as good as a walk without links.** Opening the names one at a time comes out where a walk that
follows no link and stays beneath its start does, and fails as it does, but for the error of a link. -/
theorem openEach_eq_walk (names : List N) :
    openEach tree links here names =
      (directoryOf (walk tree { beneath := true, noLinks := true } start followLast links here
        (names.map PathStep.name))).mapError plainError := by
  obtain ⟨followed, heq⟩ :=
    @walk_eq_walkTo D N E _ tree { beneath := true, noLinks := true } start followLast links
  rw [heq]
  induction names generalizing here with
  | nil => rfl
  | cons name names ih =>
      rw [openEach, openName_eq, List.map_cons, walkTo]
      cases hsearch : tree.search here with
      | some error => rfl
      | none =>
          simp only
          cases hentry : tree.entry here name with
          | error error => rfl
          | ok entry =>
              cases entry with
              | directory next => exact ih
              | file =>
                  simp only
                  split <;> rfl
              | link absolute target =>
                  simp only [if_true]
                  split <;> rfl

end Walk

end PathGuard
