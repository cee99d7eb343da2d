import Mathlib.Data.List.Induction
import Mathlib.Data.List.Nodup
import PathGuard.Lib.MountNamespace

/-!
# Mount tables

A table is built by attaching mounts, one after the other, each at the directory that some path leads to at that time.
`pathOf` is the path of a place: up to the root of its mount, on from the place that is attached at, and so to `base`,
where lookups start.

Which mount a lookup ends on does not depend on how deep the mounts are: the newest mount on the way decides. Nothing
that is older is seen through it, and nothing newer is on the way. A mount on top of `base` itself is never entered.

* `Inside`, `pathOf` : being below the root of a mount of the table, and the path of such a place;
* `Built`, `Sound` : tables that are built by attaching, and what they keep;
* `Built.lookup_newest` : the newest mount on the way decides.
-/

namespace PathGuard

variable {F N : Type*} [DecidableEq F] [DecidableEq N]

section Paths
variable {base place : Place F N} {mounts : List (Mount F N)} {mount : Mount F N}

/-- The path of a place, for mounts from the newest to the oldest. -/
def pathUp (base : Place F N) : List (Mount F N) → Place F N → List N
  | [], place => place.dir.path.drop base.dir.path.length
  | mount :: older, place =>
      if place.mount = mount.id then
        pathUp base older mount.point ++ place.dir.path.drop mount.root.path.length
      else pathUp base older place

def pathOf (base : Place F N) (mounts : List (Mount F N)) (place : Place F N) : List N := pathUp base mounts.reverse place

/-- The place is in a mount of the table, below the root of that mount. -/
def InsideUp (base : Place F N) : List (Mount F N) → Place F N → Prop
  | [], place => place.mount = base.mount ∧ base.dir.path <+: place.dir.path
  | mount :: older, place =>
      if place.mount = mount.id then mount.root.path <+: place.dir.path else InsideUp base older place

def Inside (base : Place F N) (mounts : List (Mount F N)) (place : Place F N) : Prop :=
  InsideUp base mounts.reverse place

omit [DecidableEq F] [DecidableEq N]

theorem pathOf_nil (place : Place F N) : pathOf base [] place = place.dir.path.drop base.dir.path.length := rfl

theorem pathOf_append (mount : Mount F N) (place : Place F N) :
    pathOf base (mounts ++ [mount]) place =
      if place.mount = mount.id then pathOf base mounts mount.point ++ place.dir.path.drop mount.root.path.length
      else pathOf base mounts place := by
  rw [pathOf, List.reverse_append]
  rfl

theorem inside_append {mount : Mount F N} :
    Inside base (mounts ++ [mount]) place ↔
      if place.mount = mount.id then mount.root.path <+: place.dir.path else Inside base mounts place := by
  rw [Inside, List.reverse_append]
  rfl

theorem inside_base (hids : ∀ mount ∈ mounts, mount.id ≠ base.mount) : Inside base mounts base := by
  induction mounts using List.reverseRecOn with
  | nil => exact ⟨rfl, List.prefix_refl _⟩
  | append_singleton mounts mount ih =>
      rw [List.forall_mem_append, List.forall_mem_singleton] at hids
      rw [inside_append, if_neg (Ne.symm hids.2)]
      exact ih hids.1

theorem pathOf_base (hids : ∀ mount ∈ mounts, mount.id ≠ base.mount) : pathOf base mounts base = [] := by
  induction mounts using List.reverseRecOn with
  | nil => rw [pathOf_nil, List.drop_length]
  | append_singleton mounts mount ih =>
      rw [List.forall_mem_append, List.forall_mem_singleton] at hids
      rw [pathOf_append, if_neg (Ne.symm hids.2), ih hids.1]

theorem Inside.mount_mem (h : Inside base mounts place) :
    place.mount = base.mount ∨ ∃ mount ∈ mounts, mount.id = place.mount := by
  induction mounts using List.reverseRecOn with
  | nil => exact Or.inl h.1
  | append_singleton mounts mount ih =>
      rw [inside_append] at h
      split at h
      · next heq => exact Or.inr ⟨mount, by simp, heq.symm⟩
      · rcases ih h with hbase | ⟨other, hother, hid⟩
        · exact Or.inl hbase
        · exact Or.inr ⟨other, List.mem_append_left _ hother, hid⟩

theorem Inside.child (h : Inside base mounts place) (name : N) :
    Inside base mounts ⟨place.mount, place.dir.descend [name]⟩ ∧
      pathOf base mounts ⟨place.mount, place.dir.descend [name]⟩ = pathOf base mounts place ++ [name] := by
  have hdrop : ∀ {front path : List N}, front <+: path →
      (path ++ [name]).drop front.length = path.drop front.length ++ [name] :=
    fun hprefix => List.drop_append_of_le_length hprefix.length_le
  induction mounts using List.reverseRecOn with
  | nil => exact ⟨⟨h.1, h.2.trans (List.prefix_append _ _)⟩, hdrop h.2⟩
  | append_singleton mounts mount ih =>
      rw [inside_append] at h
      rw [inside_append, pathOf_append, pathOf_append]
      split at h
      · next heq =>
        rw [if_pos heq, if_pos heq, if_pos heq, List.append_assoc]
        exact ⟨h.trans (List.prefix_append _ _), congrArg _ (hdrop h)⟩
      · next hne =>
        rw [if_neg hne, if_neg hne, if_neg hne]
        exact ih h

theorem Inside.append (h : Inside base mounts place) (hbase : mount.id ≠ base.mount)
    (hfresh : ∀ other ∈ mounts, other.id ≠ mount.id) :
    place.mount ≠ mount.id ∧ Inside base (mounts ++ [mount]) place ∧
      pathOf base (mounts ++ [mount]) place = pathOf base mounts place := by
  have hne : place.mount ≠ mount.id := by
    rcases h.mount_mem with heq | ⟨other, hother, heq⟩
    · exact heq ▸ Ne.symm hbase
    · exact heq ▸ hfresh other hother
  rw [inside_append, pathOf_append, if_neg hne, if_neg hne]
  exact ⟨hne, h, rfl⟩

theorem inside_top (mount : Mount F N) : Inside base (mounts ++ [mount]) mount.top ∧
    pathOf base (mounts ++ [mount]) mount.top = pathOf base mounts mount.point := by
  rw [inside_append, pathOf_append, if_pos (show mount.top.mount = mount.id from rfl),
    if_pos (show mount.top.mount = mount.id from rfl)]
  exact ⟨List.prefix_refl _, by rw [show mount.top.dir.path = mount.root.path from rfl, List.drop_length, List.append_nil]⟩

/-- A place is below the root of its mount as far as its path is below that of the mount. -/
theorem Inside.split (h : Inside base mounts place) :
    (place.mount = base.mount ∧ place.dir.path = base.dir.path ++ pathOf base mounts place) ∨
      ∃ mount ∈ mounts, mount.id = place.mount ∧ ∃ below, place.dir.path = mount.root.path ++ below ∧
        pathOf base mounts place = pathOf base mounts mount.top ++ below := by
  induction mounts using List.reverseRecOn with
  | nil => exact Or.inl ⟨h.1, List.prefix_iff_eq_append.mp h.2 |>.symm⟩
  | append_singleton mounts mount ih =>
      rw [inside_append] at h
      rw [pathOf_append]
      split at h
      · next heq =>
        rw [if_pos heq]
        refine Or.inr ⟨mount, by simp, heq.symm, place.dir.path.drop mount.root.path.length,
          (List.prefix_iff_eq_append.mp h).symm, ?_⟩
        rw [(inside_top mount).2]
      · next hne =>
        rw [if_neg hne]
        rcases ih h with hbase | ⟨other, hother, hid, below, hdir, hpath⟩
        · exact Or.inl hbase
        · refine Or.inr ⟨other, List.mem_append_left _ hother, hid, below, hdir, ?_⟩
          rw [pathOf_append, if_neg (show other.top.mount ≠ mount.id from fun heq => hne (hid ▸ heq)), hpath]

end Paths

/-! ## Building a table -/

/-- The tables that attaching makes. -/
inductive Built (trees : DirTrees F N) (base : Place F N) : List (Mount F N) → Prop
  | nil : Built trees base []
  | attach {mounts : List (Mount F N)} {names : List N} {place : Place F N} {id : Nat} (root : Dir F N)
      (h : Built trees base mounts) (hlookup : lookup trees mounts base names = some place)
      (hbase : id ≠ base.mount) (hfresh : ∀ mount ∈ mounts, mount.id ≠ id) :
      Built trees base (attach mounts id place root)

section Enter
variable {base place : Place F N} {mounts : List (Mount F N)} {trees : DirTrees F N}

theorem enter_append (mount : Mount F N) (place : Place F N) :
    enter (mounts ++ [mount]) place = if mount.point = enter mounts place then mount.top else enter mounts place := by
  rw [enter, List.foldl_append]
  rfl

theorem lookup_append (place : Place F N) (front rest : List N) :
    lookup trees mounts place (front ++ rest) =
      (lookup trees mounts place front).bind fun place => lookup trees mounts place rest := by
  induction front generalizing place with
  | nil => rfl
  | cons name front ih =>
      rw [List.cons_append, lookup, lookup]
      split
      · exact ih _
      · rfl

/-- What holds of every table that is built. -/
structure Sound (base : Place F N) (mounts : List (Mount F N)) : Prop where
  base_ne : ∀ mount ∈ mounts, mount.id ≠ base.mount
  nodup : (mounts.map Mount.id).Nodup
  point : ∀ mount ∈ mounts, mount.point.mount = base.mount ∨ ∃ other ∈ mounts, other.id = mount.point.mount
  enter : ∀ place, Inside base mounts place →
    Inside base mounts (PathGuard.enter mounts place) ∧
      pathOf base mounts (PathGuard.enter mounts place) = pathOf base mounts place ∧
      PathGuard.enter mounts (PathGuard.enter mounts place) = PathGuard.enter mounts place

theorem Sound.lookup (h : Sound base mounts) {names : List N} {place' : Place F N} (hplace : Inside base mounts place)
    (hlookup : lookup trees mounts place names = some place') :
    Inside base mounts place' ∧ pathOf base mounts place' = pathOf base mounts place ++ names := by
  induction names generalizing place with
  | nil =>
      obtain rfl : place = place' := Option.some.inj hlookup
      exact ⟨hplace, (List.append_nil _).symm⟩
  | cons name names ih =>
      rw [PathGuard.lookup] at hlookup
      split at hlookup
      · obtain ⟨hchild, hpath⟩ := hplace.child name
        obtain ⟨henter, hsame, -⟩ := h.enter _ hchild
        obtain ⟨hinside, hrest⟩ := ih henter hlookup
        exact ⟨hinside, by rw [hrest, hsame, hpath, List.append_assoc, List.singleton_append]⟩
      · cases hlookup

/-- A path that is not empty ends at a place on which nothing is attached. -/
theorem Sound.enter_lookup (h : Sound base mounts) {names : List N} {place' : Place F N}
    (hplace : Inside base mounts place) (hlookup : PathGuard.lookup trees mounts place names = some place')
    (hne : names ≠ []) : PathGuard.enter mounts place' = place' := by
  obtain ⟨front, name, rfl⟩ := (List.eq_nil_or_concat names).resolve_left hne
  rw [List.concat_eq_append, lookup_append, Option.bind_eq_some_iff] at hlookup
  obtain ⟨parent, hparent, hlast⟩ := hlookup
  rw [PathGuard.lookup, Option.ite_none_right_eq_some] at hlast
  obtain ⟨-, hlast⟩ := hlast
  rw [← Option.some.inj hlast]
  exact (h.enter _ ((h.lookup hplace hparent).1.child name).1).2.2

end Enter

/-! ## One more mount -/

section Attach
variable {base place : Place F N} {mounts : List (Mount F N)} {trees : DirTrees F N} {mount : Mount F N}

theorem Sound.point_ne (h : Sound base mounts) (hpoint : Inside base mounts mount.point) (hbase : mount.id ≠ base.mount)
    (hfresh : ∀ other ∈ mounts, other.id ≠ mount.id) : ∀ other ∈ mounts ++ [mount], other.point.mount ≠ mount.id := by
  have hne : ∀ {number : Nat}, (number = base.mount ∨ ∃ other ∈ mounts, other.id = number) → number ≠ mount.id := by
    rintro number (rfl | ⟨other, hother, rfl⟩)
    · exact Ne.symm hbase
    · exact hfresh other hother
  rw [List.forall_mem_append, List.forall_mem_singleton]
  exact ⟨fun other hother => hne (h.point other hother), hne hpoint.mount_mem⟩

theorem sound_nil (base : Place F N) : Sound base [] where
  base_ne := List.forall_mem_nil _
  nodup := List.nodup_nil
  point := List.forall_mem_nil _
  enter := fun _ h => ⟨h, rfl, rfl⟩

theorem Sound.append (h : Sound base mounts) (hpoint : Inside base mounts mount.point) (hbase : mount.id ≠ base.mount)
    (hfresh : ∀ other ∈ mounts, other.id ≠ mount.id) : Sound base (mounts ++ [mount]) := by
  have hnew := h.point_ne hpoint hbase hfresh
  have hempty : ∀ {inner : Place F N}, inner.mount = mount.id → PathGuard.enter (mounts ++ [mount]) inner = inner :=
    fun hinner => enter_of_forall_ne fun other hother heq => hnew other hother (heq ▸ hinner)
  refine ⟨?_, ?_, fun other hother => ?_, fun place hplace => ?_⟩
  · rw [List.forall_mem_append, List.forall_mem_singleton]
    exact ⟨h.base_ne, hbase⟩
  · rw [List.map_append, List.map_singleton, List.nodup_append]
    refine ⟨h.nodup, List.nodup_singleton _, fun id hid other hother => ?_⟩
    obtain ⟨member, hmember, rfl⟩ := List.mem_map.mp hid
    rw [List.mem_singleton.mp hother]
    exact hfresh member hmember
  · have hearlier : other.point.mount = base.mount ∨ ∃ member ∈ mounts, member.id = other.point.mount := by
      rcases List.mem_append.mp hother with hother | hother
      · exact h.point other hother
      · rw [List.mem_singleton.mp hother]
        exact hpoint.mount_mem
    exact hearlier.imp_right fun ⟨member, hmember, heq⟩ => ⟨member, List.mem_append_left _ hmember, heq⟩
  · by_cases hplace' : place.mount = mount.id
    · rw [hempty hplace', hempty hplace']
      exact ⟨hplace, rfl, rfl⟩
    · have hold : Inside base mounts place := by rwa [inside_append, if_neg hplace'] at hplace
      obtain ⟨hinside, hpath, hagain⟩ := h.enter place hold
      rw [(hold.append hbase hfresh).2.2, enter_append]
      split
      · next heq =>
        obtain ⟨htop, htopPath⟩ := @inside_top _ _ base mounts mount
        refine ⟨htop, ?_, hempty rfl⟩
        rw [htopPath, heq, hpath]
      · next hne =>
        obtain ⟨-, hinside', hpath'⟩ := hinside.append hbase hfresh
        refine ⟨hinside', hpath'.trans hpath, ?_⟩
        rw [enter_append, hagain, if_neg hne]

theorem Built.sound (h : Built trees base mounts) : Sound base mounts := by
  induction h with
  | nil => exact sound_nil base
  | @attach mounts names place id root _ hlookup hbase hfresh ih =>
      have hplace := (ih.lookup (inside_base ih.base_ne) hlookup).1
      have hpoint : Inside base mounts (enter mounts place) := (ih.enter place hplace).1
      exact @Sound.append _ _ _ _ base mounts ⟨id, enter mounts place, root⟩ ih hpoint hbase hfresh

theorem Sound.lookup_append_of_ne (h : Sound base mounts) {names : List N} (hplace : Inside base mounts place)
    (hne : ∀ front, front ≠ [] → front <+: names →
      pathOf base mounts place ++ front ≠ pathOf base mounts mount.point) :
    PathGuard.lookup trees (mounts ++ [mount]) place names = PathGuard.lookup trees mounts place names := by
  induction names generalizing place with
  | nil => rfl
  | cons name names ih =>
      obtain ⟨hchild, hpath⟩ := hplace.child name
      obtain ⟨hinside, hsame, -⟩ := h.enter _ hchild
      have hother : mount.point ≠ PathGuard.enter mounts ⟨place.mount, place.dir.descend [name]⟩ := by
        intro heq
        refine hne [name] (List.cons_ne_nil _ _) (List.prefix_append [name] names) ?_
        rw [heq, hsame, hpath]
      rw [PathGuard.lookup, PathGuard.lookup, enter_append, if_neg hother, ih hinside]
      intro front hfront hprefix
      rw [hsame, hpath, List.append_assoc]
      exact hne (name :: front) (List.cons_ne_nil _ _) (List.cons_prefix_cons.mpr ⟨rfl, hprefix⟩)

theorem Sound.lookup_append_self (h : Sound base mounts) {point : List N} {parent : Place F N}
    (hlookup : PathGuard.lookup trees mounts base point = some parent) (hmount : mount.point = PathGuard.enter mounts parent)
    (hne : point ≠ []) : PathGuard.lookup trees (mounts ++ [mount]) base point = some mount.top := by
  have hinside := inside_base h.base_ne
  have hpath : pathOf base mounts mount.point = point := by
    obtain ⟨hparent, hparentPath⟩ := h.lookup hinside hlookup
    rw [hmount, (h.enter parent hparent).2.1, hparentPath, pathOf_base h.base_ne, List.nil_append]
  rw [h.enter_lookup hinside hlookup hne] at hmount
  obtain ⟨front, name, rfl⟩ := (List.eq_nil_or_concat point).resolve_left hne
  rw [List.concat_eq_append] at hlookup hpath ⊢
  have hfront : PathGuard.lookup trees (mounts ++ [mount]) base front = PathGuard.lookup trees mounts base front := by
    refine h.lookup_append_of_ne hinside fun shorter _ hprefix heq => ?_
    rw [pathOf_base h.base_ne, List.nil_append, hpath] at heq
    have hlength := hprefix.length_le
    rw [heq, List.length_append, List.length_singleton] at hlength
    omega
  rw [lookup_append, Option.bind_eq_some_iff] at hlookup ⊢
  obtain ⟨above, habove, hstep⟩ := hlookup
  refine ⟨above, hfront.trans habove, ?_⟩
  rw [PathGuard.lookup, Option.ite_none_right_eq_some] at hstep
  obtain ⟨hdir, hstep⟩ := hstep
  have hparent : PathGuard.enter mounts ⟨above.mount, above.dir.descend [name]⟩ = parent := Option.some.inj hstep
  rw [PathGuard.lookup, if_pos hdir, enter_append, hparent, if_pos hmount]
  rfl

theorem Sound.lookup_append_of_prefix (h : Sound base mounts) {point : List N} {parent : Place F N}
    (hlookup : PathGuard.lookup trees mounts base point = some parent) (hmount : mount.point = PathGuard.enter mounts parent)
    (hne : point ≠ []) (hbase : mount.id ≠ base.mount) (hfresh : ∀ other ∈ mounts, other.id ≠ mount.id)
    {rest : List N} (hplace : PathGuard.lookup trees (mounts ++ [mount]) base (point ++ rest) = some place) :
    place.mount = mount.id := by
  have hlast := h.lookup_append_self hlookup hmount hne
  have hinside := inside_base h.base_ne
  have hnew : ∀ other ∈ mounts ++ [mount], other.point.mount ≠ mount.id := by
    refine h.point_ne ?_ hbase hfresh
    rw [hmount]
    exact (h.enter parent (h.lookup hinside hlookup).1).1
  rw [lookup_append, hlast, Option.bind_some, Mount.top, lookup_inside hnew, Option.ite_none_right_eq_some] at hplace
  rw [← Option.some.inj hplace.2]

/-- The mount is attached at the path or above it, and not at the root. -/
def onWay (base : Place F N) (mounts : List (Mount F N)) (names : List N) (mount : Mount F N) : Bool :=
  pathOf base mounts mount.top ≠ [] ∧ pathOf base mounts mount.top <+: names

omit [DecidableEq F] in
theorem onWay_append {names : List N} {other : Mount F N} (hne : other.id ≠ mount.id) :
    onWay base (mounts ++ [mount]) names other = onWay base mounts names other := by
  have hpath : pathOf base (mounts ++ [mount]) other.top = pathOf base mounts other.top := by
    rw [pathOf_append, if_neg (show other.top.mount ≠ mount.id from hne)]
  rw [onWay, onWay, hpath]

omit [DecidableEq F] in
theorem onWay_new {names : List N} (mount : Mount F N) :
    onWay base (mounts ++ [mount]) names mount =
      decide (pathOf base mounts mount.point ≠ [] ∧ pathOf base mounts mount.point <+: names) := by
  rw [onWay, (inside_top mount).2]

/-- **The newest mount on the way decides.** -/
theorem Built.lookup_newest (h : Built trees base mounts) {names : List N}
    (hlookup : lookup trees mounts base names = some place) :
    place.mount = match (mounts.filter (onWay base mounts names)).getLast? with
      | some mount => mount.id
      | none => base.mount := by
  induction h generalizing names place with
  | nil =>
      have hinside := ((sound_nil base).lookup (inside_base (List.forall_mem_nil _)) hlookup).1
      exact hinside.1
  | @attach mounts point parent id root hbuilt hpoint hbase hfresh ih =>
      have hsound := hbuilt.sound
      have hinside := inside_base hsound.base_ne
      obtain ⟨hparent, hparentPath⟩ := hsound.lookup hinside hpoint
      obtain ⟨henter, henterPath, -⟩ := hsound.enter parent hparent
      rw [pathOf_base hsound.base_ne, List.nil_append] at hparentPath
      rw [PathGuard.attach] at hlookup ⊢
      have hnew : pathOf base mounts (enter mounts parent) = point := henterPath.trans hparentPath
      have hstable : ∀ other ∈ mounts,
          onWay base (mounts ++ [⟨id, enter mounts parent, root⟩]) names other = onWay base mounts names other :=
        fun other hother => onWay_append (hfresh other hother)
      rw [List.filter_append, List.filter_congr hstable, List.filter_singleton, onWay_new, hnew]
      by_cases hway : point ≠ [] ∧ point <+: names
      · obtain ⟨hne, rest, rfl⟩ := hway
        rw [decide_eq_true ⟨hne, List.prefix_append _ _⟩]
        simp only [cond_true, List.getLast?_append, List.getLast?_singleton, Option.some_or]
        exact hsound.lookup_append_of_prefix hpoint rfl hne hbase hfresh hlookup
      · rw [decide_eq_false hway]
        simp only [cond_false, List.append_nil]
        refine ih ?_
        rw [← hlookup, hsound.lookup_append_of_ne hinside]
        intro front hfront hprefix heq
        rw [pathOf_base hsound.base_ne, List.nil_append, hnew] at heq
        exact hway ⟨heq ▸ hfront, heq ▸ hprefix⟩

end Attach

end PathGuard
