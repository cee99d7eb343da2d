import Mathlib.Data.Nat.Find
import PathGuard.Lib.MountTable

/-!
# Taking mounts off again

An unmount by path takes off what the path leads to, and only the root of a mount can be taken off. Mounts that were
pinned at places of a table and attached one after the other come off again by their paths, the last one first, as long
as none was attached at a path above that of a later one: the table is then as it was. Otherwise the path of the later
one leads into the earlier one, to a directory that is no mount.

* `unmount`, `unmountAll` : taking off what a path leads to;
* `Pinned.unmount_last`, `Pinned.unmount_covered` : the two cases of one unmount;
* `Pinned.unmountAll` : the whole of them, in reverse order, with the condition on the paths.
-/

namespace PathGuard

section Unmount
variable {F N : Type*} [DecidableEq F] [DecidableEq N]

/-- What is left of a table without the mounts in `ids`, and without all that is attached in them. -/
def detach : List (Mount F N) → List Nat → List (Mount F N)
  | [], _ => []
  | mount :: mounts, ids =>
      if mount.id ∈ ids ∨ mount.point.mount ∈ ids then detach mounts (mount.id :: ids) else mount :: detach mounts ids

/-- The mount whose root the path leads to is taken off. -/
def unmount (trees : DirTrees F N) (base : Place F N) (mounts : List (Mount F N)) (names : List N) :
    Option (List (Mount F N)) := do
  let place ← lookup trees mounts base names
  let mount ← mounts.find? fun mount => mount.id = place.mount
  if mount.root = place.dir then some (detach mounts [mount.id]) else none

/-- The unmounts in their order. -/
def unmountAll (trees : DirTrees F N) (base : Place F N) : List (Mount F N) → List (List N) → Option (List (Mount F N))
  | mounts, [] => some mounts
  | mounts, names :: rest => (unmount trees base mounts names).bind fun mounts => unmountAll trees base mounts rest

/-- A mount to be attached: at a place that was looked up before. -/
structure Pin (F N : Type*) where
  id : Nat
  names : List N
  place : Place F N
  root : Dir F N

def Pin.mount (pin : Pin F N) : Mount F N := ⟨pin.id, pin.place, pin.root⟩

def attachAll (mounts : List (Mount F N)) (pins : List (Pin F N)) : List (Mount F N) :=
  pins.foldl (fun mounts pin => attach mounts pin.id pin.place pin.root) mounts

/-- The pins are those of directories of the table, at different paths, for mounts that are new. -/
structure Pinned (trees : DirTrees F N) (base : Place F N) (mounts : List (Mount F N)) (pins : List (Pin F N)) : Prop where
  lookup : ∀ pin ∈ pins, lookup trees mounts base pin.names = some pin.place
  names_ne : ∀ pin ∈ pins, pin.names ≠ []
  base_ne : ∀ pin ∈ pins, pin.id ≠ base.mount
  fresh : ∀ pin ∈ pins, ∀ mount ∈ mounts, mount.id ≠ pin.id
  ids : (pins.map Pin.id).Nodup
  distinct : (pins.map Pin.names).Nodup

/-- No pin is above a later one. -/
def Uncovered (pins : List (Pin F N)) : Prop := pins.Pairwise fun earlier later => ¬ earlier.names <+: later.names

instance (pins : List (Pin F N)) : Decidable (Uncovered pins) := inferInstanceAs (Decidable (List.Pairwise _ _))

/-! ## A table with pins -/

section Table
variable {trees : DirTrees F N} {base place final : Place F N} {mounts : List (Mount F N)} {pins : List (Pin F N)}

theorem Pinned.of_append {front back : List (Pin F N)} (h : Pinned trees base mounts (front ++ back)) :
    Pinned trees base mounts front where
  lookup pin hpin := h.lookup pin (List.mem_append_left _ hpin)
  names_ne pin hpin := h.names_ne pin (List.mem_append_left _ hpin)
  base_ne pin hpin := h.base_ne pin (List.mem_append_left _ hpin)
  fresh pin hpin := h.fresh pin (List.mem_append_left _ hpin)
  ids := (List.nodup_append.mp (List.map_append ▸ h.ids)).1
  distinct := (List.nodup_append.mp (List.map_append ▸ h.distinct)).1

theorem Pinned.located (hsound : Sound base mounts) (h : Pinned trees base mounts pins) {pin : Pin F N}
    (hpin : pin ∈ pins) :
    Inside base mounts pin.place ∧ pathOf base mounts pin.place = pin.names ∧ enter mounts pin.place = pin.place := by
  obtain ⟨hinside, hpath⟩ := hsound.lookup (inside_base hsound.base_ne) (h.lookup pin hpin)
  rw [pathOf_base hsound.base_ne, List.nil_append] at hpath
  exact ⟨hinside, hpath, hsound.enter_lookup (inside_base hsound.base_ne) (h.lookup pin hpin) (h.names_ne pin hpin)⟩

theorem Pinned.place_ne (hsound : Sound base mounts) (h : Pinned trees base mounts pins) {pin other : Pin F N}
    (hpin : pin ∈ pins) (hother : other ∈ pins) : pin.place.mount ≠ other.id := by
  rcases (h.located hsound hpin).1.mount_mem with heq | ⟨mount, hmount, heq⟩
  · exact heq ▸ Ne.symm (h.base_ne other hother)
  · exact heq ▸ h.fresh other hother mount hmount

theorem enter_mounts_append (front back : List (Mount F N)) (place : Place F N) :
    enter (front ++ back) place = enter back (enter front place) := by
  rw [enter, enter, enter, List.foldl_append]

theorem Pinned.id_ne {pin : Pin F N} (h : Pinned trees base mounts (pins ++ [pin])) :
    ∀ mount ∈ mounts ++ pins.map Pin.mount, mount.id ≠ pin.id := by
  intro mount hmount
  rcases List.mem_append.mp hmount with hmount | hmount
  · exact h.fresh pin (by simp) mount hmount
  · obtain ⟨other, hother, rfl⟩ := List.mem_map.mp hmount
    have hids := h.ids
    rw [List.map_append, List.nodup_append] at hids
    exact hids.2.2 _ (List.mem_map_of_mem hother) _ (by simp)

omit [DecidableEq F] [DecidableEq N] in
theorem map_mount_append (pins : List (Pin F N)) (pin : Pin F N) :
    mounts ++ (pins ++ [pin]).map Pin.mount = (mounts ++ pins.map Pin.mount) ++ [pin.mount] := by
  rw [List.map_append, List.append_assoc]
  rfl

theorem Pinned.sound (hsound : Sound base mounts) (h : Pinned trees base mounts pins) :
    Sound base (mounts ++ pins.map Pin.mount) ∧
      ∀ place, Inside base mounts place → Inside base (mounts ++ pins.map Pin.mount) place ∧
        pathOf base (mounts ++ pins.map Pin.mount) place = pathOf base mounts place := by
  induction pins using List.reverseRecOn with
  | nil => simpa using hsound
  | append_singleton pins pin ih =>
      have hlast : pin ∈ pins ++ [pin] := by simp
      obtain ⟨hsound', hinside⟩ := ih h.of_append
      have hpoint := (hinside pin.place (h.located hsound hlast).1).1
      rw [map_mount_append]
      refine ⟨hsound'.append hpoint (h.base_ne pin hlast) h.id_ne, fun place hplace => ?_⟩
      obtain ⟨hbefore, hpath⟩ := hinside place hplace
      have hbase : pin.mount.id ≠ base.mount := h.base_ne pin hlast
      obtain ⟨-, hafter, hsame⟩ := hbefore.append hbase h.id_ne
      exact ⟨hafter, hsame.trans hpath⟩

/-- The pins are at different paths, so that none is attached on top of another. -/
theorem Pinned.enter_eq (hsound : Sound base mounts) {pin : Pin F N} (h : Pinned trees base mounts (pins ++ [pin])) :
    enter (mounts ++ pins.map Pin.mount) pin.place = pin.place := by
  have hlast : pin ∈ pins ++ [pin] := by simp
  obtain ⟨-, hpath, henter⟩ := h.located hsound hlast
  rw [enter_mounts_append, henter]
  refine enter_of_forall_ne fun mount hmount hpoint => ?_
  obtain ⟨other, hother, rfl⟩ := List.mem_map.mp hmount
  have hsame : other.names = pin.names := by
    rw [← hpath, ← (h.of_append.located hsound hother).2.1]
    exact congrArg _ hpoint
  have hdistinct := h.distinct
  rw [List.map_append, List.nodup_append] at hdistinct
  exact hdistinct.2.2 _ (List.mem_map_of_mem hother) _ (by simp) hsame

theorem Pinned.attachAll_eq (hsound : Sound base mounts) (h : Pinned trees base mounts pins) :
    attachAll mounts pins = mounts ++ pins.map Pin.mount := by
  induction pins using List.reverseRecOn with
  | nil => simp [attachAll]
  | append_singleton pins pin ih =>
      have hall : attachAll mounts (pins ++ [pin]) = attach (attachAll mounts pins) pin.id pin.place pin.root := by
        rw [attachAll, List.foldl_append]
        rfl
      rw [map_mount_append, hall, ih h.of_append, attach, h.enter_eq hsound]
      rfl

/-! ## Lookups past the pins -/

theorem Pinned.lookup_append_eq (hsound : Sound base mounts) {back : List (Pin F N)}
    (h : Pinned trees base mounts (pins ++ back)) {names : List N} (hway : ∀ pin ∈ back, ¬ pin.names <+: names) :
    PathGuard.lookup trees (mounts ++ (pins ++ back).map Pin.mount) base names =
      PathGuard.lookup trees (mounts ++ pins.map Pin.mount) base names := by
  induction back using List.reverseRecOn with
  | nil => rw [List.append_nil]
  | append_singleton back pin ih =>
      rw [← List.append_assoc] at h ⊢
      have hlast : pin ∈ (pins ++ back) ++ [pin] := by simp
      obtain ⟨hsound', hinside⟩ := h.of_append.sound hsound
      obtain ⟨hplace, hpath, -⟩ := h.located hsound hlast
      rw [map_mount_append, ← ih h.of_append fun other hother => hway other (List.mem_append_left _ hother)]
      refine hsound'.lookup_append_of_ne (inside_base hsound'.base_ne) fun front _ hprefix heq => ?_
      rw [pathOf_base hsound'.base_ne, List.nil_append, show pin.mount.point = pin.place from rfl,
        (hinside pin.place hplace).2, hpath] at heq
      exact hway pin (by simp) (heq ▸ hprefix)

theorem Pinned.lookup_self (hsound : Sound base mounts) {pin : Pin F N} (h : Pinned trees base mounts (pins ++ [pin]))
    (hway : ∀ other ∈ pins, ¬ other.names <+: pin.names) :
    PathGuard.lookup trees (mounts ++ pins.map Pin.mount) base pin.names = some pin.place := by
  have hnil : Pinned trees base mounts ([] ++ pins) := h.of_append
  have heq := hnil.lookup_append_eq hsound hway
  rw [List.nil_append, List.map_nil, List.append_nil] at heq
  exact heq.trans (h.lookup pin (by simp))

theorem Pinned.lookup_first (hsound : Sound base mounts) {back : List (Pin F N)} {pin : Pin F N}
    (h : Pinned trees base mounts (pins ++ pin :: back)) (hfirst : ∀ other ∈ pins ++ back, ¬ other.names <+: pin.names) :
    PathGuard.lookup trees (mounts ++ (pins ++ pin :: back).map Pin.mount) base pin.names = some pin.mount.top := by
  rw [List.append_cons] at h ⊢
  have hlast : pin ∈ (pins ++ [pin]) ++ back := by simp
  have hbefore := h.of_append.lookup_self hsound fun other hother => hfirst other (List.mem_append_left _ hother)
  rw [h.lookup_append_eq hsound fun other hother => hfirst other (List.mem_append_right _ hother), map_mount_append]
  exact (h.of_append.of_append.sound hsound).1.lookup_append_self hbefore (h.of_append.enter_eq hsound).symm
    (h.names_ne pin hlast)

theorem Pinned.point_ne (hsound : Sound base mounts) (h : Pinned trees base mounts pins) {pin : Pin F N}
    (hpin : pin ∈ pins) : ∀ mount ∈ mounts ++ pins.map Pin.mount, mount.point.mount ≠ pin.id := by
  intro mount hmount
  rcases List.mem_append.mp hmount with hmount | hmount
  · rcases hsound.point mount hmount with heq | ⟨other, hother, heq⟩
    · exact heq ▸ Ne.symm (h.base_ne pin hpin)
    · exact heq ▸ h.fresh pin hpin other hother
  · obtain ⟨other, hother, rfl⟩ := List.mem_map.mp hmount
    exact h.place_ne hsound hother hpin

/-! ## Unmounting by path -/

omit [DecidableEq F] [DecidableEq N] in
theorem find?_id {mount : Mount F N} (hnodup : (mounts.map Mount.id).Nodup) (hmount : mount ∈ mounts) :
    mounts.find? (fun other => other.id = mount.id) = some mount := by
  induction mounts with
  | nil => cases hmount
  | cons first mounts ih =>
      rw [List.map_cons, List.nodup_cons] at hnodup
      rw [List.find?_cons]
      split
      · next heq =>
        have hids : ((first :: mounts).map Mount.id).Nodup := List.nodup_cons.mpr hnodup
        rw [List.inj_on_of_nodup_map hids List.mem_cons_self hmount (of_decide_eq_true heq)]
      · next hne =>
        refine ih hnodup.2 ((List.mem_cons.mp hmount).resolve_left fun heq => ?_)
        rw [heq] at hne
        exact of_decide_eq_false hne rfl

omit [DecidableEq N] in
theorem unmount_of_lookup [DecidableEq N] {names : List N} {mount : Mount F N} {dir : Dir F N}
    (hnodup : (mounts.map Mount.id).Nodup) (hmount : mount ∈ mounts)
    (hlookup : PathGuard.lookup trees mounts base names = some ⟨mount.id, dir⟩) :
    unmount trees base mounts names = if mount.root = dir then some (detach mounts [mount.id]) else none := by
  rw [unmount, hlookup, Option.bind_eq_bind, Option.bind_some]
  dsimp only
  rw [find?_id hnodup hmount, Option.bind_eq_bind, Option.bind_some]

omit [DecidableEq F] [DecidableEq N] in
theorem detach_append {last : Mount F N} (h : ∀ mount ∈ mounts, mount.id ≠ last.id ∧ mount.point.mount ≠ last.id) :
    detach (mounts ++ [last]) [last.id] = mounts := by
  induction mounts with
  | nil => simp [detach]
  | cons mount mounts ih =>
      rw [List.forall_mem_cons] at h
      rw [List.cons_append, detach, if_neg (by simpa using h.1), ih h.2]

/-- The newest mount comes off by the path that it was attached at. -/
theorem Sound.unmount_append (h : Sound base mounts) {names : List N} {mount : Mount F N}
    (hlookup : PathGuard.lookup trees mounts base names = some place) (hpoint : mount.point = PathGuard.enter mounts place)
    (hne : names ≠ []) (hbase : mount.id ≠ base.mount) (hfresh : ∀ other ∈ mounts, other.id ≠ mount.id) :
    unmount trees base (mounts ++ [mount]) names = some mounts := by
  have hinside : Inside base mounts mount.point := by
    rw [hpoint]
    exact (h.enter place (h.lookup (inside_base h.base_ne) hlookup).1).1
  have hnew := h.point_ne hinside hbase hfresh
  rw [unmount_of_lookup (h.append hinside hbase hfresh).nodup (by simp) (h.lookup_append_self hlookup hpoint hne),
    if_pos rfl, detach_append fun other hother => ⟨hfresh other hother, hnew other (List.mem_append_left _ hother)⟩]

theorem Pinned.unmount_last (hsound : Sound base mounts) {pin : Pin F N} (h : Pinned trees base mounts (pins ++ [pin]))
    (hway : ∀ other ∈ pins, ¬ other.names <+: pin.names) :
    unmount trees base (mounts ++ (pins ++ [pin]).map Pin.mount) pin.names = some (mounts ++ pins.map Pin.mount) := by
  have hlast : pin ∈ pins ++ [pin] := by simp
  rw [map_mount_append]
  exact (h.of_append.sound hsound).1.unmount_append (h.lookup_self hsound hway) (h.enter_eq hsound).symm
    (h.names_ne pin hlast) (h.base_ne pin hlast) h.id_ne

theorem Pinned.exists_first (h : Pinned trees base mounts pins) {names : List N} {other : Pin F N} (hother : other ∈ pins)
    (hway : other.names <+: names) :
    ∃ front first back, pins = front ++ first :: back ∧ first.names <+: names ∧
      first.names.length ≤ other.names.length ∧ ∀ pin ∈ front ++ back, ¬ pin.names <+: first.names := by
  have hways : ∃ length, ∃ first ∈ pins, first.names <+: names ∧ first.names.length = length :=
    ⟨_, other, hother, hway, rfl⟩
  classical
  obtain ⟨first, hfirst, hfirstWay, hlength⟩ := Nat.find_spec hways
  have hupper : ∀ pin ∈ pins, pin.names <+: names → first.names.length ≤ pin.names.length := by
    intro pin hpin hway'
    rw [hlength]
    exact Nat.find_min' hways ⟨pin, hpin, hway', rfl⟩
  obtain ⟨front, back, hsplit⟩ := List.append_of_mem hfirst
  refine ⟨front, first, back, hsplit, hfirstWay, hupper other hother hway, fun pin hpin habove => ?_⟩
  have hmem : pin ∈ pins := by
    rw [hsplit]
    exact List.mem_append.mpr ((List.mem_append.mp hpin).imp_right (List.mem_cons_of_mem _))
  have hsame := habove.eq_of_length_le (hupper pin hmem (habove.trans hfirstWay))
  have hdistinct := h.distinct
  rw [hsplit, List.map_append, List.map_cons, List.nodup_middle, ← List.map_append, List.nodup_cons] at hdistinct
  exact hdistinct.1 (hsame ▸ List.mem_map_of_mem hpin)

theorem Pinned.unmount_covered (hsound : Sound base mounts) (h : Pinned trees base mounts pins) {names : List N}
    {other : Pin F N} (hother : other ∈ pins) (hne : other.names ≠ names) (hway : other.names <+: names) :
    unmount trees base (mounts ++ pins.map Pin.mount) names = none := by
  obtain ⟨front, first, back, hsplit, ⟨rest, rfl⟩, hupper, hothers⟩ := h.exists_first hother hway
  have hfirst : first ∈ pins := by simp [hsplit]
  have hnil : rest ≠ [] := by
    rintro rfl
    rw [List.append_nil] at hway hne
    exact hne (hway.eq_of_length_le hupper)
  have hinto : PathGuard.lookup trees (mounts ++ pins.map Pin.mount) base first.names = some ⟨first.id, first.root⟩ := by
    rw [hsplit] at h ⊢
    exact h.lookup_first hsound hothers
  have hlookup : PathGuard.lookup trees (mounts ++ pins.map Pin.mount) base (first.names ++ rest) =
      if trees.isDir (first.root.descend rest) = true then some ⟨first.id, first.root.descend rest⟩ else none := by
    rw [lookup_append, hinto, Option.bind_some, lookup_inside (h.point_ne hsound hfirst)]
    simp only [hnil, false_or]
  by_cases hdir : trees.isDir (first.root.descend rest) = true
  · rw [if_pos hdir] at hlookup
    have hmem : first.mount ∈ mounts ++ pins.map Pin.mount := List.mem_append_right _ (List.mem_map_of_mem hfirst)
    have hroot : first.mount.root ≠ first.root.descend rest := fun heq =>
      hnil (List.self_eq_append_right.mp (congrArg Dir.path heq))
    rw [unmount_of_lookup (h.sound hsound).1.nodup hmem hlookup, if_neg hroot]
  · rw [if_neg hdir] at hlookup
    rw [unmount, hlookup]
    rfl

omit [DecidableEq F] [DecidableEq N] in
theorem uncovered_append {pin : Pin F N} :
    Uncovered (pins ++ [pin]) ↔ Uncovered pins ∧ ∀ other ∈ pins, ¬ other.names <+: pin.names := by
  simp [Uncovered, List.pairwise_append]

/-- **Unmounting in reverse.** The mounts of the pins come off again by their paths, the last one first, if and only if
none of them is above a later one. -/
theorem Pinned.unmountAll (hsound : Sound base mounts) (h : Pinned trees base mounts pins) :
    PathGuard.unmountAll trees base (attachAll mounts pins) (pins.map Pin.names).reverse =
      if Uncovered pins then some mounts else none := by
  rw [h.attachAll_eq hsound]
  induction pins using List.reverseRecOn with
  | nil => simp [PathGuard.unmountAll, Uncovered]
  | append_singleton pins pin ih =>
      have hnames : ((pins ++ [pin]).map Pin.names).reverse = pin.names :: (pins.map Pin.names).reverse := by simp
      rw [hnames, PathGuard.unmountAll]
      by_cases hway : ∀ other ∈ pins, ¬ other.names <+: pin.names
      · have hlast : Uncovered (pins ++ [pin]) ↔ Uncovered pins := uncovered_append.trans (and_iff_left hway)
        rw [h.unmount_last hsound hway, Option.bind_some, ih h.of_append]
        simp only [hlast]
      · rw [if_neg fun hun => hway (uncovered_append.mp hun).2]
        push Not at hway
        obtain ⟨other, hother, hway⟩ := hway
        have hne : other.names ≠ pin.names := by
          have hdistinct := h.distinct
          rw [List.map_append, List.nodup_append] at hdistinct
          exact hdistinct.2.2 _ (List.mem_map_of_mem hother) _ (by simp)
        rw [h.unmount_covered hsound (List.mem_append_left _ hother) hne hway]
        rfl

end Table

end Unmount

end PathGuard
