import PathGuard.Lib.Components
import PathGuard.Lib.MountTable
import PathGuard.Native.MountExecutor
import PathGuard.Native.MountInfoText

/-!
# Which mount a path is on

`FindMountInfoPath` takes the deepest mount point on the way to a path and, of the mounts there, the newest. The kernel
goes through the newest mount on the way, however deep it is: a mount hides what was mounted below it before. The two
are the same mount if and only if the newest mount on the way is also the deepest.

* `selectRow`, `IsSelected` : the row that `FindEntry` keeps, as a loop and by what it is;
* `NewestIsDeepest` : the newest mount on the way is the deepest;
* `ShowsTable` : rows that show a table; `findsMount_iff` : when the row is that of the kernel's mount.
-/

namespace PathGuard.Native

/-! ## Paths -/

/-- A component of a normalised path. -/
structure Name where
  bytes : Bytes
  ne : bytes ≠ []
  noSlash : slash ∉ bytes
  noNul : 0 ∉ bytes
  plain : bytes ≠ ascii "." ∧ bytes ≠ ascii ".."

instance : DecidableEq Name := fun name name' => decidable_of_iff (name.bytes = name'.bytes) <| by
  cases name
  cases name'
  rw [Name.mk.injEq]

/-- The text of an absolute path. -/
def absolutePath (names : List Name) : Bytes :=
  if names = [] then [slash] else names.flatMap fun name => slash :: name.bytes

theorem absolutePath_head (names : List Name) : (absolutePath names).head? = some slash := by
  rw [absolutePath]
  split
  · rfl
  · next hne =>
    obtain ⟨name, rest, rfl⟩ := List.exists_cons_of_ne_nil hne
    rfl

theorem absolutePath_of_ne {names : List Name} (h : names ≠ []) :
    absolutePath names = names.flatMap fun name => slash :: name.bytes := if_neg h

theorem splitOn_flatMap (names : List Name) :
    (names.flatMap fun name => slash :: name.bytes).splitOn slash = [] :: names.map Name.bytes := by
  induction names with
  | nil => rfl
  | cons name names ih =>
      rw [List.flatMap_cons, List.cons_append, ← List.nil_append (slash :: _), List.splitOn_append_cons_self,
        List.splitOn_nil, List.singleton_append, List.cons_eq_cons]
      refine ⟨rfl, ?_⟩
      cases names with
      | nil => rw [List.flatMap_nil, List.append_nil, List.splitOn_eq_singleton name.noSlash, List.map_singleton]
      | cons next names =>
          rw [List.flatMap_cons, List.cons_append, ← List.nil_append (slash :: _), List.splitOn_append_cons_self,
            List.splitOn_nil, List.singleton_append, List.cons_eq_cons] at ih
          rw [List.flatMap_cons, List.cons_append, List.splitOn_append_cons_self_of_not_mem name.noSlash, ih.2]
          rfl

theorem bytes_injective : Function.Injective Name.bytes := by
  intro name name' h
  cases name
  cases name'
  rwa [Name.mk.injEq]

theorem isPathOnMount_iff {path mountpoint : Bytes} (hpath : path.head? = some slash) (hroot : mountpoint ≠ [slash]) :
    isPathOnMount path mountpoint = true ↔ IsWithin slash mountpoint path := by
  have hcases : mountpoint.isPrefixOf path = true ∧
      ((path.drop mountpoint.length).isEmpty = true ∨ (path.drop mountpoint.length).head? = some slash) ↔
      path = mountpoint ∨ ∃ rest, path = mountpoint ++ slash :: rest := by
    rw [List.isPrefixOf_iff_prefix]
    constructor
    · rintro ⟨⟨rest, rfl⟩, hrest⟩
      rw [List.drop_left] at hrest
      rcases hrest with hnil | hhead
      · rw [List.isEmpty_iff.mp hnil, List.append_nil]
        exact Or.inl rfl
      · obtain ⟨behind, hbehind⟩ := List.head?_eq_some_iff.mp hhead
        exact Or.inr ⟨behind, by rw [hbehind]⟩
    · rintro (rfl | ⟨rest, rfl⟩)
      · exact ⟨List.prefix_refl _, Or.inl (by simp)⟩
      · exact ⟨List.prefix_append _ _, Or.inr (by simp)⟩
  rw [isWithin_iff, ← hcases, isPathOnMount]
  simp [hpath, hroot]

theorem absolutePath_eq_slash {names : List Name} : absolutePath names = [slash] ↔ names = [] := by
  refine ⟨fun h => ?_, fun h => by rw [h]; rfl⟩
  by_contra hne
  have hsplit := splitOn_flatMap names
  rw [← absolutePath_of_ne hne, h] at hsplit
  obtain ⟨name, rest, rfl⟩ := List.exists_cons_of_ne_nil hne
  exact name.ne (List.cons.inj (List.cons.inj hsplit).2).1.symm

theorem isPathOnMount_absolutePath {names front : List Name} :
    isPathOnMount (absolutePath names) (absolutePath front) = true ↔ front <+: names := by
  by_cases hfront : front = []
  · subst hfront
    have hroot : absolutePath [] = [slash] := rfl
    rw [isPathOnMount, hroot, absolutePath_head]
    simp
  · rw [isPathOnMount_iff (absolutePath_head names) (absolutePath_eq_slash.not.mpr hfront), IsWithin,
      absolutePath_of_ne hfront, splitOn_flatMap]
    by_cases hnames : names = []
    · subst hnames
      obtain ⟨name, rest, rfl⟩ := List.exists_cons_of_ne_nil hfront
      refine iff_of_false (fun h => ?_) (by simp)
      have hprefix : [] :: (name :: rest).map Name.bytes <+: [[], []] := h
      rw [List.cons_prefix_cons, List.map_cons, List.cons_prefix_cons] at hprefix
      exact name.ne hprefix.2.1
    · rw [absolutePath_of_ne hnames, splitOn_flatMap, List.cons_prefix_cons]
      exact ⟨fun h => (List.prefix_map_iff_of_injective bytes_injective).mp h.2, fun h => ⟨rfl, h.map _⟩⟩

theorem two_le_length_flatMap {names : List Name} (h : names ≠ []) :
    2 ≤ (names.flatMap fun name => slash :: name.bytes).length := by
  obtain ⟨name, rest, rfl⟩ := List.exists_cons_of_ne_nil h
  have hname := List.length_pos_of_ne_nil name.ne
  rw [List.flatMap_cons, List.length_append, List.length_cons]
  omega

theorem length_absolutePath_lt {front front' : List Name} (h : front <+: front') (hne : front ≠ front') :
    (absolutePath front).length < (absolutePath front').length := by
  obtain ⟨rest, rfl⟩ := h
  have hrest : rest ≠ [] := fun hnil => hne (by rw [hnil, List.append_nil])
  have hlong := two_le_length_flatMap hrest
  rw [absolutePath_of_ne (List.append_ne_nil_of_right_ne_nil front hrest), List.flatMap_append, List.length_append]
  by_cases hfront : front = []
  · subst hfront
    rw [absolutePath, if_pos rfl, List.length_singleton]
    omega
  · rw [absolutePath_of_ne hfront]
    omega

theorem eq_of_length_absolutePath {names front front' : List Name} (h : front <+: names) (h' : front' <+: names)
    (hlength : (absolutePath front).length = (absolutePath front').length) : front = front' := by
  by_contra hne
  rcases List.prefix_or_prefix_of_prefix h h' with hprefix | hprefix
  · exact absurd (length_absolutePath_lt hprefix hne) (by omega)
  · exact absurd (length_absolutePath_lt hprefix (Ne.symm hne)) (by omega)

/-! ## The row that is found -/

def MountRow.identity (row : MountRow) : MountPathIdentity where
  mountId := row.mountId
  parentMountId := row.parentMountId
  device := row.device
  root := row.root
  mountpoint := row.mountpoint
  filesystem := row.filesystem

/-- One round of `FindEntry`, on the rows themselves. -/
def keepRow (path : Bytes) (exactMountpoint : Bool) (best : Option MountRow) (row : MountRow) : Option MountRow :=
  let matches_ := if exactMountpoint then row.mountpoint == path else isPathOnMount path row.mountpoint
  if !matches_ || !exactMountpoint && (best.any fun best => row.mountpoint.length < best.mountpoint.length) then best
  else some row

def selectRow (path : Bytes) (exactMountpoint : Bool) (rows : List MountRow) : Option MountRow :=
  rows.foldl (keepRow path exactMountpoint) none

section Find
variable {text path : Bytes} {exactMountpoint : Bool} {rows : List MountRow}

/-- What `FindEntry` keeps, and the row of it. -/
def Keeps (text : Bytes) (kept : MountInfoSnapshotEntry × Nat) (row : MountRow) : Prop :=
  kept.1.Shows text row ∧ kept.2 = row.mountpoint.length

theorem findEntry_eq {entries : List MountInfoSnapshotEntry} {selected : Option (MountInfoSnapshotEntry × Nat)}
    {best : Option MountRow} (hentries : List.Forall₂ (MountInfoSnapshotEntry.Shows text) entries rows)
    (hselected : Option.Rel (Keeps text) selected best) :
    ∃ found, findEntry text path exactMountpoint entries selected = .ok found ∧
      Option.Rel (Keeps text) found (rows.foldl (keepRow path exactMountpoint) best) ∧
      ∀ kept ∈ found, some kept = selected ∨ kept.1 ∈ entries := by
  induction hentries generalizing selected best with
  | nil => exact ⟨selected, rfl, hselected, fun kept hkept => Or.inl hkept.symm⟩
  | @cons entry row entries rows hshows _ ih =>
      have hdeeper : (selected.any fun best => decide (row.mountpoint.length < best.2)) =
          best.any fun best => decide (row.mountpoint.length < best.mountpoint.length) := by
        cases hselected with
        | none => rfl
        | some hkeeps => rw [Option.any_some, Option.any_some, hkeeps.2]
      have hlater : ∀ {selected' : Option (MountInfoSnapshotEntry × Nat)} {found : Option (MountInfoSnapshotEntry × Nat)},
          (∀ kept ∈ selected', some kept = selected ∨ kept.1 = entry) →
          (∀ kept ∈ found, some kept = selected' ∨ kept.1 ∈ entries) →
          ∀ kept ∈ found, some kept = selected ∨ kept.1 ∈ entry :: entries := by
        intro selected' found hselected' hfound kept hkept
        rcases hfound kept hkept with hsame | hmem
        · refine (hselected' kept hsame.symm).imp_right fun heq => ?_
          rw [heq]
          exact List.mem_cons_self
        · exact Or.inr (List.mem_cons_of_mem entry hmem)
      rw [findEntry, hshows.mountpoint, List.foldl_cons, keepRow]
      simp only [hdeeper]
      generalize (if exactMountpoint = true then row.mountpoint == path else isPathOnMount path row.mountpoint) = onMount
      split
      · obtain ⟨found, hfind, hrel, hmem⟩ := ih hselected
        exact ⟨found, hfind, hrel, hlater (fun kept hkept => Or.inl hkept.symm) hmem⟩
      · have hkeeps : Option.Rel (Keeps text) (some (entry, row.mountpoint.length)) (some row) := .some ⟨hshows, rfl⟩
        obtain ⟨found, hfind, hrel, hmem⟩ := ih hkeeps
        refine ⟨found, hfind, hrel, hlater (fun kept hkept => Or.inr ?_) hmem⟩
        rw [← Option.some.inj hkept]

theorem findMountInfoPath_eq (hwell : ∀ row ∈ rows, row.WellFormed) {snapshot : MountInfoSnapshot}
    (hparse : parseSnapshot (mountInfoText rows) = .ok snapshot) (hpath : path.head? = some slash) :
    findMountInfoPath snapshot path exactMountpoint =
      match selectRow path exactMountpoint rows with
      | none => .error .ENOENT
      | some row => .ok row.identity := by
  obtain ⟨found, hfind, hrel, hmem⟩ := @findEntry_eq snapshot.text path exactMountpoint rows snapshot.entries none none
    (forall₂_shows_of_parse hwell hparse) .none
  rw [← selectRow] at hrel
  rw [findMountInfoPath, if_neg (not_not.mpr hpath), hfind]
  cases hfound : found with
  | none =>
      rw [hfound] at hrel
      cases hselect : selectRow path exactMountpoint rows with
      | none => rfl
      | some row =>
          rw [hselect] at hrel
          cases hrel
  | some kept =>
      rw [hfound] at hrel
      cases hselect : selectRow path exactMountpoint rows with
      | none =>
          rw [hselect] at hrel
          cases hrel
      | some row =>
          rw [hselect] at hrel
          cases hrel with
          | some hkeeps =>
              have hentry : kept.1 ∈ snapshot.entries :=
                (hmem kept hfound).resolve_left fun hnone => Option.some_ne_none _ hnone
              have hlength := parseSnapshot_filesystemLength hparse kept.1 hentry
              simp only [hkeeps.1.root, hkeeps.1.mountpoint, if_neg (Nat.not_le.mpr hlength)]
              rw [MountRow.identity, ← hkeeps.1.mountId, ← hkeeps.1.parentMountId, ← hkeeps.1.device,
                ← hkeeps.1.filesystem]

theorem findEntry_onMount {entries : List MountInfoSnapshotEntry} {selected : Option (MountInfoSnapshotEntry × Nat)}
    {found : MountInfoSnapshotEntry × Nat} (h : findEntry text path false entries selected = .ok (some found)) :
    selected = some found ∨ ∃ mountpoint,
      decodeToken (tokenOf text found.1.mountpointOffset found.1.mountpointLength) PATH_MAX = some mountpoint ∧
        isPathOnMount path mountpoint = true := by
  induction entries generalizing selected with
  | nil => exact Or.inl (Except.ok.inj h)
  | cons entry entries ih =>
      rw [findEntry] at h
      cases htoken : decodeToken (tokenOf text entry.mountpointOffset entry.mountpointLength) PATH_MAX with
      | none =>
          rw [htoken] at h
          cases h
      | some mountpoint =>
          simp only [htoken, Bool.false_eq_true, if_false, Bool.not_false, Bool.true_and] at h
          split at h
          · exact ih h
          · next hkept =>
            rcases ih h with hsame | hlater
            · rw [← Option.some.inj hsame]
              refine Or.inr ⟨mountpoint, htoken, ?_⟩
              by_contra hoff
              exact hkept (by rw [Bool.not_eq_true] at hoff; rw [hoff, Bool.not_false, Bool.true_or])
            · exact Or.inr hlater

theorem findMountInfoPath_onMount {snapshot : MountInfoSnapshot} {mount : MountPathIdentity}
    (h : findMountInfoPath snapshot path false = .ok mount) : isPathOnMount path mount.mountpoint = true := by
  rw [findMountInfoPath] at h
  split at h
  · cases h
  · split at h
    · cases h
    · cases h
    · next entry length hfind =>
      obtain hnone | ⟨mountpoint, htoken, hpath⟩ := findEntry_onMount hfind
      · cases hnone
      · rw [htoken] at h
        split at h
        · next root mountpoint' _ hsame =>
          obtain rfl := Option.some.inj hsame
          split at h
          · cases h
          · rw [← Except.ok.inj h]
            exact hpath
        · cases h

end Find

/-! ## The deepest row and the newest -/

section Select
variable {path : Bytes} {rows : List MountRow}

/-- The row is on the way, none is deeper, and those after it are less deep. -/
def IsSelected (path : Bytes) (rows : List MountRow) (row : MountRow) : Prop :=
  ∃ before after, rows = before ++ row :: after ∧ isPathOnMount path row.mountpoint = true ∧
    (∀ other ∈ before, isPathOnMount path other.mountpoint = true → other.mountpoint.length ≤ row.mountpoint.length) ∧
    ∀ other ∈ after, isPathOnMount path other.mountpoint = true → other.mountpoint.length < row.mountpoint.length

theorem selectRow_false (rows : List MountRow) :
    match selectRow path false rows with
    | none => ∀ row ∈ rows, isPathOnMount path row.mountpoint = false
    | some row => IsSelected path rows row := by
  induction rows using List.reverseRecOn with
  | nil => exact List.forall_mem_nil _
  | append_singleton rows row ih =>
      rw [selectRow, List.foldl_append, ← selectRow, List.foldl_cons, List.foldl_nil]
      cases hselect : selectRow path false rows with
      | none =>
          rw [hselect] at ih
          by_cases hway : isPathOnMount path row.mountpoint = true
          · simp only [keepRow, hway, Bool.false_eq_true, if_false, Bool.not_true, Option.any_none, Bool.and_false,
              Bool.or_self]
            refine ⟨rows, [], rfl, hway, fun other hother hmatch => ?_, List.forall_mem_nil _⟩
            rw [ih other hother] at hmatch
            cases hmatch
          · simp only [keepRow, Bool.false_eq_true, if_false, hway, Bool.not_false, Bool.true_or, if_true]
            rw [List.forall_mem_append, List.forall_mem_singleton]
            exact ⟨ih, by simpa using hway⟩
      | some best =>
          rw [hselect] at ih
          obtain ⟨before, after, hrows, hbest, hbefore, hafter⟩ := ih
          have hle : ∀ other ∈ rows, isPathOnMount path other.mountpoint = true →
              other.mountpoint.length ≤ best.mountpoint.length := by
            rw [hrows, List.forall_mem_append, List.forall_mem_cons]
            exact ⟨hbefore, fun _ => le_refl _, fun other hother hmatch => (hafter other hother hmatch).le⟩
          have hkept : (∀ other ∈ [row], isPathOnMount path other.mountpoint = true →
              other.mountpoint.length < best.mountpoint.length) → IsSelected path (rows ++ [row]) best := by
            intro hless
            refine ⟨before, after ++ [row], by rw [hrows]; simp, hbest, hbefore, ?_⟩
            rw [List.forall_mem_append]
            exact ⟨hafter, hless⟩
          by_cases hway : isPathOnMount path row.mountpoint = true
          · by_cases hless : row.mountpoint.length < best.mountpoint.length
            · simp only [keepRow, hway, hless, Bool.false_eq_true, if_false, Bool.not_true, Bool.not_false,
                Option.any_some, decide_true, Bool.and_self, Bool.or_true, if_true]
              exact hkept fun other hother _ => by rwa [List.mem_singleton.mp hother]
            · simp only [keepRow, hway, hless, Bool.false_eq_true, if_false, Bool.not_true, Bool.not_false,
                Option.any_some, decide_false, Bool.and_false, Bool.or_self]
              exact ⟨rows, [], rfl, hway, fun other hother hmatch => (hle other hother hmatch).trans (not_lt.mp hless),
                List.forall_mem_nil _⟩
          · simp only [keepRow, Bool.false_eq_true, if_false, hway, Bool.not_false, Bool.true_or, if_true]
            refine hkept fun other hother hmatch => ?_
            rw [List.mem_singleton.mp hother] at hmatch
            exact absurd hmatch hway

/-- The row is mounted at the path or above it, and not on top of the root. -/
def isOnWay (path : Bytes) (row : MountRow) : Bool := row.mountpoint ≠ [slash] && isPathOnMount path row.mountpoint

theorem isOnWay_iff {row : MountRow} :
    isOnWay path row = true ↔ row.mountpoint ≠ [slash] ∧ isPathOnMount path row.mountpoint = true := by
  rw [isOnWay, Bool.and_eq_true, decide_eq_true_eq]

/-- The newest mount on the way to a path. -/
def newestOnWay (rows : List MountRow) (path : Bytes) : Option MountRow := (rows.filter (isOnWay path)).getLast?

/-- The newest mount on the way is as deep as any; and where there is none, no mount is on top of the root. -/
def NewestIsDeepest (rows : List MountRow) (path : Bytes) : Prop :=
  match newestOnWay rows path with
  | some newest => ∀ row ∈ rows, isPathOnMount path row.mountpoint = true →
      row.mountpoint.length ≤ newest.mountpoint.length
  | none => ∀ row ∈ rows.tail, row.mountpoint ≠ [slash]

/-- Rows at two places of the way with texts of one length are at one place. -/
def OneChain (path : Bytes) (rows : List MountRow) : Prop :=
  ∀ row ∈ rows, ∀ row' ∈ rows, isPathOnMount path row.mountpoint = true → isPathOnMount path row'.mountpoint = true →
    row.mountpoint.length = row'.mountpoint.length → row.mountpoint = row'.mountpoint

/-- When there is a mount on the way, the selected row is the newest one if and only if the newest is the deepest. -/
theorem IsSelected.eq_newest_iff {selected newest : MountRow} (h : IsSelected path rows selected)
    (hchain : OneChain path rows) (hnodup : (rows.map MountRow.mountId).Nodup)
    (hnewest : newestOnWay rows path = some newest) :
    selected.mountId = newest.mountId ↔
      ∀ row ∈ rows, isPathOnMount path row.mountpoint = true → row.mountpoint.length ≤ newest.mountpoint.length := by
  obtain ⟨before, after, hrows, hway, hbefore, hafter⟩ := h
  have hmem : newest ∈ rows.filter (isOnWay path) := List.mem_of_getLast? hnewest
  rw [List.mem_filter, isOnWay_iff] at hmem
  obtain ⟨hnewestMem, hnewestRoot, hnewestWay⟩ := hmem
  have hselectedMem : selected ∈ rows := by
    rw [hrows]
    simp
  constructor
  · intro hid
    obtain rfl : selected = newest := List.inj_on_of_nodup_map hnodup hselectedMem hnewestMem hid
    rw [hrows, List.forall_mem_append, List.forall_mem_cons]
    exact ⟨hbefore, fun _ => le_refl _, fun other hother hmatch => (hafter other hother hmatch).le⟩
  · intro hdeepest
    have hle := hdeepest selected hselectedMem hway
    have hnotAfter : newest ∉ after := fun hmem => absurd (hafter newest hmem hnewestWay) (Nat.not_lt.mpr hle)
    have hge : newest.mountpoint.length ≤ selected.mountpoint.length := by
      rw [hrows, List.mem_append, List.mem_cons] at hnewestMem
      rcases hnewestMem with hmem | rfl | hmem
      · exact hbefore newest hmem hnewestWay
      · exact le_refl _
      · exact absurd hmem hnotAfter
    have hsame := hchain selected hselectedMem newest hnewestMem hway hnewestWay (le_antisymm hle hge)
    -- what comes after the selected row has no part in the choice of the newest
    have hkept : isOnWay path selected = true := isOnWay_iff.mpr ⟨hsame ▸ hnewestRoot, hway⟩
    rw [newestOnWay, hrows, List.filter_append, List.filter_cons_of_pos hkept, List.getLast?_append,
      List.getLast?_cons] at hnewest
    cases hlast : (after.filter (isOnWay path)).getLast? with
    | none =>
        rw [hlast] at hnewest
        have heq : selected = newest := by simpa using hnewest
        rw [heq]
    | some other =>
        rw [hlast] at hnewest
        obtain rfl : other = newest := by simpa using hnewest
        exact absurd (List.mem_filter.mp (List.mem_of_getLast? hlast)).1 hnotAfter

/-- When there is none, the selected row is the first one if and only if no mount is on top of the root. -/
theorem IsSelected.eq_first_iff {selected first : MountRow} {others : List MountRow}
    (h : IsSelected path (first :: others) selected) (hnodup : ((first :: others).map MountRow.mountId).Nodup)
    (hfirst : first.mountpoint = [slash]) (hpath : path.head? = some slash)
    (hnewest : newestOnWay (first :: others) path = none) :
    selected.mountId = first.mountId ↔ ∀ row ∈ others, row.mountpoint ≠ [slash] := by
  obtain ⟨before, after, hrows, hway, hbefore, hafter⟩ := h
  have hroot : isPathOnMount path [slash] = true := by
    rw [isPathOnMount, hpath]
    simp
  have hselectedMem : selected ∈ first :: others := by
    rw [hrows]
    simp
  have hselectedRoot : selected.mountpoint = [slash] := by
    rw [newestOnWay, List.getLast?_eq_none_iff, List.filter_eq_nil_iff] at hnewest
    by_contra hne
    exact hnewest selected hselectedMem (isOnWay_iff.mpr ⟨hne, hway⟩)
  constructor
  · intro hid row hrow hrowRoot
    obtain rfl : selected = first := List.inj_on_of_nodup_map hnodup hselectedMem List.mem_cons_self hid
    cases before with
    | cons head before =>
        rw [List.cons_append, List.cons_eq_cons] at hrows
        obtain ⟨rfl, rfl⟩ := hrows
        rw [List.map_cons, List.nodup_cons] at hnodup
        exact hnodup.1 (List.mem_map_of_mem (by simp))
    | nil =>
        rw [List.nil_append, List.cons_eq_cons] at hrows
        obtain ⟨-, rfl⟩ := hrows
        have hless := hafter row hrow (hrowRoot ▸ hroot)
        rw [hrowRoot, hfirst] at hless
        exact lt_irrefl _ hless
  · intro hnone
    rcases List.mem_cons.mp hselectedMem with heq | hmem
    · rw [heq]
    · exact absurd hselectedRoot (hnone selected hmem)

end Select

/-! ## The table of a namespace -/

section Table
variable {F : Type*} [DecidableEq F] {trees : DirTrees F Name} {base place : Place F Name} {mounts : List (Mount F Name)}
  {rows : List MountRow} {names : List Name}

/-- The row that is shown of a mount. -/
def ShowsMount (base : Place F Name) (mounts : List (Mount F Name)) (row : MountRow) (mount : Mount F Name) : Prop :=
  row.mountId = mount.id ∧ row.mountpoint = absolutePath (pathOf base mounts mount.top)

/-- The rows of a namespace whose root is `base`: that of the root's mount, and those of the others in the order in which
they were attached. -/
def ShowsTable (base : Place F Name) (mounts : List (Mount F Name)) (rows : List MountRow) : Prop :=
  ∃ root others, rows = root :: others ∧ root.mountId = base.mount ∧ root.mountpoint = [slash] ∧
    List.Forall₂ (ShowsMount base mounts) others mounts

omit [DecidableEq F] in
theorem ShowsMount.isOnWay {row : MountRow} {mount : Mount F Name} (h : ShowsMount base mounts row mount) :
    isOnWay (absolutePath names) row = onWay base mounts names mount := by
  rw [Bool.eq_iff_iff, isOnWay_iff, onWay, decide_eq_true_eq, h.2, isPathOnMount_absolutePath, Ne, absolutePath_eq_slash]

omit [DecidableEq F] in
theorem map_filter_isOnWay {others : List MountRow} {attached : List (Mount F Name)}
    (h : List.Forall₂ (ShowsMount base mounts) others attached) :
    (others.filter (Native.isOnWay (absolutePath names))).map MountRow.mountId =
      (attached.filter (onWay base mounts names)).map Mount.id := by
  induction h with
  | nil => rfl
  | @cons row mount others attached hshows _ ih =>
      rw [List.filter_cons, List.filter_cons, hshows.isOnWay]
      split
      · rw [List.map_cons, List.map_cons, ih, hshows.1]
      · exact ih

omit [DecidableEq F] in
theorem map_mountId {others : List MountRow} {attached : List (Mount F Name)}
    (h : List.Forall₂ (ShowsMount base mounts) others attached) :
    others.map MountRow.mountId = attached.map Mount.id := by
  induction h with
  | nil => rfl
  | cons hshows _ ih => rw [List.map_cons, List.map_cons, hshows.1, ih]

theorem ShowsTable.nodup (hbuilt : Built trees base mounts) (h : ShowsTable base mounts rows) :
    (rows.map MountRow.mountId).Nodup := by
  obtain ⟨root, others, rfl, hroot, -, hothers⟩ := h
  rw [List.map_cons, map_mountId hothers, hroot, List.nodup_cons]
  refine ⟨fun hmem => ?_, hbuilt.sound.nodup⟩
  obtain ⟨mount, hmount, hid⟩ := List.mem_map.mp hmem
  exact hbuilt.sound.base_ne mount hmount hid

omit [DecidableEq F] in
theorem exists_path_of_forall₂ {others : List MountRow} {attached : List (Mount F Name)}
    (h : List.Forall₂ (ShowsMount base mounts) others attached) :
    ∀ row ∈ others, ∃ front, row.mountpoint = absolutePath front := by
  induction h with
  | nil => exact List.forall_mem_nil _
  | cons hshows _ ih => exact List.forall_mem_cons.mpr ⟨⟨_, hshows.2⟩, ih⟩

omit [DecidableEq F] in
theorem ShowsTable.exists_path (h : ShowsTable base mounts rows) :
    ∀ row ∈ rows, ∃ front, row.mountpoint = absolutePath front := by
  obtain ⟨root, others, rfl, -, hroot, hothers⟩ := h
  exact List.forall_mem_cons.mpr ⟨⟨[], hroot⟩, exists_path_of_forall₂ hothers⟩

omit [DecidableEq F] in
theorem ShowsTable.oneChain (h : ShowsTable base mounts rows) : OneChain (absolutePath names) rows := by
  intro row hrow row' hrow' hway hway' hlength
  obtain ⟨front, hfront⟩ := h.exists_path row hrow
  obtain ⟨front', hfront'⟩ := h.exists_path row' hrow'
  rw [hfront, isPathOnMount_absolutePath] at hway
  rw [hfront', isPathOnMount_absolutePath] at hway'
  rw [hfront, hfront'] at hlength ⊢
  rw [eq_of_length_absolutePath hway hway' hlength]

theorem ShowsTable.place_mount (hbuilt : Built trees base mounts) (h : ShowsTable base mounts rows)
    (hlookup : lookup trees mounts base names = some place) :
    place.mount = match newestOnWay rows (absolutePath names) with
      | some newest => newest.mountId
      | none => base.mount := by
  obtain ⟨root, others, rfl, -, hroot, hothers⟩ := h
  have hrootOut : Native.isOnWay (absolutePath names) root = false := by
    rw [Bool.eq_false_iff, Ne, isOnWay_iff]
    exact fun h => h.1 hroot
  have hlast := congrArg List.getLast? (@map_filter_isOnWay _ base mounts names others mounts hothers)
  rw [List.getLast?_map, List.getLast?_map] at hlast
  rw [hbuilt.lookup_newest hlookup, newestOnWay, List.filter_cons_of_neg (by rw [hrootOut]; exact Bool.false_ne_true)]
  cases hrow : (others.filter (Native.isOnWay (absolutePath names))).getLast? with
  | none =>
      rw [hrow, Option.map_none, eq_comm, Option.map_eq_none_iff] at hlast
      rw [hlast]
  | some row =>
      rw [hrow, Option.map_some, eq_comm, Option.map_eq_some_iff] at hlast
      obtain ⟨mount, hmount, hid⟩ := hlast
      rw [hmount]
      exact hid

theorem exists_selected (hbuilt : Built trees base mounts) (hrows : ShowsTable base mounts rows)
    (hlookup : lookup trees mounts base names = some place) :
    ∃ selected ∈ rows, selectRow (absolutePath names) false rows = some selected ∧
      (selected.mountId = place.mount ↔ NewestIsDeepest rows (absolutePath names)) := by
  have hpath := absolutePath_head names
  have hnodup := hrows.nodup hbuilt
  have hselect := @selectRow_false (absolutePath names) rows
  obtain ⟨root, others, hsplit, hrootId, hroot, -⟩ := id hrows
  cases hselected : selectRow (absolutePath names) false rows with
  | none =>
      rw [hselected] at hselect
      have hrootWay := hselect root (hsplit ▸ List.mem_cons_self)
      rw [hroot, isPathOnMount, hpath] at hrootWay
      simp at hrootWay
  | some selected =>
      rw [hselected] at hselect
      have hmem : selected ∈ rows := by
        obtain ⟨before, after, heq, -⟩ := hselect
        rw [heq]
        simp
      refine ⟨selected, hmem, rfl, ?_⟩
      rw [hrows.place_mount hbuilt hlookup, NewestIsDeepest]
      cases hnewest : newestOnWay rows (absolutePath names) with
      | some newest => exact hselect.eq_newest_iff hrows.oneChain hnodup hnewest
      | none =>
          subst hsplit
          rw [← hrootId]
          exact hselect.eq_first_iff hnodup hroot hpath hnewest

omit [DecidableEq F] in
theorem pinDirectory_mount {snapshot : MountInfoSnapshot} {path : Bytes} {device : Device} {inode : Nat}
    {identity : PinnedIdentity} (h : pinDirectory snapshot path device inode = .ok identity) :
    findMountInfoPath snapshot path false = .ok identity.mount := by
  rw [pinDirectory] at h
  split at h
  · cases h
  · split at h
    · cases h
    · next mount hfind =>
      split at h
      · cases h
      · split at h
        · cases h
        · rw [hfind, ← Except.ok.inj h]

/-- The row that `FindMountInfoPath` returns is that of the mount. -/
def FindsMount (rows : List MountRow) (snapshot : MountInfoSnapshot) (path : Bytes) (mountId : Nat) : Prop :=
  ∃ row ∈ rows, row.mountId = mountId ∧ findMountInfoPath snapshot path false = .ok row.identity

/-- **Where the row of a path is that of its mount.** In a snapshot of any table that is built by attaching, the row that
is found for a directory, and the identity that is pinned for it, is that of the mount which the lookup ends on if and
only if the newest mount on the way is the deepest. -/
theorem findsMount_iff (hbuilt : Built trees base mounts) (hrows : ShowsTable base mounts rows)
    (hwell : ∀ row ∈ rows, row.WellFormed) {snapshot : MountInfoSnapshot}
    (hparse : parseSnapshot (mountInfoText rows) = .ok snapshot)
    (hlookup : lookup trees mounts base names = some place) :
    (FindsMount rows snapshot (absolutePath names) place.mount ↔ NewestIsDeepest rows (absolutePath names)) ∧
      ∀ device inode identity, pinDirectory snapshot (absolutePath names) device inode = .ok identity →
        (identity.mount.mountId = place.mount ↔ NewestIsDeepest rows (absolutePath names)) := by
  obtain ⟨selected, hmem, hselected, hiff⟩ := exists_selected hbuilt hrows hlookup
  have hfind : findMountInfoPath snapshot (absolutePath names) false = .ok selected.identity := by
    rw [findMountInfoPath_eq hwell hparse (absolutePath_head names), hselected]
  rw [← hiff, FindsMount, hfind]
  refine ⟨⟨?_, fun hid => ⟨selected, hmem, hid, rfl⟩⟩, fun device inode identity hpin => ?_⟩
  · rintro ⟨row, -, hid, heq⟩
    rw [← hid]
    exact congrArg MountPathIdentity.mountId (Except.ok.inj heq)
  · have hsame := (pinDirectory_mount hpin).symm.trans hfind
    rw [Except.ok.inj hsame]
    rfl

end Table

/-! ## A mount that hides another -/

def plainRow (mountId : Nat) (mountpoint : Bytes) : MountRow where
  mountId := mountId
  parentMountId := 1
  device := ⟨8, 1⟩
  root := ascii "/"
  mountpoint := mountpoint
  options := ascii "rw"
  optional := []
  filesystem := ascii "ext4"
  source := ascii "/dev/sda"
  superOptions := ascii "rw"

def nameA : Name := ⟨ascii "a", by decide, by decide, by decide, by decide⟩
def nameB : Name := ⟨ascii "b", by decide, by decide, by decide, by decide⟩

/-- File systems in which every directory exists. -/
def everyDir : DirTrees Nat Name := ⟨fun _ => true, fun _ _ _ => rfl⟩

def rootPlace : Place Nat Name := ⟨1, ⟨0, []⟩⟩

/-- A mount at `/a` and then, inside it, one at `/a/b`. -/
def nestedMounts : List (Mount Nat Name) := [⟨2, ⟨1, ⟨0, [nameA]⟩⟩, ⟨1, []⟩⟩, ⟨3, ⟨2, ⟨1, [nameB]⟩⟩, ⟨2, []⟩⟩]

def nestedRows : List MountRow := [plainRow 1 (ascii "/"), plainRow 2 (ascii "/a"), plainRow 3 (ascii "/a/b")]

/-- A mount at `/a/b` and then, over it, one at `/a`. -/
def hiddenMounts : List (Mount Nat Name) := [⟨2, ⟨1, ⟨0, [nameA, nameB]⟩⟩, ⟨1, []⟩⟩, ⟨3, ⟨1, ⟨0, [nameA]⟩⟩, ⟨2, []⟩⟩]

def hiddenRows : List MountRow := [plainRow 1 (ascii "/"), plainRow 2 (ascii "/a/b"), plainRow 3 (ascii "/a")]

theorem built_nested : Built everyDir rootPlace nestedMounts :=
  .attach ⟨2, []⟩ (.attach ⟨1, []⟩ .nil (show lookup everyDir [] rootPlace [nameA] = _ from rfl) (by decide) (by decide))
    (show lookup everyDir [⟨2, ⟨1, ⟨0, [nameA]⟩⟩, ⟨1, []⟩⟩] rootPlace [nameA, nameB] = _ from rfl) (by decide) (by decide)

theorem findsMount_iff_nested : ∃ snapshot, parseSnapshot (mountInfoText nestedRows) = .ok snapshot ∧
    FindsMount nestedRows snapshot (ascii "/a/b") 3 := by
  have hsome : (parseSnapshot (mountInfoText nestedRows)).toOption.isSome = true := by decide +kernel
  have hshows : ShowsTable rootPlace nestedMounts nestedRows :=
    ⟨_, _, rfl, rfl, rfl, .cons ⟨rfl, rfl⟩ (.cons ⟨rfl, rfl⟩ .nil)⟩
  have hlookup : lookup everyDir nestedMounts rootPlace [nameA, nameB] = some ⟨3, ⟨2, []⟩⟩ := rfl
  have hnewest : newestOnWay nestedRows (ascii "/a/b") = some (plainRow 3 (ascii "/a/b")) := by decide +kernel
  cases hparse : parseSnapshot (mountInfoText nestedRows) with
  | error error =>
      rw [hparse] at hsome
      cases hsome
  | ok snapshot =>
      refine ⟨snapshot, rfl, (findsMount_iff built_nested hshows (by decide +kernel) hparse hlookup).1.mpr ?_⟩
      rw [show absolutePath [nameA, nameB] = ascii "/a/b" from rfl, NewestIsDeepest, hnewest]
      decide +kernel

theorem built_hidden : Built everyDir rootPlace hiddenMounts :=
  .attach ⟨2, []⟩
    (.attach ⟨1, []⟩ .nil (show lookup everyDir [] rootPlace [nameA, nameB] = _ from rfl) (by decide) (by decide))
    (show lookup everyDir [⟨2, ⟨1, ⟨0, [nameA, nameB]⟩⟩, ⟨1, []⟩⟩] rootPlace [nameA] = _ from rfl) (by decide) (by decide)

/-- The directory `/a/b` of the mount at `/a` is taken for that of the mount which this one hides. -/
theorem not_findsMount_hidden : ∃ snapshot place, Built everyDir rootPlace hiddenMounts ∧
    ShowsTable rootPlace hiddenMounts hiddenRows ∧ (∀ row ∈ hiddenRows, row.WellFormed) ∧
    parseSnapshot (mountInfoText hiddenRows) = .ok snapshot ∧
    lookup everyDir hiddenMounts rootPlace [nameA, nameB] = some place ∧
    ¬ FindsMount hiddenRows snapshot (absolutePath [nameA, nameB]) place.mount := by
  have hwell : ∀ row ∈ hiddenRows, row.WellFormed := by decide +kernel
  have hsome : (parseSnapshot (mountInfoText hiddenRows)).toOption.isSome = true := by decide +kernel
  cases hparse : parseSnapshot (mountInfoText hiddenRows) with
  | error error =>
      rw [hparse] at hsome
      cases hsome
  | ok snapshot =>
      refine ⟨snapshot, ⟨3, ⟨2, [nameB]⟩⟩, built_hidden, ⟨_, _, rfl, rfl, rfl, .cons ⟨rfl, rfl⟩ (.cons ⟨rfl, rfl⟩ .nil)⟩,
        hwell, rfl, rfl, ?_⟩
      rintro ⟨row, -, hid, hfind⟩
      have hselected : selectRow (absolutePath [nameA, nameB]) false hiddenRows = some (plainRow 2 (ascii "/a/b")) := by
        decide +kernel
      rw [findMountInfoPath_eq hwell hparse rfl, hselected] at hfind
      have hmount : 2 = row.mountId := congrArg MountPathIdentity.mountId (Except.ok.inj hfind)
      rw [← hmount] at hid
      cases hid

end PathGuard.Native
