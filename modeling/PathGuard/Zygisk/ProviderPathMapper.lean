import Mathlib.Data.List.MinMax
import Mathlib.Data.Prod.Lex
import PathGuard.Lib.Components
import PathGuard.Lib.Decimal
import PathGuard.Core.Path

/-!
# The path mapper of the media providers

`zygisk/src/provider_path_mapper.cpp`: a path of the shared storage of a user is rewritten to the backing path of the
rule of the calling app with the longest visible path, and a path that a provider hands out is restored from it. A
string with its terminator is the list of the bytes before the terminator.

* `rewriteAbsolutePath`, `restoreAbsolutePath` : the two functions; `Located` : where a path has its logical path;
* `selectRule_eq`, `selectRule_longest` : the loop takes the longest visible path, unless a tail is unsafe;
* `rewriteAbsolutePath_sound`, `rewriteAbsolutePath_restore` : what is rewritten, and that restoring undoes it.
-/

namespace PathGuard.Zygisk

structure PathRule where
  callerUid : Int32
  userId : UInt32
  visiblePath : Bytes
  backingPath : Bytes
  deriving DecidableEq

/-! ## LogicalSuffix, MatchesLogicalPath, HasSafeTail -/

/-- The `formats` of `LogicalSuffix` with the number of the user in them. -/
def storageRoots (userId : UInt32) : List Bytes :=
  let user := decimalBytes userId.toNat
  [ascii "/storage/emulated/" ++ user ++ [slash],
    ascii "/mnt/user/" ++ user ++ ascii "/emulated/" ++ user ++ [slash],
    ascii "/data/media/" ++ user ++ [slash]]

/-- The size of `candidate` and of every `root`. -/
def kRootSize : Nat := 128

/-- `LogicalSuffix`: the root and what comes after it. -/
def logicalSuffix (path : Bytes) (userId : UInt32) : Option (Bytes × Bytes) :=
  ((storageRoots userId).find? fun root => root.length < kRootSize && root.isPrefixOf path).map fun root =>
    (root, path.drop root.length)

/-- `MatchesLogicalPath`: the tail. -/
def matchesLogicalPath (suffix visible : Bytes) : Option Bytes :=
  if !visible.isPrefixOf suffix then none
  else
    let tail := suffix.drop visible.length
    if tail.isEmpty || tail.head? = some slash then some tail else none

/-- `HasSafeTail`. Its loop passes over a run of separators, so it looks at the components that are not empty. -/
def hasSafeTail (tail : Bytes) : Bool :=
  ((tail.splitOn slash).filter fun component => !component.isEmpty).all fun component =>
    component != ascii "." && component != ascii ".."

/-! ## MatchesVisiblePath, RewriteAbsolutePath, RestoreAbsolutePath -/

def matchesVisiblePath (rules : List PathRule) (path : Bytes) : Bool :=
  path.head? = some slash && rules.any fun rule =>
    match logicalSuffix path rule.userId with
    | none => false
    | some (_, suffix) =>
        match matchesLogicalPath suffix rule.visiblePath with
        | none => false
        | some tail => hasSafeTail tail

/-- `selected` with `selected_root` and `selected_tail`. -/
structure SelectedRule where
  rule : PathRule
  root : Bytes
  tail : Bytes
  deriving DecidableEq

/-- The loop of `RewriteAbsolutePath` and of `RestoreAbsolutePath`: `matched` is the path of a rule that is looked for
in the given one, `better` tells when a rule takes the place of the selected one. -/
def selectRule (matched : PathRule → Bytes) (better : PathRule → PathRule → Bool) (callerUid : Int32) (path : Bytes) :
    List PathRule → Option SelectedRule → Option SelectedRule
  | [], selected => selected
  | rule :: rules, selected =>
      if rule.callerUid ≠ callerUid then selectRule matched better callerUid path rules selected
      else
        match logicalSuffix path rule.userId with
        | none => selectRule matched better callerUid path rules selected
        | some (root, suffix) =>
            match matchesLogicalPath suffix (matched rule) with
            | none => selectRule matched better callerUid path rules selected
            | some tail =>
                if !hasSafeTail tail then none
                else selectRule matched better callerUid path rules <|
                  match selected with
                  | none => some ⟨rule, root, tail⟩
                  | some current => if better rule current.rule then some ⟨rule, root, tail⟩ else some current

/-- What both functions are around the loop; `mapped` is the path of the rule that is put in. -/
def mapAbsolutePath (matched mapped : PathRule → Bytes) (better : PathRule → PathRule → Bool) (rules : List PathRule)
    (callerUid : Int32) (path : Bytes) (capacity : Nat) : Option Bytes :=
  if capacity = 0 || callerUid < 10000 || path.head? != some slash then none
  else
    match selectRule matched better callerUid path rules none with
    | none => none
    | some selected =>
        let output := selected.root ++ mapped selected.rule ++ selected.tail
        if 0 < output.length && output.length < capacity && path != output then some output else none

def rewriteAbsolutePath : List PathRule → Int32 → Bytes → Nat → Option Bytes :=
  mapAbsolutePath PathRule.visiblePath PathRule.backingPath fun rule selected =>
    selected.visiblePath.length < rule.visiblePath.length

def restoreAbsolutePath : List PathRule → Int32 → Bytes → Nat → Option Bytes :=
  mapAbsolutePath PathRule.backingPath PathRule.visiblePath fun rule selected =>
    selected.backingPath.length < rule.backingPath.length ||
      rule.backingPath.length == selected.backingPath.length && rule.visiblePath < selected.visiblePath

/-- `RewriteAtPath` of a path that `ResolveAtPath` has made absolute. -/
def rewriteAtPath (rules : List PathRule) (callerUid : Int32) (absolute : Bytes) (capacity : Nat) : Option Bytes :=
  if !matchesVisiblePath rules absolute then none else rewriteAbsolutePath rules callerUid absolute capacity

/-! ## Roots -/

theorem append_cons_inj {front front' back back' : Bytes} (hfront : slash ∉ front) (hfront' : slash ∉ front')
    (h : front ++ slash :: back = front' ++ slash :: back') : front = front' := by
  have htake : ∀ (front back : Bytes), slash ∉ front → (front ++ slash :: back).takeWhile (· != slash) = front := by
    intro front back hnot
    rw [List.takeWhile_append_of_pos fun byte hbyte => bne_iff_ne.mpr (ne_of_mem_of_not_mem hbyte hnot)]
    simp
  rw [← htake front back hfront, ← htake front' back' hfront', h]

theorem slash_notMem_decimalBytes (value : Nat) : slash ∉ decimalBytes value :=
  not_mem_decimalBytes (by decide) value

section Roots
variable {userId userId' : UInt32} {root root' path : Bytes}

theorem length_root_lt (h : root ∈ storageRoots userId) : root.length < kRootSize := by
  have hlength := length_decimalBytes_le (by decide) (lt_trans userId.toNat_lt (show 2 ^ 32 < 10 ^ 10 by decide))
  have hstorage : (ascii "/storage/emulated/").length = 18 := rfl
  have hmnt : (ascii "/mnt/user/").length = 10 := rfl
  have hemulated : (ascii "/emulated/").length = 10 := rfl
  have hdata : (ascii "/data/media/").length = 12 := rfl
  unfold kRootSize
  simp only [storageRoots, List.mem_cons, List.not_mem_nil, or_false] at h
  rcases h with rfl | rfl | rfl <;> simp only [List.length_append, List.length_singleton] <;> omega

/-- A root of `storageRoots` starts with a front of its kind, which the second byte tells from the others. -/
theorem exists_front (h : root ∈ storageRoots userId) :
    ∃ front back, root = front ++ (decimalBytes userId.toNat ++ slash :: back) ∧
      (front = ascii "/storage/emulated/" ∧ back = [] ∨
        front = ascii "/mnt/user/" ∧ back = ascii "emulated/" ++ decimalBytes userId.toNat ++ [slash] ∨
        front = ascii "/data/media/" ∧ back = []) := by
  simp only [storageRoots, List.mem_cons, List.not_mem_nil, or_false] at h
  rcases h with rfl | rfl | rfl
  · exact ⟨_, _, List.append_assoc _ _ _, Or.inl ⟨rfl, rfl⟩⟩
  · refine ⟨_, _, ?_, Or.inr (Or.inl ⟨rfl, rfl⟩)⟩
    rw [show ascii "/emulated/" = slash :: ascii "emulated/" from rfl]
    simp only [List.append_assoc, List.cons_append]
  · exact ⟨_, _, List.append_assoc _ _ _, Or.inr (Or.inr ⟨rfl, rfl⟩)⟩

theorem root_unique (hroot : root ∈ storageRoots userId) (hroot' : root' ∈ storageRoots userId') (h : root <+: path)
    (h' : root' <+: path) : userId = userId' ∧ root = root' := by
  obtain ⟨front, back, rfl, hkind⟩ := exists_front hroot
  obtain ⟨front', back', rfl, hkind'⟩ := exists_front hroot'
  obtain ⟨rest, rfl⟩ := h
  obtain ⟨rest', hrest⟩ := h'
  have hsecond := congrArg (·[1]?) hrest
  have hfront : front = front' := by
    rcases hkind with ⟨rfl, -⟩ | ⟨rfl, -⟩ | ⟨rfl, -⟩ <;> rcases hkind' with ⟨rfl, -⟩ | ⟨rfl, -⟩ | ⟨rfl, -⟩ <;>
      first
      | rfl
      | exact absurd hsecond (by simp [ascii])
  subst hfront
  have huser : userId = userId' := by
    simp only [List.append_assoc, List.cons_append, List.append_cancel_left_eq] at hrest
    have hdecimal := append_cons_inj (slash_notMem_decimalBytes _) (slash_notMem_decimalBytes _) hrest
    exact (UInt32.toNat_inj.mp (decimalBytes_injective hdecimal)).symm
  subst huser
  refine ⟨rfl, ?_⟩
  have hback : back = back' := by
    rcases hkind with ⟨rfl, rfl⟩ | ⟨rfl, rfl⟩ | ⟨rfl, rfl⟩ <;>
      rcases hkind' with ⟨hfront, hback⟩ | ⟨hfront, hback⟩ | ⟨hfront, hback⟩ <;>
        first
        | exact hback.symm
        | exact absurd hfront (by decide)
  rw [hback]

end Roots

/-! ## The place of a path -/

/-- `path` is a root of the user, then the logical path, then a tail that begins a new component. -/
structure Located (userId : UInt32) (logical path root tail : Bytes) : Prop where
  root_mem : root ∈ storageRoots userId
  path_eq : path = root ++ logical ++ tail
  separated : tail = [] ∨ tail.head? = some slash

theorem hasSafeTail_iff {tail : Bytes} :
    hasSafeTail tail = true ↔ ascii "." ∉ tail.splitOn slash ∧ ascii ".." ∉ tail.splitOn slash := by
  simp only [hasSafeTail, List.all_eq_true, List.mem_filter, Bool.and_eq_true, bne_iff_ne, Bool.not_eq_true',
    List.isEmpty_eq_false_iff, and_imp]
  constructor
  · intro h
    exact ⟨fun hmem => (h _ hmem (by decide)).1 rfl, fun hmem => (h _ hmem (by decide)).2 rfl⟩
  · rintro ⟨hdot, hdots⟩ component hmem -
    exact ⟨ne_of_mem_of_not_mem hmem hdot, ne_of_mem_of_not_mem hmem hdots⟩

theorem logicalSuffix_eq_some {path root suffix : Bytes} {userId : UInt32} :
    logicalSuffix path userId = some (root, suffix) ↔ root ∈ storageRoots userId ∧ path = root ++ suffix := by
  rw [logicalSuffix, Option.map_eq_some_iff]
  constructor
  · rintro ⟨found, hfound, heq⟩
    obtain ⟨rfl, rfl⟩ := Prod.mk.inj heq
    have htest := List.find?_some hfound
    rw [Bool.and_eq_true, List.isPrefixOf_iff_prefix] at htest
    exact ⟨List.mem_of_find?_eq_some hfound, (List.prefix_iff_eq_append.mp htest.2).symm⟩
  · rintro ⟨hroot, rfl⟩
    have hprefix : root <+: root ++ suffix := List.prefix_append root suffix
    have hsome : ((storageRoots userId).find? fun root' =>
        root'.length < kRootSize && root'.isPrefixOf (root ++ suffix)).isSome := by
      rw [List.find?_isSome]
      refine ⟨root, hroot, ?_⟩
      rw [Bool.and_eq_true, List.isPrefixOf_iff_prefix, decide_eq_true_eq]
      exact ⟨length_root_lt hroot, hprefix⟩
    obtain ⟨found, hfound⟩ := Option.isSome_iff_exists.mp hsome
    have htest := List.find?_some hfound
    rw [Bool.and_eq_true, List.isPrefixOf_iff_prefix] at htest
    obtain ⟨-, rfl⟩ := root_unique hroot (List.mem_of_find?_eq_some hfound) hprefix htest.2
    exact ⟨root, hfound, by rw [List.drop_left]⟩

theorem matchesLogicalPath_eq_some {suffix visible tail : Bytes} :
    matchesLogicalPath suffix visible = some tail ↔
      suffix = visible ++ tail ∧ (tail = [] ∨ tail.head? = some slash) := by
  unfold matchesLogicalPath
  by_cases hprefix : visible <+: suffix
  · obtain ⟨rest, rfl⟩ := hprefix
    rw [if_neg (by simp), List.drop_left]
    simp only [Bool.or_eq_true, List.isEmpty_iff, decide_eq_true_eq, Option.ite_none_right_eq_some, Option.some.injEq,
      List.append_cancel_left_eq]
    constructor
    · rintro ⟨hseparated, rfl⟩
      exact ⟨rfl, hseparated⟩
    · rintro ⟨rfl, hseparated⟩
      exact ⟨hseparated, rfl⟩
  · rw [if_pos (by simpa [← Bool.not_eq_true] using hprefix)]
    constructor
    · intro h
      cases h
    · rintro ⟨rfl, -⟩
      exact absurd (List.prefix_append visible tail) hprefix

theorem located_iff {path root tail logical : Bytes} {userId : UInt32} :
    Located userId logical path root tail ↔
      ∃ suffix, logicalSuffix path userId = some (root, suffix) ∧ matchesLogicalPath suffix logical = some tail := by
  simp only [logicalSuffix_eq_some, matchesLogicalPath_eq_some]
  constructor
  · rintro ⟨hroot, rfl, hseparated⟩
    exact ⟨logical ++ tail, ⟨hroot, List.append_assoc _ _ _⟩, rfl, hseparated⟩
  · rintro ⟨suffix, ⟨hroot, rfl⟩, rfl, hseparated⟩
    exact ⟨hroot, (List.append_assoc _ _ _).symm, hseparated⟩

theorem Located.root_prefix {path root tail logical : Bytes} {userId : UInt32}
    (h : Located userId logical path root tail) : root <+: path :=
  ⟨logical ++ tail, by rw [h.path_eq, List.append_assoc]⟩

theorem Located.head {path root tail logical : Bytes} {userId : UInt32} (h : Located userId logical path root tail) :
    path.head? = some slash := by
  obtain ⟨front, back, hfront, hkind⟩ := exists_front h.root_mem
  rw [h.path_eq, hfront]
  rcases hkind with ⟨rfl, -⟩ | ⟨rfl, -⟩ | ⟨rfl, -⟩ <;> rfl

theorem Located.unique {path root tail root' tail' logical : Bytes} {userId : UInt32}
    (h : Located userId logical path root tail) (h' : Located userId logical path root' tail') :
    root = root' ∧ tail = tail' := by
  obtain ⟨-, rfl⟩ := root_unique h.root_mem h'.root_mem h.root_prefix h'.root_prefix
  have hpath := h.path_eq.symm.trans h'.path_eq
  exact ⟨rfl, List.append_cancel_left hpath⟩

theorem Located.nested {path root tail root' tail' logical logical' : Bytes} {userId userId' : UInt32}
    (h : Located userId logical path root tail) (h' : Located userId' logical' path root' tail') :
    userId = userId' ∧ (IsWithin slash logical logical' ∨ IsWithin slash logical' logical) := by
  obtain ⟨rfl, rfl⟩ := root_unique h.root_mem h'.root_mem h.root_prefix h'.root_prefix
  refine ⟨rfl, ?_⟩
  have hrest : logical ++ tail = logical' ++ tail' := by
    have hpath := h.path_eq.symm.trans h'.path_eq
    rw [List.append_assoc, List.append_assoc] at hpath
    exact List.append_cancel_left hpath
  -- the longer one goes on where the tail of the shorter one begins
  have hlonger : ∀ {a b x y : Bytes}, a ++ x = b ++ y → (x = [] ∨ x.head? = some slash) → a.length ≤ b.length →
      IsWithin slash a b := by
    intro a b x y heq hseparated hlength
    obtain ⟨rest, rfl⟩ : a <+: b :=
      List.prefix_of_prefix_length_le ⟨x, rfl⟩ ⟨y, heq.symm⟩ hlength
    rw [List.append_assoc, List.append_cancel_left_eq] at heq
    subst heq
    rw [isWithin_iff]
    cases rest with
    | nil => exact Or.inl (List.append_nil a)
    | cons byte rest =>
        obtain rfl : byte = slash := by simpa using hseparated
        exact Or.inr ⟨rest, rfl⟩
  rcases Nat.le_total logical.length logical'.length with hlength | hlength
  · exact Or.inl (hlonger hrest h.separated hlength)
  · exact Or.inr (hlonger hrest.symm h'.separated hlength)

/-! ## The selected rule -/

theorem mem_of_foldl_argAux {α : Type*} {r : α → α → Prop} [DecidableRel r] {l : List α} {kept : α}
    (h : l.foldl (List.argAux r) none = some kept) : kept ∈ l := by
  induction l using List.reverseRecOn generalizing kept with
  | nil => cases h
  | append_singleton l last ih =>
      rw [List.foldl_append, List.foldl_cons, List.foldl_nil] at h
      rw [List.mem_append, List.mem_singleton]
      cases hbest : l.foldl (List.argAux r) none with
      | none =>
          rw [hbest] at h
          exact Or.inr (Option.some.inj h).symm
      | some current =>
          rw [hbest] at h
          simp only [List.argAux] at h
          split at h
          · exact Or.inr (Option.some.inj h).symm
          · obtain rfl := Option.some.inj h
            exact Or.inl (ih hbest)

/-- What a rule has to offer for a path. -/
def candidate (matched : PathRule → Bytes) (callerUid : Int32) (path : Bytes) (rule : PathRule) :
    Option SelectedRule :=
  if rule.callerUid ≠ callerUid then none
  else do
    let (root, suffix) ← logicalSuffix path rule.userId
    let tail ← matchesLogicalPath suffix (matched rule)
    return ⟨rule, root, tail⟩

section Select
variable {matched mapped : PathRule → Bytes} {better : PathRule → PathRule → Bool} {callerUid : Int32} {path : Bytes}
variable {rules : List PathRule}

theorem candidate_eq_some {rule : PathRule} {selected : SelectedRule} :
    candidate matched callerUid path rule = some selected ↔
      selected.rule = rule ∧ rule.callerUid = callerUid ∧
        Located rule.userId (matched rule) path selected.root selected.tail := by
  rw [candidate, located_iff]
  by_cases hcaller : rule.callerUid = callerUid
  · rw [if_neg (not_not.mpr hcaller)]
    simp only [Option.bind_eq_bind, Option.bind_eq_some_iff, Prod.exists, Option.pure_def, Option.some.injEq]
    constructor
    · rintro ⟨root, suffix, hsuffix, tail, htail, rfl⟩
      exact ⟨rfl, hcaller, suffix, hsuffix, htail⟩
    · rintro ⟨rfl, -, suffix, hsuffix, htail⟩
      exact ⟨_, suffix, hsuffix, _, htail, rfl⟩
  · rw [if_pos hcaller]
    simp [hcaller]

/-- The loop takes the best of the candidates, unless the tail of one of them is not safe. -/
theorem selectRule_eq (selected : Option SelectedRule) :
    selectRule matched better callerUid path rules selected =
      if (rules.filterMap (candidate matched callerUid path)).all fun offer => hasSafeTail offer.tail then
        (rules.filterMap (candidate matched callerUid path)).foldl
          (List.argAux fun offer current => better offer.rule current.rule) selected
      else none := by
  induction rules generalizing selected with
  | nil => rfl
  | cons rule rules ih =>
      rw [selectRule]
      by_cases hcaller : rule.callerUid = callerUid
      · rw [if_neg (not_not.mpr hcaller)]
        cases hsuffix : logicalSuffix path rule.userId with
        | none =>
            have hnone : candidate matched callerUid path rule = none := by simp [candidate, hsuffix]
            rw [ih, List.filterMap_cons_none hnone]
        | some found =>
            obtain ⟨root, suffix⟩ := found
            cases htail : matchesLogicalPath suffix (matched rule) with
            | none =>
                have hnone : candidate matched callerUid path rule = none := by simp [candidate, hsuffix, htail]
                simp only [htail]
                rw [ih, List.filterMap_cons_none hnone]
            | some tail =>
                have hsome : candidate matched callerUid path rule = some ⟨rule, root, tail⟩ := by
                  simp [candidate, hcaller, hsuffix, htail]
                simp only [htail]
                rw [List.filterMap_cons_some hsome, List.all_cons, List.foldl_cons]
                by_cases hsafe : hasSafeTail tail = true
                · rw [if_neg (by simpa using hsafe), ih]
                  simp only [hsafe, Bool.true_and]
                  cases selected with
                  | none => rfl
                  | some current => rfl
                · rw [if_pos (by simpa using hsafe), if_neg (by simp [hsafe])]
      · have hnone : candidate matched callerUid path rule = none := by simp [candidate, hcaller]
        rw [if_pos hcaller, ih, List.filterMap_cons_none hnone]

theorem mapAbsolutePath_eq_some {capacity : Nat} {output : Bytes} :
    mapAbsolutePath matched mapped better rules callerUid path capacity = some output ↔
      10000 ≤ callerUid ∧ path.head? = some slash ∧ path ≠ output ∧ 0 < output.length ∧ output.length < capacity ∧
        ∃ selected, selectRule matched better callerUid path rules none = some selected ∧
          output = selected.root ++ mapped selected.rule ++ selected.tail := by
  unfold mapAbsolutePath
  split
  · next hguard =>
    simp only [Bool.or_eq_true, decide_eq_true_eq, bne_iff_ne] at hguard
    constructor
    · intro h
      cases h
    · rintro ⟨hcaller, hhead, -, hpositive, hcapacity, -⟩
      rcases hguard with (rfl | hcaller') | hhead'
      · exact absurd hcapacity (Nat.not_lt_zero _)
      · exact absurd hcaller (Int32.not_le.mpr hcaller')
      · exact absurd hhead hhead'
  · next hguard =>
    simp only [Bool.or_eq_true, decide_eq_true_eq, bne_iff_ne, not_or, Int32.not_lt, ne_eq, not_not] at hguard
    cases hselected : selectRule matched better callerUid path rules none with
    | none =>
        constructor
        · intro h
          cases h
        · rintro ⟨-, -, -, -, -, selected, hsome, -⟩
          cases hsome
    | some selected =>
        simp only [Option.ite_none_right_eq_some, Bool.and_eq_true, decide_eq_true_eq, bne_iff_ne, Option.some.injEq,
          exists_eq_left']
        constructor
        · rintro ⟨⟨⟨hpositive, hcapacity⟩, hne⟩, rfl⟩
          exact ⟨hguard.1.2, hguard.2, hne, hpositive, hcapacity, rfl⟩
        · rintro ⟨-, -, hne, hpositive, hcapacity, rfl⟩
          exact ⟨⟨⟨hpositive, hcapacity⟩, hne⟩, rfl⟩

theorem selectRule_sound {selected : SelectedRule}
    (h : selectRule matched better callerUid path rules none = some selected) :
    selected ∈ rules.filterMap (candidate matched callerUid path) ∧
      ∀ offer ∈ rules.filterMap (candidate matched callerUid path), hasSafeTail offer.tail = true := by
  rw [selectRule_eq] at h
  split at h
  · next hsafe => exact ⟨mem_of_foldl_argAux h, List.all_eq_true.mp hsafe⟩
  · cases h

theorem mem_candidates {selected : SelectedRule} :
    selected ∈ rules.filterMap (candidate matched callerUid path) ↔
      selected.rule ∈ rules ∧ selected.rule.callerUid = callerUid ∧
        Located selected.rule.userId (matched selected.rule) path selected.root selected.tail := by
  rw [List.mem_filterMap]
  constructor
  · rintro ⟨rule, hrule, hcandidate⟩
    obtain ⟨rfl, hcaller, hlocated⟩ := candidate_eq_some.mp hcandidate
    exact ⟨hrule, hcaller, hlocated⟩
  · rintro ⟨hrule, hcaller, hlocated⟩
    exact ⟨selected.rule, hrule, candidate_eq_some.mpr ⟨rfl, hcaller, hlocated⟩⟩

theorem selectRule_filter (selected : Option SelectedRule) :
    selectRule matched better callerUid path (rules.filter fun rule => rule.callerUid = callerUid) selected =
      selectRule matched better callerUid path rules selected := by
  have hcandidates : (rules.filter fun rule => rule.callerUid = callerUid).filterMap
      (candidate matched callerUid path) = rules.filterMap (candidate matched callerUid path) := by
    rw [List.filterMap_filter]
    refine List.filterMap_congr fun rule _ => ?_
    by_cases hcaller : rule.callerUid = callerUid
    · simp [hcaller]
    · simp [candidate, hcaller]
  rw [selectRule_eq, selectRule_eq, hcandidates]

end Select

/-! ## Rewriting -/

section Rewrite
variable {rules : List PathRule} {callerUid : Int32} {path output : Bytes} {capacity : Nat}

/-- The prefilter of the hook passes what is rewritten. -/
theorem matchesVisiblePath_of_rewrite (h : rewriteAbsolutePath rules callerUid path capacity = some output) :
    matchesVisiblePath rules path = true := by
  obtain ⟨-, hhead, -, -, -, selected, hselected, -⟩ := mapAbsolutePath_eq_some.mp h
  obtain ⟨hmem, hsafe⟩ := selectRule_sound hselected
  obtain ⟨hrule, -, hlocated⟩ := mem_candidates.mp hmem
  obtain ⟨suffix, hsuffix, htail⟩ := located_iff.mp hlocated
  rw [matchesVisiblePath, Bool.and_eq_true, decide_eq_true_eq, List.any_eq_true]
  refine ⟨hhead, selected.rule, hrule, ?_⟩
  simp only [hsuffix, htail]
  exact hsafe selected hmem

theorem selectRule_longest {selected : SelectedRule}
    (h : selectRule PathRule.visiblePath (fun rule current => current.visiblePath.length < rule.visiblePath.length)
      callerUid path rules none = some selected) {offer : SelectedRule}
    (hoffer : offer ∈ rules.filterMap (candidate PathRule.visiblePath callerUid path)) :
    offer.rule.visiblePath.length ≤ selected.rule.visiblePath.length := by
  rw [selectRule_eq] at h
  split at h
  · have hirrefl : Std.Irrefl fun offer current : SelectedRule =>
        decide (current.rule.visiblePath.length < offer.rule.visiblePath.length) = true := ⟨fun offer => by simp⟩
    have htrans : IsTrans SelectedRule fun offer current =>
        decide (current.rule.visiblePath.length < offer.rule.visiblePath.length) = true :=
      ⟨fun first second third hfirst hsecond => by
        rw [decide_eq_true_eq] at hfirst hsecond ⊢
        exact lt_trans hsecond hfirst⟩
    have hbest := List.not_of_mem_foldl_argAux _ hirrefl htrans hoffer h
    simpa using hbest
  · cases h

/-- **A rewritten path is the backing path of the caller's own longest rule, under the root it was under.** The rules
of other callers have no part in it, and the prefilter of the hook does not change it. -/
theorem rewriteAbsolutePath_sound (rules : List PathRule) (callerUid : Int32) (path : Bytes) (capacity : Nat) :
    (∀ others : List PathRule, (others.filter fun rule => rule.callerUid = callerUid) =
        rules.filter (fun rule => rule.callerUid = callerUid) →
      rewriteAbsolutePath others callerUid path capacity = rewriteAbsolutePath rules callerUid path capacity) ∧
    rewriteAtPath rules callerUid path capacity = rewriteAbsolutePath rules callerUid path capacity ∧
    ∀ output, rewriteAbsolutePath rules callerUid path capacity = some output →
      matchesVisiblePath rules path = true ∧
      ∃ rule ∈ rules, rule.callerUid = callerUid ∧ ∃ root tail, Located rule.userId rule.visiblePath path root tail ∧
        (∀ root' ∈ storageRoots rule.userId, root' <+: path → root' = root) ∧
        output = root ++ rule.backingPath ++ tail ∧
        ascii "." ∉ tail.splitOn slash ∧ ascii ".." ∉ tail.splitOn slash ∧
        ∀ other ∈ rules, other.callerUid = callerUid → ∀ root' tail',
          Located other.userId other.visiblePath path root' tail' →
            other.visiblePath.length ≤ rule.visiblePath.length := by
  refine ⟨fun others hothers => ?_, ?_, fun output houtput => ⟨matchesVisiblePath_of_rewrite houtput, ?_⟩⟩
  · rw [rewriteAbsolutePath, mapAbsolutePath, mapAbsolutePath, ← @selectRule_filter _ _ _ _ others, hothers,
      selectRule_filter]
  · unfold rewriteAtPath
    split
    · next hmatches =>
      cases hrewrite : rewriteAbsolutePath rules callerUid path capacity with
      | none => rfl
      | some output =>
          rw [matchesVisiblePath_of_rewrite hrewrite] at hmatches
          cases hmatches
    · rfl
  · obtain ⟨-, -, -, -, -, selected, hselected, rfl⟩ := mapAbsolutePath_eq_some.mp houtput
    obtain ⟨hmem, hsafe⟩ := selectRule_sound hselected
    obtain ⟨hrule, hcaller, hlocated⟩ := mem_candidates.mp hmem
    obtain ⟨hdot, hdots⟩ := hasSafeTail_iff.mp (hsafe selected hmem)
    refine ⟨selected.rule, hrule, hcaller, selected.root, selected.tail, hlocated, ?_, rfl, hdot, hdots, ?_⟩
    · intro root' hroot' hprefix
      exact (root_unique hroot' hlocated.root_mem hprefix hlocated.root_prefix).2
    · intro other hother hsame root' tail' hlocated'
      have hoffer : ⟨other, root', tail'⟩ ∈ rules.filterMap (candidate PathRule.visiblePath callerUid path) :=
        mem_candidates.mpr ⟨hother, hsame, hlocated'⟩
      exact selectRule_longest hselected hoffer

end Rewrite

/-- A rule, a rule inside of its visible path, and a rule of another app. -/
def nestedRules : List PathRule :=
  [⟨10382, 0, ascii "Download/localsend-source", ascii "Download/localsend-redirect"⟩,
    ⟨10382, 0, ascii "Download/localsend-source/private", ascii "Vault/private"⟩,
    ⟨10359, 0, ascii "Download/localsend-source/private/a", ascii "Pictures"⟩]

theorem rewriteAbsolutePath_sound_nested :
    rewriteAbsolutePath nestedRules 10382 (ascii "/mnt/user/0/emulated/0/Download/localsend-source/private/a") 4096 =
        some (ascii "/mnt/user/0/emulated/0/Vault/private/a") ∧
      matchesVisiblePath nestedRules (ascii "/mnt/user/0/emulated/0/Download/localsend-source/private/a") = true :=
  ⟨by decide, ((rewriteAbsolutePath_sound nestedRules 10382 _ 4096).2.2
    (ascii "/mnt/user/0/emulated/0/Vault/private/a") (by decide)).1⟩

/-! ## Restoring -/

/-- The visible paths of an app for one user are neither equal nor nested. -/
def VisiblePathsApart (rules : List PathRule) : Prop :=
  rules.Pairwise fun rule other => rule.callerUid = other.callerUid → rule.userId = other.userId →
    ¬ IsWithin slash rule.visiblePath other.visiblePath ∧ ¬ IsWithin slash other.visiblePath rule.visiblePath

instance (rules : List PathRule) : Decidable (VisiblePathsApart rules) :=
  inferInstanceAs (Decidable (rules.Pairwise fun rule other => rule.callerUid = other.callerUid →
    rule.userId = other.userId →
      ¬ IsWithin slash rule.visiblePath other.visiblePath ∧ ¬ IsWithin slash other.visiblePath rule.visiblePath))

/-- When the visible paths are apart, a path is located at one of them at most. -/
theorem candidates_of_apart {rules : List PathRule} (hapart : VisiblePathsApart rules) {callerUid : Int32}
    {path : Bytes} {offer : SelectedRule} (hoffer : offer ∈ rules.filterMap (candidate PathRule.visiblePath callerUid path)) :
    rules.filterMap (candidate PathRule.visiblePath callerUid path) = [offer] := by
  obtain ⟨rule, hrule, hcandidate⟩ := List.mem_filterMap.mp hoffer
  obtain ⟨before, after, rfl⟩ := List.append_of_mem hrule
  obtain ⟨rfl, hcaller, hlocated⟩ := candidate_eq_some.mp hcandidate
  obtain ⟨-, hafter, hbefore⟩ := List.pairwise_append.mp hapart
  -- another rule of the caller with the path at its visible path would be nested with this one
  have hnone : ∀ other, (other.callerUid = offer.rule.callerUid → other.userId = offer.rule.userId →
      ¬ IsWithin slash other.visiblePath offer.rule.visiblePath ∧
        ¬ IsWithin slash offer.rule.visiblePath other.visiblePath) →
      candidate PathRule.visiblePath callerUid path other = none := by
    intro other happart
    rw [Option.eq_none_iff_forall_ne_some]
    intro selected hselected
    obtain ⟨-, hsame, hother⟩ := candidate_eq_some.mp hselected
    obtain ⟨huser, hnested⟩ := hother.nested hlocated
    obtain ⟨hleft, hright⟩ := happart (hsame.trans hcaller.symm) huser
    rcases hnested with hnested | hnested
    · exact hleft hnested
    · exact hright hnested
  have hnil : ∀ others : List PathRule, (∀ other ∈ others, candidate PathRule.visiblePath callerUid path other = none) →
      others.filterMap (candidate PathRule.visiblePath callerUid path) = [] := by
    intro others hothers
    rw [List.filterMap_eq_nil_iff]
    exact hothers
  rw [List.filterMap_append, List.filterMap_cons_some hcandidate,
    hnil before fun other hother => hnone other (hbefore other hother offer.rule List.mem_cons_self),
    hnil after fun other hother => hnone other fun hcaller huser =>
      And.symm ((List.pairwise_cons.mp hafter).1 other hother hcaller.symm huser.symm)]
  rfl

/-- **What is restored is rewritten to what it was restored from.** Empty visible paths do no harm here. -/
theorem rewriteAbsolutePath_restore {rules : List PathRule} (hapart : VisiblePathsApart rules) {callerUid : Int32}
    {q p : Bytes} {capacity capacity' : Nat} (hrestore : restoreAbsolutePath rules callerUid q capacity = some p)
    (hcapacity : q.length < capacity') : rewriteAbsolutePath rules callerUid p capacity' = some q := by
  obtain ⟨hcaller, hhead, hne, hpositive, -, selected, hselected, rfl⟩ := mapAbsolutePath_eq_some.mp hrestore
  obtain ⟨hmem, hsafe⟩ := selectRule_sound hselected
  obtain ⟨hrule, hsame, hlocated⟩ := mem_candidates.mp hmem
  have hback : Located selected.rule.userId selected.rule.visiblePath
      (selected.root ++ selected.rule.visiblePath ++ selected.tail) selected.root selected.tail :=
    ⟨hlocated.root_mem, rfl, hlocated.separated⟩
  have hcandidates := candidates_of_apart hapart (mem_candidates.mpr ⟨hrule, hsame, hback⟩)
  refine mapAbsolutePath_eq_some.mpr ⟨hcaller, hback.head, Ne.symm hne, ?_, hcapacity, selected, ?_, hlocated.path_eq⟩
  · cases q with
    | nil => cases hhead
    | cons byte rest => exact Nat.succ_pos _
  · rw [selectRule_eq, hcandidates]
    simp [hsafe selected hmem, List.argAux]

/-- Two rules of an app with one backing path. -/
def sharedRules : List PathRule :=
  [⟨10358, 0, ascii "Pictures", ascii "Download/localsend-redirect"⟩,
    ⟨10358, 0, ascii "Download/localsend-source", ascii "Download/localsend-redirect"⟩]

theorem rewriteAbsolutePath_restore_shared :
    rewriteAbsolutePath sharedRules 10358 (ascii "/storage/emulated/0/Download/localsend-source/received.bin") 4096 =
      some (ascii "/storage/emulated/0/Download/localsend-redirect/received.bin") :=
  @rewriteAbsolutePath_restore sharedRules (by decide) 10358 _ _ 4096 4096 (by decide) (by decide)

end PathGuard.Zygisk
