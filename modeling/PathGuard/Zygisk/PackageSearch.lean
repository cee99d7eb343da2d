import Mathlib.Data.List.TakeWhile
import PathGuard.Core.DecodedRows
import PathGuard.Zygisk.PolicyReader

/-!
# Finding a package by its hash

`FindPackageEntry` halves the package table by the hashes of the names and then looks through the entries of one hash.
On any bytes that `LoadProcessPlan` has checked it finds what a look at every name in turn finds.

* `linearSearch` : a look at every name; `findPackageEntry_of_names` : the first row of a name is found;
* `findPackageEntry_eq_linearSearch` : for every table that passes the checks, collisions or not.
-/

namespace PathGuard.Zygisk

variable {data : Bytes} {header : PolicyHeader} {package : Bytes}

/-! ## The strings of the table -/

theorem holdsAt_of_readString {name : Bytes} {stringOffset relativeOffset : UInt32}
    (h : readString data stringOffset relativeOffset = some name) :
    HoldsAt data (stringOffset.toNat + relativeOffset.toNat) (name ++ [0]) ∧ 0 ∉ name := by
  unfold readString at h
  split at h
  · cases h
  · next hinside =>
    dsimp only at h
    split at h
    · next hzero =>
      obtain rfl := Option.some.inj h
      simp only [Bool.or_eq_true, decide_eq_true_eq, not_or, not_lt, not_le] at hinside
      set tail := data.drop (stringOffset.toNat + relativeOffset.toNat) with htail
      have hfree : (0 : UInt8) ∉ tail.takeWhile (· != 0) := fun hmem => by
        have := List.mem_takeWhile_imp hmem
        simp at this
      refine ⟨⟨data.take (stringOffset.toNat + relativeOffset.toNat), (tail.dropWhile (· != 0)).tail, ?_, ?_⟩, hfree⟩
      · cases hrest : tail.dropWhile (· != 0) with
        | nil =>
            have hall := List.dropWhile_eq_nil_iff.mp hrest 0 (List.contains_iff_mem.mp hzero)
            simp at hall
        | cons byte rest =>
            have hbyte : byte = 0 := by
              have hhead := List.head?_dropWhile_not (· != 0) tail
              rw [hrest] at hhead
              simpa using hhead
            have hsplit : tail.takeWhile (· != 0) ++ tail.dropWhile (· != 0) = tail := List.takeWhile_append_dropWhile
            rw [hrest, hbyte] at hsplit
            rw [List.tail_cons, List.append_assoc, List.append_assoc, List.singleton_append, hsplit, htail,
              List.take_append_drop]
      · rw [List.length_take]
        omega
    · cases h

/-- The comparison of a name of the string table with the name that is looked for. -/
theorem candidate_eq_iff {name : Bytes} {offset : Nat} (h : HoldsAt data offset (name ++ [0]))
    (hname : 0 ∉ name) (hpackage : 0 ∉ package) :
    (package.length < (data.drop offset).length && (data.drop offset)[package.length]? = some 0 &&
      (data.drop offset).take package.length = package) = true ↔ name = package := by
  obtain ⟨after, hafter⟩ := h.drop_eq
  have hall : ∀ bytes : Bytes, 0 ∉ bytes → ∀ byte ∈ bytes, (byte != 0) = true := fun bytes hbytes byte hbyte => by
    rw [bne_iff_ne]
    exact fun hzero => hbytes (hzero ▸ hbyte)
  rw [hafter, List.append_assoc, List.singleton_append]
  simp only [Bool.and_eq_true, decide_eq_true_eq]
  constructor
  · rintro ⟨⟨-, hzero⟩, htake⟩
    obtain ⟨hlt, hget⟩ := List.getElem?_eq_some_iff.mp hzero
    have hsplit : name ++ 0 :: after = package ++ 0 :: (name ++ 0 :: after).drop (package.length + 1) := by
      have hdrop := List.getElem_cons_drop hlt
      rw [hget] at hdrop
      calc
        name ++ 0 :: after = (name ++ 0 :: after).take package.length ++ (name ++ 0 :: after).drop package.length :=
          (List.take_append_drop _ _).symm
        _ = package ++ 0 :: (name ++ 0 :: after).drop (package.length + 1) := by rw [htake, hdrop]
    have hruns := congrArg (List.takeWhile (· != 0)) hsplit
    rw [List.takeWhile_append_of_pos (hall name hname), List.takeWhile_append_of_pos (hall package hpackage)] at hruns
    simpa using hruns
  · rintro rfl
    simp

/-! ## The rows of the package table -/

/-- What the reader finds in the row at `index`. -/
structure NamedRow (data : Bytes) (header : PolicyHeader) (index : Nat) (name : Bytes) : Prop where
  hash : read32 data (packageEntry header index + kPackageHashOffset) = .ok (packageNameHash name)
  name : ∃ offset, read32 data (packageEntry header index + kPackageNameOffset) = .ok offset ∧
    readString data header.stringOffset offset = some name

/-- The names of the rows from `index` on. -/
def NamesFrom (data : Bytes) (header : PolicyHeader) (index : Nat) (names : List Bytes) : Prop :=
  ∀ i name, names[i]? = some name → NamedRow data header (index + i) name

theorem namesFrom_nil {index : Nat} : NamesFrom data header index [] := by
  intro i name hname
  cases hname

theorem NamesFrom.head {index : Nat} {name : Bytes} {names : List Bytes}
    (h : NamesFrom data header index (name :: names)) : NamedRow data header index name := h 0 name rfl

theorem NamesFrom.tail {index : Nat} {name : Bytes} {names : List Bytes}
    (h : NamesFrom data header index (name :: names)) : NamesFrom data header (index + 1) names := by
  intro i next hnext
  have hrow := h (i + 1) next hnext
  rwa [show index + (i + 1) = index + 1 + i by omega] at hrow

theorem namesFrom_cons {index : Nat} {name : Bytes} {names : List Bytes} (hname : NamedRow data header index name)
    (hnames : NamesFrom data header (index + 1) names) : NamesFrom data header index (name :: names) := by
  intro i next hnext
  cases i with
  | zero => exact Option.some.inj hnext ▸ hname
  | succ i =>
      rw [show index + (i + 1) = index + 1 + i by omega]
      exact hnames i next hnext

theorem names_of_validPackageIndex {count index : Nat} {previousHash : UInt32} {previousName : Bytes}
    (h : validPackageIndex data header count index previousHash previousName = .ok ()) :
    ∃ names, names.length = count ∧ NamesFrom data header index names ∧ names.Pairwise IndexedBefore ∧
      (0 < index → packageNameHash previousName = previousHash → ∀ name ∈ names, IndexedBefore previousName name) := by
  induction count generalizing index previousHash previousName with
  | zero => exact ⟨[], rfl, namesFrom_nil, List.Pairwise.nil, by simp⟩
  | succ count ih =>
      simp only [validPackageIndex, bind_ok_iff] at h
      obtain ⟨hash, hhash, offset, hoffset, h⟩ := h
      split at h
      · cases h
      · next name hname =>
        split at h
        · cases h
        · next hchecks =>
          simp only [Bool.or_eq_true, Bool.and_eq_true, decide_eq_true_eq, not_or, ne_eq, not_not] at hchecks
          obtain ⟨rfl, hordered⟩ := hchecks
          obtain ⟨names, hlength, hrows, hsorted, hafter⟩ := ih h
          have hlater := hafter (Nat.succ_pos index) rfl
          refine ⟨name :: names, by rw [List.length_cons, hlength], namesFrom_cons ⟨hhash, offset, hoffset, hname⟩ hrows,
            List.pairwise_cons.mpr ⟨hlater, hsorted⟩, fun hindex hprevious => ?_⟩
          have hfirst : IndexedBefore previousName name := by
            subst hprevious
            exact indexedBefore_of_checks fun hbad => hordered ⟨hindex, hbad⟩
          exact List.forall_mem_cons.mpr ⟨hfirst, fun next hnext => hfirst.trans (hlater next hnext)⟩

/-! ## The search -/

theorem scanPackages_eq (hpackage : 0 ∉ package) {index : Nat} {names : List Bytes}
    (hrows : NamesFrom data header index names)
    (hsorted : names.Pairwise fun a b => packageNameHash a ≤ packageNameHash b)
    (hhash : ∀ name ∈ names, packageNameHash package ≤ packageNameHash name) :
    scanPackages data header package names.length index =
      .ok ((names.idxOf? package).map fun i => packageEntry header (index + i)) := by
  induction names generalizing index with
  | nil => rfl
  | cons name names ih =>
      obtain ⟨hash, offset, hoffset, hname⟩ := hrows.head
      obtain ⟨hlater, hrest⟩ := List.pairwise_cons.mp hsorted
      rw [List.forall_mem_cons] at hhash
      simp only [List.length_cons, scanPackages, hash, ok_bind]
      by_cases hsame : packageNameHash name = packageNameHash package
      · rw [if_neg (not_not.mpr hsame), hoffset, ok_bind]
        have hiff := candidate_eq_iff (holdsAt_of_readString hname).1 (holdsAt_of_readString hname).2 hpackage
        by_cases heq : name = package
        · rw [if_pos (hiff.mpr heq), heq, List.idxOf?_cons, beq_self_eq_true, if_pos rfl]
          rfl
        · rw [if_neg (fun htest => heq (hiff.mp htest)), ih hrows.tail hrest hhash.2, List.idxOf?_cons,
            beq_false_of_ne heq, if_neg (by decide), Option.map_map]
          simp only [Function.comp_def, Nat.add_assoc, Nat.add_comm 1]
      · -- the entries are sorted by their hash, so that those after this one have a larger hash too
        have hnone : (name :: names).idxOf? package = none := by
          rw [List.idxOf?_eq_none_iff]
          intro hmem
          rcases List.mem_cons.mp hmem with rfl | hmem
          · exact hsame rfl
          · exact hsame (UInt32.le_antisymm (hlater package hmem) hhash.1)
        rw [if_pos hsame, hnone]
        rfl

/-- What the binary search asks of the hash in a row. -/
def hashBelow (package name : Bytes) : Bool := packageNameHash name < packageNameHash package

theorem pairwise_hashBelow {names : List Bytes}
    (hsorted : names.Pairwise fun a b => packageNameHash a ≤ packageNameHash b) (package : Bytes) :
    names.Pairwise fun a b => hashBelow package b → hashBelow package a := by
  refine hsorted.imp fun hle hb => ?_
  simp only [hashBelow, decide_eq_true_eq] at hb ⊢
  exact UInt32.lt_of_le_of_lt hle hb

theorem read_hashBelow {names : List Bytes} (hrows : NamesFrom data header 0 names)
    (hsorted : names.Pairwise fun a b => packageNameHash a ≤ packageNameHash b) (package : Bytes) {i : Nat}
    (hi : i < names.length) :
    (do
      let hash ← read32 data (packageEntry header i + kPackageHashOffset)
      return decide (hash < packageNameHash package) : Read Bool) =
        .ok (decide (i < (names.takeWhile (hashBelow package)).length)) := by
  have hhash := (hrows i names[i] (List.getElem?_eq_getElem hi)).hash
  rw [Nat.zero_add] at hhash
  have hiff := lt_length_takeWhile_iff (pairwise_hashBelow hsorted package) (List.getElem?_eq_getElem hi)
  rw [hhash, ok_bind]
  refine congrArg Except.ok ?_
  rw [decide_eq_decide, hiff]
  simp [hashBelow]

theorem idxOf?_dropWhile (package : Bytes) (names : List Bytes) :
    names.idxOf? package = ((names.dropWhile (hashBelow package)).idxOf? package).map
      fun i => (names.takeWhile (hashBelow package)).length + i := by
  induction names with
  | nil => rfl
  | cons name names ih =>
      by_cases hbelow : hashBelow package name = true
      · have hne : name ≠ package := by
          rintro rfl
          exact UInt32.lt_irrefl _ (of_decide_eq_true hbelow)
        rw [List.takeWhile_cons_of_pos hbelow, List.dropWhile_cons_of_pos hbelow, List.idxOf?_cons,
          beq_false_of_ne hne, if_neg (by decide), ih, Option.map_map]
        simp only [Function.comp_def, List.length_cons, Nat.add_right_comm]
      · rw [List.takeWhile_cons_of_neg hbelow, List.dropWhile_cons_of_neg hbelow]
        simp

/-- **The binary search and the scan find the first row of the name.** -/
theorem findPackageEntry_of_names (hindex : validPolicyIndex data header = true) {names : List Bytes}
    (hcount : header.packageCount.toNat = names.length) (hrows : NamesFrom data header 0 names)
    (hsorted : names.Pairwise fun a b => packageNameHash a ≤ packageNameHash b) (hpackage : 0 ∉ package)
    (hne : package ≠ []) :
    findPackageEntry data header package = .ok ((names.idxOf? package).map (packageEntry header)) := by
  set first := (names.takeWhile (hashBelow package)).length with hfirst
  have hfirstLe : first ≤ names.length := (List.takeWhile_prefix _).length_le
  have hsearch := searchLower_eq (fun i hi => read_hashBelow hrows hsorted package hi) (Nat.zero_le first) hfirstLe
    (le_refl _) (Nat.sub_le _ 0)
  have hsplit : names.takeWhile (hashBelow package) ++ names.dropWhile (hashBelow package) = names :=
    List.takeWhile_append_dropWhile
  have hback : NamesFrom data header first (names.dropWhile (hashBelow package)) := by
    intro i name hname
    have hrow := hrows (first + i) name (by
      rw [← hsplit, List.getElem?_append_right (Nat.le_add_right _ _), Nat.add_sub_cancel_left]
      exact hname)
    rwa [Nat.zero_add] at hrow
  have hbackSorted := hsorted.sublist (List.dropWhile_sublist (hashBelow package))
  have hhash : ∀ name ∈ names.dropWhile (hashBelow package), packageNameHash package ≤ packageNameHash name := by
    intro name hname
    have hnot := not_of_mem_dropWhile (pairwise_hashBelow hsorted package) hname
    simpa [hashBelow] using hnot
  have hscan := scanPackages_eq hpackage hback hbackSorted hhash
  have hlength : (names.dropWhile (hashBelow package)).length = names.length - first := by
    have := congrArg List.length hsplit
    rw [List.length_append] at this
    omega
  have hempty : package.isEmpty = false := by simpa using hne
  simp only [findPackageEntry, hindex, hempty, hcount, Bool.not_true, Bool.or_false, Bool.false_eq_true, if_false]
  rw [hsearch, ok_bind, ← hlength, hscan, idxOf?_dropWhile package names, Option.map_map]
  rfl

/-! ## A look at every name -/

/-- The first row from `index` on whose name string is the package. -/
def linearSearch (data : Bytes) (header : PolicyHeader) (package : Bytes) : Nat → Nat → Read (Option Nat)
  | 0, _ => .ok none
  | count + 1, index => do
      let offset ← read32 data (packageEntry header index + kPackageNameOffset)
      if readString data header.stringOffset offset = some package then .ok (some (packageEntry header index))
      else linearSearch data header package count (index + 1)

/-- The name string of a row. -/
def nameAt (data : Bytes) (header : PolicyHeader) (index : Nat) : Option Bytes :=
  match read32 data (packageEntry header index + kPackageNameOffset) with
  | .ok offset => readString data header.stringOffset offset
  | .error _ => none

theorem linearSearch_eq {index : Nat} {names : List Bytes} (hrows : NamesFrom data header index names) :
    linearSearch data header package names.length index =
      .ok ((names.idxOf? package).map fun i => packageEntry header (index + i)) := by
  induction names generalizing index with
  | nil => rfl
  | cons name names ih =>
      obtain ⟨-, offset, hoffset, hname⟩ := hrows.head
      simp only [List.length_cons, linearSearch, hoffset, ok_bind, hname, Option.some.injEq]
      by_cases heq : name = package
      · rw [if_pos heq, heq, List.idxOf?_cons, beq_self_eq_true, if_pos rfl]
        rfl
      · rw [if_neg heq, ih hrows.tail, List.idxOf?_cons, beq_false_of_ne heq, if_neg (by decide), Option.map_map]
        simp only [Function.comp_def, Nat.add_assoc, Nat.add_comm 1]

theorem NamesFrom.nameAt_eq {names : List Bytes} (h : NamesFrom data header 0 names) {i : Nat} (hi : i < names.length) :
    nameAt data header i = some names[i] := by
  obtain ⟨-, offset, hoffset, hname⟩ := h i names[i] (List.getElem?_eq_getElem hi)
  rw [Nat.zero_add] at hoffset
  rw [nameAt, hoffset]
  exact hname

theorem validPolicyIndex_of_accepted (h : HeaderAccepted data header) (hstrings : header.stringOffset.toNat ≤ data.length) :
    validPolicyIndex data header = true := by
  have hpackage := h.packageOffset
  have hmount := h.mountOffset
  have hevent := h.eventOffset
  have hstring := h.stringOffset
  have hle : header.packageOffset ≤ header.mountOffset := by
    rw [UInt32.le_iff_toNat_le]
    omega
  have hle' : header.mountOffset ≤ header.stringOffset := by
    rw [UInt32.le_iff_toNat_le]
    omega
  have hroom : header.packageCount.toNat ≤ (header.mountOffset - header.packageOffset).toNat / kPackageSize := by
    rw [UInt32.toNat_sub_of_le _ _ hle, hpackage, hmount, Nat.add_sub_cancel_left, Nat.mul_div_cancel _ (by decide)]
  simp only [validPolicyIndex, hle, hle', hstrings, hroom, decide_true, Bool.and_true]

/-- **Finding a package.** On bytes that pass the checks, `FindPackageEntry` is the look at every name in turn: it
returns an entry exactly when that is the entry of a row whose name is the package, and there is one such row at
most. -/
theorem findPackageEntry_eq_linearSearch (h : readPolicy data = .ok header) (hne : package ≠ []) (hpackage : 0 ∉ package) :
    findPackageEntry data header package = linearSearch data header package header.packageCount.toNat 0 ∧
      (∃ found, findPackageEntry data header package = .ok found ∧
        ∀ entry, found = some entry ↔ ∃ index < header.packageCount.toNat,
          entry = packageEntry header index ∧ nameAt data header index = some package) ∧
      ∀ i < header.packageCount.toNat, ∀ j < header.packageCount.toNat,
        nameAt data header i = some package → nameAt data header j = some package → i = j := by
  unfold readPolicy at h
  split at h
  · cases h
  · simp only [bind_ok_iff] at h
    obtain ⟨header', hheader, ⟨⟩, hvalid, ⟨⟩, -, h⟩ := h
    obtain rfl := Except.ok.inj h
    obtain ⟨names, hlength, hrows, hordered, -⟩ := names_of_validPackageIndex hvalid
    have hindex := validPolicyIndex_of_accepted (headerAccepted_of_ok hheader) (stringOffset_lt_of_ok hheader).le
    have hfind := findPackageEntry_of_names hindex hlength.symm hrows
      (hordered.imp fun hbefore => hbefore.hash_le) hpackage hne
    have hnodup : names.Nodup := hordered.imp fun hbefore => hbefore.ne
    have hlinear := @linearSearch_eq _ _ package _ _ hrows
    simp only [Nat.zero_add] at hlinear
    refine ⟨by rw [hfind, ← hlength, hlinear], ⟨_, hfind, fun entry => ?_⟩, fun i hi j hj hnamei hnamej => ?_⟩
    · rw [Option.map_eq_some_iff]
      constructor
      · rintro ⟨i, hi, rfl⟩
        obtain ⟨hlt, hname, -⟩ := List.idxOf?_eq_some_iff.mp hi
        refine ⟨i, hlength ▸ hlt, rfl, ?_⟩
        rw [hrows.nameAt_eq hlt, hname]
      · rintro ⟨i, hi, rfl, hname⟩
        rw [← hlength] at hi
        rw [hrows.nameAt_eq hi, Option.some.injEq] at hname
        refine ⟨i, List.idxOf?_eq_some_iff.mpr ⟨hi, hname, fun j hj heq => hj.ne ?_⟩, rfl⟩
        exact (List.Nodup.getElem_inj_iff hnodup).mp (heq.trans hname.symm)
    · rw [← hlength] at hi hj
      rw [hrows.nameAt_eq hi, Option.some.injEq] at hnamei
      rw [hrows.nameAt_eq hj, Option.some.injEq] at hnamej
      exact (List.Nodup.getElem_inj_iff hnodup).mp (hnamei.trans hnamej.symm)

/-- Two packages of one hash, and one whose name the name of the second starts with. -/
def collisionDocument : PolicyDocument where
  schema := 2
  apps := [
    { package := ascii "pkg.000418cc", mounts := [{ action := .deny, visiblePath := ascii "DCIM" }] },
    { package := ascii "pkg.000bec18" },
    { package := ascii "pkg" }]

def collisionFile : Bytes := (encodePolicy collisionDocument).toOption.getD []

theorem findPackageEntry_eq_linearSearch_collision :
    packageNameHash (ascii "pkg.000418cc") = packageNameHash (ascii "pkg.000bec18") ∧
      ∃ header, readPolicy collisionFile = .ok header ∧
        findPackageEntry collisionFile header (ascii "pkg.000bec18") =
          linearSearch collisionFile header (ascii "pkg.000bec18") header.packageCount.toNat 0 ∧
        ∃ found, findPackageEntry collisionFile header (ascii "pkg.000bec18") = .ok found ∧
          ∀ entry, found = some entry ↔ ∃ index < header.packageCount.toNat,
            entry = packageEntry header index ∧ nameAt collisionFile header index = some (ascii "pkg.000bec18") := by
  have hok : (readPolicy collisionFile).isOk = true := by decide +kernel
  cases hread : readPolicy collisionFile with
  | error failure => simp [hread, Except.isOk, Except.toBool] at hok
  | ok header =>
      obtain ⟨hlinear, hfound, -⟩ := findPackageEntry_eq_linearSearch hread
        (show ascii "pkg.000bec18" ≠ [] by decide) (by decide)
      exact ⟨by decide +kernel, header, rfl, hlinear, hfound⟩

end PathGuard.Zygisk
