import PathGuard.Lib.Text
import PathGuard.Rules.NameGrammar
import PathGuard.Zygisk.RuntimePath

/-!
# The placeholders, replaced at once

`{package}` is replaced when the policy is compiled, `{user}` when an app starts: `ExpandPathPlaceholders` of
`core/src/path.cpp`, with the two loops it is, and `ExpandRuntimePath` of `zygisk/src/module_entry.cpp`. Together they are
one substitution that replaces both from the left (`replaceAtOnce`): a package name has a dot and no brace, so what is put
in for `{package}` neither starts, ends nor completes a `{user}`.

* `replacePackageFrom_eq`, `onlyUserBracesFrom_eq` : the loops are the functions;
* `replaceUser_replacePackage` : the two stages are one substitution;
* `expandRuntimePath_normalizeBacking` : for every package, backing path and user.
-/

namespace PathGuard.Zygisk

open Rules (isPackageName)

def packagePlaceholder : Bytes := ascii "\x7bpackage\x7d"

/-! ## The loops of `ExpandPathPlaceholders` -/

/-- The first loop: `output` is changed in place, and the search goes on behind what was put in. -/
def replacePackageFrom (package output : Bytes) (offset : Nat) : Bytes :=
  match _h : findFirst packagePlaceholder (output.drop offset) with
  | none => output
  | some index =>
      replacePackageFrom package (output.take (offset + index) ++ package ++ output.drop (offset + index + 9))
        (offset + index + package.length)
termination_by output.length - offset
decreasing_by
  have hlength := (findFirst_eq_some _h).1.length_le
  rw [List.drop_drop, List.length_drop, show packagePlaceholder.length = 9 from rfl] at hlength
  simp only [List.length_append, List.length_take, List.length_drop]
  omega

/-- The second loop: the next brace from `offset` on opens a `{user}`. -/
def onlyUserBracesFrom (output : Bytes) (offset : Nat) : Bool :=
  if offset < output.length then
    match _h : findFrom output openBrace offset, findFrom output closeBrace offset with
    | none, none => true
    | none, some _ => false
    | some first, closing =>
        if closing.any (· < first) then false
        else if (output.drop first).take 6 ≠ userPlaceholder then false
        else onlyUserBracesFrom output (first + 6)
  else true
termination_by output.length - offset
decreasing_by
  have hbounds := findFrom_bounds _h
  omega

def expandPathPlaceholdersLoops (input package : Bytes) : Option Bytes :=
  if package.isEmpty || package.any isPackageStop then none
  else
    let output := replacePackageFrom package input 0
    if onlyUserBracesFrom output 0 then some output else none

section Loops
variable {package front rest : Bytes}

theorem replacePackage_placeholder (rest : Bytes) :
    replacePackage package 0 (packagePlaceholder ++ rest) = package ++ replacePackage package 0 rest := by
  have hstarts : (ascii "\x7bpackage\x7d").isPrefixOf (packagePlaceholder ++ rest) = true := by
    rw [List.isPrefixOf_iff_prefix]
    exact List.prefix_append _ _
  rw [show packagePlaceholder ++ rest = openBrace :: (ascii "package\x7d" ++ rest) from rfl] at hstarts ⊢
  rw [replacePackage, if_pos hstarts]
  rfl

theorem replacePackage_cons {byte : UInt8} (h : ¬ packagePlaceholder <+: byte :: rest) :
    replacePackage package 0 (byte :: rest) = byte :: replacePackage package 0 rest := by
  rw [replacePackage, if_neg]
  rwa [List.isPrefixOf_iff_prefix]

theorem replacePackage_append (h : ∀ earlier < front.length, ¬ packagePlaceholder <+: (front ++ rest).drop earlier) :
    replacePackage package 0 (front ++ rest) = front ++ replacePackage package 0 rest := by
  induction front with
  | nil => rfl
  | cons byte front ih =>
      have hhead : ¬ packagePlaceholder <+: byte :: (front ++ rest) := h 0 (by simp)
      have htail : ∀ earlier < front.length, ¬ packagePlaceholder <+: (front ++ rest).drop earlier := fun earlier hlt =>
        h (earlier + 1) (by rw [List.length_cons]; omega)
      rw [List.cons_append, replacePackage_cons hhead, ih htail, List.cons_append]

/-- The first loop does to the rest of the text what `replacePackage` does. -/
theorem replacePackageFrom_eq (package done rest : Bytes) :
    replacePackageFrom package (done ++ rest) done.length = done ++ replacePackage package 0 rest := by
  induction hsize : rest.length using Nat.strong_induction_on generalizing done rest with
  | h size ih =>
      unfold replacePackageFrom
      rw [List.drop_left]
      split
      next hnone =>
        have hkept := @replacePackage_append package rest []
          fun earlier _ => by rw [List.append_nil]; exact findFirst_eq_none hnone earlier
        rw [List.append_nil] at hkept
        rw [hkept]
        simp [replacePackage]
      next index hsome =>
        obtain ⟨⟨tail, htail⟩, hbefore⟩ := findFirst_eq_some hsome
        have hrest : rest = rest.take index ++ (packagePlaceholder ++ tail) := by
          rw [htail, List.take_append_drop]
        have hindex : (rest.take index).length = index := by
          have hlength := congrArg List.length htail
          rw [List.length_append, List.length_drop, show packagePlaceholder.length = 9 from rfl] at hlength
          rw [List.length_take]
          omega
        generalize rest.take index = before at hrest hindex
        subst hrest hindex
        have hkept : replacePackage package 0 (before ++ (packagePlaceholder ++ tail)) =
            before ++ (package ++ replacePackage package 0 tail) := by
          rw [replacePackage_append fun earlier hlt => hbefore earlier hlt, replacePackage_placeholder]
        have htake : (done ++ (before ++ (packagePlaceholder ++ tail))).take (done.length + before.length) =
            done ++ before := by
          rw [← List.append_assoc, ← List.length_append, List.take_left]
        have hdrop : (done ++ (before ++ (packagePlaceholder ++ tail))).drop (done.length + before.length + 9) = tail := by
          rw [← List.append_assoc, ← List.append_assoc, ← List.length_append,
            show 9 = packagePlaceholder.length from rfl, ← List.length_append, List.drop_left]
        rw [htake, hdrop, hkept, ← List.length_append, ← List.length_append]
        rw [ih tail.length (by
            rw [← hsize, List.length_append, List.length_append, show packagePlaceholder.length = 9 from rfl]; omega)
          (done ++ before ++ package) tail rfl]
        simp only [List.append_assoc]

theorem onlyUserBraces_append (hopen : openBrace ∉ front) (hclose : closeBrace ∉ front) (rest : Bytes) :
    onlyUserBraces 0 (front ++ rest) = onlyUserBraces 0 rest := by
  induction front with
  | nil => rfl
  | cons byte front ih =>
      rw [List.mem_cons, not_or] at hopen hclose
      rw [List.cons_append, onlyUserBraces, if_neg (Ne.symm hclose.1), if_neg (Ne.symm hopen.1), ih hopen.2 hclose.2]

theorem onlyUserBraces_closes (hopen : openBrace ∉ front) (hclose : closeBrace ∉ front) (rest : Bytes) :
    onlyUserBraces 0 (front ++ closeBrace :: rest) = false := by
  rw [onlyUserBraces_append hopen hclose, onlyUserBraces, if_pos rfl]

theorem onlyUserBraces_other {rest : Bytes} (h : ¬ userPlaceholder <+: openBrace :: rest) :
    onlyUserBraces 0 (openBrace :: rest) = false := by
  rw [onlyUserBraces, if_neg (by decide), if_pos rfl, Bool.and_eq_false_iff]
  left
  rw [← Bool.not_eq_true, List.isPrefixOf_iff_prefix]
  exact h

theorem onlyUserBraces_closesFirst {text : Bytes} {closing : Nat} (hclose : text.idxOf? closeBrace = some closing)
    (hopen : ∀ first, text.idxOf? openBrace = some first → closing ≤ first) : onlyUserBraces 0 text = false := by
  obtain ⟨hrest, hfree⟩ := eq_of_idxOf? hclose
  rw [hrest, onlyUserBraces_closes (notMem_take hopen) hfree]

theorem onlyUserBraces_opensFirst {text : Bytes} {first : Nat} (hopen : text.idxOf? openBrace = some first)
    (hclose : ∀ closing, text.idxOf? closeBrace = some closing → first ≤ closing) :
    onlyUserBraces 0 text = onlyUserBraces 0 (text.drop first) := by
  obtain ⟨-, hfree⟩ := eq_of_idxOf? hopen
  conv_lhs => rw [← List.take_append_drop first text]
  rw [onlyUserBraces_append hfree (notMem_take hclose)]

/-- What one turn of the second loop does behind its opening brace. -/
theorem onlyUserBraces_step {text : Bytes} (h : text.head? = some openBrace) :
    onlyUserBraces 0 text = if text.take 6 ≠ userPlaceholder then false else onlyUserBraces 0 (text.drop 6) := by
  by_cases hstarts : userPlaceholder <+: text
  · obtain ⟨rest, rfl⟩ := hstarts
    rw [if_neg (by simp [userPlaceholder, ascii]), onlyUserBraces_placeholder]
    rfl
  · have hother : text.take 6 ≠ userPlaceholder := fun heq => hstarts (heq ▸ List.take_prefix _ _)
    obtain ⟨rest, rfl⟩ := List.head?_eq_some_iff.mp h
    rw [if_pos hother, onlyUserBraces_other hstarts]

theorem onlyUserBracesFrom_eq (output : Bytes) (offset : Nat) (h : offset ≤ output.length) :
    onlyUserBracesFrom output offset = onlyUserBraces 0 (output.drop offset) := by
  induction hsize : output.length - offset using Nat.strong_induction_on generalizing offset with
  | h size ih =>
      unfold onlyUserBracesFrom
      split
      next hlt =>
        split
        next hopen hclose =>
          have hfree := @onlyUserBraces_append (output.drop offset) (findFrom_eq_none_iff.mp hopen)
            (findFrom_eq_none_iff.mp hclose) []
          rw [List.append_nil] at hfree
          rw [hfree]
          rfl
        next closing hopen hclose =>
          obtain ⟨index, hindex, -⟩ := Option.map_eq_some_iff.mp hclose
          have hnone : (output.drop offset).idxOf? openBrace = none := Option.map_eq_none_iff.mp hopen
          rw [onlyUserBraces_closesFirst hindex fun first hfirst => by rw [hnone] at hfirst; cases hfirst]
        next first hopen =>
          obtain ⟨index, hindex, rfl⟩ := Option.map_eq_some_iff.mp hopen
          split
          next hcloses =>
            obtain ⟨closing, hclose, hearlier⟩ := (Option.any_eq_true _ _).mp hcloses
            obtain ⟨close, hclosing, rfl⟩ := Option.map_eq_some_iff.mp hclose
            rw [onlyUserBraces_closesFirst hclosing]
            intro first hfirst
            obtain rfl := Option.some.inj (hindex.symm.trans hfirst)
            have := of_decide_eq_true hearlier
            omega
          next hcloses =>
            have hbefore : ∀ closing, (output.drop offset).idxOf? closeBrace = some closing → index ≤ closing := by
              intro closing hclosing
              by_contra hlt
              apply hcloses
              rw [findFrom, hclosing, Option.map_some, Option.any_some, decide_eq_true_eq]
              omega
            have hhead : (output.drop (offset + index)).head? = some openBrace := by
              rw [← List.drop_drop, drop_of_idxOf? hindex, List.head?_cons]
            rw [onlyUserBraces_opensFirst hindex hbefore, List.drop_drop, onlyUserBraces_step hhead, List.drop_drop]
            split
            next => rfl
            next huser =>
              have hroom := congrArg List.length (not_not.mp huser)
              rw [List.length_take, List.length_drop, show userPlaceholder.length = 6 from rfl] at hroom
              exact ih _ (by omega) (offset + index + 6) (by omega) rfl
      next hend =>
        rw [List.drop_eq_nil_of_le (by omega)]
        rfl

theorem expandPathPlaceholders_eq (input package : Bytes) :
    expandPathPlaceholdersLoops input package = expandPathPlaceholders input package := by
  have hfirst := replacePackageFrom_eq package [] input
  have hsecond := onlyUserBracesFrom_eq (replacePackage package 0 input) 0 (Nat.zero_le _)
  rw [List.nil_append, List.nil_append, List.length_nil] at hfirst
  rw [List.drop_zero] at hsecond
  unfold expandPathPlaceholdersLoops expandPathPlaceholders
  simp only [hfirst, hsecond]

end Loops

/-! ## One substitution -/

/-- Every `{package}` and every `{user}` replaced at once, from the left; `skip` counts the bytes of a placeholder that
are still to be passed over. -/
def replaceAtOnce (package user : Bytes) : Nat → Bytes → Bytes
  | _, [] => []
  | skip + 1, _ :: rest => replaceAtOnce package user skip rest
  | 0, byte :: rest =>
      if packagePlaceholder.isPrefixOf (byte :: rest) then package ++ replaceAtOnce package user 8 rest
      else if userPlaceholder.isPrefixOf (byte :: rest) then user ++ replaceAtOnce package user 5 rest
      else byte :: replaceAtOnce package user 0 rest

section AtOnce
variable {package user : Bytes}

theorem replaceAtOnce_package (rest : Bytes) :
    replaceAtOnce package user 0 (packagePlaceholder ++ rest) = package ++ replaceAtOnce package user 0 rest := by
  have hstarts : packagePlaceholder.isPrefixOf (packagePlaceholder ++ rest) = true := by
    rw [List.isPrefixOf_iff_prefix]
    exact List.prefix_append _ _
  rw [show packagePlaceholder ++ rest = openBrace :: (ascii "package\x7d" ++ rest) from rfl] at hstarts ⊢
  rw [replaceAtOnce, if_pos hstarts]
  rfl

theorem replaceAtOnce_user (rest : Bytes) :
    replaceAtOnce package user 0 (userPlaceholder ++ rest) = user ++ replaceAtOnce package user 0 rest := by
  have hstarts : userPlaceholder.isPrefixOf (userPlaceholder ++ rest) = true := by
    rw [List.isPrefixOf_iff_prefix]
    exact List.prefix_append _ _
  have hother : ¬ packagePlaceholder.isPrefixOf (userPlaceholder ++ rest) = true := by
    simp [packagePlaceholder, userPlaceholder, ascii]
  rw [show userPlaceholder ++ rest = openBrace :: (ascii "user\x7d" ++ rest) from rfl] at hstarts hother ⊢
  rw [replaceAtOnce, if_neg hother, if_pos hstarts]
  rfl

theorem replaceAtOnce_cons {byte : UInt8} {rest : Bytes} (hpackage : ¬ packagePlaceholder <+: byte :: rest)
    (huser : ¬ userPlaceholder <+: byte :: rest) :
    replaceAtOnce package user 0 (byte :: rest) = byte :: replaceAtOnce package user 0 rest := by
  rw [replaceAtOnce, if_neg (by rwa [List.isPrefixOf_iff_prefix]), if_neg (by rwa [List.isPrefixOf_iff_prefix])]

theorem replaceAtOnce_induction {motive : Bytes → Prop} (nil : motive [])
    (package : ∀ rest, motive rest → motive (packagePlaceholder ++ rest))
    (user : ∀ rest, motive rest → motive (userPlaceholder ++ rest))
    (cons : ∀ byte rest, ¬ packagePlaceholder <+: byte :: rest → ¬ userPlaceholder <+: byte :: rest → motive rest →
      motive (byte :: rest)) (input : Bytes) : motive input := by
  induction hlength : input.length using Nat.strong_induction_on generalizing input with
  | _ length ih =>
      by_cases hpackage : packagePlaceholder <+: input
      · obtain ⟨rest, rfl⟩ := hpackage
        refine package rest (ih rest.length ?_ rest rfl)
        rw [← hlength, List.length_append]
        exact Nat.lt_add_of_pos_left (by decide)
      · by_cases huser : userPlaceholder <+: input
        · obtain ⟨rest, rfl⟩ := huser
          refine user rest (ih rest.length ?_ rest rfl)
          rw [← hlength, List.length_append]
          exact Nat.lt_add_of_pos_left (by decide)
        · cases input with
          | nil => exact nil
          | cons byte rest => exact cons byte rest hpackage huser (ih rest.length (by rw [← hlength]; simp) rest rfl)

theorem replaceUser_append {front : Bytes} (h : openBrace ∉ front) (rest : Bytes) :
    replaceUser user 0 (front ++ rest) = front ++ replaceUser user 0 rest := by
  induction front with
  | nil => rfl
  | cons byte front ih =>
      rw [List.mem_cons, not_or] at h
      rw [List.cons_append, replaceUser_cons, ih h.2, List.cons_append]
      intro hstarts
      exact h.1 (List.cons_prefix_cons.mp hstarts).1

theorem replacePackage_user (rest : Bytes) :
    replacePackage package 0 (userPlaceholder ++ rest) = userPlaceholder ++ replacePackage package 0 rest := by
  apply replacePackage_append
  intro earlier hlt
  have hsix : earlier < 6 := hlt
  interval_cases earlier <;> simp [packagePlaceholder, userPlaceholder, ascii]

/-- The end of a `{user}` that stands in the expanded text stands in the original one: a package name that it met would
have to end in it, which takes a brace, or to lie within it, which takes a text with a dot. -/
theorem prefix_of_prefix_replacePackage (hclose : closeBrace ∉ package) {outside : UInt8} (hpackage : outside ∈ package)
    {ending rest : Bytes} (houtside : outside ∉ ending) (hending : ending.getLast? = some closeBrace)
    (h : ending <+: replacePackage package 0 rest) : ending <+: rest := by
  induction ending generalizing rest with
  | nil => exact List.nil_prefix
  | cons byte ending ih =>
      by_cases hstarts : packagePlaceholder <+: rest
      · exfalso
        obtain ⟨tail, rfl⟩ := hstarts
        rw [replacePackage_placeholder] at h
        rcases Nat.le_total (byte :: ending).length package.length with hle | hle
        · have hin := List.prefix_of_prefix_length_le h (List.prefix_append _ _) hle
          exact hclose (hin.subset (List.mem_of_getLast? hending))
        · have hin := List.prefix_of_prefix_length_le (List.prefix_append _ _) h hle
          exact houtside (hin.subset hpackage)
      · cases rest with
        | nil => exact absurd (List.prefix_nil.mp h) (List.cons_ne_nil _ _)
        | cons other rest =>
            rw [replacePackage_cons hstarts, List.cons_prefix_cons] at h
            obtain ⟨rfl, htail⟩ := h
            rw [List.cons_prefix_cons]
            refine ⟨rfl, ?_⟩
            by_cases hnil : ending = []
            · rw [hnil]
              exact List.nil_prefix
            · rw [List.getLast?_cons_of_ne_nil hnil] at hending
              exact ih (fun hmem => houtside (List.mem_cons_of_mem _ hmem)) hending htail

/-- **The two stages are one substitution.** -/
theorem replaceUser_replacePackage (hopen : openBrace ∉ package) (hclose : closeBrace ∉ package)
    (hdot : Rules.dotSign ∈ package) (input : Bytes) :
    replaceUser user 0 (replacePackage package 0 input) = replaceAtOnce package user 0 input := by
  induction input using replaceAtOnce_induction with
  | nil => rfl
  | package rest ih => rw [replacePackage_placeholder, replaceUser_append hopen, ih, replaceAtOnce_package]
  | user rest ih => rw [replacePackage_user, replaceUser_placeholder, ih, replaceAtOnce_user]
  | cons byte rest hpackage huser ih =>
      have hstill : ¬ userPlaceholder <+: byte :: replacePackage package 0 rest := by
        intro hstarts
        apply huser
        rw [show userPlaceholder = openBrace :: ascii "user\x7d" from rfl, List.cons_prefix_cons] at hstarts ⊢
        exact ⟨hstarts.1, prefix_of_prefix_replacePackage hclose hdot (by decide) (by decide) hstarts.2⟩
      rw [replacePackage_cons hpackage, replaceUser_cons hstill, ih, replaceAtOnce_cons hpackage huser]

end AtOnce

theorem package_of_isPackageName {package : Bytes} (h : isPackageName package = true) :
    openBrace ∉ package ∧ closeBrace ∉ package ∧ Rules.dotSign ∈ package := by
  have hplain : ∀ byte ∈ package, Rules.IsPlainByte byte := fun byte hbyte =>
    Rules.IsSuffixByte.plain (Rules.byte_of_isPackageName h hbyte)
  refine ⟨fun hmem => (hplain _ hmem).2.2.1 rfl, fun hmem => (hplain _ hmem).2.2.2.1 rfl, ?_⟩
  rcases (Rules.isPackageName_iff package).mp h with ⟨first, rest, hne, -, -, rfl⟩ | ⟨name, -, rfl⟩
  · obtain ⟨next, more, rfl⟩ := List.exists_cons_of_ne_nil hne
    simp
  · simp

/-- **Staged expansion is simultaneous substitution**: what `NormalizeBacking` accepts with an accepted package,
`ExpandRuntimePath` expands for every user, to the original string with every `{package}` and every `{user}` replaced at
once; its components are not empty and neither `.` nor `..`, and it has no brace. -/
theorem expandRuntimePath_normalizeBacking {package input backing : Bytes} {userId : Nat}
    (hpackage : isPackageName package = true) (hbacking : normalizeBacking input package = some backing)
    (huser : userId < 42950) :
    ∃ path, expandRuntimePath backing userId PATH_MAX = some path ∧
      path = replaceAtOnce package (decimalBytes userId) 0 input ∧
      (∀ part ∈ path.splitOn slash, part ≠ [] ∧ part ≠ ascii "." ∧ part ≠ ascii "..") ∧
      openBrace ∉ path ∧ closeBrace ∉ path := by
  obtain ⟨hpath, hbraces⟩ := backing_of_normalize hbacking
  obtain ⟨hopen, hclose, hdot⟩ := package_of_isPackageName hpackage
  obtain ⟨expanded, hexpand, hnormal⟩ := Option.bind_eq_some_iff.mp hbacking
  obtain ⟨rfl, -⟩ := normalizeLogicalPath_some hnormal
  obtain ⟨-, hreplaced, -⟩ := expandPathPlaceholders_iff.mp hexpand
  refine ⟨_, expandRuntimePath_eq (by omega) hpath hbraces, ?_, hpath.replaceUser_ne userId,
    brace_not_mem_expanded hbraces userId⟩
  rw [← hreplaced]
  exact replaceUser_replacePackage hopen hclose hdot input

theorem expandRuntimePath_normalizeBacking_redirect :
    ∃ path, expandRuntimePath (ascii "Android/\x7buser\x7d/com.example") 10 PATH_MAX = some path ∧
      path = replaceAtOnce (ascii "com.example") (decimalBytes 10) 0 (ascii "Android/\x7buser\x7d/\x7bpackage\x7d") ∧
      openBrace ∉ path := by
  obtain ⟨path, hpath, heq, -, hopen, -⟩ := @expandRuntimePath_normalizeBacking (ascii "com.example")
    (ascii "Android/\x7buser\x7d/\x7bpackage\x7d") (ascii "Android/\x7buser\x7d/com.example") 10 (by decide) (by decide)
    (by decide)
  exact ⟨path, hpath, heq, hopen⟩

end PathGuard.Zygisk
