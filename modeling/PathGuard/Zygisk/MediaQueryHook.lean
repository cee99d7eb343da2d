import Mathlib.Data.List.ReduceOption
import PathGuard.Lib.Run
import PathGuard.Lib.SqlConjunction
import PathGuard.Zygisk.MediaQueryFilter
import PathGuard.Zygisk.ProcessPlan

/-!
# The hook of media queries

`zygisk/src/media_query_hook.cpp`. In the process of an app the hook stands in front of `BinderProxy.transactNative`: a
query of the media provider is read from its parcel, the filter of the denied paths is added to its selection, and the
query is written to a parcel of its own. Whatever fails, the parcel of the app is sent as it is.

* `install_eq_some_iff` : when there is a filter, and which;
* `rewritten_query` : what the provider reads of a rewritten query;
* `forwarded_in_run` : every transaction of every run, with failures.
-/

namespace PathGuard.Zygisk.MediaQuery

open Sql (parse placeholders)

/-! ## Install -/

def kMaxDenyPaths : Nat := 8
def kMaxDenyArguments : Nat := kMaxDenyPaths * 2
def kMaxSelectionSize : Nat := 8192

/-- The size of a slot of `g_deny_arguments`. -/
def argumentStride : Nat := PATH_MAX + 4

def userPrefix (userId : Nat) : Bytes := ascii "/storage/emulated/" ++ decimalBytes userId ++ [slash]

/-- The loop of `Install` over the paths; `none` in the list is a null pointer. -/
def copyDenyPaths (userPrefix : Bytes) : List (Option Bytes) → Option (List Bytes)
  | [] => some []
  | none :: _ => none
  | some path :: denyPaths =>
      if PATH_MAX ≤ path.length || ! userPrefix.isPrefixOf path then none
      else if path.isEmpty then none
      else (copyDenyPaths userPrefix denyPaths).map (path :: ·)

/-- `g_cached_deny_filter` and `g_cached_deny_arguments`. -/
structure DenyFilter where
  filter : Bytes
  arguments : List Bytes

/-- What `Install` meets in the runtime: whether `InitializeJni` and the objects of `InitializeDenyFilter` succeed, and
whether `hookJniNativeMethods` finds the method it replaces. -/
structure InstallRuntime where
  initializeJni : Bool
  filterObjects : Bool
  originalTransact : Bool

def initializeDenyFilter (runtime : InstallRuntime) (denyPaths : List Bytes) : Option DenyFilter := do
  let written ← buildDenySelection denyPaths kMaxSelectionSize (fun _ => 0) kMaxDenyArguments argumentStride
  if !runtime.filterObjects then none
  else return { filter := written.selection, arguments := written.argumentTexts argumentStride }

/-- `Install`. -/
def install (runtime : InstallRuntime) (denyPaths : List (Option Bytes)) (uid : Int) : Option DenyFilter :=
  if denyPaths.length = 0 || kMaxDenyPaths < denyPaths.length || uid < 0 then none
  else
    let start := userPrefix (uid.toNat / 100000)
    if 64 ≤ start.length then none
    else do
      let copied ← copyDenyPaths start denyPaths
      if !runtime.initializeJni then none
      else
        let deny ← initializeDenyFilter runtime copied
        if !runtime.originalTransact then none else return deny

/-! ## Parcels and bundles -/

/-- How the values of a class stand in a parcel: what is written is read back, and the reader goes on behind it. -/
structure Codec (Cell Value : Type) where
  write : Value → List Cell
  read : List Cell → Option (Value × List Cell)
  read_write : ∀ value rest, read (write value ++ rest) = some (value, rest)

/-- A value of a bundle. A string is its bytes in the modified UTF-8 of the runtime. -/
inductive BundleValue (Other : Type)
  | string (text : Bytes)
  | stringArray (texts : List (Option Bytes))
  | other (value : Other)

abbrev Bundle (Other : Type) := Bytes → Option (BundleValue Other)

namespace Bundle
variable {Other : Type}

/-- `getString`: null also for a value that is no string. -/
def getString (bundle : Bundle Other) (key : Bytes) : Option Bytes :=
  match bundle key with
  | some (.string text) => some text
  | _ => none

def getStringArray (bundle : Bundle Other) (key : Bytes) : Option (List (Option Bytes)) :=
  match bundle key with
  | some (.stringArray texts) => some texts
  | _ => none

def put (bundle : Bundle Other) (key : Bytes) (value : BundleValue Other) : Bundle Other := fun other =>
  if other = key then some value else bundle other

variable (bundle : Bundle Other) {key other : Bytes} (value : BundleValue Other)

@[simp] theorem put_self : bundle.put key value key = some value := if_pos rfl

@[simp] theorem put_of_ne (h : other ≠ key) : bundle.put key value other = bundle other := if_neg h

end Bundle

/-- The classes of the framework that the hook uses. -/
structure Framework where
  Cell : Type
  Attribution : Type
  Uri : Type
  Other : Type
  Binder : Type
  [decidableEqBinder : DecidableEq Binder]
  interfaceToken : Codec Cell Bytes
  attributionSource : Codec Cell Attribution
  uri : Codec Cell (Option Uri)
  stringArray : Codec Cell (Option (List (Option Bytes)))
  bundle : Codec Cell (Option (Bundle Other))
  strongBinder : Codec Cell (Option Binder)
  authority : Uri → Option Bytes
  interfaceDescriptor : Binder → Option Bytes

attribute [instance] Framework.decidableEqBinder
attribute [simp] Codec.read_write

/-- The places where the hook looks whether the runtime has failed or thrown. -/
inductive JniCall
  | isSameObject
  | getInterfaceDescriptor
  | descriptorText
  | newGlobalBinder
  | createFromParcel
  | getAuthority
  | authorityText
  | readParcel
  | newBundle
  | readBundle
  | selectionText
  | newSelection
  | newArguments
  | putArguments
  | obtain
  | writeParcel
  deriving DecidableEq

/-! ## ApplyFilterToBundle -/

def kSelectionKey : Bytes := ascii "android:query-arg-sql-selection"
def kSelectionArgsKey : Bytes := ascii "android:query-arg-sql-selection-args"

variable (fails : JniCall → Bool) (deny : DenyFilter)

/-- `MergeArguments`. -/
def mergeArguments (original : Option (List (Option Bytes))) : Option (List (Option Bytes)) :=
  if fails .newArguments then none else some (original.getD [] ++ deny.arguments.map some)

/-- What `snprintf` writes for `(%s) AND (%s)`. -/
def mergedSelection (original filter : Bytes) : Bytes :=
  ascii "(" ++ (original ++ (ascii ") AND (" ++ (filter ++ ascii ")")))

def mergeSelection : Option Bytes → Option Bytes
  | some (byte :: text) =>
      if kMaxSelectionSize ≤ (mergedSelection (byte :: text) deny.filter).length || fails .newSelection then none
      else some (mergedSelection (byte :: text) deny.filter)
  | _ => if fails .newSelection then none else some deny.filter

def applyFilterToBundle {Other : Type} (bundle : Bundle Other) : Option (Bundle Other) :=
  if fails .readBundle then none
  else if (bundle.getString kSelectionKey).isSome && fails .selectionText then none
  else do
    let selection ← mergeSelection fails deny (bundle.getString kSelectionKey)
    let arguments ← mergeArguments fails deny (bundle.getStringArray kSelectionArgsKey)
    if fails .putArguments then none
    else return (bundle.put kSelectionKey (.string selection)).put kSelectionArgsKey (.stringArray arguments)

/-! ## TransactHook -/

def kProviderDescriptor : Bytes := ascii "android.content.IContentProvider"
def kMediaAuthority : Bytes := ascii "media"
def kQueryTransaction : Int := 1

/-- What the parcel of a query holds behind the interface token. -/
structure Query (framework : Framework) where
  attribution : framework.Attribution
  uri : Option framework.Uri
  projection : Option (List (Option Bytes))
  queryArgs : Option (Bundle framework.Other)
  observer : Option framework.Binder
  cancellation : Option framework.Binder

structure Transaction (framework : Framework) where
  binder : framework.Binder
  code : Int
  data : Option (List framework.Cell)
  reply : Option (List framework.Cell)
  flags : Int

section Hook
variable {framework : Framework}

/-- `IsProviderBinder` behind the look at the cached binder. -/
def hasProviderDescriptor (binder : framework.Binder) : Bool :=
  if fails .getInterfaceDescriptor then false
  else
    match framework.interfaceDescriptor binder with
    | none => false
    | some descriptor => !fails .descriptorText && descriptor == kProviderDescriptor

/-- `IsProviderBinder`, with `cached` for what it loads from `g_cached_descriptor_binder`: its answer and the binder that
it then tries to put there. -/
def isProviderBinder (cached : Option framework.Binder) (binder : framework.Binder) : Bool × Option framework.Binder :=
  let slow :=
    let provider := hasProviderDescriptor fails binder
    (provider, if provider && !fails .newGlobalBinder then some binder else none)
  match cached with
  | none => slow
  | some known => if fails .isSameObject then (false, none) else if binder = known then (true, none) else slow

def isMediaUri (uri : Option framework.Uri) : Bool :=
  match uri with
  | none => false
  | some uri =>
      if fails .getAuthority then false
      else
        match framework.authority uri with
        | none => false
        | some authority => !fails .authorityText && authority == kMediaAuthority

/-- `enforceInterface` and the two `createFromParcel`. -/
def readHead (data : List framework.Cell) :
    Option (framework.Attribution × Option framework.Uri × List framework.Cell) := do
  let (token, rest) ← framework.interfaceToken.read data
  if token ≠ kProviderDescriptor then none
  else
    let (attribution, rest) ← framework.attributionSource.read rest
    let (uri, rest) ← framework.uri.read rest
    return (attribution, uri, rest)

/-- The rest of a query, which has to end where the parcel ends. -/
def readTail (attribution : framework.Attribution) (uri : Option framework.Uri) (rest : List framework.Cell) :
    Option (Query framework) := do
  let (projection, rest) ← framework.stringArray.read rest
  let (queryArgs, rest) ← framework.bundle.read rest
  let (observer, rest) ← framework.strongBinder.read rest
  let (cancellation, rest) ← framework.strongBinder.read rest
  if !rest.isEmpty then none
  else return { attribution, uri, projection, queryArgs, observer, cancellation }

/-- The query in a parcel. -/
def readQuery (data : List framework.Cell) : Option (Query framework) := do
  let (attribution, uri, rest) ← readHead data
  readTail attribution uri rest

def writeQuery (query : Query framework) : List framework.Cell :=
  framework.interfaceToken.write kProviderDescriptor ++
    (framework.attributionSource.write query.attribution ++
      (framework.uri.write query.uri ++
        (framework.stringArray.write query.projection ++
          (framework.bundle.write query.queryArgs ++
            (framework.strongBinder.write query.observer ++ framework.strongBinder.write query.cancellation)))))

/-- The parcel that `TransactHook` sends in place of `data`, if it does. -/
def rewriteQuery (data : List framework.Cell) : Option (List framework.Cell) :=
  if fails .createFromParcel then none
  else do
    let (attribution, uri, rest) ← readHead data
    if !isMediaUri fails uri then none
    else if fails .readParcel then none
    else
      let query ← readTail attribution uri rest
      if query.queryArgs.isNone && fails .newBundle then none
      else
        let queryArgs ← applyFilterToBundle fails deny (query.queryArgs.getD fun _ => none)
        if fails .obtain || fails .writeParcel then none
        else return writeQuery { query with queryArgs := some queryArgs }

/-- The call that `TransactHook` makes of the original. -/
def forwarded (cached : Option framework.Binder) (call : Transaction framework) : Transaction framework :=
  if call.code ≠ kQueryTransaction then call
  else
    match call.data with
    | none => call
    | some data =>
        if !(isProviderBinder fails cached call.binder).1 then call
        else
          match rewriteQuery fails deny data with
          | none => call
          | some rewritten => { call with data := some rewritten }

end Hook

/-! ## What Install takes -/

/-- A path that the filter can have an argument pair for. -/
structure Filterable (userId : Nat) (path : Bytes) : Prop where
  user : userPrefix userId <+: path
  last : path.getLast? ≠ some slash
  length : path.length < PATH_MAX
  escaped : (escapeLike path).length < PATH_MAX + 2

theorem copyDenyPaths_eq_some_iff {userPrefix : Bytes} (hstarts : userPrefix ≠ []) {denyPaths : List (Option Bytes)}
    {copied : List Bytes} :
    copyDenyPaths userPrefix denyPaths = some copied ↔
      denyPaths = copied.map some ∧ ∀ path ∈ copied, userPrefix <+: path ∧ path.length < PATH_MAX := by
  induction denyPaths generalizing copied with
  | nil => cases copied <;> simp [copyDenyPaths]
  | cons path denyPaths ih =>
      cases path with
      | none => cases copied <;> simp [copyDenyPaths]
      | some path =>
          rw [copyDenyPaths]
          split
          · next hbad =>
            simp only [Bool.or_eq_true, decide_eq_true_eq, Bool.not_eq_true', ← Bool.not_eq_true,
              List.isPrefixOf_iff_prefix] at hbad
            cases copied with
            | nil => simp
            | cons first copied =>
                simp only [reduceCtorEq, List.map_cons, List.cons.injEq, Option.some.injEq, List.forall_mem_cons,
                  false_iff, not_and]
                rintro ⟨rfl, -⟩ ⟨hpath, hlength⟩
                exact absurd hbad (by simp [hpath, hlength])
          · next hgood =>
            simp only [Bool.or_eq_true, decide_eq_true_eq, Bool.not_eq_true', ← Bool.not_eq_true,
              List.isPrefixOf_iff_prefix, not_or, not_not, Nat.not_le] at hgood
            have hne : path ≠ [] := by
              rintro rfl
              exact hstarts (List.prefix_nil.mp hgood.2)
            rw [if_neg (by simpa using hne), Option.map_eq_some_iff]
            constructor
            · rintro ⟨rest, hrest, rfl⟩
              obtain ⟨rfl, hpaths⟩ := ih.mp hrest
              exact ⟨rfl, List.forall_mem_cons.mpr ⟨⟨hgood.2, hgood.1⟩, hpaths⟩⟩
            · rintro ⟨hmap, hpaths⟩
              cases copied with
              | nil => cases hmap
              | cons first copied =>
                  obtain ⟨hfirst, hrest⟩ := List.cons.inj hmap
                  obtain rfl := Option.some.inj hfirst
                  exact ⟨copied, ih.mpr ⟨hrest, (List.forall_mem_cons.mp hpaths).2⟩, rfl⟩

theorem copyLikePrefix_isSome {capacity : Nat} {path output : Bytes}
    (h : output.length + (escapeLike path).length + 3 ≤ capacity) : (copyLikePrefix capacity path output).isSome := by
  induction path generalizing output with
  | nil =>
      rw [copyLikePrefix, if_neg]
      · rfl
      · simp [escapeLike] at h
        omega
  | cons byte path ih =>
      rw [escapeLike_cons] at h
      rw [copyLikePrefix]
      split
      · next hspecial =>
        rw [if_pos hspecial, List.length_append, List.length_cons, List.length_singleton] at h
        rw [if_neg]
        · refine ih ?_
          rw [List.length_append, List.length_cons, List.length_singleton]
          omega
        · simp only [Bool.or_eq_true, decide_eq_true_eq, not_or, Nat.not_le]
          omega
      · next hplain =>
        rw [if_neg hplain, List.length_append, List.length_singleton] at h
        rw [if_neg (by omega)]
        refine ih ?_
        rw [List.length_append, List.length_singleton]
        omega

theorem copyLikePrefix_isSome_iff {capacity : Nat} {path : Bytes} :
    (copyLikePrefix capacity path []).isSome ↔ (escapeLike path).length + 3 ≤ capacity := by
  constructor
  · rw [Option.isSome_iff_exists]
    rintro ⟨copied, hcopied⟩
    obtain ⟨rfl, hcapacity⟩ := copyLikePrefix_eq_some hcopied
    rwa [List.nil_append, List.length_append] at hcapacity
  · intro h
    exact copyLikePrefix_isSome (by simpa using h)

/-- The checks of `BuildDenySelection` on a path. -/
structure ClausePath (stride : Nat) (path : Bytes) : Prop where
  head : path.head? = some slash
  directory : path.length ≠ 1
  last : path.getLast? ≠ some slash
  exact : path.length + 1 ≤ stride
  escaped : (escapeLike path).length + 3 ≤ stride

theorem addClauses_isSome_iff {capacity stride index : Nat} {denyPaths : List Bytes} {written : DenySelection}
    (hroom : written.selection.length + (clauseTexts index denyPaths.length).length < capacity) :
    (addClauses capacity stride index denyPaths written).isSome ↔ ∀ path ∈ denyPaths, ClausePath stride path := by
  induction denyPaths generalizing index written with
  | nil => simp [addClauses]
  | cons path denyPaths ih =>
      rw [List.length_cons, clauseTexts, List.length_append, List.length_append] at hroom
      rw [addClauses, List.forall_mem_cons]
      split
      · next hbad =>
        simp only [Bool.or_eq_true, bne_iff_ne, decide_eq_true_eq] at hbad
        simp only [Option.isSome_none, Bool.false_eq_true, false_iff, not_and]
        intro hpath
        rcases hbad with (hhead | hdirectory) | hlast
        · exact absurd hpath.head hhead
        · exact absurd hdirectory hpath.directory
        · exact absurd hlast hpath.last
      · next hgood =>
        simp only [Bool.or_eq_true, bne_iff_ne, decide_eq_true_eq, not_or, not_not] at hgood
        obtain ⟨⟨hhead, hdirectory⟩, hlast⟩ := hgood
        have hseparator : (if 0 < index then appendText written.selection capacity (ascii " AND ")
            else some written.selection) =
            some (written.selection ++ (if 0 < index then ascii " AND " else [])) := by
          split
          · next hindex =>
            rw [if_pos hindex] at hroom
            rw [appendText, if_neg (by omega)]
          · next hindex => rw [List.append_nil]
        have hclause : appendText (written.selection ++ (if 0 < index then ascii " AND " else [])) capacity kClause =
            some (written.selection ++ (if 0 < index then ascii " AND " else []) ++ kClause) := by
          rw [appendText, if_neg (by rw [List.length_append]; omega)]
        simp only [Option.bind_eq_bind, hseparator, hclause, Option.bind_some]
        by_cases hexact : path.length + 1 ≤ stride
        · by_cases hescaped : (escapeLike path).length + 3 ≤ stride
          · obtain ⟨copied, hcopied⟩ := Option.isSome_iff_exists.mp (copyLikePrefix_isSome_iff.mpr hescaped)
            rw [copyText, if_neg (Nat.not_lt.mpr hexact), Option.bind_some, hcopied, Option.bind_some, ih]
            · exact ⟨fun h => ⟨⟨hhead, hdirectory, hlast, hexact, hescaped⟩, h⟩, fun h => h.2⟩
            · simp only [List.length_append]
              omega
          · have hnone : copyLikePrefix stride path [] = none := by
              rw [← Option.not_isSome_iff_eq_none, copyLikePrefix_isSome_iff]
              exact hescaped
            rw [copyText, if_neg (Nat.not_lt.mpr hexact), Option.bind_some, hnone]
            exact ⟨fun h => (Bool.false_ne_true h).elim, fun h => absurd h.1.escaped hescaped⟩
        · rw [copyText, if_pos (Nat.not_le.mp hexact)]
          exact ⟨fun h => (Bool.false_ne_true h).elim, fun h => absurd h.1.exact hexact⟩

theorem length_clauseTexts (index count : Nat) :
    (clauseTexts index count).length = kClause.length * count + 5 * (if index = 0 then count - 1 else count) := by
  induction count generalizing index with
  | zero => simp [clauseTexts]
  | succ count ih =>
      have hseparator : (ascii " AND ").length = 5 := rfl
      rw [clauseTexts, List.length_append, List.length_append, ih, if_neg (Nat.succ_ne_zero index), Nat.mul_succ]
      rcases Nat.eq_zero_or_pos index with rfl | hindex
      · simp
        omega
      · rw [if_pos hindex, if_neg hindex.ne', hseparator]
        omega

/-- The text of the filter has room for as many clauses as `Install` takes paths. -/
theorem length_clauseTexts_lt {count : Nat} (hcount : count ≤ kMaxDenyPaths) :
    (clauseTexts 0 count).length < kMaxSelectionSize := by
  have hclause : kClause.length = 63 := by decide
  rw [length_clauseTexts, hclause, if_pos rfl]
  simp only [kMaxDenyPaths, kMaxSelectionSize] at *
  omega

section Installed
variable {runtime : InstallRuntime} {uid : Int} {deny : DenyFilter}

theorem userPrefix_ne_nil (userId : Nat) : userPrefix userId ≠ [] := by
  rw [userPrefix]
  exact List.append_ne_nil_of_right_ne_nil _ (List.cons_ne_nil _ _)

theorem length_userPrefix_lt (huid : uid < 2 ^ 31) : (userPrefix (uid.toNat / 100000)).length < 64 := by
  have hdigits : (decimalBytes (uid.toNat / 100000)).length ≤ 10 :=
    length_decimalBytes_le (by decide) (by omega)
  have hstart : (ascii "/storage/emulated/").length = 18 := by decide
  rw [userPrefix, List.length_append, List.length_append, hstart, List.length_singleton]
  omega

theorem clausePath_iff {userId : Nat} {path : Bytes} (hstarts : userPrefix userId <+: path)
    (hlength : path.length < PATH_MAX) : ClausePath argumentStride path ↔ Filterable userId path := by
  have hhead : path.head? = some slash := by
    obtain ⟨rest, rfl⟩ := hstarts
    rfl
  have hlong : path.length ≠ 1 := by
    have hle := hstarts.length_le
    have hstart : (ascii "/storage/emulated/").length = 18 := by decide
    rw [userPrefix, List.length_append, List.length_append, hstart] at hle
    omega
  constructor
  · intro h
    have hescaped := h.escaped
    exact ⟨hstarts, h.last, hlength, by rw [argumentStride] at hescaped; omega⟩
  · intro h
    have hescaped := h.escaped
    exact ⟨hhead, hlong, h.last, by rw [argumentStride]; omega, by rw [argumentStride]; omega⟩

/-- What the filter of a list of paths is. -/
def filterOf (paths : List Bytes) : DenyFilter where
  filter := clauseTexts 0 paths.length
  arguments := denyArguments paths

theorem initializeDenyFilter_eq_some_iff {paths : List Bytes} (hne : paths ≠ []) (hcount : paths.length ≤ kMaxDenyPaths)
    (hzero : ∀ path ∈ paths, 0 ∉ path) :
    initializeDenyFilter runtime paths = some deny ↔
      runtime.filterObjects = true ∧ (∀ path ∈ paths, ClausePath argumentStride path) ∧ deny = filterOf paths := by
  have hguard : ¬ (paths.isEmpty || kMaxSelectionSize = 0 || argumentStride = 0 ||
      kMaxDenyArguments / 2 < paths.length) = true := by
    have hcapacity : ¬ kMaxDenyArguments / 2 < paths.length := Nat.not_lt.mpr hcount
    have hstride : argumentStride ≠ 0 := by decide
    have hsize : kMaxSelectionSize ≠ 0 := by decide
    simp [hne, hcapacity, hstride, hsize]
  have hsome := @addClauses_isSome_iff kMaxSelectionSize argumentStride 0 paths ⟨[], fun _ => 0, 0⟩
    (by simpa using length_clauseTexts_lt hcount)
  have hbuild : buildDenySelection paths kMaxSelectionSize (fun _ => 0) kMaxDenyArguments argumentStride =
      addClauses kMaxSelectionSize argumentStride 0 paths ⟨[], fun _ => 0, 0⟩ := by
    rw [buildDenySelection, if_neg hguard]
  rw [initializeDenyFilter, Option.bind_eq_bind, Option.bind_eq_some_iff]
  constructor
  · rintro ⟨written, hwritten, hdeny⟩
    split at hdeny
    · cases hdeny
    · next hobjects =>
      obtain rfl := Option.some.inj hdeny
      obtain ⟨-, hselection, -, htexts⟩ := buildDenySelection_eq_some hwritten
      refine ⟨by simpa using hobjects, hsome.mp ?_, ?_⟩
      · rw [← hbuild, hwritten]
        rfl
      · rw [filterOf, hselection, htexts hzero]
  · rintro ⟨hobjects, hpaths, rfl⟩
    obtain ⟨written, hwritten⟩ := Option.isSome_iff_exists.mp (hsome.mpr hpaths)
    rw [← hbuild] at hwritten
    obtain ⟨-, hselection, -, htexts⟩ := buildDenySelection_eq_some hwritten
    refine ⟨written, hwritten, ?_⟩
    rw [if_neg (by simp [hobjects]), filterOf, ← hselection, ← htexts hzero]
    rfl

theorem install_eq_some {denyPaths : List (Option Bytes)} (huid : uid < 2 ^ 31)
    (hzero : ∀ path, some path ∈ denyPaths → 0 ∉ path) (h : install runtime denyPaths uid = some deny) :
    runtime = ⟨true, true, true⟩ ∧ 0 ≤ uid ∧ ∃ paths : List Bytes, denyPaths = paths.map some ∧ paths ≠ [] ∧
      paths.length ≤ kMaxDenyPaths ∧ (∀ path ∈ paths, Filterable (uid.toNat / 100000) path) ∧ deny = filterOf paths := by
  rw [install] at h
  split at h
  · cases h
  · next hguard =>
    simp only [Bool.or_eq_true, decide_eq_true_eq, not_or, Nat.not_lt, Int.not_lt] at hguard
    obtain ⟨⟨hlength, hcount⟩, huid'⟩ := hguard
    simp only [if_neg (Nat.not_le.mpr (length_userPrefix_lt huid)), Option.bind_eq_bind, Option.bind_eq_some_iff,
      copyDenyPaths_eq_some_iff (userPrefix_ne_nil _)] at h
    obtain ⟨paths, ⟨rfl, hpaths⟩, h⟩ := h
    rw [List.length_map] at hlength hcount
    have hne : paths ≠ [] := mt List.length_eq_zero_iff.mpr hlength
    split at h
    · cases h
    · next hjni =>
      obtain ⟨found, hfound, h⟩ := Option.bind_eq_some_iff.mp h
      split at h
      · cases h
      · next horiginal =>
        obtain rfl := Option.some.inj h
        obtain ⟨hobjects, hclauses, hdeny⟩ := (initializeDenyFilter_eq_some_iff hne hcount fun path hpath =>
          hzero path (List.mem_map_of_mem hpath)).mp hfound
        refine ⟨?_, huid', paths, rfl, hne, hcount, fun path hpath => ?_, hdeny⟩
        · cases runtime
          simp_all
        · exact (clausePath_iff (hpaths path hpath).1 (hpaths path hpath).2).mp (hclauses path hpath)

theorem install_filterOf {paths : List Bytes} (huid : uid < 2 ^ 31) (huid' : 0 ≤ uid) (hne : paths ≠ [])
    (hcount : paths.length ≤ kMaxDenyPaths) (hpaths : ∀ path ∈ paths, Filterable (uid.toNat / 100000) path)
    (hzero : ∀ path ∈ paths, 0 ∉ path) :
    install ⟨true, true, true⟩ (paths.map some) uid = some (filterOf paths) := by
  have hclauses : ∀ path ∈ paths, ClausePath argumentStride path := fun path hpath =>
    (clausePath_iff (hpaths path hpath).user (hpaths path hpath).length).mpr (hpaths path hpath)
  have hinitialized : initializeDenyFilter ⟨true, true, true⟩ paths = some (filterOf paths) :=
    (initializeDenyFilter_eq_some_iff hne hcount hzero).mpr ⟨rfl, hclauses, rfl⟩
  have hcopied : copyDenyPaths (userPrefix (uid.toNat / 100000)) (paths.map some) = some paths :=
    (copyDenyPaths_eq_some_iff (userPrefix_ne_nil _)).mpr
      ⟨rfl, fun path hpath => ⟨(hpaths path hpath).user, (hpaths path hpath).length⟩⟩
  have hguard : ¬ ((paths.map some).length = 0 || kMaxDenyPaths < (paths.map some).length || uid < 0) = true := by
    simp only [List.length_map, Bool.or_eq_true, decide_eq_true_eq, not_or, Nat.not_lt, Int.not_lt]
    exact ⟨⟨mt List.length_eq_zero_iff.mp hne, hcount⟩, huid'⟩
  rw [install, if_neg hguard]
  simp only [if_neg (Nat.not_le.mpr (length_userPrefix_lt huid)), hcopied, Option.bind_eq_bind, Option.bind_some]
  simp [hinitialized]

/-- **When the filter is installed, and which.** With a runtime that does its part, it is for any one to eight paths in the
storage of the app's user that do not end in a slash and fit their slots once escaped; nothing else of the paths matters,
and the text of the filter always has room. -/
theorem install_eq_some_iff {denyPaths : List (Option Bytes)} (huid : uid < 2 ^ 31)
    (hzero : ∀ path, some path ∈ denyPaths → 0 ∉ path) :
    install runtime denyPaths uid = some deny ↔
      runtime = ⟨true, true, true⟩ ∧ 0 ≤ uid ∧ ∃ paths : List Bytes, denyPaths = paths.map some ∧ paths ≠ [] ∧
        paths.length ≤ kMaxDenyPaths ∧ (∀ path ∈ paths, Filterable (uid.toNat / 100000) path) ∧ deny = filterOf paths := by
  refine ⟨install_eq_some huid hzero, ?_⟩
  rintro ⟨rfl, huid', paths, rfl, hne, hcount, hpaths, rfl⟩
  exact install_filterOf huid huid' hne hcount hpaths fun path hpath => hzero path (List.mem_map_of_mem hpath)

theorem install_eq_some_iff_download :
    install ⟨true, true, true⟩ [some (ascii "/storage/emulated/10/Download/a_b")] 1010123 =
      some (filterOf [ascii "/storage/emulated/10/Download/a_b"]) := by
  refine (install_eq_some_iff (by decide) fun path hpath => ?_).mpr
    ⟨rfl, by decide, _, rfl, by decide, by decide, fun path hpath => ?_, rfl⟩
  · rw [List.mem_singleton, Option.some.injEq] at hpath
    subst hpath
    decide
  · obtain rfl := List.mem_singleton.mp hpath
    exact ⟨by decide, by decide, by decide, by decide⟩

end Installed

/-! ## The query that is sent -/

@[simp] theorem Codec.read_write_nil {Cell Value : Type} (codec : Codec Cell Value) (value : Value) :
    codec.read (codec.write value) = some (value, []) := by
  simpa using codec.read_write value []

theorem readQuery_writeQuery {framework : Framework} (query : Query framework) :
    readQuery (writeQuery query) = some query := by
  simp [readQuery, readHead, readTail, writeQuery]

/-- The text of the selection that has the filter. -/
def filteredSelection (deny : DenyFilter) : Option Bytes → Bytes
  | some (byte :: text) => mergedSelection (byte :: text) deny.filter
  | _ => deny.filter

def filteredBundle {Other : Type} (deny : DenyFilter) (bundle : Bundle Other) : Bundle Other :=
  (bundle.put kSelectionKey (.string (filteredSelection deny (bundle.getString kSelectionKey)))).put kSelectionArgsKey
    (.stringArray ((bundle.getStringArray kSelectionArgsKey).getD [] ++ deny.arguments.map some))

/-- Whether the query has a text as its selection that is too long with the filter. -/
def isTooLong (deny : DenyFilter) : Option Bytes → Bool
  | some (byte :: text) => kMaxSelectionSize ≤ (mergedSelection (byte :: text) deny.filter).length
  | _ => false

section Filtered
variable {framework : Framework} {fails : JniCall → Bool} {deny : DenyFilter}

theorem mergeSelection_eq_some {original : Option Bytes} {selection : Bytes}
    (h : mergeSelection fails deny original = some selection) :
    isTooLong deny original = false ∧ selection = filteredSelection deny original := by
  match original with
  | none | some [] =>
      rw [mergeSelection] at h
      · split at h
        · cases h
        · exact ⟨rfl, (Option.some.inj h).symm⟩
      · simp
  | some (byte :: text) =>
      rw [mergeSelection] at h
      split at h
      · cases h
      · next hgood =>
        simp only [Bool.or_eq_true, decide_eq_true_eq, not_or] at hgood
        exact ⟨decide_eq_false hgood.1, (Option.some.inj h).symm⟩

theorem mergeSelection_of_works {original : Option Bytes} (hworks : ∀ call, fails call = false)
    (hlength : isTooLong deny original = false) :
    mergeSelection fails deny original = some (filteredSelection deny original) := by
  match original with
  | none | some [] => simp [mergeSelection, hworks, filteredSelection]
  | some (byte :: text) =>
      rw [isTooLong, decide_eq_false_iff_not] at hlength
      rw [mergeSelection, if_neg (by simpa [hworks] using hlength), filteredSelection]

/-- A failure keeps the filter from being added, or changes nothing. -/
theorem applyFilterToBundle_eq_some {Other : Type} {bundle filtered : Bundle Other}
    (h : applyFilterToBundle fails deny bundle = some filtered) :
    isTooLong deny (bundle.getString kSelectionKey) = false ∧ filtered = filteredBundle deny bundle := by
  rw [applyFilterToBundle] at h
  split at h
  · cases h
  · split at h
    · cases h
    · simp only [Option.bind_eq_bind, Option.bind_eq_some_iff] at h
      obtain ⟨selection, hselection, arguments, harguments, h⟩ := h
      obtain ⟨hlength, rfl⟩ := mergeSelection_eq_some hselection
      rw [mergeArguments] at harguments
      split at harguments
      · cases harguments
      · split at h
        · cases h
        · obtain rfl := Option.some.inj harguments
          exact ⟨hlength, (Option.some.inj h).symm⟩

theorem applyFilterToBundle_of_works {Other : Type} {bundle : Bundle Other} (hworks : ∀ call, fails call = false)
    (hlength : isTooLong deny (bundle.getString kSelectionKey) = false) :
    applyFilterToBundle fails deny bundle = some (filteredBundle deny bundle) := by
  rw [applyFilterToBundle, if_neg (by simp [hworks]), if_neg (by simp [hworks]),
    mergeSelection_of_works hworks hlength]
  simp [mergeArguments, hworks, filteredBundle]

def Query.bundle (query : Query framework) : Bundle framework.Other := query.queryArgs.getD fun _ => none

/-- The query with the filter. -/
def Query.filtered (deny : DenyFilter) (query : Query framework) : Query framework :=
  { query with queryArgs := some (filteredBundle deny query.bundle) }

/-- The queries that are rewritten when nothing fails. -/
structure Rewritable (deny : DenyFilter) (data : List framework.Cell) (query : Query framework) : Prop where
  read : readQuery data = some query
  media : query.uri.bind framework.authority = some kMediaAuthority
  fits : isTooLong deny (query.bundle.getString kSelectionKey) = false

theorem readTail_eq_some {attribution : framework.Attribution} {uri : Option framework.Uri} {rest : List framework.Cell}
    {query : Query framework} (h : readTail attribution uri rest = some query) :
    query.attribution = attribution ∧ query.uri = uri := by
  simp only [readTail, Option.bind_eq_bind, Option.bind_eq_some_iff] at h
  obtain ⟨_, -, _, -, _, -, _, -, h⟩ := h
  split at h
  · cases h
  · obtain rfl := Option.some.inj h
    exact ⟨rfl, rfl⟩

theorem isMediaUri_eq_true {uri : Option framework.Uri} (h : isMediaUri fails uri = true) :
    uri.bind framework.authority = some kMediaAuthority := by
  cases uri with
  | none => cases h
  | some uri =>
      simp only [isMediaUri] at h
      split at h
      · cases h
      · split at h
        · cases h
        · next hauthority =>
          simp only [Bool.and_eq_true, beq_iff_eq] at h
          rw [Option.bind_some, hauthority, h.2]

theorem rewriteQuery_eq_some {data rewritten : List framework.Cell} (h : rewriteQuery fails deny data = some rewritten) :
    ∃ query, Rewritable deny data query ∧ rewritten = writeQuery (query.filtered deny) := by
  rw [rewriteQuery] at h
  split at h
  · cases h
  · obtain ⟨⟨attribution, uri, rest⟩, hhead, h⟩ := Option.bind_eq_some_iff.mp h
    simp only at h
    split at h
    · cases h
    · next hmedia =>
      split at h
      · cases h
      · obtain ⟨query, htail, h⟩ := Option.bind_eq_some_iff.mp h
        split at h
        · cases h
        · obtain ⟨filtered, hfiltered, h⟩ := Option.bind_eq_some_iff.mp h
          obtain ⟨hlength, rfl⟩ := applyFilterToBundle_eq_some hfiltered
          split at h
          · cases h
          · rw [Bool.not_eq_true', Bool.not_eq_false] at hmedia
            have huri := isMediaUri_eq_true hmedia
            refine ⟨query, ⟨?_, ?_, hlength⟩, (Option.some.inj h).symm⟩
            · rw [readQuery, hhead]
              exact htail
            · rwa [(readTail_eq_some htail).2]

theorem rewriteQuery_of_works {data : List framework.Cell} {query : Query framework}
    (hworks : ∀ call, fails call = false) (h : Rewritable deny data query) :
    rewriteQuery fails deny data = some (writeQuery (query.filtered deny)) := by
  obtain ⟨⟨attribution, uri, rest⟩, hhead, htail⟩ := Option.bind_eq_some_iff.mp h.read
  replace htail : readTail attribution uri rest = some query := htail
  have hmedia : isMediaUri fails uri = true := by
    obtain ⟨address, haddress, hauthority⟩ := Option.bind_eq_some_iff.mp h.media
    rw [(readTail_eq_some htail).2] at haddress
    rw [haddress, isMediaUri]
    simp [hworks, hauthority]
  have hbundle : applyFilterToBundle fails deny (query.queryArgs.getD fun _ => none) =
      some (filteredBundle deny query.bundle) := applyFilterToBundle_of_works hworks h.fits
  rw [rewriteQuery, if_neg (by simp [hworks]), hhead]
  simp only [Option.bind_eq_bind, Option.bind_some]
  rw [if_neg (by simp [hmedia]), if_neg (by simp [hworks]), htail, Option.bind_some, if_neg (by simp [hworks]), hbundle,
    Option.bind_some, if_neg (by simp [hworks])]
  rfl

theorem hasProviderDescriptor_eq_true {binder : framework.Binder} (h : hasProviderDescriptor fails binder = true) :
    framework.interfaceDescriptor binder = some kProviderDescriptor := by
  rw [hasProviderDescriptor] at h
  split at h
  · cases h
  · split at h
    · cases h
    · next hdescriptor =>
      simp only [Bool.and_eq_true, beq_iff_eq] at h
      rw [hdescriptor, h.2]

theorem hasProviderDescriptor_of_works {binder : framework.Binder} (hworks : ∀ call, fails call = false) :
    hasProviderDescriptor fails binder = true ↔ framework.interfaceDescriptor binder = some kProviderDescriptor := by
  refine ⟨hasProviderDescriptor_eq_true, fun h => ?_⟩
  simp [hasProviderDescriptor, hworks, h]

/-- A binder that is cached is one of a provider. -/
def Provides (binder : framework.Binder) : Prop := framework.interfaceDescriptor binder = some kProviderDescriptor

theorem isProviderBinder_eq_true {cached : Option framework.Binder} {binder : framework.Binder}
    (hcached : ∀ known ∈ cached, Provides known) (h : (isProviderBinder fails cached binder).1 = true) :
    Provides binder := by
  cases cached with
  | none => exact hasProviderDescriptor_eq_true h
  | some known =>
      simp only [isProviderBinder] at h
      split at h
      · cases h
      · split at h
        · next heq => exact heq ▸ hcached known rfl
        · exact hasProviderDescriptor_eq_true h

theorem isProviderBinder_of_works {cached : Option framework.Binder} {binder : framework.Binder}
    (hworks : ∀ call, fails call = false) (hcached : ∀ known ∈ cached, Provides known) :
    (isProviderBinder fails cached binder).1 = true ↔ Provides binder := by
  refine ⟨isProviderBinder_eq_true hcached, fun h => ?_⟩
  have hslow := (hasProviderDescriptor_of_works hworks).mpr h
  cases cached with
  | none => exact hslow
  | some known =>
      simp only [isProviderBinder]
      rw [if_neg (by simp [hworks])]
      split
      · rfl
      · exact hslow

theorem isProviderBinder_publishes {cached : Option framework.Binder} {binder known : framework.Binder}
    (h : (isProviderBinder fails cached binder).2 = some known) : Provides known := by
  have hslow : (if hasProviderDescriptor fails binder && !fails .newGlobalBinder then some binder else none) =
      some known → Provides known := by
    intro h
    split at h
    · next hprovider =>
      obtain rfl := Option.some.inj h
      exact hasProviderDescriptor_eq_true (Bool.and_eq_true_iff.mp hprovider).1
    · cases h
  cases cached with
  | none => exact hslow h
  | some known =>
      simp only [isProviderBinder] at h
      split at h
      · cases h
      · split at h
        · cases h
        · exact hslow h

/-- The calls whose query is rewritten when nothing fails. -/
structure RewritableCall (deny : DenyFilter) (call : Transaction framework) (data : List framework.Cell)
    (query : Query framework) : Prop extends Rewritable deny data query where
  code : call.code = kQueryTransaction
  data : call.data = some data
  provider : Provides call.binder

theorem forwarded_cases {cached : Option framework.Binder} {call : Transaction framework}
    (hcached : ∀ known ∈ cached, Provides known) :
    forwarded fails deny cached call = call ∨
      ∃ data query, RewritableCall deny call data query ∧
        forwarded fails deny cached call = { call with data := some (writeQuery (query.filtered deny)) } := by
  rw [forwarded]
  split
  · exact .inl rfl
  · next hcode =>
    rw [not_not] at hcode
    split
    · exact .inl rfl
    · next data hdata =>
      split
      · exact .inl rfl
      · next hprovider =>
        rw [Bool.not_eq_true', Bool.not_eq_false] at hprovider
        split
        · exact .inl rfl
        · next rewritten hrewritten =>
          obtain ⟨query, hquery, rfl⟩ := rewriteQuery_eq_some hrewritten
          exact .inr ⟨data, query, ⟨hquery, hcode, hdata, isProviderBinder_eq_true hcached hprovider⟩, rfl⟩

theorem forwarded_of_works {cached : Option framework.Binder} {call : Transaction framework}
    {data : List framework.Cell} {query : Query framework} (hworks : ∀ call, fails call = false)
    (hcached : ∀ known ∈ cached, Provides known) (h : RewritableCall deny call data query) :
    forwarded fails deny cached call = { call with data := some (writeQuery (query.filtered deny)) } := by
  have hprovider := (isProviderBinder_of_works hworks hcached).mpr h.provider
  rw [forwarded, if_neg (not_not.mpr h.code), h.data]
  simp only [hprovider, Bool.not_true, Bool.false_eq_true, if_false]
  rw [rewriteQuery_of_works hworks h.toRewritable]

end Filtered

/-! ## A framework whose parcels keep the values themselves -/

inductive Item
  | token (text : Bytes)
  | attribution (uid : Nat)
  | uri (authority : Option Bytes)
  | strings (texts : Option (List (Option Bytes)))
  | bundle (bundle : Option (Bundle Nat))
  | binder (descriptor : Option Bytes)

def readItem {Value : Type} (unwrap : Item → Option Value) : List Item → Option (Value × List Item)
  | [] => none
  | item :: rest => (unwrap item).map fun value => (value, rest)

theorem readItem_append {Value : Type} {wrap : Value → Item} {unwrap : Item → Option Value}
    (h : ∀ value, unwrap (wrap value) = some value) (value : Value) (rest : List Item) :
    readItem unwrap ([wrap value] ++ rest) = some (value, rest) := by
  rw [List.singleton_append, readItem, h, Option.map_some]

def itemCodec {Value : Type} (wrap : Value → Item) (unwrap : Item → Option Value)
    (h : ∀ value, unwrap (wrap value) = some value) : Codec Item Value where
  write value := [wrap value]
  read := readItem unwrap
  read_write := readItem_append h

/-- A URI is its authority, and a binder its descriptor. -/
def itemFramework : Framework where
  Cell := Item
  Attribution := Nat
  Uri := Bytes
  Other := Nat
  Binder := Bytes
  interfaceToken := itemCodec .token (fun | .token text => some text | _ => none) fun _ => rfl
  attributionSource := itemCodec .attribution (fun | .attribution uid => some uid | _ => none) fun _ => rfl
  uri := itemCodec .uri (fun | .uri authority => some authority | _ => none) fun _ => rfl
  stringArray := itemCodec .strings (fun | .strings texts => some texts | _ => none) fun _ => rfl
  bundle := itemCodec .bundle (fun | .bundle bundle => some bundle | _ => none) fun _ => rfl
  strongBinder := itemCodec .binder (fun | .binder descriptor => some descriptor | _ => none) fun _ => rfl
  authority := some
  interfaceDescriptor := some

/-- A query of the pictures whose title is not the given one. -/
def titleQuery : Query itemFramework where
  attribution := (10123 : Nat)
  uri := some kMediaAuthority
  projection := some [some (ascii "_id")]
  queryArgs := some fun key =>
    if key = kSelectionKey then some (.string (ascii "title != ?"))
    else if key = kSelectionArgsKey then some (.stringArray [some (ascii "a")])
    else none
  observer := none
  cancellation := none

def titleCall : Transaction itemFramework where
  binder := kProviderDescriptor
  code := kQueryTransaction
  data := some (writeQuery titleQuery)
  reply := some []
  flags := 0

def downloadPath : Bytes := ascii "/storage/emulated/0/Download/a_b"

theorem titleQuery_rewritable : Rewritable (filterOf [downloadPath]) (writeQuery titleQuery) titleQuery where
  read := readQuery_writeQuery titleQuery
  media := rfl
  fits := by decide

/-! ## Runs of the hook -/

/-- The cached binder, and the references that calls have made and not yet tried to put there. -/
structure HookState (framework : Framework) where
  cached : Option framework.Binder := none
  pending : List framework.Binder := []

/-- A thread calls the hook, which loads the cached binder; later its compare-and-exchange comes. -/
inductive HookEvent (framework : Framework)
  | transact (fails : JniCall → Bool) (call : Transaction framework)
  | publish (binder : framework.Binder)

section Runs
variable {framework : Framework}

def HookState.next (state : HookState framework) : HookEvent framework → Option (HookState framework)
  | .transact fails call =>
      if call.code ≠ kQueryTransaction || call.data.isNone then some state
      else
        some { state with
          pending := (isProviderBinder fails state.cached call.binder).2.toList ++ state.pending }
  | .publish binder =>
      if binder ∈ state.pending then
        some { cached := state.cached.or (some binder), pending := state.pending.erase binder }
      else none

structure HookState.Known (state : HookState framework) : Prop where
  cached : ∀ binder ∈ state.cached, Provides binder
  pending : ∀ binder ∈ state.pending, Provides binder

theorem HookState.Known.next {state after : HookState framework} {event : HookEvent framework} (h : state.Known)
    (hnext : state.next event = some after) : after.Known := by
  cases event with
  | transact fails call =>
      rw [HookState.next] at hnext
      split at hnext
      · obtain rfl := Option.some.inj hnext
        exact h
      · obtain rfl := Option.some.inj hnext
        refine ⟨h.cached, fun binder hbinder => ?_⟩
        rcases List.mem_append.mp hbinder with hnew | hold
        · exact isProviderBinder_publishes (Option.mem_toList.mp hnew)
        · exact h.pending binder hold
  | publish binder =>
      rw [HookState.next] at hnext
      split at hnext
      · next hbinder =>
        obtain rfl := Option.some.inj hnext
        refine ⟨fun known hknown => ?_, fun known hknown => h.pending known (List.mem_of_mem_erase hknown)⟩
        cases hcached : state.cached with
        | none =>
            rw [hcached, Option.none_or, Option.mem_some_iff] at hknown
            exact hknown ▸ h.pending binder hbinder
        | some first =>
            rw [hcached, Option.some_or] at hknown
            exact h.cached known (hcached ▸ hknown)
      · cases hnext

/-- **All or nothing.** However the calls of the threads come and whatever fails in them, a call is sent as it is, or with
its query rewritten, and the latter only for a query of the media provider. When nothing fails every such query whose
selection leaves room for the filter is rewritten, whichever binder is cached. -/
theorem forwarded_in_run {deny : DenyFilter} {state : HookState framework} (hrun : Run.Reaches HookState.next {} state)
    (fails : JniCall → Bool) (call : Transaction framework) :
    (forwarded fails deny state.cached call = call ∨
      ∃ data query, RewritableCall deny call data query ∧
        forwarded fails deny state.cached call = { call with data := some (writeQuery (query.filtered deny)) }) ∧
    ((∀ jniCall, fails jniCall = false) → ∀ data query, RewritableCall deny call data query →
      forwarded fails deny state.cached call = { call with data := some (writeQuery (query.filtered deny)) }) := by
  have hknown : state.Known := hrun.invariant ⟨by simp, by simp⟩ fun _ _ _ hknown _ hnext => hknown.next hnext
  exact ⟨forwarded_cases hknown.cached, fun hworks _ _ => forwarded_of_works hworks hknown.cached⟩

/-- Behind two calls whose references were made, and one of them published. -/
theorem forwarded_in_run_title :
    ∃ state : HookState itemFramework, Run.Reaches HookState.next {} state ∧ state.cached = some kProviderDescriptor ∧
      (forwarded (fun _ => false) (filterOf [downloadPath]) state.cached titleCall).data =
        some (writeQuery (titleQuery.filtered (filterOf [downloadPath]))) := by
  have hrun : Run.Reaches HookState.next ({} : HookState itemFramework)
      { cached := some kProviderDescriptor, pending := [kProviderDescriptor] } :=
    Run.reaches_of_runLabels [.transact (fun _ => false) titleCall, .transact (fun _ => false) titleCall,
      .publish kProviderDescriptor] rfl
  have hsent := (forwarded_in_run hrun (fun _ => false) titleCall).2 (fun _ => rfl) _ _
    ⟨titleQuery_rewritable, rfl, rfl, rfl⟩
  exact ⟨_, hrun, rfl, by rw [hsent]⟩

end Runs

/-! ## The rows that are selected -/

section Rows
variable {framework : Framework}

def Query.selection (query : Query framework) : Option Bytes := query.bundle.getString kSelectionKey

def Query.selectionArgs (query : Query framework) : List (Option Bytes) :=
  (query.bundle.getStringArray kSelectionArgsKey).getD []

/-- A selection that is a condition, with an argument for each of its placeholders. A query without one has none. -/
def Query.Readable (query : Query framework) : Prop :=
  match query.selection with
  | none | some [] => query.selectionArgs = []
  | some text => ∃ (condition : Sql.Condition) (texts : List Bytes), parse text = some condition ∧
      query.selectionArgs = texts.map some ∧ texts.length = placeholders text

/-- Whether the query selects a row of the provider. -/
def Query.Selects (query : Query framework) (row : Bytes → Option Bytes) : Prop :=
  match query.selection with
  | none | some [] => True
  | some text => ∃ condition, parse text = some condition ∧
      condition.truth row query.selectionArgs.reduceOption = some true

/-- A row whose path no path of the list covers. -/
def Uncovered (paths : List Bytes) (row : Bytes → Option Bytes) : Prop :=
  ∀ value ∈ row (ascii "_data"), ∀ path ∈ paths, ¬ DeniedValue path value

theorem tokens_clauseTexts (count : Nat) :
    Sql.tokens (clauseTexts 0 (count + 1)) = some (clauseTokens 0 ++ laterTokens 2 count) := by
  rw [Sql.tokens, clauseTexts, if_neg (Nat.lt_irrefl 0), List.nil_append, lex_kClause, lex_clauseTexts]
  simp

theorem countP_laterTokens (placeholder count : Nat) :
    (laterTokens placeholder count).countP Sql.Token.isPlaceholder = 2 * count := by
  induction count generalizing placeholder with
  | zero => rfl
  | succ count ih =>
      have hclause : (Sql.Token.word (ascii "AND") :: clauseTokens placeholder).countP Sql.Token.isPlaceholder = 2 := rfl
      rw [laterTokens, List.countP_append, ih, hclause]
      omega

theorem length_denyArguments (paths : List Bytes) : (denyArguments paths).length = 2 * paths.length := by
  induction paths with
  | nil => rfl
  | cons path paths ih =>
      rw [List.length_cons, Nat.mul_succ, ← ih, Nat.add_comm]
      exact List.length_append

/-- The filter is a condition with an argument for each of its placeholders, which keeps the uncovered rows. -/
theorem filterOf_condition {paths : List Bytes} (hne : paths ≠ []) :
    ∃ condition, parse (filterOf paths).filter = some condition ∧
      (filterOf paths).arguments.length = placeholders (filterOf paths).filter ∧
      ∀ row, condition.truth row (filterOf paths).arguments = some true ↔ Uncovered paths row := by
  obtain ⟨count, hcount⟩ := Nat.exists_eq_succ_of_ne_zero (mt List.length_eq_zero_iff.mp hne)
  refine ⟨laterConditions (clauseCondition 0) 2 count, ?_, ?_, fun row => ?_⟩
  · rw [filterOf, hcount, Nat.succ_eq_add_one, parse_clauseTexts]
  · have hplaceholders : placeholders (clauseTexts 0 (count + 1)) = 2 * (count + 1) := by
      have hclause : (clauseTokens 0).countP Sql.Token.isPlaceholder = 2 := rfl
      rw [placeholders, tokens_clauseTexts, Option.getD_some, List.countP_append, hclause, countP_laterTokens]
      omega
    rw [filterOf, hcount, Nat.succ_eq_add_one, hplaceholders, ← Nat.succ_eq_add_one, ← hcount, length_denyArguments]
  · have hclause : ∀ index (hindex : index < paths.length),
        (clauseCondition (2 * index)).truth row (denyArguments paths) = some true ↔
          ∀ value ∈ row (ascii "_data"), ¬ DeniedValue paths[index] value := by
      intro index hindex
      have hplaces := denyArguments_getElem? paths index
      rw [List.getElem?_eq_getElem hindex] at hplaces
      exact clauseCondition_truth hplaces.1 hplaces.2
    have hall : (laterConditions (clauseCondition 0) 2 count).truth row (denyArguments paths) = some true ↔
        ∀ index < paths.length, (clauseCondition (2 * index)).truth row (denyArguments paths) = some true := by
      rw [laterConditions_truth, hcount, Nat.succ_eq_add_one, Nat.forall_lt_succ_left]
      simp only [Nat.mul_zero, Nat.mul_succ, Nat.add_comm 2]
    rw [filterOf, hall]
    constructor
    · intro htruth value hvalue path hpath
      obtain ⟨index, hindex, rfl⟩ := List.mem_iff_getElem.mp hpath
      exact (hclause index hindex).mp (htruth index hindex) value hvalue
    · intro hkeeps index hindex
      exact (hclause index hindex).mpr fun value hvalue => hkeeps value hvalue _ (List.getElem_mem hindex)

theorem selectionKey_ne : kSelectionKey ≠ kSelectionArgsKey := by decide

theorem filtered_selection (deny : DenyFilter) (query : Query framework) :
    (query.filtered deny).selection = some (filteredSelection deny query.selection) := by
  simp [Query.selection, Query.filtered, Query.bundle, filteredBundle, Bundle.getString, selectionKey_ne]

theorem filtered_selectionArgs (deny : DenyFilter) (query : Query framework) :
    (query.filtered deny).selectionArgs = query.selectionArgs ++ deny.arguments.map some := by
  simp [Query.selectionArgs, Query.filtered, Query.bundle, filteredBundle, Bundle.getStringArray]

theorem reduceOption_map_some (texts : List Bytes) : (texts.map some).reduceOption = texts := by
  induction texts with
  | nil => rfl
  | cons text texts ih => rw [List.map_cons, List.reduceOption_cons_of_some, ih]

theorem parse_nil : parse [] = none := rfl

theorem selects_iff_of_parse {query : Query framework} {text : Bytes} {condition : Sql.Condition}
    (hselection : query.selection = some text) (hparse : parse text = some condition) (row : Bytes → Option Bytes) :
    query.Selects row ↔ condition.truth row query.selectionArgs.reduceOption = some true := by
  cases text with
  | nil => exact nomatch parse_nil.symm.trans hparse
  | cons byte text =>
      rw [Query.Selects, hselection]
      simp only [hparse, Option.some.injEq, exists_eq_left']

theorem readable_of_parse {query : Query framework} {text : Bytes} {condition : Sql.Condition} {texts : List Bytes}
    (hselection : query.selection = some text) (hparse : parse text = some condition)
    (hargs : query.selectionArgs = texts.map some) (hlength : texts.length = placeholders text) : query.Readable := by
  cases text with
  | nil => exact nomatch parse_nil.symm.trans hparse
  | cons byte text =>
      rw [Query.Readable, hselection]
      exact ⟨condition, texts, hparse, hargs, hlength⟩

/-- With the filter a query selects the uncovered rows of those that it selected. -/
theorem filtered_selects {query : Query framework} {paths : List Bytes} (hne : paths ≠ []) (hreadable : query.Readable) :
    (query.filtered (filterOf paths)).Readable ∧
      ∀ row, (query.filtered (filterOf paths)).Selects row ↔ query.Selects row ∧ Uncovered paths row := by
  obtain ⟨filter, hfilter, hlength, huncovered⟩ := filterOf_condition hne
  have hselection := filtered_selection (filterOf paths) query
  have hargs := filtered_selectionArgs (filterOf paths) query
  match hquery : query.selection with
  | none | some [] =>
      rw [hquery] at hselection
      rw [Query.Readable, hquery] at hreadable
      rw [hreadable, List.nil_append] at hargs
      refine ⟨readable_of_parse hselection hfilter hargs hlength, fun row => ?_⟩
      rw [selects_iff_of_parse hselection hfilter, hargs, reduceOption_map_some, huncovered, Query.Selects, hquery]
      exact (iff_of_eq (true_and _)).symm
  | some (byte :: text) =>
      rw [hquery] at hselection
      rw [Query.Readable, hquery] at hreadable
      obtain ⟨condition, texts, hcondition, htexts, hcount⟩ := hreadable
      have hparse := Sql.parse_conjunction hcondition hfilter
      rw [htexts, ← List.map_append] at hargs
      refine ⟨readable_of_parse hselection hparse hargs ?_, fun row => ?_⟩
      · obtain ⟨left, hleft, -⟩ := Sql.parse_eq_some hcondition
        obtain ⟨right, hright, -⟩ := Sql.parse_eq_some hfilter
        have hplaceholders := Sql.placeholders_conjunction hleft hright
        rw [List.length_append, hcount, hlength]
        exact hplaceholders.symm
      · obtain ⟨joined, hjoined, htruth⟩ := @Sql.parse_conjunction_truth row texts (filterOf paths).arguments _ _ _ _
          hcondition hfilter hcount
        rw [selects_iff_of_parse hselection hjoined, hargs, reduceOption_map_some, htruth, huncovered,
          selects_iff_of_parse hquery hcondition, htexts, reduceOption_map_some]

/-- **The query that the provider gets.** It asks for the rows that the app's query asks for and no denied path covers, and
it has a condition with an argument for each placeholder if that has; the rest of the query is the app's. -/
theorem rewritten_query {runtime : InstallRuntime} {denyPaths : List (Option Bytes)} {uid : Int} {deny : DenyFilter}
    (huid : uid < 2 ^ 31) (hzero : ∀ path, some path ∈ denyPaths → 0 ∉ path)
    (hinstall : install runtime denyPaths uid = some deny) {fails : JniCall → Bool} {data rewritten : List framework.Cell}
    {query : Query framework} (hquery : readQuery data = some query) (hreadable : query.Readable)
    (h : rewriteQuery fails deny data = some rewritten) :
    ∃ sent, readQuery rewritten = some sent ∧ sent.Readable ∧
      (∀ row, sent.Selects row ↔ query.Selects row ∧
        ∀ path, some path ∈ denyPaths → ∀ value ∈ row (ascii "_data"), ¬ DeniedValue path value) ∧
      sent = { query with queryArgs := sent.queryArgs } ∧
      ∀ key, key ≠ kSelectionKey → key ≠ kSelectionArgsKey → sent.bundle key = query.bundle key := by
  obtain ⟨-, -, paths, rfl, hne, -, -, rfl⟩ := install_eq_some huid hzero hinstall
  obtain ⟨found, hfound, rfl⟩ := rewriteQuery_eq_some h
  obtain rfl := Option.some.inj (hquery.symm.trans hfound.read)
  obtain ⟨hfiltered, hselects⟩ := filtered_selects hne hreadable
  refine ⟨_, readQuery_writeQuery _, hfiltered, fun row => ?_, rfl, fun key hkey hkey' => ?_⟩
  · rw [hselects, Uncovered]
    refine and_congr_right fun _ => ?_
    simp only [List.mem_map, Option.some.injEq, exists_eq_right]
    exact ⟨fun h path hpath value hvalue => h value hvalue path hpath,
      fun h value hvalue path hpath => h path hpath value hvalue⟩
  · exact (Bundle.put_of_ne _ _ hkey').trans (Bundle.put_of_ne _ _ hkey)

/-- A query that loses the rows of a denied directory, in any case of its name. -/
theorem rewritten_query_title :
    ∃ rewritten sent, rewriteQuery (fun _ => false) (filterOf [downloadPath]) (writeQuery titleQuery) = some rewritten ∧
      readQuery rewritten = some sent ∧ sent.Readable ∧
      ¬ sent.Selects fun _ => some (ascii "/storage/emulated/0/DOWNLOAD/A_B/c.jpg") := by
  have hzero : 0 ∉ downloadPath := by decide
  have hinstall : install ⟨true, true, true⟩ ([downloadPath].map some) 10123 = some (filterOf [downloadPath]) := by
    refine install_filterOf (by decide) (by decide) (by decide) (by decide) (fun path hpath => ?_) fun path hpath => ?_
    · obtain rfl := List.mem_singleton.mp hpath
      exact ⟨by decide, by decide, by decide, by decide⟩
    · obtain rfl := List.mem_singleton.mp hpath
      exact hzero
  have hreadable : titleQuery.Readable :=
    ⟨.unequal (.column (ascii "title")) (.argument 0), [ascii "a"], by decide, rfl, by decide⟩
  have hrewritten := rewriteQuery_of_works (fun _ => rfl) titleQuery_rewritable
  obtain ⟨sent, hsent, hagain, hselects, -⟩ := rewritten_query (by decide)
    (fun path hpath => by
      rw [List.map_singleton, List.mem_singleton, Option.some.injEq] at hpath
      exact hpath ▸ hzero)
    hinstall (readQuery_writeQuery titleQuery) hreadable hrewritten
  refine ⟨_, sent, hrewritten, hsent, hagain, fun h => ?_⟩
  exact ((hselects _).mp h).2 downloadPath (List.mem_singleton_self _) _ rfl (by decide)

end Rows

end PathGuard.Zygisk.MediaQuery
