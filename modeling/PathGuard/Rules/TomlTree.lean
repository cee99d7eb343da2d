import PathGuard.Rules.CompiledPolicy
import PathGuard.Rules.Stability

/-!
# Places in a TOML tree

A node is at the path the decoder writes for it, and with different keys in every table at one path only. What is
assumed of the parser is said here: the keys of a table are different, and an inline table whose region is the text of
one holds the fields of that text.

* `At`, `At.unique` : paths of nodes;
* `DistinctKeys`, `FaithfulToml` : what is assumed of the parser;
* `inlineText_injective` : the text of an inline table tells its fields.
-/

namespace PathGuard.Rules

/-! ## Paths -/

/-- The keys of a table are different. -/
def DistinctKeys (entries : List (TomlKey × TomlNode)) : Prop := (entries.map fun entry => entry.1.str).Nodup

instance (entries : List (TomlKey × TomlNode)) : Decidable (DistinctKeys entries) :=
  inferInstanceAs (Decidable (entries.map fun entry => entry.1.str).Nodup)

theorem DistinctKeys.eq {entries : List (TomlKey × TomlNode)} (h : DistinctKeys entries) {first second : TomlKey × TomlNode}
    (hfirst : first ∈ entries) (hsecond : second ∈ entries) (hkey : first.1.str = second.1.str) : first = second :=
  List.inj_on_of_nodup_map h hfirst hsecond hkey

theorem DistinctKeys.tomlGet {entries : List (TomlKey × TomlNode)} (h : DistinctKeys entries) {key : TomlKey}
    {node : TomlNode} (hmem : (key, node) ∈ entries) : Rules.tomlGet entries key.str = some node := by
  unfold Rules.tomlGet
  cases hfind : entries.find? fun entry => entry.1.str == key.str with
  | none => exact absurd (List.find?_eq_none.mp hfind _ hmem) (by simp)
  | some found =>
      have hkey := List.find?_some hfind
      rw [h.eq (List.mem_of_find?_eq_some hfind) hmem (eq_of_beq hkey), Option.map_some]

theorem mem_of_tomlGet {entries : List (TomlKey × TomlNode)} {key : Bytes} {node : TomlNode}
    (h : tomlGet entries key = some node) : ∃ found : TomlKey, found.str = key ∧ (found, node) ∈ entries := by
  unfold tomlGet at h
  obtain ⟨entry, hfind, rfl⟩ := Option.map_eq_some_iff.mp h
  have hkey := List.find?_some hfind
  exact ⟨entry.1, eq_of_beq hkey, List.mem_of_find?_eq_some hfind⟩

namespace TomlNode

/-- The node at a path below another. -/
inductive At : TomlNode → List Bytes → TomlNode → Prop
  | here (node : TomlNode) : At node [] node
  | entry {source : SourceRegion} {isInline : Bool} {entries : List (TomlKey × TomlNode)} {key : TomlKey}
      {child node : TomlNode} {name : Bytes} {path : List Bytes} :
      (key, child) ∈ entries → key.str = name → At child path node → At (.table source isInline entries) (name :: path) node
  | item {source : SourceRegion} {items : List TomlNode} {index : Nat} {child node : TomlNode} {name : Bytes}
      {path : List Bytes} :
      items[index]? = some child → decimalBytes index = name → At child path node →
        At (.array source items) (name :: path) node

/-- A property of every table from a node on. -/
def Tables (P : SourceRegion → Bool → List (TomlKey × TomlNode) → Prop) (node : TomlNode) : Prop :=
  ∀ path source isInline entries, At node path (.table source isInline entries) → P source isInline entries

section Tables
variable {P : SourceRegion → Bool → List (TomlKey × TomlNode) → Prop} {source : SourceRegion}

theorem tables_string {value : Bytes} : Tables P (.string source value) := by
  intro path region isInline entries hat
  cases hat

theorem tables_integer {value : Int} : Tables P (.integer source value) := by
  intro path region isInline entries hat
  cases hat

theorem tables_boolean {value : Bool} : Tables P (.boolean source value) := by
  intro path region isInline entries hat
  cases hat

theorem tables_array {items : List TomlNode} (h : ∀ item ∈ items, Tables P item) : Tables P (.array source items) := by
  intro path region isInline entries hat
  cases hat with
  | item hitem _ hat => exact h _ (List.mem_of_getElem? hitem) _ _ _ _ hat

theorem tables_table {isInline : Bool} {entries : List (TomlKey × TomlNode)} (hself : P source isInline entries)
    (h : ∀ entry ∈ entries, Tables P entry.2) : Tables P (.table source isInline entries) := by
  intro path region inner fields hat
  cases hat with
  | here => exact hself
  | entry hmem _ hat => exact h _ hmem _ _ _ _ hat

end Tables

/-- The keys of every table from a node on are different. -/
def Distinct (node : TomlNode) : Prop := node.Tables fun _ _ entries => DistinctKeys entries

theorem Distinct.entry {source : SourceRegion} {isInline : Bool} {entries : List (TomlKey × TomlNode)}
    (h : Distinct (.table source isInline entries)) {key : TomlKey} {child : TomlNode} (hmem : (key, child) ∈ entries) :
    Distinct child :=
  fun _ _ _ _ hat => h _ _ _ _ (.entry hmem rfl hat)

theorem Distinct.item {source : SourceRegion} {items : List TomlNode} (h : Distinct (.array source items)) {index : Nat}
    {child : TomlNode} (hitem : items[index]? = some child) : Distinct child :=
  fun _ _ _ _ hat => h _ _ _ _ (.item hitem rfl hat)

theorem At.unique {node first second : TomlNode} {path : List Bytes} (h : Distinct node) (hfirst : At node path first)
    (hsecond : At node path second) : first = second := by
  induction hfirst with
  | here =>
      cases hsecond
      rfl
  | @entry source isInline entries key child node name path hmem hname hat ih =>
      cases hsecond with
      | @entry _ _ _ other found _ _ _ hother hsame hbelow =>
          have hkeys : DistinctKeys entries := h [] _ _ _ (.here _)
          have hpair : (key, child) = (other, found) := hkeys.eq hmem hother (hname.trans hsame.symm)
          obtain ⟨-, rfl⟩ := Prod.mk.inj hpair
          exact ih (h.entry hmem) hbelow
  | @item source items index child node name path hitem hname hat ih =>
      cases hsecond with
      | @item _ _ other found _ _ _ hother hsame hbelow =>
          obtain rfl := decimalBytes_injective (hname.trans hsame.symm)
          obtain rfl : child = found := Option.some.inj (hitem.symm.trans hother)
          exact ih (h.item hitem) hbelow

end TomlNode

/-- The node at a path of a tree. -/
def InTree (root : List (TomlKey × TomlNode)) (path : List Bytes) (node : TomlNode) : Prop :=
  ∃ key child rest, (key, child) ∈ root ∧ path = key.str :: rest ∧ child.At rest node

/-- The keys of every table of a tree are different. -/
structure DistinctTree (root : List (TomlKey × TomlNode)) : Prop where
  keys : DistinctKeys root
  below : ∀ (key : TomlKey) (child : TomlNode), (key, child) ∈ root → child.Distinct

theorem InTree.unique {root : List (TomlKey × TomlNode)} (h : DistinctTree root) {path : List Bytes}
    {first second : TomlNode} (hfirst : InTree root path first) (hsecond : InTree root path second) : first = second := by
  obtain ⟨key, child, rest, hmem, rfl, hat⟩ := hfirst
  obtain ⟨other, found, more, hother, hpath, hbelow⟩ := hsecond
  obtain ⟨hname, rfl⟩ := List.cons.inj hpath
  obtain ⟨-, rfl⟩ := Prod.mk.inj (h.keys.eq hmem hother hname)
  exact hat.unique (h.below _ _ hmem) hbelow

/-! ### The inline tables of a tree -/

section Collect
variable {text : Bytes}

mutual

theorem mem_collectInlineNodes : ∀ (node : TomlNode) (path : List Bytes) (found : InlineNode),
    found ∈ collectInlineNodes text node path →
      ∃ rest source entries, node.At rest (.table source true entries) ∧ found.path = path ++ rest ∧
        found.generated = regionSpan text source
  | .table source isInline entries, path, found, hmem => by
      rw [collectInlineNodes, List.mem_append] at hmem
      obtain hmem | hmem := hmem
      · cases isInline with
        | false => cases hmem
        | true =>
            obtain rfl := List.mem_singleton.mp hmem
            exact ⟨[], source, entries, .here _, (List.append_nil _).symm, rfl⟩
      · obtain ⟨key, child, rest, region, fields, hentry, hat, hpath, hspan⟩ := mem_collectEntries entries path found hmem
        exact ⟨_, region, fields, .entry hentry rfl hat, hpath, hspan⟩
  | .array source items, path, found, hmem => by
      rw [collectInlineNodes] at hmem
      obtain ⟨index, child, rest, region, fields, hitem, hat, hpath, hspan⟩ := mem_collectItems items 0 path found hmem
      rw [Nat.zero_add] at hpath
      exact ⟨_, region, fields, .item hitem rfl hat, hpath, hspan⟩
  | .string .., _, _, hmem => by cases hmem
  | .integer .., _, _, hmem => by cases hmem
  | .floatingPoint .., _, _, hmem => by cases hmem
  | .boolean .., _, _, hmem => by cases hmem
  | .other _, _, _, hmem => by cases hmem

theorem mem_collectEntries : ∀ (entries : List (TomlKey × TomlNode)) (path : List Bytes) (found : InlineNode),
    found ∈ collectEntries text entries path →
      ∃ key child rest source fields, (key, child) ∈ entries ∧ child.At rest (.table source true fields) ∧
        found.path = path ++ key.str :: rest ∧ found.generated = regionSpan text source
  | [], _, _, hmem => by cases hmem
  | (key, node) :: entries, path, found, hmem => by
      rw [collectEntries, List.mem_append] at hmem
      obtain hmem | hmem := hmem
      · obtain ⟨rest, source, fields, hat, hpath, hspan⟩ := mem_collectInlineNodes node _ found hmem
        rw [List.append_assoc] at hpath
        exact ⟨key, node, rest, source, fields, List.mem_cons_self, hat, hpath, hspan⟩
      · obtain ⟨other, child, rest, source, fields, hentry, hfound⟩ := mem_collectEntries entries path found hmem
        exact ⟨other, child, rest, source, fields, List.mem_cons_of_mem _ hentry, hfound⟩

theorem mem_collectItems : ∀ (items : List TomlNode) (index : Nat) (path : List Bytes) (found : InlineNode),
    found ∈ collectItems text items index path →
      ∃ offset child rest source fields, items[offset]? = some child ∧ child.At rest (.table source true fields) ∧
        found.path = path ++ decimalBytes (index + offset) :: rest ∧ found.generated = regionSpan text source
  | [], _, _, _, hmem => by cases hmem
  | node :: items, index, path, found, hmem => by
      rw [collectItems, List.mem_append] at hmem
      obtain hmem | hmem := hmem
      · obtain ⟨rest, source, fields, hat, hpath, hspan⟩ := mem_collectInlineNodes node _ found hmem
        rw [List.append_assoc] at hpath
        exact ⟨0, node, rest, source, fields, rfl, hat, hpath, hspan⟩
      · obtain ⟨offset, child, rest, source, fields, hitem, hat, hpath, hspan⟩ :=
          mem_collectItems items (index + 1) path found hmem
        refine ⟨offset + 1, child, rest, source, fields, hitem, hat, ?_, hspan⟩
        rw [hpath]
        congr 3
        omega

end

theorem inTree_of_mem_collect {root : List (TomlKey × TomlNode)} {found : InlineNode}
    (h : found ∈ collectEntries text root []) :
    ∃ source entries, InTree root found.path (.table source true entries) ∧ found.generated = regionSpan text source := by
  obtain ⟨key, child, rest, source, entries, hmem, hat, hpath, hspan⟩ := mem_collectEntries root [] found h
  exact ⟨source, entries, ⟨key, child, rest, hmem, hpath, hat⟩, hspan⟩

end Collect

/-! ## What is assumed of the parser -/

def isBareByte (value : UInt8) : Bool := isAlnum value || value == 0x5f || value == dash

def IsBareKey (key : Bytes) : Prop := key ≠ [] ∧ ∀ value ∈ key, isBareByte value = true

def fieldText (field : Bytes × Bytes) : Bytes := field.1 ++ ascii " = " ++ field.2

/-- The fields of an inline table after the first, and its end. -/
def moreFields : List (Bytes × Bytes) → Bytes
  | [] => ascii " \x7d"
  | field :: fields => ascii ", " ++ fieldText field ++ moreFields fields

/-- The text of an inline table. -/
def inlineText : List (Bytes × Bytes) → Bytes
  | [] => ascii "\x7b\x7d"
  | field :: fields => ascii "\x7b " ++ fieldText field ++ moreFields fields

/-- Bare keys, with strings on one line. -/
def StringFields (fields : List (Bytes × Bytes)) : Prop :=
  ∀ field ∈ fields, IsBareKey field.1 ∧ IsStringToken field.2

/-- What is assumed of `toml::parse`, with what it makes of a string: the keys of a table are different, and the region of
an inline table is exactly its text, whose fields it holds. -/
structure FaithfulToml (toml : TomlParser) (decode : Bytes → Bytes) : Prop where
  distinct : ∀ {text file root}, toml text file = .ok root → DistinctTree root
  inline : ∀ {text file root path source entries fields}, toml text file = .ok root →
    InTree root path (.table source true entries) → sliceSpan text (regionSpan text source) = inlineText fields →
    StringFields fields → (fields.map Prod.fst).Nodup →
      entries.length = fields.length ∧
        ∀ field ∈ fields, ∃ region, tomlGet entries field.1 = some (.string region (decode field.2))

theorem tableOf_eq (bytes : Bytes) (rewrite : ArrowRewrite) :
    tableOf bytes rewrite = inlineText [(ascii "from", sliceSpan bytes rewrite.source),
      (ascii "to", sliceSpan bytes rewrite.target)] := by
  have hfront : kPrefix = ascii "\x7b " ++ (ascii "from" ++ ascii " = ") := by decide
  have hmiddle : kMiddle = ascii ", " ++ (ascii "to" ++ ascii " = ") := by decide
  have hback : kSuffix = ascii " \x7d" := by decide
  simp only [tableOf, inlineText, moreFields, fieldText, hfront, hmiddle, hback, List.append_assoc]

/-! ### The text of a table determines its fields -/

theorem IsStringToken.unique {token other rest rest' : Bytes} {value value' : UInt8} (htoken : IsStringToken token)
    (hother : IsStringToken other) (hrest : rest.head? = some value) (hrest' : rest'.head? = some value')
    (hvalue : isQuote value = false) (hvalue' : isQuote value' = false) (h : token ++ rest = other ++ rest') :
    token = other ∧ rest = rest' := by
  have hscan := htoken.scan hrest hvalue
  rw [h, hother.scan hrest' hvalue'] at hscan
  exact List.append_inj h (StringToken.mk.inj hscan).1.symm

theorem IsBareKey.unique {key other rest rest' : Bytes} (hkey : IsBareKey key) (hother : IsBareKey other)
    (h : key ++ 0x20 :: rest = other ++ 0x20 :: rest') : key = other ∧ rest = rest' := by
  have htake : ∀ {name : Bytes} (more : Bytes), IsBareKey name →
      (name ++ 0x20 :: more).takeWhile (· != (0x20 : UInt8)) = name := by
    intro name more hname
    have hall : ∀ value ∈ name, (value != (0x20 : UInt8)) = true := by
      intro value hmem
      rw [bne_iff_ne]
      rintro rfl
      exact absurd (hname.2 _ hmem) (by decide)
    rw [List.takeWhile_append_of_pos hall, List.takeWhile_cons_of_neg (by decide), List.append_nil]
  have hsame := htake rest hkey
  rw [h, htake rest' hother] at hsame
  subst hsame
  exact ⟨rfl, (List.cons.inj (List.append_cancel_left h)).2⟩

theorem fieldText_unique {field other : Bytes × Bytes} {rest rest' : Bytes} {value value' : UInt8}
    (hfield : IsBareKey field.1 ∧ IsStringToken field.2) (hother : IsBareKey other.1 ∧ IsStringToken other.2)
    (hrest : rest.head? = some value) (hrest' : rest'.head? = some value') (hvalue : isQuote value = false)
    (hvalue' : isQuote value' = false) (h : fieldText field ++ rest = fieldText other ++ rest') :
    field = other ∧ rest = rest' := by
  simp only [fieldText, List.append_assoc] at h
  obtain ⟨hkey, htail⟩ := hfield.1.unique hother.1 h
  have hvalues : field.2 ++ rest = other.2 ++ rest' := @List.append_cancel_left _ (ascii "= ") _ _ htail
  obtain ⟨htoken, hend⟩ := hfield.2.unique hother.2 hrest hrest' hvalue hvalue' hvalues
  exact ⟨Prod.ext hkey htoken, hend⟩

theorem head_moreFields (fields : List (Bytes × Bytes)) :
    ∃ value, (moreFields fields).head? = some value ∧ isQuote value = false := by
  cases fields with
  | nil => exact ⟨0x20, rfl, by decide⟩
  | cons field fields => exact ⟨commaSign, rfl, by decide⟩

theorem firstField_unique {field other : Bytes × Bytes} {fields others : List (Bytes × Bytes)}
    (hfield : IsBareKey field.1 ∧ IsStringToken field.2) (hother : IsBareKey other.1 ∧ IsStringToken other.2)
    (h : fieldText field ++ moreFields fields = fieldText other ++ moreFields others) :
    field = other ∧ moreFields fields = moreFields others := by
  obtain ⟨value, hhead, hvalue⟩ := head_moreFields fields
  obtain ⟨value', hhead', hvalue'⟩ := head_moreFields others
  exact fieldText_unique hfield hother hhead hhead' hvalue hvalue' h

theorem moreFields_unique {fields others : List (Bytes × Bytes)} (hfields : StringFields fields)
    (hothers : StringFields others) (h : moreFields fields = moreFields others) : fields = others := by
  induction fields generalizing others with
  | nil =>
      cases others with
      | nil => rfl
      | cons other others => exact absurd (congrArg List.head? h) (by simp [moreFields, ascii])
  | cons field fields ih =>
      cases others with
      | nil => exact absurd (congrArg List.head? h) (by simp [moreFields, ascii])
      | cons other others =>
          simp only [moreFields, List.append_assoc] at h
          obtain ⟨rfl, hmore⟩ := firstField_unique (hfields field List.mem_cons_self) (hothers other List.mem_cons_self)
            (List.append_cancel_left h)
          rw [ih (fun found hmem => hfields found (List.mem_cons_of_mem _ hmem))
            (fun found hmem => hothers found (List.mem_cons_of_mem _ hmem)) hmore]

/-- **The fields of an inline table** can be told from its text. -/
theorem inlineText_injective {fields others : List (Bytes × Bytes)} (hfields : StringFields fields)
    (hothers : StringFields others) (h : inlineText fields = inlineText others) : fields = others := by
  cases fields with
  | nil =>
      cases others with
      | nil => rfl
      | cons other others => exact absurd (congrArg (fun text : Bytes => text[1]?) h) (by simp [inlineText, ascii])
  | cons field fields =>
      cases others with
      | nil => exact absurd (congrArg (fun text : Bytes => text[1]?) h) (by simp [inlineText, ascii])
      | cons other others =>
          simp only [inlineText, List.append_assoc] at h
          obtain ⟨rfl, hmore⟩ := firstField_unique (hfields field List.mem_cons_self) (hothers other List.mem_cons_self)
            (List.append_cancel_left h)
          rw [moreFields_unique (fun found hmem => hfields found (List.mem_cons_of_mem _ hmem))
            (fun found hmem => hothers found (List.mem_cons_of_mem _ hmem)) hmore]

end PathGuard.Rules
