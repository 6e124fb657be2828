/-
  BimEditor.Proofs.Graph.Profile

  What the graph of identifiers says, read off the entries directly. The graph is built in two
  passes that change one table; `profile` says for one identifier what the entries and references
  seen so far amount to, without any table. A step of either pass keeps the table and the profiles
  in accord (`register_table`, `link_table`), and so do whole passes (`foldl_register`,
  `foldl_link`).

    * the first entry of an identifier says where it is defined;
    * the last one that inherits from anything says what it inherits from;
    * the last reference to it gives it its name and its parent.

  A parent therefore knows its child by the child's own name (`childName_of_lastReference`).
-/
import BimEditor.Graph.Basic
import BimEditor.Proofs.Json.KeyedLists
import BimEditor.Proofs.Json.Projection
import Mathlib.Data.List.Induction

namespace BimEditor

open BimEditor.Json BimEditor.Text

/-! ## Tables -/

namespace Json.Keyed

variable {α : Type} {names : List String} {value : String → α}

/-- Each of the names with its value. -/
def table (names : List String) (value : String → α) : Keyed α :=
  names.map fun name => (name, value name)

@[simp]
theorem names_table (names : List String) (value : String → α) :
    Keyed.names (table names value) = names := by
  simp [table, Keyed.names, Function.comp_def]

theorem has_table {name : String} : (table names value).has name = true ↔ name ∈ names := by
  rw [has_iff_mem_names, names_table]

theorem get?_table (name : String) :
    (table names value).get? name = if name ∈ names then some (value name) else none := by
  induction names with
  | nil => rfl
  | cons first rest ih =>
    by_cases h : first = name
    · simp [table, get?, h]
    · have hmem : name ∈ first :: rest ↔ name ∈ rest := by simp [Ne.symm h]
      simpa [table, get?, h, hmem] using ih

theorem table_congr {value' : String → α} (h : ∀ name ∈ names, value name = value' name) :
    table names value = table names value' :=
  List.map_congr_left fun name hname => by rw [h name hname]

theorem table_concat (name : String) :
    table (names ++ [name]) value = table names value ++ [(name, value name)] := by
  simp [table]

/-- Changing one entry of a table is changing the value of its name. -/
theorem adjust_table (hdistinct : names.Nodup) (name : String) (change : α → α) :
    (table names value).adjust name change
      = table names fun other => if other = name then change (value other) else value other := by
  rw [adjust_eq_map (by rwa [names_table]), table, table, List.map_map]
  refine List.map_congr_left fun other _ => ?_
  by_cases h : other = name <;> simp [h]

end Json.Keyed

theorem Node.isIdentified_iff {node : Node} :
    node.isIdentified = true ↔ node.identifier ≠ "" := by
  simp [isIdentified]

namespace IdentifierGraph

/-! ## Profiles -/

/-- The node inherits from something, even if that is no identifier. -/
def inheritsAny (node : Node) : Bool :=
  node.inherits.any fun i => !i.isEmpty

/-- The last reference that calls `x` a child. -/
def lastReference? (refs : List ChildReference) (x : String) : Option ChildReference :=
  refs.reverse.find? fun ref => ref.child == x

/-- The references that `x` makes. -/
def referencesBy (refs : List ChildReference) (x : String) : List ChildReference :=
  refs.filter fun ref => ref.parent == x

/-- All that entries and references say about the identifier `x`. -/
def profile (entries : List (Node × Option Span)) (refs : List ChildReference) (x : String) :
    GraphNode where
  identifier := x
  name := (lastReference? refs x).map (·.name)
  parent := (lastReference? refs x).map (·.parent)
  inherits :=
    ((entries.reverse.find? fun entry => entry.1.identifier == x && inheritsAny entry.1).map
      fun entry => entry.1.inheritTargets).getD []
  children := (referencesBy refs x).map (·.child)
  -- a child that is called a child again keeps its place and gets the later name
  childNames := Keyed.collect ((referencesBy refs x).map fun ref => (ref.child, ref.name))
  span := (entries.find? fun entry => entry.1.identifier == x).bind (·.2)

/-- The identifiers of entries, each once, in the order in which they come first. -/
def firstIdentifiers (entries : List (Node × Option Span)) : List String :=
  (entries.map fun entry => entry.1.identifier).eraseDups

variable {entries : List (Node × Option Span)} {refs : List ChildReference} {x : String}

theorem nodup_firstIdentifiers (entries : List (Node × Option Span)) :
    (firstIdentifiers entries).Nodup :=
  nodup_eraseDups _

theorem mem_firstIdentifiers :
    x ∈ firstIdentifiers entries ↔ ∃ entry ∈ entries, entry.1.identifier = x := by
  rw [firstIdentifiers, List.mem_eraseDups, List.mem_map]

theorem firstIdentifiers_concat (entries : List (Node × Option Span)) (node : Node)
    (span : Option Span) :
    firstIdentifiers (entries ++ [(node, span)])
      = if node.identifier ∈ firstIdentifiers entries then firstIdentifiers entries
        else firstIdentifiers entries ++ [node.identifier] := by
  simp only [firstIdentifiers, List.map_append, List.map_cons, List.map_nil, eraseDups_concat,
    List.mem_eraseDups]

/-- An identifier that no entry has is found nowhere among them. -/
theorem find?_eq_none (hnew : x ∉ firstIdentifiers entries) :
    (entries.find? fun entry => entry.1.identifier == x) = none := by
  rw [List.find?_eq_none]
  intro entry hentry hx
  exact hnew (mem_firstIdentifiers.2 ⟨entry, hentry, beq_iff_eq.1 hx⟩)

theorem profile_of_not_mem (hnew : x ∉ firstIdentifiers entries) :
    profile entries [] x = { identifier := x } := by
  have hinherits : (entries.reverse.find? fun entry =>
      entry.1.identifier == x && inheritsAny entry.1) = none := by
    rw [List.find?_eq_none]
    intro entry hentry hx
    rw [Bool.and_eq_true, beq_iff_eq] at hx
    exact hnew (mem_firstIdentifiers.2 ⟨entry, List.mem_reverse.1 hentry, hx.1⟩)
  simp only [profile, find?_eq_none hnew, hinherits]
  rfl

/-! ## The first pass -/

/-- Another entry of an identifier leaves the place of its definition, and another entry of any
    kind leaves what it says of the others. -/
theorem profile_concat (node : Node) (span : Option Span) :
    profile (entries ++ [(node, span)]) [] x
      = if x = node.identifier then
          { profile entries [] x with
            span :=
              if x ∈ firstIdentifiers entries then (profile entries [] x).span else span
            inherits :=
              if inheritsAny node then node.inheritTargets else (profile entries [] x).inherits }
        else profile entries [] x := by
  by_cases hx : x = node.identifier
  · subst hx
    rw [if_pos rfl]
    have hspan : (profile (entries ++ [(node, span)]) [] node.identifier).span
        = if node.identifier ∈ firstIdentifiers entries then
            (profile entries [] node.identifier).span
          else span := by
      simp only [profile, List.find?_append]
      split
      · next hknown =>
        obtain ⟨entry, hentry, hid⟩ := mem_firstIdentifiers.1 hknown
        have hfound : (entries.find? fun e => e.1.identifier == node.identifier).isSome :=
          List.find?_isSome.2 ⟨entry, hentry, beq_iff_eq.2 hid⟩
        rw [Option.or_of_isSome hfound]
      · next hnew => simp [find?_eq_none hnew]
    have hinherits : (profile (entries ++ [(node, span)]) [] node.identifier).inherits
        = if inheritsAny node then node.inheritTargets
          else (profile entries [] node.identifier).inherits := by
      cases hany : inheritsAny node <;> simp [profile, hany]
    rw [← hspan, ← hinherits]
    rfl
  · have hne : ¬ node.identifier = x := fun h => hx h.symm
    simp [profile, hx, hne]

/-- Taking in one entry keeps the table and the profiles in accord. -/
theorem register_table (node : Node) (span : Option Span) :
    register (Keyed.table (firstIdentifiers entries) (profile entries [])) node span
      = Keyed.table (firstIdentifiers (entries ++ [(node, span)]))
          (profile (entries ++ [(node, span)]) []) := by
  have hknown : (if Keyed.has node.identifier
        (Keyed.table (firstIdentifiers entries) (profile entries [])) then
          Keyed.table (firstIdentifiers entries) (profile entries [])
        else Keyed.table (firstIdentifiers entries) (profile entries [])
          ++ [(node.identifier, { identifier := node.identifier, span := span })])
      = Keyed.table (firstIdentifiers (entries ++ [(node, span)])) fun x =>
          if x = node.identifier then
            { profile entries [] x with
              span := if x ∈ firstIdentifiers entries then (profile entries [] x).span else span }
          else profile entries [] x := by
    rw [firstIdentifiers_concat]
    by_cases hmem : node.identifier ∈ firstIdentifiers entries
    · rw [if_pos (Keyed.has_table.2 hmem), if_pos hmem]
      refine Keyed.table_congr fun x hx => ?_
      rw [if_pos hx, ite_self]
    · rw [if_neg (mt Keyed.has_table.1 hmem), if_neg hmem, Keyed.table_concat, if_pos rfl,
        if_neg hmem, profile_of_not_mem hmem]
      refine congrArg (· ++ _) (Keyed.table_congr fun x hx => ?_)
      rw [if_pos hx, ite_self]
  unfold register
  dsimp only
  rw [hknown]
  cases hany : node.inherits.any fun i => !i.isEmpty with
  | false =>
    refine Keyed.table_congr fun x _ => ?_
    rw [profile_concat, inheritsAny, hany]
    rfl
  | true =>
    rw [if_pos rfl, Keyed.adjust_table (nodup_firstIdentifiers _)]
    refine Keyed.table_congr fun x _ => ?_
    rw [profile_concat, inheritsAny, hany]
    by_cases hx : x = node.identifier <;> simp [hx]

/-- The first pass leaves the profiles of all entries. -/
theorem foldl_register (entries : List (Node × Option Span)) :
    entries.foldl (fun nodes (node, span) => register nodes node span) []
      = Keyed.table (firstIdentifiers entries) (profile entries []) := by
  induction entries using List.reverseRecOn with
  | nil => rfl
  | append_singleton entries entry ih =>
    rw [List.foldl_append, ih]
    exact register_table entry.1 entry.2

/-! ## The second pass -/

theorem lastReference?_concat (ref : ChildReference) :
    lastReference? (refs ++ [ref]) x
      = if x = ref.child then some ref else lastReference? refs x := by
  by_cases hx : x = ref.child
  · simp [lastReference?, hx]
  · simp [lastReference?, hx, Ne.symm hx]

theorem referencesBy_concat (ref : ChildReference) :
    referencesBy (refs ++ [ref]) x
      = if x = ref.parent then referencesBy refs x ++ [ref] else referencesBy refs x := by
  by_cases hx : x = ref.parent
  · simp [referencesBy, hx]
  · simp [referencesBy, hx, Ne.symm hx]

/-- Taking in one reference keeps the table and the profiles in accord. -/
theorem link_table {ids : List String} (hdistinct : ids.Nodup) (ref : ChildReference) :
    link (Keyed.table ids (profile entries refs)) ref
      = Keyed.table ids (profile entries (refs ++ [ref])) := by
  rw [link, Keyed.adjust_table hdistinct, Keyed.adjust_table hdistinct]
  refine Keyed.table_congr fun x _ => ?_
  simp only [profile, lastReference?_concat, referencesBy_concat]
  -- parent and child may be the same node
  by_cases hparent : x = ref.parent
  · by_cases hchild : x = ref.child
    · simp only [if_pos hparent, if_pos hchild, List.map_append, List.map_cons, List.map_nil,
        Keyed.collect_concat, Option.map_some]
    · simp only [if_pos hparent, if_neg hchild, List.map_append, List.map_cons, List.map_nil,
        Keyed.collect_concat]
  · by_cases hchild : x = ref.child
    · simp only [if_neg hparent, if_pos hchild, Option.map_some]
    · simp only [if_neg hparent, if_neg hchild]

/-- The second pass adds what the references say. -/
theorem foldl_link {ids : List String} (hdistinct : ids.Nodup) (refs : List ChildReference) :
    refs.foldl link (Keyed.table ids (profile entries []))
      = Keyed.table ids (profile entries refs) := by
  induction refs using List.reverseRecOn with
  | nil => rfl
  | append_singleton refs ref ih =>
    rw [List.foldl_append, ih]
    exact link_table hdistinct ref

/-! ## Entries without an identifier -/

/-- An entry without an identifier says nothing about an identifier. -/
theorem profile_filter (entries : List (Node × Option Span)) (hx : x ≠ "") :
    profile (entries.filter fun entry => entry.1.isIdentified) refs x = profile entries refs x := by
  have hidentified : ∀ entry : Node × Option Span,
      entry.1.identifier = x → entry.1.isIdentified = true := by
    rintro entry rfl
    exact Node.isIdentified_iff.2 hx
  have hfirst : (entries.filter fun entry => entry.1.isIdentified).find?
        (fun entry => entry.1.identifier == x)
      = entries.find? fun entry => entry.1.identifier == x := by
    rw [List.find?_filter]
    congr 1
    funext entry
    rw [Bool.eq_iff_iff, decide_eq_true_iff, beq_iff_eq]
    exact and_iff_right_of_imp (hidentified entry)
  have hlast : (entries.filter fun entry => entry.1.isIdentified).reverse.find?
        (fun entry => entry.1.identifier == x && inheritsAny entry.1)
      = entries.reverse.find? fun entry => entry.1.identifier == x && inheritsAny entry.1 := by
    rw [← List.filter_reverse, List.find?_filter]
    congr 1
    funext entry
    rw [Bool.eq_iff_iff, decide_eq_true_iff, Bool.and_eq_true, beq_iff_eq]
    exact and_iff_right_of_imp fun h => hidentified entry h.1
  simp only [profile, hfirst, hlast]

/-- The identifiers that are not empty, each once, in the order in which they come first. -/
def identifiersOf (entries : List (Node × Option Span)) : List String :=
  ((entries.map fun entry => entry.1.identifier).filter fun x => !x.isEmpty).eraseDups

theorem firstIdentifiers_filter (entries : List (Node × Option Span)) :
    firstIdentifiers (entries.filter fun entry => entry.1.isIdentified)
      = identifiersOf entries := by
  rw [firstIdentifiers, identifiersOf, List.filter_map]
  rfl

theorem mem_identifiersOf :
    x ∈ identifiersOf entries
      ↔ ∃ entry ∈ entries, entry.1.isIdentified = true ∧ entry.1.identifier = x := by
  simp only [← firstIdentifiers_filter, mem_firstIdentifiers, List.mem_filter, and_assoc]

theorem ne_empty_of_mem (h : x ∈ identifiersOf entries) : x ≠ "" := by
  obtain ⟨entry, -, hid, rfl⟩ := mem_identifiersOf.1 h
  exact Node.isIdentified_iff.1 hid

/-! ## The whole graph -/

/-- The graph has the profile of each identifier. -/
theorem nodes_ofEntries (entries : List (Node × Option Span)) :
    (ofEntries entries).nodes
      = Keyed.table (identifiersOf entries)
          (profile entries (references (entries.map (·.1)))) := by
  have hpasses : (ofEntries entries).nodes
      = Keyed.table (identifiersOf entries)
          (profile (entries.filter fun entry => entry.1.isIdentified)
            (references (entries.map (·.1)))) := by
    rw [ofEntries, foldl_register, foldl_link (nodup_firstIdentifiers _), firstIdentifiers_filter]
  rw [hpasses]
  exact Keyed.table_congr fun x hx => profile_filter entries (ne_empty_of_mem hx)

theorem get?_ofEntries_eq_some_iff {info : GraphNode} :
    (ofEntries entries).get? x = some info
      ↔ x ∈ identifiersOf entries
        ∧ info = profile entries (references (entries.map (·.1))) x := by
  rw [get?, nodes_ofEntries, Keyed.get?_table, Option.ite_none_right_eq_some, Option.some.injEq]
  exact and_congr_right fun _ => eq_comm

theorem has_ofEntries : (ofEntries entries).has x = true ↔ x ∈ identifiersOf entries := by
  rw [has, nodes_ofEntries, Keyed.has_table]

/-- An identifier is defined where its first entry says. -/
theorem definition?_ofEntries (hx : x ∈ identifiersOf entries) :
    ∃ entry ∈ entries, entry.1.identifier = x
      ∧ (ofEntries entries).definition? x = entry.2 := by
  obtain ⟨known, hknown, -, hid⟩ := mem_identifiersOf.1 hx
  have hsome : (entries.find? fun entry => entry.1.identifier == x).isSome = true :=
    List.find?_isSome.2 ⟨known, hknown, beq_iff_eq.2 hid⟩
  obtain ⟨first, hfirst⟩ := Option.isSome_iff_exists.1 hsome
  refine ⟨first, List.mem_of_find?_eq_some hfirst, by simpa using List.find?_some hfirst, ?_⟩
  rw [definition?, get?_ofEntries_eq_some_iff.2 ⟨hx, rfl⟩, Option.bind_some, profile, hfirst,
    Option.bind_some]

/-! ## Parents and children -/

/-- Only a node with an identifier makes references. -/
theorem parent_mem_identifiersOf {ref : ChildReference}
    (h : ref ∈ references (entries.map (·.1))) : ref.parent ∈ identifiersOf entries := by
  obtain ⟨node, hnode, href⟩ := List.mem_flatMap.1 h
  obtain ⟨⟨name, child⟩, -, rfl⟩ := List.mem_map.1 href
  obtain ⟨hmem, hid⟩ := List.mem_filter.1 hnode
  obtain ⟨entry, hentry, rfl⟩ := List.mem_map.1 hmem
  exact mem_identifiersOf.2 ⟨entry, hentry, hid, rfl⟩

/-- A child has the name that the last reference to it gives. -/
theorem get?_childNames (child : String) :
    Keyed.get? child (profile entries refs x).childNames
      = (refs.reverse.find? fun ref => ref.parent == x && ref.child == child).map (·.name) := by
  simp only [profile, referencesBy, Keyed.get?_collect, ← List.map_reverse, ← List.filter_reverse,
    List.find?_map, List.find?_filter, Option.map_map]
  refine congrArg (Option.map _) (congrArg (List.find? · _) ?_)
  funext ref
  rw [Bool.eq_iff_iff, decide_eq_true_iff, Bool.and_eq_true, Function.comp_apply]

/-- The last reference of all to a child is also the last one that its parent makes. -/
theorem childName_of_lastReference {ref : ChildReference} (h : lastReference? refs x = some ref) :
    x ∈ (profile entries refs ref.parent).children
      ∧ Keyed.get? x (profile entries refs ref.parent).childNames = some ref.name := by
  obtain ⟨hchild, later, earlier, hsplit, hlater⟩ := List.find?_eq_some_iff_append.1 h
  have hx : ref.child = x := beq_iff_eq.1 hchild
  refine ⟨?_, ?_⟩
  · have hmem : ref ∈ refs.reverse := List.mem_of_find?_eq_some h
    have hby : ref ∈ referencesBy refs ref.parent :=
      List.mem_filter.2 ⟨List.mem_reverse.1 hmem, beq_self_eq_true _⟩
    exact hx ▸ List.mem_map_of_mem hby
  · rw [get?_childNames, Option.map_eq_some_iff]
    refine ⟨ref, List.find?_eq_some_iff_append.2 ⟨?_, later, earlier, hsplit, ?_⟩, rfl⟩
    · simp [hx]
    · intro other hother
      have hne := hlater other hother
      simp_all

/-- The graph of entries has a node for each identifier that is not empty, in the order in which
    they come first, and each node is the profile of its identifier. A child has the name that the
    last reference of the node to it gives; and a node that has a parent is among the children of
    that parent, under its own name. -/
theorem ofEntries_eq_profiles (entries : List (Node × Option Span)) :
    (ofEntries entries).nodes
        = Keyed.table
            ((entries.map fun entry => entry.1.identifier).filter fun x => !x.isEmpty).eraseDups
            (profile entries (references (entries.map (·.1))))
      ∧ (∀ x info child, (ofEntries entries).get? x = some info →
          Keyed.get? child info.childNames
            = ((references (entries.map (·.1))).reverse.find? fun ref =>
                ref.parent == x && ref.child == child).map (·.name))
      ∧ ∀ x info parent, (ofEntries entries).get? x = some info → info.parent = some parent →
          ∃ above, (ofEntries entries).get? parent = some above ∧ x ∈ above.children
            ∧ info.name.isSome = true ∧ Keyed.get? x above.childNames = info.name := by
  refine ⟨nodes_ofEntries entries, ?_, ?_⟩
  · intro x info child hget
    obtain ⟨-, rfl⟩ := get?_ofEntries_eq_some_iff.1 hget
    exact get?_childNames child
  · intro x info parent hget hparent
    obtain ⟨-, rfl⟩ := get?_ofEntries_eq_some_iff.1 hget
    obtain ⟨ref, href, rfl⟩ := Option.map_eq_some_iff.1 hparent
    have hmem : ref ∈ references (entries.map (·.1)) :=
      List.mem_reverse.1 (List.mem_of_find?_eq_some href)
    have hname : (profile entries (references (entries.map (·.1))) x).name = some ref.name := by
      rw [profile, href, Option.map_some]
    obtain ⟨hchild, hchildName⟩ := childName_of_lastReference href
    refine ⟨_, get?_ofEntries_eq_some_iff.2 ⟨parent_mem_identifiersOf hmem, rfl⟩, hchild, ?_, ?_⟩
    · rw [hname, Option.isSome_some]
    · rw [hname, hchildName]

/-- A node that refers to another one twice, in two entries, and to itself. -/
def readopted : List (Node × Option Span) :=
  [(⟨"a", some [("first", .string "b"), ("own", .string "a")], none, none⟩, none),
    (⟨"b", none, none, none⟩, some ⟨3, 4⟩), (⟨"", some [("lost", .string "b")], none, none⟩, none),
    (⟨"a", some [("second", .string "b")], none, none⟩, none)]

/-- The later of its two names counts, for the parent as for the child. -/
theorem ofEntries_eq_profiles_readopted :
    ∃ above, (ofEntries readopted).get? "a" = some above ∧ "b" ∈ above.children
      ∧ Keyed.get? "b" above.childNames = some "second" := by
  have hget : (ofEntries readopted).get? "b" = some
      { identifier := "b", name := some "second", parent := some "a", span := some ⟨3, 4⟩ } := by
    decide +kernel
  obtain ⟨above, habove, hchild, -, hname⟩ :=
    (ofEntries_eq_profiles readopted).2.2 "b" _ "a" hget rfl
  exact ⟨above, habove, hchild, hname⟩

end IdentifierGraph

end BimEditor
