/-
  BimEditor.Proofs.Schema.RoundTrip

  Type descriptions that are written and read back. A description is written by its tag, so that one
  with the tag of a known type comes back as that type without restrictions; every other description
  comes back as it was (`ofValue?_toValue`).
-/
import BimEditor.Proofs.Json.RecordFields
import BimEditor.Proofs.Json.Writing
import BimEditor.Schema.Wire

namespace BimEditor

open BimEditor.Json

namespace TypeDescription

/-! ## Tags of known types -/

/-- The tags of the types that are known. -/
def knownTags : List String :=
  ["String", "Boolean", "Integer", "Real", "DateTime", "Enum", "Array", "Object", "Relation"]

/-- The type is known by its tag only, although the tag is that of a known type. -/
def IsMistagged : TypeDescription → Prop
  | .unrecognized _ tag => tag ∈ knownTags
  | _ => False

mutual
/-- The description with every tag of a known type resolved, at any depth. -/
def resolved : TypeDescription → TypeDescription
  | .array notes min max element => .array notes min max (resolved element)
  | .object notes members => .object notes (resolvedMembers members)
  | .unrecognized notes tag => ofTag notes tag
  | t => t

/-- The members with every tag resolved. -/
def resolvedMembers : List (String × TypeDescription) → List (String × TypeDescription)
  | [] => []
  | (name, t) :: ms => (name, resolved t) :: resolvedMembers ms
end

mutual
/-- The description itself and all descriptions inside of it. -/
def parts : TypeDescription → List TypeDescription
  | .array notes min max element => .array notes min max element :: parts element
  | .object notes members => .object notes members :: memberParts members
  | t => [t]

/-- All descriptions inside of the members. -/
def memberParts : List (String × TypeDescription) → List TypeDescription
  | [] => []
  | (_, t) :: ms => parts t ++ memberParts ms
end

theorem ofTag_of_not_mem {notes : Annotations} {tag : String} (h : tag ∉ knownTags) :
    ofTag notes tag = .unrecognized notes tag := by
  unfold ofTag
  split <;> first | rfl | exact absurd (by decide) h

mutual
/-- A description without such tags is resolved already. -/
theorem resolved_eq_self :
    (t : TypeDescription) → (∀ s ∈ t.parts, ¬ s.IsMistagged) → t.resolved = t
  | .primitive _ _, _ => rfl
  | .enumeration _ _, _ => rfl
  | .bareArray _, _ => rfl
  | .array _ _ _ element, h => by
    rw [resolved, resolved_eq_self element fun s hs => h s (List.mem_cons_of_mem _ hs)]
  | .bareObject _, _ => rfl
  | .object _ members, h => by
    rw [resolved, resolvedMembers_eq_self members fun s hs => h s (List.mem_cons_of_mem _ hs)]
  | .relation _ _, _ => rfl
  | .unrecognized _ _, h => ofTag_of_not_mem (h _ List.mem_cons_self)

theorem resolvedMembers_eq_self : (ms : List (String × TypeDescription)) →
    (∀ s ∈ memberParts ms, ¬ s.IsMistagged) → resolvedMembers ms = ms
  | [], _ => rfl
  | (name, t) :: ms, h => by
    rw [resolvedMembers, resolved_eq_self t fun s hs => h s (List.mem_append_left _ hs),
      resolvedMembers_eq_self ms fun s hs => h s (List.mem_append_right _ hs)]
end

/-- A type without restrictions is written by its tag and its remarks alone. -/
theorem toValue_ofTag (notes : Annotations) (tag : String) :
    (ofTag notes tag).toValue = (unrecognized notes tag).toValue := by
  unfold ofTag
  split <;> rfl

mutual
/-- Resolving tags does not change what is written. -/
theorem toValue_resolved : (t : TypeDescription) → t.resolved.toValue = t.toValue
  | .primitive _ _ => rfl
  | .enumeration _ _ => rfl
  | .bareArray _ => rfl
  | .array notes min max element => by
    rw [resolved, toValue, toValue, toValue_resolved element]
    rfl
  | .bareObject _ => rfl
  | .object notes members => by
    rw [resolved, toValue, toValue, memberValues_resolved members]
    rfl
  | .relation _ _ => rfl
  | .unrecognized notes tag => toValue_ofTag notes tag

theorem memberValues_resolved : (ms : List (String × TypeDescription)) →
    memberValues (resolvedMembers ms) = memberValues ms
  | [] => rfl
  | (name, t) :: ms => by
    rw [resolvedMembers, memberValues, memberValues, toValue_resolved t, memberValues_resolved ms]
end

/-! ## Reading what was written -/

/-- Read the restrictions on an array. -/
def readArrayBlock {v : Value} (w : Value) (_ : sizeOf w < sizeOf v) :
    Option (Option Number × Option Number × Option TypeDescription) := do
  let field ← w.record? ["min", "max", "value"]
  let min ← optional (field "min") readNumber
  let max ← optional (field "max") readNumber
  let element ← optional (field "value") fun u _ => ofValue? u
  return (min, max, element)

/-- Read the restrictions on an object. -/
def readObjectBlock {v : Value} (w : Value) (_ : sizeOf w < sizeOf v) :
    Option (List (String × TypeDescription)) := do
  let field ← w.record? ["values"]
  defaulted (field "values") [] fun u _ => do
    let members ← u.memberParts?
    members.mapM fun (name, ⟨t, _⟩) => return (name, ← ofValue? t)

/-- The remarks on schemas that a type extends, as they are written. -/
def inheritsValue? (notes : Annotations) : Option Value :=
  if notes.inherits.isEmpty then none else some (stringArray notes.inherits)

theorem lookup_headMembers (t : TypeDescription) (name : String) :
    (headMembers t).lookup name =
      if name == "dataType" then some (.string t.tag)
      else if name == "quantityKind" then t.notes.quantityKind.map .string
      else if name == "inherits" then inheritsValue? t.notes
      else none := by
  rw [headMembers, List.cons_append, List.lookup_cons, List.lookup_append, lookup_optionalMember,
    lookup_optionalMember]
  cases htag : name == "dataType" with
  | true => rfl
  | false =>
    cases hkind : name == "quantityKind" with
    | true =>
      obtain rfl := beq_iff_eq.1 hkind
      simp
    | false => rfl

/-- What is read from the head of a description and from the blocks behind it. -/
theorem ofValue?_headMembers (t : TypeDescription) {tail : List (String × Value)}
    {r : Restrictions}
    (hhead : tail.lookup "dataType" = none ∧ tail.lookup "quantityKind" = none
      ∧ tail.lookup "inherits" = none)
    (hoptions : ∀ v : Value, @Gives _ v (tail.lookup "enumRestrictions")
      (fun field => optional field readOptions) r.options)
    (harray : ∀ v : Value, @Gives _ v (tail.lookup "arrayRestrictions")
      (fun field => optional field readArrayBlock) r.array)
    (hmembers : ∀ v : Value, @Gives _ v (tail.lookup "objectRestrictions")
      (fun field => optional field readObjectBlock) r.members)
    (htarget : ∀ v : Value, @Gives _ v (tail.lookup "relationRestrictions")
      (fun field => optional field readTarget) r.target) :
    ofValue? (.object (headMembers t ++ tail)) = some (ofRestrictions t.notes t.tag r) := by
  obtain ⟨field, hrecord, hfield⟩ := record?_object fieldNames (headMembers t ++ tail)
  -- a field of the head is not repeated behind it, and the head has none of the others
  have hlookup : ∀ name, (field name).map Subtype.val
      = ((headMembers t).lookup name).or (tail.lookup name) := by
    intro name
    rw [hfield, List.lookup_append]
  simp only [lookup_headMembers] at hlookup
  have htag : defaulted (field "dataType") "" readString = some t.tag := by
    refine @defaulted_present _ _ readString (.string t.tag) _ _ (fun _ => rfl) _ ?_
    rw [hlookup]
    rfl
  have hkind : optional (field "quantityKind") readString = some t.notes.quantityKind := by
    refine @optional_written _ _ readString _ Value.string (fun _ => rfl) (fun _ _ => rfl) _ ?_
    rw [hlookup, hhead.2.1, Option.or_none]
    rfl
  have hinherits : ∃ names, optional (field "inherits") readStrings = some names
      ∧ names.getD [] = t.notes.inherits := by
    have hheld : (field "inherits").map Subtype.val = inheritsValue? t.notes := by
      rw [hlookup, hhead.2.2, Option.or_none]
      rfl
    -- an empty list is not written, and a missing one is read as empty
    unfold inheritsValue? at hheld
    split at hheld
    · next hempty =>
      exact ⟨none, optional_absent _ hheld, (List.isEmpty_iff.1 hempty).symm⟩
    · exact ⟨some t.notes.inherits, optional_present rfl (readStrings_stringArray _) _ hheld, rfl⟩
  obtain ⟨names, hinherits, hnames⟩ := hinherits
  have hoptions := hoptions _ (field "enumRestrictions") (hlookup _)
  have harray := harray _ (field "arrayRestrictions") (hlookup _)
  have hmembers := hmembers _ (field "objectRestrictions") (hlookup _)
  have htarget := htarget _ (field "relationRestrictions") (hlookup _)
  unfold readArrayBlock at harray
  unfold readObjectBlock at hmembers
  simp only [Option.bind_eq_bind] at harray hmembers
  rw [ofValue?]
  simp only [Option.bind_eq_bind, Option.bind_some, hrecord, htag, hkind, hinherits, hnames,
    hoptions, harray, hmembers, htarget]
  rfl

theorem ofRestrictions_none (notes : Annotations) (tag : String) :
    ofRestrictions notes tag ⟨none, none, none, none⟩ = ofTag notes tag := by
  unfold ofRestrictions
  split <;> rfl

/-- A description of which only the head was written has no restrictions. -/
theorem ofValue?_bare (t : TypeDescription) :
    ofValue? (.object (headMembers t)) = some (ofTag t.notes t.tag) := by
  have h := @ofValue?_headMembers t [] ⟨none, none, none, none⟩ ⟨rfl, rfl, rfl⟩
    (fun _ => optional_absent) (fun _ => optional_absent) (fun _ => optional_absent)
    (fun _ => optional_absent)
  rwa [List.append_nil, ofRestrictions_none] at h

theorem readOptions_written {v : Value} (options : List String)
    (h : sizeOf (Value.object [("options", stringArray options)]) < sizeOf v) :
    readOptions (.object [("options", stringArray options)]) h = some options := by
  obtain ⟨field, hrecord, hfield⟩ := record?_object ["options"] [("options", stringArray options)]
  rw [readOptions, hrecord]
  exact defaulted_present (readStrings_stringArray options) _ (hfield "options")

theorem readTarget_written {v : Value} (target : String)
    (h : sizeOf (Value.object [("type", .string target)]) < sizeOf v) :
    readTarget (.object [("type", .string target)]) h = some target := by
  obtain ⟨field, hrecord, hfield⟩ := record?_object ["type"] [("type", .string target)]
  rw [readTarget, hrecord]
  exact defaulted_present (fun _ => rfl) _ (hfield "type")

/-- A bound is written as an integer. -/
def boundNumber (n : UInt64) : Number :=
  .integer (WideInt.ofUInt64 n)

@[simp]
theorem bound?_boundNumber (n : UInt64) : bound? (boundNumber n) = some n := by
  have hnonneg : (0 : Int) ≤ (WideInt.ofUInt64 n).val := Int.natCast_nonneg _
  rw [boundNumber, bound?, WideInt.toUInt64?, if_pos hnonneg]
  exact congrArg some (UInt64.ofNat_toNat)

/-- A block of restrictions on an array, with any numbers for its bounds and with elements of the
    type that `u` describes. -/
def numberedBlock (min max : Option Number) (u : Value) : Value :=
  .object (optionalMember "min" (min.map Value.number)
    ++ optionalMember "max" (max.map Value.number) ++ [("value", u)])

theorem isNull_of_ofValue? {u : Value} {t : TypeDescription} (h : ofValue? u = some t) :
    u.isNull = false := by
  unfold Value.isNull
  split
  · rw [ofValue?] at h
    cases h
  · rfl

/-- Every number is taken for a bound. -/
theorem readArrayBlock_numbered {v u : Value} {element : TypeDescription}
    (min max : Option Number) (helement : ofValue? u = some element)
    (h : sizeOf (numberedBlock min max u) < sizeOf v) :
    readArrayBlock (numberedBlock min max u) h = some (min, max, some element) := by
  obtain ⟨field, hrecord, hfield⟩ := record?_object ["min", "max", "value"]
    (optionalMember "min" (min.map Value.number) ++ optionalMember "max" (max.map Value.number)
      ++ [("value", u)])
  have hmin : optional (field "min") readNumber = some min := by
    refine @optional_written _ _ readNumber _ Value.number (fun _ => rfl) (fun _ _ => rfl) _ ?_
    rw [hfield]
    simp [List.lookup_append, List.lookup_cons]
  have hmax : optional (field "max") readNumber = some max := by
    refine @optional_written _ _ readNumber _ Value.number (fun _ => rfl) (fun _ _ => rfl) _ ?_
    rw [hfield]
    simp [List.lookup_append, List.lookup_cons]
  have hvalue : optional (field "value") (fun u _ => ofValue? u) = some (some element) := by
    refine optional_present (isNull_of_ofValue? helement) (fun _ => helement) _ ?_
    rw [hfield]
    simp [List.lookup_append]
  rw [readArrayBlock, numberedBlock]
  simp only [Option.bind_eq_bind, Option.bind_some, hrecord, hmin, hmax, hvalue]
  rfl

/-- The block of restrictions on an array, as it is written. -/
def arrayBlock (min max : Option UInt64) (element : TypeDescription) : Value :=
  .object (optionalMember "min" (min.map boundValue) ++ optionalMember "max" (max.map boundValue)
    ++ [("value", toValue element)])

theorem arrayBlock_eq (min max : Option UInt64) (element : TypeDescription) :
    arrayBlock min max element
      = numberedBlock (min.map boundNumber) (max.map boundNumber) element.toValue := by
  cases min <;> cases max <;> rfl

theorem readArrayBlock_written {v : Value} {element resolved : TypeDescription}
    (min max : Option UInt64) (helement : ofValue? element.toValue = some resolved)
    (h : sizeOf (arrayBlock min max element) < sizeOf v) :
    readArrayBlock (arrayBlock min max element) h
      = some (min.map boundNumber, max.map boundNumber, some resolved) := by
  simp only [arrayBlock_eq] at h ⊢
  exact readArrayBlock_numbered _ _ helement h

theorem readObjectBlock_written {v : Value} {members resolved : List (String × TypeDescription)}
    (hmembers : ∀ {u : Value} (parts : List (String × Part u)),
      plainParts parts = memberValues members →
      parts.mapM (fun part => do return (part.1, ← ofValue? part.2.1)) = some resolved)
    (h : sizeOf (Value.object [("values", .object (memberValues members))]) < sizeOf v) :
    readObjectBlock (.object [("values", .object (memberValues members))]) h = some resolved := by
  obtain ⟨field, hrecord, hfield⟩ := record?_object ["values"]
    [("values", .object (memberValues members))]
  obtain ⟨parts, hparts, hplain⟩ := memberParts?_object (memberValues members)
  rw [readObjectBlock, hrecord]
  refine defaulted_present ?_ _ (hfield "values")
  intro _
  rw [hparts]
  exact hmembers parts hplain

mutual
/-- A description that was written is read back with its tags resolved. -/
theorem ofValue?_toValue : (t : TypeDescription) → ofValue? t.toValue = some t.resolved
  | .primitive notes type => by
    have h := ofValue?_bare (.primitive notes type)
    cases type <;> exact h
  | .enumeration notes none => ofValue?_bare _
  | .enumeration notes (some options) =>
    @ofValue?_headMembers (.enumeration notes (some options))
      [("enumRestrictions", .object [("options", stringArray options)])]
      ⟨some options, none, none, none⟩ ⟨rfl, rfl, rfl⟩
      (fun _ => optional_present rfl (readOptions_written options)) (fun _ => optional_absent)
      (fun _ => optional_absent) (fun _ => optional_absent)
  | .bareArray notes => ofValue?_bare _
  | .array notes min max element => by
    have helement := ofValue?_toValue element
    have h := @ofValue?_headMembers (.array notes min max element)
      [("arrayRestrictions", arrayBlock min max element)]
      ⟨none, some (min.map boundNumber, max.map boundNumber, some element.resolved), none, none⟩
      ⟨rfl, rfl, rfl⟩ (fun _ => optional_absent)
      (fun _ => optional_present rfl (readArrayBlock_written min max helement))
      (fun _ => optional_absent) (fun _ => optional_absent)
    rw [toValue, resolved]
    refine h.trans ?_
    -- bounds are read as numbers first
    have hbound : ∀ bound : Option UInt64, (bound.map boundNumber).bind bound? = bound := by
      intro bound
      cases bound <;> simp
    simp only [tag, ofRestrictions, hbound]
    rfl
  | .bareObject notes => ofValue?_bare _
  | .object notes members =>
    @ofValue?_headMembers (.object notes members)
      [("objectRestrictions", .object [("values", .object (memberValues members))])]
      ⟨none, none, some (resolvedMembers members), none⟩ ⟨rfl, rfl, rfl⟩
      (fun _ => optional_absent) (fun _ => optional_absent)
      (fun _ => optional_present rfl (readObjectBlock_written (mapM_memberValues members)))
      (fun _ => optional_absent)
  | .relation notes none => ofValue?_bare _
  | .relation notes (some target) =>
    @ofValue?_headMembers (.relation notes (some target))
      [("relationRestrictions", .object [("type", .string target)])]
      ⟨none, none, none, some target⟩ ⟨rfl, rfl, rfl⟩ (fun _ => optional_absent)
      (fun _ => optional_absent) (fun _ => optional_absent)
      (fun _ => optional_present rfl (readTarget_written target))
  | .unrecognized notes tag => ofValue?_bare _

theorem mapM_memberValues : (ms : List (String × TypeDescription)) → ∀ {u : Value}
    (parts : List (String × Part u)), plainParts parts = memberValues ms →
    parts.mapM (fun part => do return (part.1, ← ofValue? part.2.1)) = some (resolvedMembers ms)
  | [], _, parts, h => by
    obtain rfl := List.map_eq_nil_iff.1 h
    rfl
  | (name, t) :: ms, _, parts, h => by
    obtain ⟨part, rest, rfl, hpart, hrest⟩ := List.map_eq_cons_iff.1 h
    obtain ⟨rfl, hvalue⟩ := Prod.mk.inj hpart
    rw [List.mapM_cons, mapM_memberValues ms rest hrest, hvalue, ofValue?_toValue t]
    rfl
end

/-! ## Distinct names -/

/-- No object type inside of the description has two members of one name. -/
def Distinct (t : TypeDescription) : Prop :=
  ∀ s ∈ t.parts, ∀ notes members, s = .object notes members → (Keyed.names members).Nodup

theorem names_headMembers_sublist (t : TypeDescription) :
    (Keyed.names (headMembers t)).Sublist ["dataType", "quantityKind", "inherits"] := by
  have htwo := (Value.names_optionalMember_sublist "quantityKind"
    (t.notes.quantityKind.map Value.string)).append
    (Value.names_optionalMember_sublist "inherits" (inheritsValue? t.notes))
  rw [Keyed.names, Keyed.names, ← List.map_append] at htwo
  exact htwo.cons_cons "dataType"

/-- The head of a description with one block behind it. -/
theorem distinct_headMembers (t : TypeDescription) {tail : List (String × Value)}
    (hnames : (["dataType", "quantityKind", "inherits"] ++ Keyed.names tail).Nodup)
    (htail : ∀ m ∈ tail, m.2.Distinct) : (Value.object (headMembers t ++ tail)).Distinct := by
  refine ⟨?_, Value.membersDistinct_iff.2 ?_⟩
  · have hsublist := (names_headMembers_sublist t).append (List.Sublist.refl (Keyed.names tail))
    rw [Keyed.names, List.map_append]
    exact hnames.sublist hsublist
  · intro m hm
    rcases List.mem_append.1 hm with hm | hm
    · rcases List.mem_cons.1 hm with rfl | hm
      · exact trivial
      rcases List.mem_append.1 hm with hm | hm
      · refine Value.distinct_of_mem_optionalMember ?_ hm
        intro w hw
        obtain ⟨s, -, rfl⟩ := Option.map_eq_some_iff.1 hw
        exact trivial
      · refine Value.distinct_of_mem_optionalMember ?_ hm
        intro w hw
        split at hw
        · cases hw
        · obtain rfl := Option.some.inj hw
          exact Value.distinct_stringArray _
    · exact htail m hm

theorem names_memberValues (ms : List (String × TypeDescription)) :
    Keyed.names (memberValues ms) = Keyed.names ms := by
  induction ms with
  | nil => rfl
  | cons m ms ih =>
    rw [memberValues, Keyed.names, List.map_cons, Keyed.names, List.map_cons]
    exact congrArg (m.1 :: ·) ih

theorem distinct_bare (t : TypeDescription) : (Value.object (headMembers t)).Distinct := by
  have h := @distinct_headMembers t [] (by decide) (by simp)
  rwa [List.append_nil] at h

/-- One block of restrictions behind the head. -/
theorem distinct_block (t : TypeDescription) {name : String} {w : Value}
    (hname : name ∉ ["dataType", "quantityKind", "inherits"]) (hw : w.Distinct) :
    (Value.object (headMembers t ++ [(name, w)])).Distinct := by
  refine distinct_headMembers t ?_ ?_
  · refine List.nodup_append.2 ⟨by decide, List.nodup_singleton name, ?_⟩
    intro a ha b hb heq
    obtain rfl := List.mem_singleton.1 hb
    exact hname (heq ▸ ha)
  · intro m hm
    obtain rfl := List.mem_singleton.1 hm
    exact hw

mutual
theorem distinct_toValue : (t : TypeDescription) → t.Distinct → t.toValue.Distinct
  | .primitive _ _, _ => distinct_bare _
  | .enumeration _ none, _ => distinct_bare _
  | .enumeration _ (some options), _ =>
    distinct_block _ (by decide) (Value.distinct_singleton (Value.distinct_stringArray options))
  | .bareArray _, _ => distinct_bare _
  | .array _ min max element, h => by
    have helement := distinct_toValue element fun s hs => h s (List.mem_cons_of_mem _ hs)
    -- a bound may be missing, which leaves fewer names
    refine distinct_block _ (by decide) ⟨?_, Value.membersDistinct_iff.2 ?_⟩
    · have hsublist := ((Value.names_optionalMember_sublist "min" (min.map boundValue)).append
        (Value.names_optionalMember_sublist "max" (max.map boundValue))).append
        (List.Sublist.refl ["value"])
      rw [Keyed.names, List.map_append, List.map_append]
      exact List.Nodup.sublist hsublist (by decide)
    · have hbound : ∀ bound : Option UInt64, ∀ w ∈ bound.map boundValue, w.Distinct := by
        intro bound w hw
        obtain ⟨n, -, rfl⟩ := Option.map_eq_some_iff.1 hw
        exact trivial
      intro m hm
      rcases List.mem_append.1 hm with hm | hm
      · rcases List.mem_append.1 hm with hm | hm
        · exact Value.distinct_of_mem_optionalMember (hbound min) hm
        · exact Value.distinct_of_mem_optionalMember (hbound max) hm
      · obtain rfl := List.mem_singleton.1 hm
        exact helement
  | .bareObject _, _ => distinct_bare _
  | .object notes members, h => by
    refine distinct_block _ (by decide) (Value.distinct_singleton ⟨?_, ?_⟩)
    · rw [names_memberValues]
      exact h _ List.mem_cons_self notes members rfl
    · exact membersDistinct_memberValues members fun s hs => h s (List.mem_cons_of_mem _ hs)
  | .relation _ none, _ => distinct_bare _
  | .relation _ (some target), _ => distinct_block _ (by decide) (Value.distinct_singleton trivial)
  | .unrecognized _ _, _ => distinct_bare _

theorem membersDistinct_memberValues : (ms : List (String × TypeDescription)) →
    (∀ s ∈ memberParts ms, ∀ notes members, s = .object notes members →
      (Keyed.names members).Nodup) → Value.MembersDistinct (memberValues ms)
  | [], _ => trivial
  | (_, t) :: ms, h =>
    ⟨distinct_toValue t fun s hs => h s (List.mem_append_left _ hs),
      membersDistinct_memberValues ms fun s hs => h s (List.mem_append_right _ hs)⟩
end

end TypeDescription

end BimEditor
