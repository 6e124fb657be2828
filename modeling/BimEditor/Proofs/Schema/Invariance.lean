/-
  BimEditor.Proofs.Schema.Invariance

  What the verdict on a value may depend on. The order of members does not count, neither in an
  object nor in the type of one, and the remarks on a type do not count; an object may have members
  that its type does not declare. Each of these is a change at one place, at any depth of a value
  (`Value.Changed`) or of a type (`TypeDescription.Restated`). One such change keeps the verdict, and
  so does any number of them (`accepts_invariant`).
-/
import BimEditor.Proofs.Json.KeyedLists
import BimEditor.Schema.Conformance
import Mathlib.Logic.Relation

namespace BimEditor

open BimEditor.Json Relation

/-! ## Changes inside of a value -/

namespace Json.Value

/-- A change at one place: of the value itself, or of one value somewhere inside of it. -/
inductive Changed (Change : Value → Value → Prop) : Value → Value → Prop where
  | here {v w : Value} : Change v w → Changed Change v w
  | item (before after : List Value) {v w : Value} : Changed Change v w →
      Changed Change (.array (before ++ v :: after)) (.array (before ++ w :: after))
  | member (before after : List (String × Value)) (name : String) {v w : Value} :
      Changed Change v w →
      Changed Change (.object (before ++ (name, v) :: after)) (.object (before ++ (name, w) :: after))

/-- The members of an object in another order; as in every object that is read, each of them has a
    name of its own. -/
inductive Reordering : Value → Value → Prop where
  | members {ms ns : List (String × Value)} : (Keyed.names ms).Nodup → ms.Perm ns →
      Reordering (.object ms) (.object ns)

/-- One more member of an object, by a name that no member had. -/
inductive Addition : Value → Value → Prop where
  | member (before after : List (String × Value)) (name : String) (v : Value) :
      name ∉ Keyed.names (before ++ after) →
      Addition (.object (before ++ after)) (.object (before ++ (name, v) :: after))

/-- The members of objects stand in another order, at any depth. -/
abbrev Rearranged : Value → Value → Prop := ReflTransGen (Changed Reordering)

/-- Objects have more members, at any depth. -/
abbrev Enlarged : Value → Value → Prop := ReflTransGen (Changed Addition)

theorem Reordering.symm {v w : Value} (h : Reordering v w) : Reordering w v := by
  obtain ⟨hdistinct, hperm⟩ := h
  exact .members ((hperm.map _).nodup_iff.mp hdistinct) hperm.symm

theorem Changed.symm {Change : Value → Value → Prop}
    (hchange : ∀ {v w : Value}, Change v w → Change w v) {v w : Value} (h : Changed Change v w) :
    Changed Change w v := by
  induction h with
  | here h => exact .here (hchange h)
  | item before after _ ih => exact .item before after ih
  | member before after name _ ih => exact .member before after name ih

theorem Rearranged.symm {v w : Value} (h : Rearranged v w) : Rearranged w v := by
  induction h with
  | refl => exact .refl
  | tail _ hstep ih => exact .head (hstep.symm Reordering.symm) ih

end Json.Value

/-! ## Verdicts on arrays and objects -/

namespace TypeDescription

variable {notes : Annotations} {v : Value}

theorem accepts_array_iff {min max : Option UInt64} {element : TypeDescription} :
    (array notes min max element).accepts v = true
      ↔ ∃ items, v = .array items ∧ withinBounds min max items.length = true
          ∧ ∀ item ∈ items, element.accepts item = true := by
  cases v <;> simp [accepts]

theorem acceptsMembers_iff {members : List (String × TypeDescription)} {present : Keyed Value} :
    acceptsMembers members present = true
      ↔ ∀ m ∈ members, ∃ v, present.get? m.1 = some v ∧ m.2.accepts v = true := by
  induction members with
  | nil => simp [acceptsMembers]
  | cons m members ih =>
    rw [acceptsMembers, Bool.and_eq_true, ih, List.forall_mem_cons]
    cases present.get? m.1 <;> simp

/-- All that is asked of an object is that each declared member is there and conforms. -/
theorem accepts_object_iff {members : List (String × TypeDescription)} :
    (object notes members).accepts v = true
      ↔ ∃ present, v = .object present
          ∧ ∀ m ∈ members, ∃ u, Keyed.get? m.1 present = some u ∧ m.2.accepts u = true := by
  cases v <;> simp [accepts, acceptsMembers_iff]

/-- Only an array type takes arrays. -/
theorem eq_array_of_accepts {type : TypeDescription} {items : List Value}
    (h : type.accepts (.array items) = true) :
    ∃ notes min max element, type = array notes min max element := by
  cases type with
  | array notes min max element => exact ⟨notes, min, max, element, rfl⟩
  | primitive _ type => cases type <;> cases h
  | enumeration _ options => cases options <;> cases h
  | _ => cases h

/-- Only an object type takes objects. -/
theorem eq_object_of_accepts {type : TypeDescription} {present : Keyed Value}
    (h : type.accepts (.object present) = true) : ∃ notes members, type = object notes members := by
  cases type with
  | object notes members => exact ⟨notes, members, rfl⟩
  | primitive _ type => cases type <;> cases h
  | enumeration _ options => cases options <;> cases h
  | _ => cases h

end TypeDescription

/-! ## The verdict after changes of a value -/

/-- Whatever type the one value conforms to, the other conforms to as well. -/
def Json.Value.ConformsAs (v w : Value) : Prop :=
  ∀ type : TypeDescription, type.accepts v = true → type.accepts w = true

namespace Json.Value

theorem ConformsAs.refl (v : Value) : ConformsAs v v :=
  fun _ haccepts => haccepts

theorem conformsAs_item (before after : List Value) {v w : Value} (h : ConformsAs v w) :
    ConformsAs (.array (before ++ v :: after)) (.array (before ++ w :: after)) := by
  intro type haccepts
  obtain ⟨notes, min, max, element, rfl⟩ := TypeDescription.eq_array_of_accepts haccepts
  obtain ⟨items, hitems, hbounds, hall⟩ := TypeDescription.accepts_array_iff.mp haccepts
  obtain rfl := Value.array.inj hitems
  rw [List.forall_mem_append, List.forall_mem_cons] at hall
  obtain ⟨hbefore, hitem, hafter⟩ := hall
  refine TypeDescription.accepts_array_iff.mpr ⟨_, rfl, ?_, ?_⟩
  · -- no item comes or goes, so that the bounds still hold
    rw [List.length_append, List.length_cons] at hbounds ⊢
    exact hbounds
  · rw [List.forall_mem_append, List.forall_mem_cons]
    exact ⟨hbefore, h element hitem, hafter⟩

/-- It is enough that what is found by a name in the one object conforms as what is found in the
    other does. The other may have more names. -/
theorem conformsAs_object {ms ns : Keyed Value}
    (h : ∀ name v, ms.get? name = some v → ∃ w, ns.get? name = some w ∧ ConformsAs v w) :
    ConformsAs (.object ms) (.object ns) := by
  intro type haccepts
  obtain ⟨notes, members, rfl⟩ := TypeDescription.eq_object_of_accepts haccepts
  obtain ⟨present, hpresent, hall⟩ := TypeDescription.accepts_object_iff.mp haccepts
  obtain rfl := Value.object.inj hpresent
  refine TypeDescription.accepts_object_iff.mpr ⟨ns, rfl, fun m hm => ?_⟩
  obtain ⟨v, hv, hconforms⟩ := hall m hm
  obtain ⟨w, hw, hvw⟩ := h m.1 v hv
  exact ⟨w, hw, hvw m.2 hconforms⟩

theorem conformsAs_member (before after : Keyed Value) (name : String) {v w : Value}
    (h : ConformsAs v w) :
    ConformsAs (.object (before ++ (name, v) :: after)) (.object (before ++ (name, w) :: after)) := by
  refine conformsAs_object fun other u hu => ?_
  rw [Keyed.get?_append, Keyed.get?_cons] at hu ⊢
  cases hbefore : before.get? other with
  | some found =>
    rw [hbefore] at hu
    exact ⟨u, hu, .refl u⟩
  | none =>
    rw [hbefore, Option.none_or] at hu
    rw [Option.none_or]
    by_cases hname : name = other
    · -- what was found is the member that changes
      rw [if_pos hname, Option.some_inj] at hu
      rw [if_pos hname]
      exact ⟨w, rfl, hu ▸ h⟩
    · rw [if_neg hname] at hu ⊢
      exact ⟨u, hu, .refl u⟩

/-- A change inside of a value is no worse than it is where it is made. -/
theorem Changed.conformsAs {Change : Value → Value → Prop}
    (hchange : ∀ {v w : Value}, Change v w → ConformsAs v w) {v w : Value}
    (h : Changed Change v w) : ConformsAs v w := by
  induction h with
  | here h => exact hchange h
  | item before after _ ih => exact conformsAs_item before after ih
  | member before after name _ ih => exact conformsAs_member before after name ih

theorem conformsAs_of_changes {Change : Value → Value → Prop}
    (hchange : ∀ {v w : Value}, Change v w → ConformsAs v w) {v w : Value}
    (h : ReflTransGen (Changed Change) v w) : ConformsAs v w := by
  induction h with
  | refl => exact .refl _
  | tail _ hstep ih => exact fun type haccepts => hstep.conformsAs hchange type (ih type haccepts)

theorem Reordering.conformsAs {v w : Value} (h : Reordering v w) : ConformsAs v w := by
  obtain ⟨hdistinct, hperm⟩ := h
  refine conformsAs_object fun name u hu => ⟨u, ?_, .refl u⟩
  rw [← Keyed.get?_of_perm hperm hdistinct name]
  exact hu

theorem Addition.conformsAs {v w : Value} (h : Addition v w) : ConformsAs v w := by
  obtain ⟨before, after, name, added, hnew⟩ := h
  refine conformsAs_object fun other u hu => ⟨u, ?_, .refl u⟩
  have hne : name ≠ other := by
    rintro rfl
    exact hnew (List.mem_map_of_mem (Keyed.mem_of_get? hu))
  rw [Keyed.get?_append, Keyed.get?_cons, if_neg hne, ← Keyed.get?_append]
  exact hu

/-- The order of members does not count. -/
theorem Rearranged.accepts_eq {v w : Value} (h : Rearranged v w) (type : TypeDescription) :
    type.accepts w = type.accepts v := by
  rw [Bool.eq_iff_iff]
  -- each of the two values is the other one rearranged
  constructor
  · exact conformsAs_of_changes Reordering.conformsAs h.symm type
  · exact conformsAs_of_changes Reordering.conformsAs h type

end Json.Value

/-! ## The verdict after changes of a type -/

namespace TypeDescription

/-- A change at one place of a type that no value can tell: other remarks, or the declared members in
    another order, on the type itself or on one type somewhere inside of it. -/
inductive Restated : TypeDescription → TypeDescription → Prop where
  | remarks (type : TypeDescription) (notes : Annotations) : Restated type (type.withNotes notes)
  | reordering (notes : Annotations) {ms ns : List (String × TypeDescription)} : ms.Perm ns →
      Restated (.object notes ms) (.object notes ns)
  | element (notes : Annotations) (min max : Option UInt64) {s t : TypeDescription} :
      Restated s t → Restated (.array notes min max s) (.array notes min max t)
  | member (notes : Annotations) (before after : List (String × TypeDescription)) (name : String)
      {s t : TypeDescription} : Restated s t →
      Restated (.object notes (before ++ (name, s) :: after))
        (.object notes (before ++ (name, t) :: after))

theorem accepts_withNotes (type : TypeDescription) (notes : Annotations) (v : Value) :
    (type.withNotes notes).accepts v = type.accepts v := by
  cases type with
  | enumeration _ options =>
    cases options <;> rcases v with (_ | _ | _ | _) | _ | _ <;> simp only [withNotes, accepts]
  | relation _ target => rcases v with (_ | _ | _ | _) | _ | _ <;> simp only [withNotes, accepts]
  | _ => cases v <;> simp only [withNotes, accepts]

theorem Restated.accepts_iff {s t : TypeDescription} (h : Restated s t) (v : Value) :
    t.accepts v = true ↔ s.accepts v = true := by
  induction h generalizing v with
  | remarks type notes => rw [accepts_withNotes]
  | reordering notes hperm => simp only [accepts_object_iff, hperm.mem_iff]
  | element notes min max _ ih => simp only [accepts_array_iff, ih]
  | member notes before after name _ ih =>
    simp only [accepts_object_iff, List.forall_mem_append, List.forall_mem_cons, ih]

theorem accepts_eq_of_restated {s t : TypeDescription} (h : ReflTransGen Restated s t) (v : Value) :
    t.accepts v = s.accepts v := by
  induction h with
  | refl => rfl
  | tail _ hstep ih => rw [Bool.eq_iff_iff.mpr (hstep.accepts_iff v), ih]

/-- The verdict does not depend on remarks, nor on the order of declared members or of members that
    are there; it does not turn bad when an object gets more members; and the verdict on an attribute
    takes nothing else from the table of schemas than the type that it has for the attribute. -/
theorem accepts_invariant {s t : TypeDescription} (htype : ReflTransGen Restated s t) :
    (∀ v w : Value, v.Rearranged w → t.accepts w = s.accepts v)
      ∧ (∀ v w : Value, v.Enlarged w → s.accepts v = true → t.accepts w = true)
      ∧ ∀ (schemas schemas' : SchemaTable) (name name' : String) (v w : Value),
          schemas.get? name = some s → schemas'.get? name' = some t → v.Rearranged w →
          schemas'.accepts? name' w = schemas.accepts? name v := by
  have hsame : ∀ v w : Value, v.Rearranged w → t.accepts w = s.accepts v := by
    intro v w h
    rw [h.accepts_eq t, accepts_eq_of_restated htype v]
  refine ⟨hsame, ?_, ?_⟩
  · intro v w h haccepts
    rw [accepts_eq_of_restated htype w]
    exact Value.conformsAs_of_changes Value.Addition.conformsAs h s haccepts
  · intro schemas schemas' name name' v w hs ht h
    rw [SchemaTable.accepts?, SchemaTable.accepts?, hs, ht, Option.map_some, Option.map_some,
      hsame v w h]

/-- Up to four walls, each with these members. -/
def walls (members : List (String × TypeDescription)) : TypeDescription :=
  .array {} none (some 4) (.object {} members)

/-- An outline of at least one point, with remarks on the points. -/
def outline (notes : Annotations) : TypeDescription :=
  .array {} (some 1) none (.object notes [("x", .primitive {} .real), ("y", .primitive {} .real)])

/-- Walls with a name and an outline. -/
def namedWalls : TypeDescription :=
  walls [("name", .primitive {} .string), ("outline", outline {})]

/-- The same, with a remark on the points of the outline, which is declared first. -/
def outlinedWalls : TypeDescription :=
  walls [("outline", outline { inherits := ["point"] }), ("name", .primitive {} .string)]

/-- One wall, with an outline of this one point. -/
def northWall (point : List (String × Value)) : Value :=
  .array [.object [("name", .string "north"), ("outline", .array [.object point])]]

/-- The members of a point, in an array of an object of an array, are exchanged, or one is added. A
    point with a text for a number is refused before and after. -/
theorem accepts_invariant_walls :
    namedWalls.accepts (northWall [("x", .nat 1), ("y", .nat 2)]) = true
      ∧ outlinedWalls.accepts (northWall [("y", .nat 2), ("x", .nat 1)]) = true
      ∧ outlinedWalls.accepts (northWall [("x", .nat 1), ("z", .null), ("y", .nat 2)]) = true
      ∧ SchemaTable.accepts? [("outlined", outlinedWalls)] "outlined"
          (northWall [("y", .nat 2), ("x", .nat 1)]) = some true
      ∧ namedWalls.accepts (northWall [("x", .nat 1), ("y", .string "2")]) = false
      ∧ outlinedWalls.accepts (northWall [("y", .string "2"), ("x", .nat 1)]) = false
      ∧ SchemaTable.accepts? [("outlined", outlinedWalls)] "outlined"
          (northWall [("y", .string "2"), ("x", .nat 1)]) = some false := by
  have htype : ReflTransGen Restated namedWalls outlinedWalls := by
    -- first the remark, at the depth of the points, then the order of the members of a wall
    have hremarked : Restated namedWalls
        (walls [("name", .primitive {} .string), ("outline", outline { inherits := ["point"] })]) :=
      .element _ _ _ (.member _ [("name", .primitive {} .string)] [] "outline"
        (.element _ _ _ (.remarks _ { inherits := ["point"] })))
    exact .tail (.single hremarked) (.element _ _ _ (.reordering _ (.swap _ _ _)))
  have hrearranged : ∀ y, (northWall [("x", .nat 1), ("y", y)]).Rearranged
      (northWall [("y", y), ("x", .nat 1)]) := fun y =>
    .single (.item [] [] (.member [("name", .string "north")] [] "outline" (.item [] []
      (.here (.members (show ["x", "y"].Nodup by decide) (.swap _ _ _))))))
  have henlarged : (northWall [("x", .nat 1), ("y", .nat 2)]).Enlarged
      (northWall [("x", .nat 1), ("z", .null), ("y", .nat 2)]) :=
    .single (.item [] [] (.member [("name", .string "north")] [] "outline" (.item [] []
      (.here (.member [("x", .nat 1)] [("y", .nat 2)] "z" .null (by decide))))))
  have haccepts : namedWalls.accepts (northWall [("x", .nat 1), ("y", .nat 2)]) = true := rfl
  have hrefuses : namedWalls.accepts (northWall [("x", .nat 1), ("y", .string "2")]) = false := rfl
  obtain ⟨hsame, hmore, htable⟩ := accepts_invariant htype
  have hnamed : ∀ y, SchemaTable.accepts? [("outlined", outlinedWalls)] "outlined"
      (northWall [("y", y), ("x", .nat 1)])
        = some (namedWalls.accepts (northWall [("x", .nat 1), ("y", y)])) := fun y =>
    htable [("named", namedWalls)] _ "named" _ _ _ rfl rfl (hrearranged y)
  refine ⟨haccepts, ?_, hmore _ _ henlarged haccepts, ?_, hrefuses, ?_, ?_⟩
  · rw [hsame _ _ (hrearranged _), haccepts]
  · rw [hnamed, haccepts]
  · rw [hsame _ _ (hrearranged _), hrefuses]
  · rw [hnamed, hrefuses]

end TypeDescription

end BimEditor
