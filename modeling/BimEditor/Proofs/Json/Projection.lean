/-
  BimEditor.Proofs.Json.Projection

  What the plain value of a tree keeps. Members of one name are collected into one, with the value
  of the last of them (`IsLast`), which is also the one that a lookup in the tree finds: looking up
  a name and forgetting spans may be done in either order (`get?_toValue`).
-/
import BimEditor.Json.Tree
import BimEditor.Proofs.Json.KeyedLists

namespace BimEditor.Json

namespace Keyed

variable {α β : Type}

/-- A name that was collected has the value of its last entry. -/
theorem get?_foldl_put (name : String) (entries done : Keyed α) :
    Keyed.get? name (entries.foldl (fun done entry => done.put entry.1 entry.2) done)
      = ((entries.reverse.find? fun entry => entry.1 == name).map (·.2)).or (done.get? name) := by
  induction entries generalizing done with
  | nil => simp
  | cons entry rest ih =>
    rw [List.foldl_cons, ih, List.reverse_cons, List.find?_append, Option.map_or, Option.or_assoc]
    congr 1
    -- an entry of that name counts only if no later one has it
    by_cases hname : entry.1 = name
    · subst hname
      simp [get?_put_self]
    · rw [get?_put_of_ne (Ne.symm hname)]
      simp [hname]

theorem get?_collect (name : String) (entries : Keyed α) :
    Keyed.get? name (collect entries)
      = (entries.reverse.find? fun entry => entry.1 == name).map (·.2) := by
  rw [collect, get?_foldl_put]
  simp [get?]

theorem map_put (f : α → β) (name : String) (value : α) (entries : Keyed α) :
    (entries.put name value).map (fun entry => (entry.1, f entry.2))
      = Keyed.put name (f value) (entries.map fun entry => (entry.1, f entry.2)) := by
  induction entries with
  | nil => rfl
  | cons entry rest ih =>
    rw [put, List.map_cons, put]
    split
    · rfl
    · rw [List.map_cons, ih]

/-- Entries may be changed before they are collected, or after. -/
theorem collect_map (f : α → β) (entries : Keyed α) :
    collect (entries.map fun entry => (entry.1, f entry.2))
      = (collect entries).map fun entry => (entry.1, f entry.2) := by
  have hfold : ∀ (rest done : Keyed α),
      (rest.map fun entry => (entry.1, f entry.2)).foldl
          (fun done entry => put entry.1 entry.2 done) (done.map fun entry => (entry.1, f entry.2))
        = (rest.foldl (fun done entry => put entry.1 entry.2 done) done).map
            fun entry => (entry.1, f entry.2) := by
    intro rest
    induction rest with
    | nil => exact fun _ => rfl
    | cons entry rest ih =>
      intro done
      rw [List.map_cons, List.foldl_cons, List.foldl_cons, ← ih, map_put]
  exact hfold entries []

end Keyed

namespace Tree

/-- Looking up a name in a tree is looking it up in the plain value. -/
theorem get?_toValue (name : String) (t : Tree) :
    (t.get? name).map toValue = t.toValue.member? name := by
  cases t with
  | leaf span s => rfl
  | array span items => rfl
  | object span members =>
    rw [toValue, Value.member?, Value.members?, Option.bind_some, Keyed.get?_collect,
      memberValues_eq_map, ← List.map_reverse, List.find?_map, Option.map_map, get?, Option.map_map]
    rfl

theorem string?_toValue (t : Tree) : t.toValue.string? = t.string? := by
  cases t with
  | leaf span s => cases s <;> rfl
  | array span items => rfl
  | object span members => rfl

theorem isNull_toValue (t : Tree) : t.toValue.isNull = t.isNull := by
  cases t with
  | leaf span s => cases s <;> rfl
  | array span items => rfl
  | object span members => rfl

theorem members?_toValue (t : Tree) :
    t.toValue.members? = t.members?.map fun ms => Keyed.collect (memberValues ms) := by
  cases t <;> rfl

theorem items?_toValue (t : Tree) : t.toValue.items? = t.items?.map itemValues := by
  cases t <;> rfl

end Tree

end BimEditor.Json

namespace BimEditor

open BimEditor.Json

/-! ## The last member of a name -/

/-- `m` is one of the members, and no later one has its name. -/
def IsLast (members : List (Key × Tree)) (m : Key × Tree) : Prop :=
  ∃ before after, members = before ++ m :: after ∧ ∀ later ∈ after, later.1.name ≠ m.1.name

theorem IsLast.mem {members : List (Key × Tree)} {m : Key × Tree} (h : IsLast members m) :
    m ∈ members := by
  obtain ⟨before, after, rfl, -⟩ := h
  exact List.mem_append_right _ List.mem_cons_self

theorem isLast_iff_find? {members : List (Key × Tree)} {m : Key × Tree} :
    IsLast members m ↔ members.reverse.find? (fun x => x.1.name == m.1.name) = some m := by
  rw [List.find?_eq_some_iff_append]
  constructor
  · rintro ⟨before, after, rfl, hafter⟩
    refine ⟨beq_self_eq_true _, after.reverse, before.reverse, by simp, fun x hx => ?_⟩
    simpa using hafter x (List.mem_reverse.1 hx)
  · rintro ⟨-, after, before, hreverse, hafter⟩
    refine ⟨before.reverse, after.reverse, ?_, fun x hx => ?_⟩
    · rw [← List.reverse_reverse members, hreverse]
      simp
    · simpa using hafter x (List.mem_reverse.1 hx)

/-- The plain value of an object has the last member of each name. -/
theorem mem_collect_memberValues {members : List (Key × Tree)} {name : String} {v : Value} :
    (name, v) ∈ Keyed.collect (Tree.memberValues members)
      ↔ ∃ m, IsLast members m ∧ m.1.name = name ∧ m.2.toValue = v := by
  -- names are collected once, so a member is what a lookup of its name finds: the last of them
  rw [Keyed.mem_iff_get? (Keyed.nodup_names_collect _), Keyed.get?_collect,
    Tree.memberValues_eq_map, ← List.map_reverse, List.find?_map, Option.map_map,
    Option.map_eq_some_iff]
  constructor
  · rintro ⟨m, hfind, hvalue⟩
    have hname : m.1.name = name := by simpa using List.find?_some hfind
    subst hname
    exact ⟨m, isLast_iff_find?.2 hfind, rfl, hvalue⟩
  · rintro ⟨m, hlast, rfl, hvalue⟩
    exact ⟨m, isLast_iff_find?.1 hlast, hvalue⟩

end BimEditor
