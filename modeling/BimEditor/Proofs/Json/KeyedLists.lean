/-
  BimEditor.Proofs.Json.KeyedLists

  Lookups in keyed lists after changes of them, and keyed lists in which each name stands once. In
  such a list the order of the entries does not matter to lookups, and a change of one entry is a
  change of the list up to order: the entry is taken out and put in front as it is then. What is
  collected from any entries is such a list: its names stand where they occur first
  (`names_collect`).
-/
import BimEditor.Json.Value
import Mathlib.Data.List.Induction

namespace BimEditor

/-- The only element that satisfies a predicate is the one that is found. -/
theorem find?_eq_some_of_unique {α : Type} {p : α → Bool} {xs : List α} {x : α} (hmem : x ∈ xs)
    (hx : p x = true) (hunique : ∀ y ∈ xs, p y = true → y = x) : xs.find? p = some x := by
  obtain ⟨y, hy⟩ := Option.isSome_iff_exists.1 (List.find?_isSome.2 ⟨x, hmem, hx⟩)
  rw [hy, hunique y (List.mem_of_find?_eq_some hy) (List.find?_some hy)]

/-! ## Elements with a key of their own -/

section

variable {α : Type} {key : α → String} {xs : List α}

/-- Where no two elements have the same key, there are no two of a given one. -/
theorem pairwise_filter_key (hdistinct : (xs.map key).Nodup) (name : String) :
    (xs.filter fun x => key x == name).Pairwise fun _ _ => False := by
  rw [List.Nodup, List.pairwise_map] at hdistinct
  rw [List.pairwise_filter]
  refine hdistinct.imp fun hne hx hy => hne ?_
  rw [beq_iff_eq.mp hx, beq_iff_eq.mp hy]

theorem filter_key_eq_singleton (hdistinct : (xs.map key).Nodup) {x : α} (hx : x ∈ xs) :
    (xs.filter fun y => key y == key x) = [x] := by
  have hapart := pairwise_filter_key hdistinct (key x)
  have hmem : x ∈ xs.filter fun y => key y == key x := List.mem_filter.2 ⟨hx, beq_self_eq_true _⟩
  rcases hfilter : xs.filter fun y => key y == key x with _ | ⟨y, _ | ⟨z, rest⟩⟩
  · rw [hfilter] at hmem
    cases hmem
  · rw [hfilter, List.mem_singleton] at hmem
    rw [hmem]
  · rw [hfilter] at hapart
    exact (List.rel_of_pairwise_cons hapart List.mem_cons_self).elim

/-- So the order does not matter to the elements of a given key. -/
theorem filter_key_of_perm {ys : List α} (h : xs.Perm ys) (hdistinct : (xs.map key).Nodup)
    (name : String) :
    (xs.filter fun x => key x == name) = ys.filter fun x => key x == name := by
  have hdistinct' : (ys.map key).Nodup := (h.map key).nodup_iff.mp hdistinct
  exact List.Perm.eq_of_pairwise (fun _ _ _ _ hfalse => hfalse.elim)
    (pairwise_filter_key hdistinct name) (pairwise_filter_key hdistinct' name) (h.filter _)

end

/-! ## First occurrences -/

/-- The first occurrences of a list with one more element. -/
theorem eraseDups_concat (xs : List String) (x : String) :
    (xs ++ [x]).eraseDups = if x ∈ xs then xs.eraseDups else xs.eraseDups ++ [x] := by
  rw [List.eraseDups_append]
  by_cases h : x ∈ xs <;> simp [List.removeAll, h, List.eraseDups_cons]

theorem nodup_eraseDups (xs : List String) : xs.eraseDups.Nodup := by
  induction xs using List.reverseRecOn with
  | nil => exact List.nodup_nil
  | append_singleton xs x ih =>
    rw [eraseDups_concat]
    split
    · exact ih
    · next hnew =>
      refine List.nodup_append.2 ⟨ih, List.pairwise_singleton _ _, fun a ha b hb => ?_⟩
      rw [List.mem_singleton.1 hb]
      rintro rfl
      exact hnew (List.mem_eraseDups.1 ha)

theorem eraseDups_of_nodup {xs : List String} (h : xs.Nodup) : xs.eraseDups = xs := by
  induction xs using List.reverseRecOn with
  | nil => rfl
  | append_singleton xs x ih =>
    obtain ⟨hxs, -, hapart⟩ := List.nodup_append.1 h
    have hnew : x ∉ xs := fun hx => hapart x hx x (List.mem_singleton.2 rfl) rfl
    rw [eraseDups_concat, if_neg hnew, ih hxs]

end BimEditor

namespace BimEditor.Json.Keyed

/-! ## Lookups after changes -/

variable {α β : Type}

theorem get?_adjust (name other : String) (change : α → α) (entries : Keyed α) :
    (entries.adjust name change).get? other
      = if name = other then (entries.get? other).map change else entries.get? other := by
  induction entries with
  | nil => simp [adjust, get?]
  | cons entry rest ih =>
    by_cases hname : entry.1 = name
    · -- only the first entry of that name changes, which is also the one that is found
      by_cases hother : name = other <;> simp [adjust, get?, hname, hother]
    · by_cases hother : entry.1 = other
      · have hne : ¬ name = other := fun h => hname (hother.trans h.symm)
        simp [adjust, get?, hother, hne, Ne.symm hne]
      · simpa [adjust, get?, hname, hother] using ih

theorem get?_cons (name other : String) (value : α) (entries : Keyed α) :
    Keyed.get? other ((name, value) :: entries)
      = if name = other then some value else entries.get? other := by
  by_cases h : name = other <;> simp [get?, h]

theorem get?_append (name : String) (entries entries' : Keyed α) :
    Keyed.get? name (entries ++ entries') = (entries.get? name).or (entries'.get? name) := by
  rw [get?, List.find?_append, Option.map_or, get?, get?]

theorem get?_concat (name other : String) (value : α) (entries : Keyed α) :
    Keyed.get? other (entries ++ [(name, value)])
      = (entries.get? other).or (if name = other then some value else none) := by
  rw [get?_append, get?_cons]
  rfl

theorem get?_map_values (f : α → β) (name : String) (entries : Keyed α) :
    Keyed.get? name (entries.map fun entry => (entry.1, f entry.2))
      = (entries.get? name).map f := by
  simp [get?, List.find?_map, Function.comp_def]

theorem has_eq_isSome (name : String) (entries : Keyed α) :
    entries.has name = (entries.get? name).isSome := by
  rw [has, get?, Option.isSome_map, Bool.eq_iff_iff, List.any_eq_true, List.find?_isSome]

/-- Two changes of an entry that make the same of it. -/
theorem adjust_congr {name : String} {entries : Keyed α} {value : α} {change change' : α → α}
    (hvalue : entries.get? name = some value) (h : change value = change' value) :
    entries.adjust name change = entries.adjust name change' := by
  induction entries with
  | nil => cases hvalue
  | cons entry rest ih =>
    by_cases hname : entry.1 = name
    · have hentry : entry.2 = value := by simpa [get?, hname] using hvalue
      rw [adjust, adjust, if_pos hname, if_pos hname, hentry, h]
    · have hrest : Keyed.get? name rest = some value := by simpa [get?, hname] using hvalue
      rw [adjust, adjust, if_neg hname, if_neg hname, ih hrest]

theorem adjust_adjust (name : String) (first second : α → α) (entries : Keyed α) :
    (entries.adjust name first).adjust name second
      = entries.adjust name fun value => second (first value) := by
  induction entries with
  | nil => rfl
  | cons entry rest ih =>
    by_cases hname : entry.1 = name
    · simp only [adjust, hname, ↓reduceIte]
    · simp only [adjust, hname, ↓reduceIte, ih]

/-! ## Entries without a name -/

variable {name : String} {entries : Keyed α}

/-- The entries that do not have that name. -/
def without (name : String) (entries : Keyed α) : Keyed α :=
  entries.filter fun entry => entry.1 != name

theorem mem_without {entry : String × α} :
    entry ∈ entries.without name ↔ entry ∈ entries ∧ entry.1 ≠ name := by
  rw [without, List.mem_filter, bne_iff_ne]

theorem ne_of_not_mem_names {entry : String × α} (h : name ∉ entries.names)
    (hentry : entry ∈ entries) : entry.1 ≠ name := by
  rintro rfl
  exact h (List.mem_map_of_mem hentry)

theorem without_of_not_mem (h : name ∉ entries.names) : entries.without name = entries :=
  List.filter_eq_self.mpr fun _ hentry => bne_iff_ne.mpr (ne_of_not_mem_names h hentry)

theorem not_mem_names_without : name ∉ (entries.without name).names := by
  intro hmem
  obtain ⟨entry, hentry, hname⟩ := List.mem_map.mp hmem
  exact (mem_without.mp hentry).2 hname

theorem nodup_names_without (h : entries.names.Nodup) : (entries.without name).names.Nodup :=
  h.sublist (List.filter_sublist.map _)

/-! ## Distinct names -/

theorem mem_of_get? {value : α} (h : entries.get? name = some value) : (name, value) ∈ entries := by
  rw [get?, Option.map_eq_some_iff] at h
  obtain ⟨entry, hfind, rfl⟩ := h
  have hname := List.find?_some hfind
  rw [← beq_iff_eq.mp hname]
  exact List.mem_of_find?_eq_some hfind

theorem get?_of_mem (hdistinct : entries.names.Nodup) {entry : String × α} (h : entry ∈ entries) :
    entries.get? entry.1 = some entry.2 := by
  induction entries with
  | nil => cases h
  | cons first rest ih =>
    rw [names, List.map_cons, List.nodup_cons] at hdistinct
    rcases List.mem_cons.mp h with rfl | hrest
    · simp [get?]
    · have hne : first.1 ≠ entry.1 := (ne_of_not_mem_names hdistinct.1 hrest).symm
      have := ih hdistinct.2 hrest
      simpa [get?, hne] using this

/-- With distinct names, the order of the entries does not matter. -/
theorem get?_of_perm {entries' : Keyed α} (h : entries.Perm entries')
    (hdistinct : entries.names.Nodup) (name : String) : entries.get? name = entries'.get? name := by
  have hdistinct' : entries'.names.Nodup := (h.map _).nodup_iff.mp hdistinct
  cases hget : entries'.get? name with
  | none =>
    cases hget' : entries.get? name with
    | none => rfl
    | some value =>
      have := get?_of_mem hdistinct' (h.mem_iff.mp (mem_of_get? hget'))
      rw [hget] at this
      cases this
  | some value => exact get?_of_mem hdistinct (h.mem_iff.mpr (mem_of_get? hget))

/-- With distinct names, changing the first entry of a name is changing each of them. -/
theorem adjust_eq_map (hdistinct : entries.names.Nodup) (change : α → α) :
    entries.adjust name change
      = entries.map fun entry => if entry.1 = name then (entry.1, change entry.2) else entry := by
  induction entries with
  | nil => rfl
  | cons first rest ih =>
    rw [names, List.map_cons, List.nodup_cons] at hdistinct
    rw [adjust, List.map_cons]
    split
    · -- no other entry has that name
      rename_i hname
      congr 1
      refine (List.map_id _).symm.trans (List.map_congr_left fun entry hentry => ?_)
      rw [if_neg (hname ▸ ne_of_not_mem_names hdistinct.1 hentry)]
      rfl
    · rw [ih hdistinct.2]

/-- With distinct names, a change takes an entry out and puts it in front as it is then, but for the
    order. -/
theorem adjust_perm (hdistinct : entries.names.Nodup) {value : α}
    (h : entries.get? name = some value) (change : α → α) :
    (entries.adjust name change).Perm ((name, change value) :: entries.without name) := by
  induction entries with
  | nil => cases h
  | cons first rest ih =>
    rw [names, List.map_cons, List.nodup_cons] at hdistinct
    by_cases hname : first.1 = name
    · have hvalue : first.2 = value := by simpa [get?, hname] using h
      have hrest : name ∉ Keyed.names rest := hname ▸ hdistinct.1
      have hwithout : without name (first :: rest) = rest := by
        rw [without, List.filter_cons_of_neg (by simp [hname])]
        exact without_of_not_mem hrest
      rw [adjust, if_pos hname, hwithout, hname, hvalue]
    · have hget : Keyed.get? name rest = some value := by simpa [get?, hname] using h
      have hwithout : without name (first :: rest) = first :: without name rest := by
        rw [without, List.filter_cons_of_pos (by simp [hname])]
        rfl
      rw [adjust, if_neg hname, hwithout]
      exact ((ih hdistinct.2 hget).cons first).trans (List.Perm.swap _ _ _)

theorem mem_iff_get? (hdistinct : entries.names.Nodup) {entry : String × α} :
    entry ∈ entries ↔ entries.get? entry.1 = some entry.2 :=
  ⟨get?_of_mem hdistinct, mem_of_get?⟩

/-! ## Collected entries -/

theorem names_put (name : String) (value : α) (entries : Keyed α) :
    (entries.put name value).names
      = if name ∈ entries.names then entries.names else entries.names ++ [name] := by
  induction entries with
  | nil => rfl
  | cons entry rest ih =>
    by_cases hname : entry.1 = name
    · simp [put, names, hname]
    · have hmem : name ∈ Keyed.names (entry :: rest) ↔ name ∈ Keyed.names rest := by
        simp [names, Ne.symm hname]
      rw [put, if_neg hname, names, List.map_cons]
      show entry.1 :: (put name value rest).names = _
      rw [ih]
      by_cases hrest : name ∈ Keyed.names rest
      · rw [if_pos hrest, if_pos (hmem.2 hrest)]
        rfl
      · rw [if_neg hrest, if_neg (mt hmem.1 hrest)]
        rfl

/-- One entry more to collect is one more to put. -/
theorem collect_concat (entries : Keyed α) (entry : String × α) :
    collect (entries ++ [entry]) = (collect entries).put entry.1 entry.2 := by
  rw [collect, List.foldl_append]
  rfl

/-- Each name is collected where it occurs first. -/
theorem names_collect (entries : Keyed α) :
    (collect entries).names = entries.names.eraseDups := by
  induction entries using List.reverseRecOn with
  | nil => rfl
  | append_singleton entries entry ih =>
    have hnames : Keyed.names (entries ++ [entry]) = Keyed.names entries ++ [entry.1] := by
      simp [names]
    rw [collect_concat, names_put, ih, hnames, eraseDups_concat]
    simp only [List.mem_eraseDups]

/-- No name is collected twice. -/
theorem nodup_names_collect (entries : Keyed α) : (collect entries).names.Nodup := by
  rw [names_collect]
  exact nodup_eraseDups _

end BimEditor.Json.Keyed
