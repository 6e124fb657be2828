/-
  BimEditor.Proofs.Json.DepthLimit

  What limits do to the result of reading. A reader that counts the depth goes the way of one that
  does not, up to the first bracket that opens too deep. So its result is the other's, cut at the
  brackets that the other passes (`cut`); and a fault of the grammar is reached past exactly those
  brackets that open before its place, of which the text alone tells (`openings`).

  `Cuts` relates the two readers along one piece of text. It is followed through a sequence of steps
  by `Cuts.bind` and through the five readers of values by their common induction (`treeCuts`).
-/
import BimEditor.Proofs.Json.Acceptance
import BimEditor.Proofs.Json.FaultPlace

namespace BimEditor.Json

open BimEditor.Numeric BimEditor.Text BimEditor.Scan

variable {α β : Type} {m : Option Nat} {p q : Spot} {depth : Nat} {c : Cursor}

/-! ## Cutting a result -/

/-- The result `r` of a reader that has opened the brackets `xs`, if it was to count the depth. -/
def cut (maxDepth : Option Nat) (xs : List Opening) (r : Except Fault α) : Except Fault α :=
  xs.foldr (fun b r => enter maxDepth b.depth b.offset >>= fun _ => r) r

section

variable {xs ys : List Opening} {r : Except Fault α}

theorem cut_append : cut m (xs ++ ys) r = cut m xs (cut m ys r) :=
  List.foldr_append

theorem cut_bind {f : α → Except Fault β} : (cut m xs r >>= f) = cut m xs (r >>= f) := by
  induction xs with
  | nil => rfl
  | cons b xs ih =>
    show (enter m b.depth b.offset >>= fun _ => cut m xs r) >>= f
      = enter m b.depth b.offset >>= fun _ => cut m xs (r >>= f)
    rw [← ih]
    cases enter m b.depth b.offset <;> rfl

/-- Brackets within the limit cut nothing. -/
theorem cut_within (h : ∀ b ∈ xs, WithinLimit m b.depth) : cut m xs r = r := by
  induction xs with
  | nil => rfl
  | cons b xs ih =>
    obtain ⟨hb, hxs⟩ := List.forall_mem_cons.1 h
    show (enter m b.depth b.offset >>= fun _ => cut m xs r) = r
    rw [enter_eq_ok hb, ok_bind, ih hxs]

/-- Some bracket beyond the limit replaces any result by a refusal. -/
theorem cut_beyond (h : ∃ b ∈ xs, ¬ WithinLimit m b.depth) :
    ∃ offset limit, cut m xs r = .error (.tooDeep offset limit) := by
  induction xs with
  | nil => simp at h
  | cons b xs ih =>
    show ∃ offset limit, (enter m b.depth b.offset >>= fun _ => cut m xs r)
      = .error (.tooDeep offset limit)
    by_cases hb : WithinLimit m b.depth
    · rw [enter_eq_ok hb, ok_bind]
      apply ih
      obtain ⟨x, hx, hbeyond⟩ := h
      rcases List.mem_cons.1 hx with rfl | hx
      · exact absurd hb hbeyond
      · exact ⟨x, hx, hbeyond⟩
    · cases hlimit : exceeded? m b.depth with
      | none => exact absurd (exceeded?_eq_none_iff.1 hlimit) hb
      | some limit => exact ⟨b.offset, limit, by rw [enter, hlimit]; rfl⟩

end

/-! ## A reader that counts the depth beside one that does not -/

/-- The second computation is the first one, cut at the brackets that the first one passes from `p`
    on before it comes to its result or to its fault. -/
inductive Cuts (m : Option Nat) (p : Spot) (dest : α → Spot) (x x' : Except Fault α) : Prop where
  | ok {a : α} {s : List Char} {xs : List Opening} :
      x = .ok a → p.Opens s xs (dest a) → x' = cut m xs x → Cuts m p dest x x'
  | error {e : Fault} {xs : List Opening} :
      x = .error e → e.LiesBehind p xs → x' = cut m xs x → Cuts m p dest x x'

namespace Cuts

variable {x x' : Except Fault α} {f f' : α → Except Fault β} {dest : α → Spot} {dest' : β → Spot}

/-- A reader that opens no bracket is not cut. -/
theorem of_plain (h : Plain p dest x) : Cuts m p dest x x := by
  cases h with
  | ok h =>
    obtain ⟨s, hs⟩ := h
    exact .ok rfl hs rfl
  | error he => exact .error rfl he rfl

theorem after {s : List Char} {xs : List Opening} (h : p.Opens s xs q) (hx : Cuts m q dest x x') :
    Cuts m p dest x (cut m xs x') := by
  cases hx with
  | ok hok hopens hcut =>
    refine .ok hok (h.trans hopens) ?_
    rw [hcut, cut_append]
  | error herror hlies hcut =>
    refine .error herror (hlies.after h) ?_
    rw [hcut, cut_append]

theorem bind (h : Cuts m p dest x x') (hf : ∀ a, Cuts m (dest a) dest' (f a) (f' a)) :
    Cuts m p dest' (x >>= f) (x' >>= f') := by
  cases h with
  | @ok a s xs hok hopens hcut =>
    subst hok
    rw [hcut, cut_bind, ok_bind, ok_bind]
    exact (hf a).after hopens
  | @error e xs herror hlies hcut =>
    subst herror
    rw [hcut, cut_bind]
    exact .error rfl hlies rfl

theorem pure {a : α} (h : p = dest a) : Cuts m p dest (Pure.pure a) (Pure.pure a) := by
  subst h
  exact .ok rfl (.refl _) rfl

/-- Blanks may stand before what a reader starts with. -/
theorem afterBlanks (h : Cuts m ⟨depth, c.skipBlanks⟩ dest x x') : Cuts m ⟨depth, c⟩ dest x x' := by
  obtain ⟨b, hb⟩ := @opens_skipBlanks depth c
  exact h.after hb

end Cuts

/-- An opening bracket, counted by one reader and not by the other. -/
theorem enter_cuts {x : Char} {here : Nat} {rest : List Char} (hx : x = '{' ∨ x = '[') :
    Cuts m ⟨depth, ⟨here, x :: rest⟩⟩ (fun _ => ⟨depth + 1, ⟨here + 1, rest⟩⟩)
      (enter none (depth + 1) here) (enter m (depth + 1) here) := by
  have hsize : x.utf8Size = 1 := by rcases hx with rfl | rfl <;> rfl
  have hpass : Cursor.Passes ⟨here, x :: rest⟩ [x] ⟨here + 1, rest⟩ :=
    (Cursor.Passes.refl _).byte hsize
  have hfree : enter none (depth + 1) here = .ok () := enter_eq_ok (withinLimit_none _)
  refine .ok hfree (.opening hpass hx) ?_
  rw [hfree]
  show enter m (depth + 1) here = enter m (depth + 1) here >>= fun _ => .ok ()
  cases enter m (depth + 1) here <;> rfl

section

variable (m : Option Nat) (value? : Numeral → Option Number)

/-- A value is read without a change of the depth. -/
def TreeCuts (depth : Nat) (c : Cursor) : Prop :=
  Cuts m ⟨depth, c⟩ (fun r => ⟨depth, r.next⟩)
    (tree ⟨none, value?⟩ depth c) (tree ⟨m, value?⟩ depth c)

/-- The items of an array are read together with the bracket that closes it. -/
def ItemsCut (depth : Nat) (c : Cursor) : Prop :=
  Cuts m ⟨depth, c⟩ (fun r => ⟨depth - 1, r.next⟩)
    (items ⟨none, value?⟩ depth c) (items ⟨m, value?⟩ depth c)

/-- So is the body of an array, which may be empty. -/
def ArrayBodyCuts (depth : Nat) (c : Cursor) : Prop :=
  Cuts m ⟨depth, c⟩ (fun r => ⟨depth - 1, r.next⟩)
    (arrayBody ⟨none, value?⟩ depth c) (arrayBody ⟨m, value?⟩ depth c)

/-- The members of an object are read together with the brace that closes it. -/
def MembersCut (depth : Nat) (c : Cursor) : Prop :=
  Cuts m ⟨depth, c⟩ (fun r => ⟨depth - 1, r.next⟩)
    (members ⟨none, value?⟩ depth c) (members ⟨m, value?⟩ depth c)

/-- So is the body of an object. -/
def ObjectBodyCuts (depth : Nat) (c : Cursor) : Prop :=
  Cuts m ⟨depth, c⟩ (fun r => ⟨depth - 1, r.next⟩)
    (objectBody ⟨none, value?⟩ depth c) (objectBody ⟨m, value?⟩ depth c)

end

variable {value? : Numeral → Option Number}

theorem treeCuts_object {here : Nat} {rest : List Char}
    (ih : ObjectBodyCuts m value? (depth + 1) (Cursor.skipBlanks ⟨here + 1, rest⟩)) :
    TreeCuts m value? depth ⟨here, '{' :: rest⟩ := by
  unfold TreeCuts
  rw [tree, tree]
  refine (enter_cuts (.inl rfl)).bind fun _ => ?_
  refine (Cuts.afterBlanks ih).bind ?_
  rintro ⟨members, next, h⟩
  exact .pure rfl

theorem treeCuts_array {here : Nat} {rest : List Char}
    (ih : ArrayBodyCuts m value? (depth + 1) (Cursor.skipBlanks ⟨here + 1, rest⟩)) :
    TreeCuts m value? depth ⟨here, '[' :: rest⟩ := by
  unfold TreeCuts
  rw [tree, tree]
  refine (enter_cuts (.inr rfl)).bind fun _ => ?_
  refine (Cuts.afterBlanks ih).bind ?_
  rintro ⟨items, next, h⟩
  exact .pure rfl

theorem treeCuts_scalar (hobject : ∀ here rest, c = ⟨here, '{' :: rest⟩ → False)
    (harray : ∀ here rest, c = ⟨here, '[' :: rest⟩ → False) : TreeCuts m value? depth c := by
  unfold TreeCuts
  rw [tree, tree]
  · refine (Cuts.of_plain (scalar_plain value? c)).bind ?_
    rintro ⟨s, next, h⟩
    exact .pure rfl
  all_goals assumption

theorem itemsCut (ih : TreeCuts m value? depth c)
    (ih' : ∀ afterItem : Cursor, afterItem.rest.length < c.rest.length →
      ∀ afterEnd : Cursor, afterEnd.rest.length < afterItem.skipBlanks.rest.length →
        ItemsCut m value? depth afterEnd.skipBlanks) :
    ItemsCut m value? depth c := by
  unfold ItemsCut
  rw [items, items]
  refine Cuts.bind ih ?_
  rintro ⟨item, afterItem, h₁⟩
  refine Cuts.afterBlanks ((Cuts.of_plain (itemEnd_plain _)).bind ?_)
  rintro ⟨more, afterEnd, h₂⟩
  cases more with
  | false => exact .pure rfl
  | true =>
    refine Cuts.afterBlanks ((ih' afterItem h₁ afterEnd h₂).bind ?_)
    rintro ⟨others, next, h₃⟩
    exact .pure rfl

theorem membersCut {here : Nat} {rest : List Char}
    (ih : ∀ afterKey : Cursor, afterKey.rest.length < rest.length →
      ∀ afterColon : Cursor, afterColon.rest.length < afterKey.skipBlanks.rest.length →
        TreeCuts m value? depth afterColon.skipBlanks)
    (ih' : ∀ afterKey : Cursor, afterKey.rest.length < rest.length →
      ∀ afterColon : Cursor, afterColon.rest.length < afterKey.skipBlanks.rest.length →
        ∀ afterValue : Cursor, afterValue.rest.length < afterColon.skipBlanks.rest.length →
          ∀ afterEnd : Cursor, afterEnd.rest.length < afterValue.skipBlanks.rest.length →
            MembersCut m value? depth afterEnd.skipBlanks) :
    MembersCut m value? depth ⟨here, '"' :: rest⟩ := by
  unfold MembersCut
  rw [members, members]
  refine (Cuts.of_plain (stringBody_plain here rest)).bind ?_
  rintro ⟨name, afterKey, h₁⟩
  refine Cuts.afterBlanks ((Cuts.of_plain (colon_plain _)).bind ?_)
  rintro ⟨_, afterColon, h₂⟩
  refine Cuts.afterBlanks ((ih afterKey h₁ afterColon h₂).bind ?_)
  rintro ⟨value, afterValue, h₃⟩
  refine Cuts.afterBlanks ((Cuts.of_plain (memberEnd_plain _)).bind ?_)
  rintro ⟨more, afterEnd, h₄⟩
  cases more with
  | false => exact .pure rfl
  | true =>
    refine Cuts.afterBlanks ((ih' afterKey h₁ afterColon h₂ afterValue h₃ afterEnd h₄).bind ?_)
    rintro ⟨others, next, h₅⟩
    exact .pure rfl

/-- Counting the depth only cuts what is read as a value. -/
theorem treeCuts (m : Option Nat) (value? : Numeral → Option Number) (depth : Nat) (c : Cursor) :
    TreeCuts m value? depth c := by
  refine tree.induct (TreeCuts m value?) (ArrayBodyCuts m value?) (ItemsCut m value?)
    (ObjectBodyCuts m value?) (MembersCut m value?) ?_ ?_ ?_ ?_ ?_ ?_ ?_ ?_ ?_ ?_ depth c
  · intro depth here rest ih
    exact treeCuts_object ih
  · intro depth here rest ih
    exact treeCuts_array ih
  · intro depth c hobject harray
    exact treeCuts_scalar hobject harray
  · intro depth here rest
    unfold ArrayBodyCuts
    rw [arrayBody, arrayBody]
    exact .ok rfl (.closing ((Cursor.Passes.refl _).byte rfl) (.inr rfl)) rfl
  · intro depth c hclose ih
    unfold ArrayBodyCuts
    rw [arrayBody, arrayBody]
    · exact ih
    all_goals exact hclose
  · intro depth c ih ih'
    exact itemsCut ih ih'
  · intro depth here rest
    unfold ObjectBodyCuts
    rw [objectBody, objectBody]
    exact .ok rfl (.closing ((Cursor.Passes.refl _).byte rfl) (.inl rfl)) rfl
  · intro depth c hclose ih
    unfold ObjectBodyCuts
    rw [objectBody, objectBody]
    · exact ih
    all_goals exact hclose
  · intro depth here rest ih ih'
    exact membersCut ih ih'
  · intro depth c hquote
    unfold MembersCut
    rw [members, members]
    · exact .error rfl (.here rfl) rfl
    all_goals exact hquote

/-! ## Whole texts -/

theorem finish_plain (c : Cursor) :
    Plain ⟨depth, c⟩ (fun _ => ⟨depth, c.skipBlanks⟩) (finish c) := by
  obtain ⟨b, hb⟩ := @opens_skipBlanks depth c
  unfold finish
  split
  · exact .ok ⟨b, hb⟩
  · have hlies : Fault.LiesBehind ⟨depth, c.skipBlanks⟩ []
        (.malformed c.skipBlanks.offset .trailing) := .here rfl
    exact .error (hlies.after hb)

theorem readBy_cuts (m : Option Nat) (value? : Numeral → Option Number) (text : List Char) :
    ∃ dest, Cuts m ⟨0, .atStart text⟩ dest (readBy ⟨none, value?⟩ text)
      (readBy ⟨m, value?⟩ text) := by
  have htree : Cuts m ⟨0, .atStart text⟩ (fun r => ⟨0, r.next⟩)
      (tree ⟨none, value?⟩ 0 (Cursor.atStart text).skipBlanks)
      (tree ⟨m, value?⟩ 0 (Cursor.atStart text).skipBlanks) :=
    .afterBlanks (treeCuts m value? 0 _)
  unfold readBy
  -- the place behind the value is known in its own case only
  cases htree with
  | @ok r s xs hok hopens hcut =>
    obtain ⟨t, next, h⟩ := r
    have hrest : Cuts m ⟨0, next⟩ (fun _ => ⟨0, next.skipBlanks⟩)
        (finish next >>= fun _ => Pure.pure t) (finish next >>= fun _ => Pure.pure t) :=
      (Cuts.of_plain (finish_plain next)).bind fun _ => .pure rfl
    rw [hcut, cut_bind, hok]
    exact ⟨_, hrest.after hopens⟩
  | @error e xs herror hlies hcut =>
    rw [hcut, cut_bind, herror]
    exact ⟨fun _ => ⟨0, .atStart text⟩, .error rfl hlies rfl⟩

/-- A limit on the depth leaves a tree as it is or refuses it. -/
theorem readBy_cut_ok {text : List Char} {t : Tree} (h : readBy ⟨none, value?⟩ text = .ok t) :
    ∃ xs, readBy ⟨m, value?⟩ text = cut m xs (.ok t) := by
  obtain ⟨dest, hcuts⟩ := readBy_cuts m value? text
  rw [h] at hcuts
  cases hcuts with
  | ok _ _ hcut => exact ⟨_, hcut⟩
  | error herror _ _ => cases herror

/-- A fault of the grammar is cut at the brackets that the text opens before its place. -/
theorem readBy_cut_error {text : List Char} {e : Fault}
    (h : readBy ⟨none, value?⟩ text = .error e) :
    ∃ s rest, text = s ++ rest ∧ e.offset? = some (byteLength s)
      ∧ readBy ⟨m, value?⟩ text = cut m (openings s) (.error e) := by
  obtain ⟨dest, hcuts⟩ := readBy_cuts m value? text
  rw [h] at hcuts
  cases hcuts with
  | ok hok _ _ => cases hok
  | error herror hlies hcut =>
    cases herror
    obtain ⟨s, rest, htext, hoffset, rfl⟩ := hlies
    refine ⟨s, rest, htext, ?_, hcut⟩
    rw [hoffset]
    show some (0 + byteLength s) = some (byteLength s)
    rw [Nat.zero_add]

/-! ## Under limits -/

theorem read_tooLarge {limits : Limits} {text : List Char}
    (h : ¬ WithinLimit limits.maxSize (byteLength text)) :
    ∃ fault, read limits text = .error fault ∧ (Problem.unreadable fault).kind = .refused := by
  have hlimit : ∃ limit, exceeded? limits.maxSize (byteLength text) = some limit := by
    rw [← Option.ne_none_iff_exists']
    exact fun hnone => h (exceeded?_eq_none_iff.1 hnone)
  obtain ⟨limit, hlimit⟩ := hlimit
  refine ⟨.tooLarge (byteLength text) limit, ?_, rfl⟩
  rw [read, checkSize, hlimit]
  rfl

/-- A limit on the depth refuses exactly the trees that nest deeper. -/
theorem holdsTree_iff {limits : Limits} {text : List Char} {t : Tree} :
    HoldsTree limits.rules text t
      ↔ HoldsTree Limits.unlimited.rules text t ∧ WithinLimit limits.maxDepth t.depth := by
  constructor
  · rintro ⟨b₁, s, b₂, htext, hb₁, hb₂, hloc, hdepth⟩
    exact ⟨⟨b₁, s, b₂, htext, hb₁, hb₂, hloc, withinLimit_none _⟩, hdepth⟩
  · rintro ⟨⟨b₁, s, b₂, htext, hb₁, hb₂, hloc, -⟩, hdepth⟩
    exact ⟨b₁, s, b₂, htext, hb₁, hb₂, hloc, hdepth⟩

/-- Limits cut a result and never change it. A text beyond the limit on the size is refused. Any
    other has the result that it has without limits, spans and all, unless a bracket opens too deep
    before the reader is done: somewhere in the text if it is read, before the place of the fault if
    it is not; then the text is refused. -/
theorem read_cut_by_limits (limits : Limits) (text : List Char) :
    (¬ WithinLimit limits.maxSize (byteLength text) →
      ∃ fault, read limits text = .error fault ∧ (Problem.unreadable fault).kind = .refused)
    ∧ (WithinLimit limits.maxSize (byteLength text) →
      (∀ t, read .unlimited text = .ok t →
        (WithinLimit limits.maxDepth t.depth → read limits text = .ok t)
        ∧ (¬ WithinLimit limits.maxDepth t.depth →
          ∃ fault, read limits text = .error fault
            ∧ (Problem.unreadable fault).kind = .refused))
      ∧ ∀ e, read .unlimited text = .error e →
        ∃ place, e.offset? = some place
          ∧ ((∀ b ∈ openings (takeBytes place text), WithinLimit limits.maxDepth b.depth) →
            read limits text = .error e)
          ∧ ((∃ b ∈ openings (takeBytes place text), ¬ WithinLimit limits.maxDepth b.depth) →
            ∃ fault, read limits text = .error fault
              ∧ (Problem.unreadable fault).kind = .refused)) := by
  refine ⟨read_tooLarge, fun hsize => ?_⟩
  rw [read_eq_readBy hsize, read_eq_readBy (withinLimit_none _)]
  refine ⟨fun t ht => ⟨fun hdepth => ?_, fun hdepth => ?_⟩, fun e he => ?_⟩
  · exact readBy_eq_ok (holdsTree_iff.2 ⟨readBy_eq_ok_iff.1 ht, hdepth⟩)
  · -- the result is the tree or a refusal, and the tree lies too deep
    obtain ⟨xs, hcut⟩ := @readBy_cut_ok limits.maxDepth Numeral.number? text t ht
    by_cases hxs : ∀ b ∈ xs, WithinLimit limits.maxDepth b.depth
    · rw [cut_within hxs] at hcut
      exact absurd (holdsTree_iff.1 (readBy_eq_ok_iff.1 hcut)).2 hdepth
    · simp only [Classical.not_forall, exists_prop] at hxs
      obtain ⟨offset, limit, hrefused⟩ := @cut_beyond _ _ _ (.ok t) hxs
      exact ⟨_, hcut.trans hrefused, rfl⟩
  · obtain ⟨s, rest, rfl, hoffset, hcut⟩ := @readBy_cut_error limits.maxDepth _ text e he
    refine ⟨byteLength s, hoffset, ?_⟩
    rw [takeBytes_append]
    refine ⟨fun hwithin => ?_, fun hbeyond => ?_⟩
    · exact hcut.trans (cut_within hwithin)
    · obtain ⟨offset, limit, hrefused⟩ := @cut_beyond _ _ _ (.error e) hbeyond
      exact ⟨_, hcut.trans hrefused, rfl⟩

/-- A text with a stray letter behind its second level. -/
def strayLetter : List Char :=
  ['[', '[', '1', ']', 'x']

theorem read_cut_by_limits_strayLetter :
    ∃ e, read .unlimited strayLetter = .error e ∧ read ⟨some 5, some 2⟩ strayLetter = .error e
      ∧ (∃ fault, read ⟨some 5, some 1⟩ strayLetter = .error fault
        ∧ (Problem.unreadable fault).kind = .refused)
      ∧ ∃ fault, read ⟨some 4, some 2⟩ strayLetter = .error fault
        ∧ (Problem.unreadable fault).kind = .refused := by
  have hfault : read .unlimited strayLetter
      = .error (.malformed 4 (.unexpected .itemEnd (some 'x'))) := by
    with_unfolding_all rfl
  have hopenings : openings (takeBytes 4 strayLetter) = [⟨0, 1⟩, ⟨1, 2⟩] := by decide +kernel
  have hlength : byteLength strayLetter = 5 := by decide
  refine ⟨_, hfault, ?_, ?_, ?_⟩
  · obtain ⟨-, hwithin⟩ := read_cut_by_limits ⟨some 5, some 2⟩ strayLetter
    obtain ⟨place, hplace, hsame, -⟩ := (hwithin (by simp [WithinLimit, hlength])).2 _ hfault
    obtain rfl := Option.some.inj hplace
    exact hsame (by simp [hopenings, WithinLimit])
  · obtain ⟨-, hwithin⟩ := read_cut_by_limits ⟨some 5, some 1⟩ strayLetter
    obtain ⟨place, hplace, -, hrefused⟩ := (hwithin (by simp [WithinLimit, hlength])).2 _ hfault
    obtain rfl := Option.some.inj hplace
    exact hrefused (by simp [hopenings, WithinLimit])
  · obtain ⟨htooLarge, -⟩ := read_cut_by_limits ⟨some 4, some 2⟩ strayLetter
    exact htooLarge (by simp [WithinLimit, hlength])

end BimEditor.Json
