/-
  BimEditor.Proofs.Bytes.Reading

  The reader of values, walking over the bytes of a text by offsets, and the whole of what slices a
  text: reading it, scanning it, and cutting out what a read tree points to. No access in all of
  this is ever refused, whatever the text (`accesses_granted`).
-/
import BimEditor.Proofs.Bytes.Tokens
import BimEditor.Proofs.Json.SpanExact
import BimEditor.Proofs.Json.StringOrder

namespace BimEditor.Bytes

open BimEditor.Text BimEditor.Json

/-! ## Readers of values -/

/-- Step over what JSON allows between two tokens. -/
def skipBlanks (text : Bytes) (pos : Nat) : Nat :=
  skipBytes isBlankByte text pos

/-- Refuse the container opened at `pos` if it lies too deep. -/
def enter (text : Bytes) (maxDepth : Option Nat) (depth pos : Nat) : Reader Unit :=
  match exceeded? maxDepth depth with
  | some limit => complain text pos (.tooDeep pos limit)
  | none => return ()

/-- A colon. -/
def colon (text : Bytes) (pos : Nat) : Reader Nat :=
  if sees (isByte ':') text pos then return pos + 1 else unexpected text .colon pos

/-- What follows a part of a container: a comma if another part comes, or the closing bracket. -/
def partEnd (text : Bytes) (closing : Char) (expected : Expected) (pos : Nat) :
    Reader (Bool × Nat) :=
  if sees (isByte ',') text pos then return (true, pos + 1)
  else if sees (isByte closing) text pos then return (false, pos + 1)
  else unexpected text expected pos

mutual
/-- A value at the given depth. -/
def tree (text : Bytes) (rules : Rules) (depth pos : Nat) : Reader (Tree × Nat) := do
  if sees (isByte '{') text pos then
    enter text rules.maxDepth (depth + 1) pos
    let (members, next) ← text |>.objectBody rules (depth + 1) (skipBlanks text (pos + 1))
    return (.object ⟨pos, next⟩ members, next)
  else if sees (isByte '[') text pos then
    enter text rules.maxDepth (depth + 1) pos
    let (items, next) ← text |>.arrayBody rules (depth + 1) (skipBlanks text (pos + 1))
    return (.array ⟨pos, next⟩ items, next)
  else
    let (s, next) ← scalar text rules.number? pos
    return (.leaf ⟨pos, next⟩ s, next)
partial_fixpoint

/-- The members of an object up to its closing brace. -/
def objectBody (text : Bytes) (rules : Rules) (depth pos : Nat) :
    Reader (List (Key × Tree) × Nat) :=
  if sees (isByte '}') text pos then return ([], pos + 1) else text |>.members rules depth pos
partial_fixpoint

/-- One or more members up to the closing brace. -/
def members (text : Bytes) (rules : Rules) (depth pos : Nat) :
    Reader (List (Key × Tree) × Nat) := do
  if sees (isByte '"') text pos then
    let (name, afterKey) ← string text pos
    let afterColon ← colon text (skipBlanks text afterKey)
    let (value, afterValue) ← text |>.tree rules depth (skipBlanks text afterColon)
    let (more, afterEnd) ← partEnd text '}' .memberEnd (skipBlanks text afterValue)
    let member : Key × Tree := (⟨String.ofList name, ⟨pos, afterKey⟩⟩, value)
    if more then
      let (others, next) ← text |>.members rules depth (skipBlanks text afterEnd)
      return (member :: others, next)
    else return ([member], afterEnd)
  else unexpected text .key pos
partial_fixpoint

/-- The items of an array up to its closing bracket. -/
def arrayBody (text : Bytes) (rules : Rules) (depth pos : Nat) : Reader (List Tree × Nat) :=
  if sees (isByte ']') text pos then return ([], pos + 1) else text |>.items rules depth pos
partial_fixpoint

/-- One or more items up to the closing bracket. -/
def items (text : Bytes) (rules : Rules) (depth pos : Nat) : Reader (List Tree × Nat) := do
  let (item, afterItem) ← text |>.tree rules depth pos
  let (more, afterEnd) ← partEnd text ']' .itemEnd (skipBlanks text afterItem)
  if more then
    let (others, next) ← text |>.items rules depth (skipBlanks text afterEnd)
    return (item :: others, next)
  else return ([item], afterEnd)
partial_fixpoint
end

/-- Nothing but blanks follows the value. -/
def finish (text : Bytes) (pos : Nat) : Reader Unit :=
  if skipBlanks text pos < byteLength text then fail text (skipBlanks text pos) .trailing
  else return ()

/-- Refuse a text that is too large. -/
def checkSize (maxSize : Option Nat) (text : Bytes) : Reader Unit :=
  match exceeded? maxSize (byteLength text) with
  | some limit => throw ⟨.tooLarge (byteLength text) limit, none⟩
  | none => return ()

/-- Read a text that holds one value. -/
def read (limits : Limits) (text : Bytes) : Reader Tree := do
  checkSize limits.maxSize text
  let (t, next) ← tree text limits.rules 0 (skipBlanks text 0)
  finish text next
  return t

/-! ## No access is refused -/

section

variable {text : List Char} {rules : Rules} {depth : Nat} {c : Cursor}

theorem In.skipBlanks_eq (h : In text c) : skipBlanks text c.offset = c.skipBlanks.offset :=
  h.skipBytes_eq byteClass_blank

theorem In.skipBlanks (h : In text c) : In text c.skipBlanks :=
  h.skip _

theorem enter_follows {o : Nat} (h : In text c) (maxDepth : Option Nat) :
    Follows text (fun _ => c) id (Json.enter maxDepth depth o) (enter text maxDepth depth o) := by
  unfold Json.enter enter
  cases exceeded? maxDepth depth with
  | some limit => exact .error rfl (complain_eq text o _)
  | none => exact .ok rfl h rfl

theorem colon_follows (h : In text c) :
    Follows text (·.next) (·.next.offset) (Json.colon c) (colon text c.offset) := by
  unfold Json.colon colon
  split
  · next o rest =>
    rw [h.sees_cons (.single (by decide : ':'.toNat < 0x80))]
    exact .ok rfl (h.byte rfl) rfl
  · next hcolon =>
    rw [h.not_sees (by decide) hcolon]
    exact .unexpected h _

theorem memberEnd_walks (h : In text c) :
    Walks text (memberEnd c) (partEnd text '}' .memberEnd c.offset) := by
  unfold memberEnd partEnd
  split
  · next o rest =>
    rw [h.sees_cons (.single (by decide : ','.toNat < 0x80))]
    exact .ok rfl (h.byte rfl) rfl
  · next o rest =>
    rw [h.sees_cons (.single (by decide : ','.toNat < 0x80)),
      h.sees_cons (.single (by decide : '}'.toNat < 0x80))]
    exact .ok rfl (h.byte rfl) rfl
  · next hcomma hclose =>
    rw [h.not_sees (by decide) hcomma, h.not_sees (by decide) hclose]
    exact .unexpected h _

theorem itemEnd_walks (h : In text c) :
    Walks text (itemEnd c) (partEnd text ']' .itemEnd c.offset) := by
  unfold itemEnd partEnd
  split
  · next o rest =>
    rw [h.sees_cons (.single (by decide : ','.toNat < 0x80))]
    exact .ok rfl (h.byte rfl) rfl
  · next o rest =>
    rw [h.sees_cons (.single (by decide : ','.toNat < 0x80)),
      h.sees_cons (.single (by decide : ']'.toNat < 0x80))]
    exact .ok rfl (h.byte rfl) rfl
  · next hcomma hclose =>
    rw [h.not_sees (by decide) hcomma, h.not_sees (by decide) hclose]
    exact .unexpected h _

end

section

variable (text : List Char) (rules : Rules)

/-- `tree` by offsets follows `tree` by cursors; so do the other four readers. -/
def TreeWalks (depth : Nat) (c : Cursor) : Prop :=
  In text c → Walks text (Json.tree rules depth c) (tree text rules depth c.offset)

def ItemsWalk (depth : Nat) (c : Cursor) : Prop :=
  In text c → Walks text (Json.items rules depth c) (items text rules depth c.offset)

def ArrayBodyWalks (depth : Nat) (c : Cursor) : Prop :=
  In text c → Walks text (Json.arrayBody rules depth c) (arrayBody text rules depth c.offset)

def MembersWalk (depth : Nat) (c : Cursor) : Prop :=
  In text c → Walks text (Json.members rules depth c) (members text rules depth c.offset)

def ObjectBodyWalks (depth : Nat) (c : Cursor) : Prop :=
  In text c → Walks text (Json.objectBody rules depth c) (objectBody text rules depth c.offset)

end

section

variable {text : List Char} {rules : Rules} {depth : Nat} {c : Cursor}

theorem treeWalks_object {o : Nat} {rest : List Char}
    (ih : ObjectBodyWalks text rules (depth + 1) (Cursor.skipBlanks ⟨o + 1, rest⟩)) :
    TreeWalks text rules depth ⟨o, '{' :: rest⟩ := by
  intro h
  have hbody : In text ⟨o + 1, rest⟩ := h.byte rfl
  have hblanks : skipBlanks text (o + 1) = (Cursor.skipBlanks ⟨o + 1, rest⟩).offset :=
    hbody.skipBlanks_eq
  rw [Json.tree, tree, h.sees_cons (.single (by decide : '{'.toNat < 0x80)), if_pos (by rfl),
    hblanks]
  refine (enter_follows hbody rules.maxDepth).bind ?_
  intro _ _ _
  refine (ih hbody.skipBlanks).bind ?_
  rintro ⟨members, next, hlt⟩ - hnext
  exact .ok rfl hnext rfl

theorem treeWalks_array {o : Nat} {rest : List Char}
    (ih : ArrayBodyWalks text rules (depth + 1) (Cursor.skipBlanks ⟨o + 1, rest⟩)) :
    TreeWalks text rules depth ⟨o, '[' :: rest⟩ := by
  intro h
  have hbody : In text ⟨o + 1, rest⟩ := h.byte rfl
  have hblanks : skipBlanks text (o + 1) = (Cursor.skipBlanks ⟨o + 1, rest⟩).offset :=
    hbody.skipBlanks_eq
  rw [Json.tree, tree, h.sees_cons (.single (by decide : '{'.toNat < 0x80)), if_neg (by decide),
    h.sees_cons (.single (by decide : '['.toNat < 0x80)), if_pos (by rfl), hblanks]
  refine (enter_follows hbody rules.maxDepth).bind ?_
  intro _ _ _
  refine (ih hbody.skipBlanks).bind ?_
  rintro ⟨items, next, hlt⟩ - hnext
  exact .ok rfl hnext rfl

theorem treeWalks_scalar (hobject : ∀ o rest, c = ⟨o, '{' :: rest⟩ → False)
    (harray : ∀ o rest, c = ⟨o, '[' :: rest⟩ → False) : TreeWalks text rules depth c := by
  intro h
  rw [Json.tree, tree, h.not_sees (by decide) hobject, h.not_sees (by decide) harray]
  · refine (scalar_walks h rules.number?).bind ?_
    rintro ⟨s, next, hlt⟩ - hnext
    exact .ok rfl hnext rfl
  · exact hobject
  · exact harray

theorem itemsWalk (ih : TreeWalks text rules depth c)
    (ih' : ∀ afterItem : Cursor, afterItem.rest.length < c.rest.length →
      ∀ afterEnd : Cursor, afterEnd.rest.length < afterItem.skipBlanks.rest.length →
        ItemsWalk text rules depth afterEnd.skipBlanks) :
    ItemsWalk text rules depth c := by
  intro h
  rw [Json.items, items]
  refine (ih h).bind ?_
  rintro ⟨item, afterItem, h₁⟩ - hitem
  dsimp only at hitem ⊢
  rw [hitem.skipBlanks_eq]
  refine (itemEnd_walks hitem.skipBlanks).bind ?_
  rintro ⟨more, afterEnd, h₂⟩ - hend
  cases more with
  | false => exact .ok rfl hend rfl
  | true =>
    dsimp only at hend ⊢
    rw [if_pos rfl, if_pos rfl, hend.skipBlanks_eq]
    refine (ih' afterItem h₁ afterEnd h₂ hend.skipBlanks).bind ?_
    rintro ⟨others, next, h₃⟩ - hnext
    exact .ok rfl hnext rfl

theorem membersWalk {o : Nat} {rest : List Char}
    (ih : ∀ afterKey : Cursor, afterKey.rest.length < rest.length →
      ∀ afterColon : Cursor, afterColon.rest.length < afterKey.skipBlanks.rest.length →
        TreeWalks text rules depth afterColon.skipBlanks)
    (ih' : ∀ afterKey : Cursor, afterKey.rest.length < rest.length →
      ∀ afterColon : Cursor, afterColon.rest.length < afterKey.skipBlanks.rest.length →
        ∀ afterValue : Cursor, afterValue.rest.length < afterColon.skipBlanks.rest.length →
          ∀ afterEnd : Cursor, afterEnd.rest.length < afterValue.skipBlanks.rest.length →
            MembersWalk text rules depth afterEnd.skipBlanks) :
    MembersWalk text rules depth ⟨o, '"' :: rest⟩ := by
  intro h
  rw [Json.members, members, h.sees_cons (.single (by decide : '"'.toNat < 0x80)), if_pos (by rfl)]
  refine (string_walks h).bind ?_
  rintro ⟨name, afterKey, h₁⟩ - hkey
  dsimp only at hkey ⊢
  rw [hkey.skipBlanks_eq]
  refine (colon_follows hkey.skipBlanks).bind ?_
  rintro ⟨_, afterColon, h₂⟩ - hcolon
  dsimp only at hcolon ⊢
  rw [hcolon.skipBlanks_eq]
  refine (ih afterKey h₁ afterColon h₂ hcolon.skipBlanks).bind ?_
  rintro ⟨value, afterValue, h₃⟩ - hvalue
  dsimp only at hvalue ⊢
  rw [hvalue.skipBlanks_eq]
  refine (memberEnd_walks hvalue.skipBlanks).bind ?_
  rintro ⟨more, afterEnd, h₄⟩ - hend
  cases more with
  | false => exact .ok rfl hend rfl
  | true =>
    dsimp only at hend ⊢
    rw [if_pos rfl, if_pos rfl, hend.skipBlanks_eq]
    refine (ih' afterKey h₁ afterColon h₂ afterValue h₃ afterEnd h₄ hend.skipBlanks).bind ?_
    rintro ⟨others, next, h₅⟩ - hnext
    exact .ok rfl hnext rfl

/-- Values are read alike by offsets and by cursors. -/
theorem treeWalks (text : List Char) (rules : Rules) (depth : Nat) (c : Cursor) :
    TreeWalks text rules depth c := by
  refine Json.tree.induct (TreeWalks text rules) (ArrayBodyWalks text rules) (ItemsWalk text rules)
    (ObjectBodyWalks text rules) (MembersWalk text rules) ?_ ?_ ?_ ?_ ?_ ?_ ?_ ?_ ?_ ?_ depth c
  · intro depth o rest ih
    exact treeWalks_object ih
  · intro depth o rest ih
    exact treeWalks_array ih
  · intro depth c hobject harray
    exact treeWalks_scalar hobject harray
  · intro depth o rest h
    rw [Json.arrayBody, arrayBody, h.sees_cons (.single (by decide : ']'.toNat < 0x80))]
    exact .ok rfl (h.byte rfl) rfl
  · intro depth c hclose ih h
    rw [Json.arrayBody, arrayBody, h.not_sees (by decide) hclose]
    · exact ih h
    · exact hclose
  · intro depth c ih ih'
    exact itemsWalk ih ih'
  · intro depth o rest h
    rw [Json.objectBody, objectBody, h.sees_cons (.single (by decide : '}'.toNat < 0x80))]
    exact .ok rfl (h.byte rfl) rfl
  · intro depth c hclose ih h
    rw [Json.objectBody, objectBody, h.not_sees (by decide) hclose]
    · exact ih h
    · exact hclose
  · intro depth o rest ih ih'
    exact membersWalk ih ih'
  · intro depth c hquote h
    rw [Json.members, members, h.not_sees (by decide) hquote]
    · exact .unexpected h _
    · exact hquote

theorem finish_follows (h : In text c) :
    Follows text (fun _ => c) id (Json.finish c) (finish text c.offset) := by
  have hlength := h.skipBlanks.offset_add
  unfold Json.finish finish
  rw [h.skipBlanks_eq]
  cases hrest : c.skipBlanks.rest with
  | nil =>
    have hend : ¬ c.skipBlanks.offset < byteLength text := by
      rw [hrest, byteLength_nil] at hlength
      omega
    rw [if_neg hend]
    exact .ok rfl h rfl
  | cons x rest =>
    have hmore : c.skipBlanks.offset < byteLength text := by
      have hsize := x.utf8Size_pos
      rw [hrest, byteLength_cons] at hlength
      omega
    rw [if_pos hmore]
    exact .fail

theorem checkSize_follows (h : In text c) (maxSize : Option Nat) :
    Follows text (fun _ => c) id (Json.checkSize maxSize text) (checkSize maxSize text) := by
  unfold Json.checkSize checkSize
  cases exceeded? maxSize (byteLength text) with
  | some limit => exact .error rfl rfl
  | none => exact .ok rfl h rfl

end

/-- A text is read alike by offsets and by cursors, and a fault is reported with the line and column
    that belong to it. -/
theorem read_eq (limits : Limits) (text : List Char) :
    read limits text = some ((Json.read limits text).mapError (report text)) := by
  have hstart : In text (.atStart text) := in_atStart text
  have hblanks : skipBlanks text 0 = (Cursor.atStart text).skipBlanks.offset := hstart.skipBlanks_eq
  have hfollows : Follows text (fun _ => .atStart text) id (Json.read limits text)
      (read limits text) := by
    unfold Json.read read readBy
    rw [hblanks]
    refine (checkSize_follows hstart limits.maxSize).bind ?_
    intro _ _ _
    refine (treeWalks text limits.rules 0 _ hstart.skipBlanks).bind ?_
    rintro ⟨t, next, hlt⟩ - hnext
    refine (finish_follows hnext).bind ?_
    intro _ _ _
    exact .ok rfl hstart rfl
  cases hfollows with
  | ok hread _ heq =>
    rw [hread, heq]
    rfl
  | error hread heq =>
    rw [hread, heq]
    rfl

/-! ## What a tree points to -/

theorem scalarText_of_located {denotes : Numeral → Number → Prop} {o : Nat} {part : List Char}
    {span : Span} {x : Scalar} (h : Located denotes o part (.value (.leaf span x))) :
    ScalarText denotes part x := by
  cases h with
  | scalar h => exact h

theorem isSome_charsBetween_of_cut {text piece : List Char} {span : Span}
    (h : Cut text span piece) :
    (charsBetween text span.start span.stop).isSome :=
  Option.isSome_iff_exists.2 ⟨piece, charsBetween_eq_some_iff.2 h⟩

/-- What stands between the quotes of a string, or the whole text of any other value. -/
theorem content_cut_of_node {limits : Limits} {text : List Char} {t w : Tree}
    (h : Json.read limits text = .ok t) (hw : w ∈ t.nodes) : ∃ piece, Cut text w.content piece := by
  obtain ⟨-, b₁, s, b₂, rfl, -, -, hloc, -⟩ := read_eq_ok_iff.1 h
  rw [← Nat.zero_add (byteLength b₁)] at hloc
  obtain ⟨-, hpart⟩ := hloc.node hw
  obtain ⟨part, hcut, -, hloc⟩ := (hpart.inside b₁ b₂ rfl).cut fun _ _ hw => hw.span
  cases w with
  | array span items => exact ⟨part, hcut⟩
  | object span members => exact ⟨part, hcut⟩
  | leaf span scalar =>
    cases scalar with
    | null => exact ⟨part, hcut⟩
    | bool b => exact ⟨part, hcut⟩
    | number n => exact ⟨part, hcut⟩
    | string x =>
      -- the quotes are not part of the content
      obtain ⟨k, cs, rfl, -, -⟩ := (scalarText_of_located hloc).eq_quoted
      exact ⟨k, cut_inner hcut⟩

/-- No text makes an access fail. Whatever the text and the limits, it is read and scanned by
    offsets with every byte and every slice that is asked for there; so is a closing bracket from
    every offset, and the end of a string from every offset of the text. And the content of every
    value and of every key of a tree that was read can be cut out of the text. -/
theorem accesses_granted (text : List Char) :
    (∀ limits, read limits text = some ((Json.read limits text).mapError (report text)))
      ∧ schemasRegion text = some (Scan.schemasRegion text)
      ∧ (∀ least, arrayRegions least text = some (Scan.arrayRegions least text))
      ∧ (∀ d start, matchingClose d text start = some (Scan.matchingClose d text start))
      ∧ (∀ pos, pos ≤ byteLength text → skipString text pos
        = some ((Scan.afterString (Cursor.ofOffset text pos)).map (·.offset)))
      ∧ ∀ limits t, Json.read limits text = .ok t →
        (∀ w ∈ t.nodes, (charsBetween text w.content.start w.content.stop).isSome)
          ∧ ∀ k ∈ t.keys, (charsBetween text k.content.start k.content.stop).isSome := by
  refine ⟨fun limits => read_eq limits text, schemasRegion_eq text,
    fun least => arrayRegions_eq least text, fun d start => matchingClose_eq d text start,
    fun pos hpos => skipString_eq (near_ofOffset hpos), fun limits t hread => ⟨?_, ?_⟩⟩
  · intro w hw
    obtain ⟨piece, hcut⟩ := content_cut_of_node hread hw
    exact isSome_charsBetween_of_cut hcut
  · intro k hk
    obtain ⟨piece, -, hcut, -⟩ := content_cut_of_read hread hk
    exact isSome_charsBetween_of_cut hcut

/-- A string with a character of two bytes. -/
def accented : List Char :=
  ['[', '"', 'é', '"', ']']

theorem accesses_granted_accented :
    skipString accented 3 = some (some 5) ∧ (charsBetween accented 2 4).isSome
      ∧ charsBetween accented 2 3 = none := by
  obtain ⟨-, -, -, -, hskip, hcontent⟩ := accesses_granted accented
  have hread : Json.read .standard accented
      = .ok (.array ⟨0, 6⟩ [.leaf ⟨1, 5⟩ (.string "é")]) := by
    with_unfolding_all rfl
  refine ⟨hskip 3 (by decide), ?_, by decide⟩
  exact (hcontent _ _ hread).1 (.leaf ⟨1, 5⟩ (.string "é")) (.tail _ (.head _))

end BimEditor.Bytes
