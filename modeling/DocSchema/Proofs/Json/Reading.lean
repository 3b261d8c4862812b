import DocSchema.Json.Reader
import DocSchema.Proofs.Json.Canonical
import DocSchema.Proofs.Json.Tokens

/-!
# Written texts read back

The reader puts the tokens of a value together to a tree of the value, with the members in the order in which they were
written. Under a limit on the nesting, the containers below the limit are unreadable, so a value comes back if and only
if it is not nested more deeply than that.
-/

namespace DocSchema

namespace Json

/-! ## Nesting -/

mutual

/-- How deeply containers are nested in the value. -/
def nesting : Json → Nat
  | .arr items => itemNesting items + 1
  | .obj members => memberNesting members + 1
  | _ => 0

def itemNesting : List Json → Nat
  | [] => 0
  | v :: rest => max (nesting v) (itemNesting rest)

def memberNesting : List (String × Json) → Nat
  | [] => 0
  | (_, v) :: rest => max (nesting v) (memberNesting rest)

end

theorem nesting_le_itemNesting {items : List Json} {v : Json} (member : v ∈ items) :
    v.nesting ≤ itemNesting items := by
  induction items with
  | nil => cases member
  | cons w rest ih =>
    rw [itemNesting]
    rcases List.mem_cons.1 member with rfl | member
    · exact Nat.le_max_left ..
    · exact (ih member).trans (Nat.le_max_right ..)

/-- The nesting of a container comes from one of its items. -/
theorem exists_nesting_eq {items : List Json} (nested : itemNesting items ≠ 0) :
    ∃ v ∈ items, v.nesting = itemNesting items := by
  induction items with
  | nil => exact absurd rfl nested
  | cons w rest ih =>
    rw [itemNesting] at nested ⊢
    rcases Nat.le_total w.nesting (itemNesting rest) with below | above
    · rw [Nat.max_eq_right below] at nested ⊢
      obtain ⟨v, member, same⟩ := ih nested
      exact ⟨v, List.mem_cons_of_mem w member, same⟩
    · rw [Nat.max_eq_left above]
      exact ⟨w, List.mem_cons_self, rfl⟩

theorem memberNesting_eq (members : Members) : memberNesting members = itemNesting (members.map Prod.snd) := by
  induction members with
  | nil => rfl
  | cons m rest ih => rw [memberNesting, ih, List.map_cons, itemNesting]

/-! ## Trees under a limit -/

section Limit

variable (limit : Option Nat)

mutual

/-- The tree of a value that stands inside of `depth` containers. -/
def treeAt (depth : Nat) : Json → Tree
  | .null => .null
  | .bool b => .bool b
  | .num n => .num n
  | .str s => .str s
  | .arr items => Reader.within limit (depth + 1) (.arr (itemTreesAt (depth + 1) items))
  | .obj members => Reader.within limit (depth + 1) (.obj (memberTreesAt (depth + 1) members))

def itemTreesAt (depth : Nat) : List Json → List Tree
  | [] => []
  | v :: rest => treeAt depth v :: itemTreesAt depth rest

def memberTreesAt (depth : Nat) : List (String × Json) → List (String × Tree)
  | [] => []
  | (name, v) :: rest => (name, treeAt depth v) :: memberTreesAt depth rest

end

theorem itemTreesAt_eq (depth : Nat) (items : List Json) :
    itemTreesAt limit depth items = items.map (treeAt limit depth) := by
  induction items with
  | nil => rfl
  | cons v rest ih => rw [itemTreesAt, ih, List.map_cons]

theorem memberTreesAt_eq (depth : Nat) (members : Members) :
    memberTreesAt limit depth members = members.map fun m => (m.1, treeAt limit depth m.2) := by
  induction members with
  | nil => rfl
  | cons m rest ih => rw [memberTreesAt, ih, List.map_cons]

/-! ## Reading the tokens of a value -/

/-- The reader after these tokens. -/
def Reader.run (r : Reader) (tokens : List Token) : Option Reader :=
  tokens.foldlM (step limit) r

variable {limit} in
theorem Reader.run_cons {r r' : Reader} {t : Token} (read : step limit r t = some r') (rest : List Token) :
    run limit r (t :: rest) = run limit r' rest := by
  rw [run, List.foldlM_cons, read]
  rfl

variable {limit} in
theorem Reader.run_append {r r' : Reader} {tokens : List Token} (read : run limit r tokens = some r')
    (rest : List Token) : run limit r (tokens ++ rest) = run limit r' rest := by
  rw [run] at read
  rw [run, List.foldlM_append, read]
  rfl

/-- How the reader takes a kind of container: what opens and what closes it, what may come first and what behind a
comma. -/
structure Reader.Takes {β : Type} (frame : List β → Frame) (build : List β → Tree) (opening closing : Token)
    (first next : Expectation) : Prop where
  opens : ∀ outer, step limit ⟨outer, .value⟩ opening = some ⟨frame [] :: outer, first⟩
  start : ∀ outer t, t ≠ closing → step limit ⟨frame [] :: outer, first⟩ t = step limit ⟨frame [] :: outer, next⟩ t
  comma : ∀ acc outer, step limit ⟨frame acc :: outer, .separator⟩ .comma = some ⟨frame acc :: outer, next⟩
  empty : ∀ outer, step limit ⟨frame [] :: outer, first⟩ closing =
    some (finish (within limit (outer.length + 1) (build [])) outer)
  closes : ∀ acc outer, step limit ⟨frame acc :: outer, .separator⟩ closing =
    some (finish (within limit (outer.length + 1) (build acc.reverse)) outer)

theorem Reader.takes_array : Takes limit .array .arr .beginArray .endArray .firstItem .value where
  opens _ := rfl
  start _ _ other := if_neg other
  comma _ _ := rfl
  empty _ := rfl
  closes _ _ := rfl

theorem Reader.takes_object :
    Takes limit (fun members => .object (some members) none) .obj .beginObject .endObject .firstName .name where
  opens _ := rfl
  start _ _ other := if_neg other
  comma _ _ := rfl
  empty _ := rfl
  closes _ _ := rfl

section Containers

variable {limit} {α β : Type} {frame : List β → Frame} {build : List β → Tree} {opening closing : Token}
  {first next : Expectation} (takes : Reader.Takes limit frame build opening closing first next)
  {part : α → List Token} {tree : α → β} {as : List α} {outer : List Frame}
  (each : ∀ a ∈ as, ∀ acc, Reader.run limit ⟨frame acc :: outer, next⟩ (part a) =
    some ⟨frame (tree a :: acc) :: outer, .separator⟩)
include takes each

/-- Parts with commas between them are put into the innermost container one after the other. -/
theorem run_intercalate (filled : as ≠ []) (acc : List β) :
    Reader.run limit ⟨frame acc :: outer, next⟩ (List.intercalate [.comma] (as.map part)) =
      some ⟨frame ((as.map tree).reverse ++ acc) :: outer, .separator⟩ := by
  induction as generalizing acc with
  | nil => exact absurd rfl filled
  | cons a rest ih =>
    obtain ⟨here, each⟩ := List.forall_mem_cons.1 each
    cases rest with
    | nil =>
      rw [List.map_singleton, List.intercalate_singleton, here]
      rfl
    | cons b rest =>
      have later := ih each nofun (tree a :: acc)
      rw [List.map_cons] at later
      rw [List.map_cons, List.map_cons, List.intercalate_cons_cons, List.append_assoc,
        Reader.run_append (here acc), List.singleton_append, Reader.run_cons (takes.comma _ _), later]
      simp

/-- A container is read as a value, if no part of it begins like its end. -/
theorem run_container (heads : ∀ a ∈ as, ∃ t rest, part a = t :: rest ∧ t ≠ closing) :
    Reader.run limit ⟨outer, .value⟩ (opening :: (List.intercalate [.comma] (as.map part) ++ [closing])) =
      some (Reader.finish (Reader.within limit (outer.length + 1) (build (as.map tree))) outer) := by
  rw [Reader.run_cons (takes.opens outer)]
  cases as with
  | nil => exact Reader.run_cons (takes.empty outer) []
  | cons a rest =>
    -- The first part does not begin like the end of the container, so it is read as one behind a comma.
    have inside := run_intercalate takes each nofun []
    obtain ⟨t, later, start, other⟩ := heads a List.mem_cons_self
    have behind : ∃ text, List.intercalate [.comma] ((a :: rest).map part) = t :: text := by
      cases rest <;> simp [start, List.intercalate_cons_cons]
    obtain ⟨text, parts⟩ := behind
    have same : Reader.run limit ⟨frame [] :: outer, first⟩ (t :: text) =
        Reader.run limit ⟨frame [] :: outer, next⟩ (t :: text) := by
      rw [Reader.run, List.foldlM_cons, takes.start outer t other]
      rfl
    rw [parts] at inside ⊢
    rw [Reader.run_append (same.trans inside), Reader.run_cons (takes.closes _ _), List.append_nil,
      List.reverse_reverse]
    rfl

end Containers

/-- A value does not begin with the end of an array. -/
theorem exists_tokens_eq_cons (v : Json) : ∃ t rest, v.tokens = t :: rest ∧ t ≠ .endArray := by
  cases v <;> exact ⟨_, _, rfl, by nofun⟩

/-- The reader makes the tree of a value from its tokens, and goes on behind the value. -/
theorem run_tokens (v : Json) (outer : List Frame) :
    Reader.run limit ⟨outer, .value⟩ v.tokens = some (Reader.finish (treeAt limit outer.length v) outer) := by
  induction v using Json.induct generalizing outer with
  | null | bool | num | str => rfl
  | arr items inside =>
    rw [tokens, itemTokens_eq, treeAt, itemTreesAt_eq]
    refine run_container (Reader.takes_array limit) (fun v member acc => ?_) fun v _ => v.exists_tokens_eq_cons
    exact inside v member (.array acc :: outer)
  | obj members inside =>
    rw [tokens, memberTokens_eq, treeAt, memberTreesAt_eq]
    refine run_container (Reader.takes_object limit) (fun m member acc => ?_) fun _ _ => ⟨_, _, rfl, by simp⟩
    have name : Reader.step limit ⟨.object (some acc) none :: outer, .name⟩ (.string (some m.1)) =
      some ⟨.object (some acc) (some m.1) :: outer, .colon⟩ := rfl
    have colon : Reader.step limit ⟨.object (some acc) (some m.1) :: outer, .colon⟩ .colon =
      some ⟨.object (some acc) (some m.1) :: outer, .value⟩ := rfl
    rw [Reader.run_cons name, Reader.run_cons colon]
    exact inside m.1 m.2 member _

/-- The tokens of a value are read as its tree. -/
theorem ofTokens?_tokens (v : Json) : Tree.ofTokens? limit v.tokens = some (treeAt limit 0 v) := by
  have read := v.run_tokens limit []
  rw [Reader.run] at read
  rw [Tree.ofTokens?, Reader.start, read]
  rfl

/-- The text of a value is read as its tree, in every layout. -/
theorem ofText?_write {layout : Layout} (blank : Scan.IsBlankLayout layout) {v : Json} (fits : v.Fits) :
    Tree.ofText? limit (String.ofList (write layout 0 v)) = some (treeAt limit 0 v) := by
  rw [Tree.ofText?, String.toList_ofList, tokens?_write blank fits]
  exact v.ofTokens?_tokens limit

end Limit

/-! ## What the limit leaves -/

/-- A container at this depth is within the limit. -/
def Reader.Allows (limit : Option Nat) (depth : Nat) : Prop :=
  ∀ most, limit = some most → depth ≤ most

theorem Reader.Allows.mono {limit : Option Nat} {depth below : Nat} (allows : Allows limit below)
    (above : depth ≤ below) : Allows limit depth :=
  fun most limited => above.trans (allows most limited)

theorem Reader.within_eq {limit : Option Nat} {depth : Nat} (allows : Allows limit depth) (t : Tree) :
    within limit depth t = t := by
  cases limit with
  | none => rfl
  | some most => exact if_pos (allows most rfl)

/-- Within the limit the tree is that of the value. -/
theorem treeAt_eq_ofJson {limit : Option Nat} {depth : Nat} {v : Json}
    (allows : Reader.Allows limit (depth + v.nesting)) : treeAt limit depth v = .ofJson v := by
  induction v using Json.induct generalizing depth with
  | null | bool | num | str => rfl
  | arr items inside =>
    rw [nesting] at allows
    have same : items.map (treeAt limit (depth + 1)) = items.map Tree.ofJson := by
      refine List.map_congr_left fun v member => inside v member (allows.mono ?_)
      have := nesting_le_itemNesting member
      omega
    rw [treeAt, itemTreesAt_eq, same, Reader.within_eq (allows.mono (by omega)), Tree.ofJson, Tree.ofItems_eq]
  | obj members inside =>
    rw [nesting, memberNesting_eq] at allows
    have same : members.map (fun m => (m.1, treeAt limit (depth + 1) m.2)) =
        members.map fun m => (m.1, .ofJson m.2) := by
      refine List.map_congr_left fun m member => Prod.ext rfl (inside m.1 m.2 member (allows.mono ?_))
      have := nesting_le_itemNesting (List.mem_map_of_mem (f := Prod.snd) member)
      omega
    rw [treeAt, memberTreesAt_eq, same, Reader.within_eq (allows.mono (by omega)), Tree.ofJson, Tree.ofMembers_eq]

theorem Reader.within_some (most depth : Nat) (t : Tree) :
    within (some most) depth t = if depth ≤ most then t else .unreadable := rfl

theorem Reader.value?_within {most depth : Nat} {t : Tree} (unreadable : depth ≤ most → t.value? = none) :
    (within (some most) depth t).value? = none := by
  rw [within_some]
  split
  · next above => exact unreadable above
  · rfl

/-- A value that is nested more deeply than the limit has an unreadable part. -/
theorem value?_treeAt_eq_none {most depth : Nat} {v : Json} (nested : v.nesting ≠ 0)
    (deep : most < depth + v.nesting) : (treeAt (some most) depth v).value? = none := by
  induction v using Json.induct generalizing depth with
  | null | bool | num | str => exact absurd rfl nested
  | arr items inside =>
    rw [nesting] at deep
    rw [treeAt, itemTreesAt_eq]
    refine Reader.value?_within fun above => ?_
    -- The container itself is readable, so it is its deepest item that is not.
    obtain ⟨v, member, same⟩ := exists_nesting_eq (show itemNesting items ≠ 0 by omega)
    have fails : (treeAt (some most) (depth + 1) v).value? = none := inside v member (by omega) (by omega)
    rw [Tree.value?, Tree.itemValues?_eq, mapM_eq_none (List.mem_map_of_mem member) fails]
    rfl
  | obj members inside =>
    rw [nesting, memberNesting_eq] at deep
    rw [treeAt, memberTreesAt_eq]
    refine Reader.value?_within fun above => ?_
    obtain ⟨_, held, same⟩ := exists_nesting_eq (show itemNesting (members.map Prod.snd) ≠ 0 by omega)
    obtain ⟨⟨name, v⟩, member, rfl⟩ := List.mem_map.1 held
    dsimp only at same
    have fails : (treeAt (some most) (depth + 1) v).value? = none := inside name v member (by omega) (by omega)
    rw [Tree.value?, Tree.memberValues?_eq, mapM_eq_none (List.mem_map_of_mem member) (by rw [fails]; rfl)]
    rfl

/-- The text of a value is read as the value in canonical form, in every layout. -/
theorem ofText?_ofList_write {layout : Layout} (blank : Scan.IsBlankLayout layout) {v : Json} (fits : v.Fits) :
    ofText? (String.ofList (write layout 0 v)) = some v.canonical := by
  rw [ofText?, ofText?_write none blank fits, treeAt_eq_ofJson (by rintro _ ⟨⟩), Option.bind_some, Tree.value?_ofJson]

theorem ofText?_text {v : Json} (fits : v.Fits) : ofText? v.text = some v.canonical :=
  ofText?_ofList_write Scan.isBlankLayout_compact fits

end Json

end DocSchema
