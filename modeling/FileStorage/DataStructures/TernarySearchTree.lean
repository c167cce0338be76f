import FileStorage.Basic
import Mathlib.Logic.Basic

/-! # The ternary search tree

`gnl_ternary_search_tree_t.c`. A key is the list of characters of a C string
without its terminating NUL; the characters are compared as `char`. A null
pointer is `nil`. The functions below the public ones take a key as its first
character and the rest, since they are only called on strings that do not end.
-/

namespace FileStorage

inductive TernarySearchTree (α : Type) where
  | nil
  | node (key : Int8) (data : Option α) (left mid right : TernarySearchTree α)
  deriving DecidableEq

namespace TernarySearchTree

variable {α : Type}

/-- The tree that `gnl_ternary_search_tree_put` builds below a null pointer: each
    remaining character gets a new node hanging from the middle of the last. -/
def chain : Int8 → List Int8 → α → TernarySearchTree α
  | c, [], el => .node c (some el) .nil .nil .nil
  | c, next :: rest, el => .node c none .nil (chain next rest el) .nil

def putNode : TernarySearchTree α → Int8 → List Int8 → α → TernarySearchTree α
  | .nil, c, cs, el => chain c cs el
  | .node key data left mid right, c, cs, el =>
      if c < key then .node key data (putNode left c cs el) mid right
      else if key < c then .node key data left mid (putNode right c cs el)
      else match cs with
        | [] => .node key (some el) left mid right
        | next :: rest => .node key data left (putNode mid next rest el) right

/-- `gnl_ternary_search_tree_put`; `none` is the return value -1 for an empty key. -/
def put (t : TernarySearchTree α) : List Int8 → α → Option (TernarySearchTree α)
  | [], _ => none
  | c :: cs, el => some (putNode t c cs el)

def getNode : TernarySearchTree α → Int8 → List Int8 → Option α
  | .nil, _, _ => none
  | .node key data left mid right, c, cs =>
      if c < key then getNode left c cs
      else if key < c then getNode right c cs
      else match cs with
        | [] => data
        | next :: rest => getNode mid next rest

/-- `gnl_ternary_search_tree_get`. No node has the character NUL, so the empty
    string is never found. -/
def get (t : TernarySearchTree α) : List Int8 → Option α
  | [] => none
  | c :: cs => getNode t c cs

def hasChild : TernarySearchTree α → Bool
  | .node _ _ .nil .nil .nil => false
  | .nil => false
  | _ => true

/-- `remove_node`: the tree after the removal and whether its root is to be freed
    by the caller. `none` is a null pointer dereference. -/
def removeNode : TernarySearchTree α → Int8 → List Int8 → Option (TernarySearchTree α × Bool)
  | .nil, _, _ => none
  | .node key data left mid right, c, cs =>
      if c < key then
        (removeNode left c cs).map fun (left', _) => (.node key data left' mid right, false)
      else if key < c then
        (removeNode right c cs).map fun (right', _) => (.node key data left mid right', false)
      else match cs with
        | [] =>
            let bare := .node key none left mid right
            match data with
            | some _ => some (bare, !bare.hasChild)
            | none => some (bare, false)
        | next :: rest =>
            (removeNode mid next rest).map fun (mid', dead) =>
              if dead then
                let pruned := .node key data left .nil right
                (pruned, data.isNone && !pruned.hasChild)
              else (.node key data left mid' right, false)

/-- `gnl_ternary_search_tree_remove` on a tree that is not null. -/
def remove (t : TernarySearchTree α) : List Int8 → Option (TernarySearchTree α)
  | [] => none
  | c :: cs => (removeNode t c cs).map Prod.fst

/-! ## The tree as a finite map -/

theorem char_eq {a b : Int8} (notLess : ¬ a < b) (notGreater : ¬ b < a) : a = b := by
  rw [Int8.lt_iff_toInt_lt] at notLess notGreater
  exact Int8.toInt_inj.mp (by omega)

theorem char_irrefl (a : Int8) : ¬ a < a := by
  rw [Int8.lt_iff_toInt_lt]
  omega

theorem getNode_chain (c d : Int8) (cs ds : List Int8) (el : α) :
    getNode (chain c cs el) d ds = if d = c ∧ ds = cs then some el else none := by
  induction cs generalizing c d ds with
  | nil =>
      simp only [chain, getNode]
      grind [char_eq, char_irrefl]
  | cons next rest ih =>
      simp only [chain, getNode]
      cases ds with
      | nil => grind [char_eq]
      | cons e es => grind [char_eq, char_irrefl]

theorem getNode_putNode (t : TernarySearchTree α) (c d : Int8) (cs ds : List Int8) (el : α) :
    getNode (putNode t c cs el) d ds = if d = c ∧ ds = cs then some el else getNode t d ds := by
  induction t generalizing c d cs ds with
  | nil => simp [putNode, getNode, getNode_chain]
  | node key data left mid right ihl ihm ihr =>
      simp only [putNode]
      split
      · simp only [getNode, ihl]
        grind [char_eq, char_irrefl]
      · split
        · simp only [getNode, ihr]
          grind [char_eq, char_irrefl]
        · have same : c = key := char_eq ‹_› ‹_›
          cases cs with
          | nil =>
              simp only [getNode]
              cases ds <;> grind [char_eq, char_irrefl]
          | cons next rest =>
              simp only [getNode]
              cases ds <;> grind [char_eq, char_irrefl]

theorem getNode_of_dead {data : Option α} {key : Int8} {left mid right : TernarySearchTree α}
    (noData : data = none) (noChild : (node key data left mid right).hasChild = false)
    (d : Int8) (ds : List Int8) : getNode (node key data left mid right) d ds = none := by
  cases left <;> cases mid <;> cases right <;> simp [hasChild] at noChild
  subst noData
  cases ds <;> simp [getNode]

private theorem removeNode_dead {t t' : TernarySearchTree α} {c : Int8} {cs : List Int8}
    (removed : removeNode t c cs = some (t', true)) (d : Int8) (ds : List Int8) :
    getNode t' d ds = none := by
  cases t with
  | nil => simp [removeNode] at removed
  | node key data left mid right =>
      simp only [removeNode] at removed
      split at removed
      · simp at removed
      · split at removed
        · simp at removed
        · cases cs with
          | nil =>
              cases data with
              | none => simp at removed
              | some el =>
                  simp only [Option.some.injEq, Prod.mk.injEq, Bool.not_eq_true'] at removed
                  obtain ⟨rfl, bare⟩ := removed
                  exact getNode_of_dead rfl bare d ds
          | cons next rest =>
              simp only [Option.map_eq_some_iff, Prod.exists] at removed
              obtain ⟨mid', dead, _, shape⟩ := removed
              cases dead with
              | false => simp at shape
              | true =>
                  simp only [if_true, Prod.mk.injEq, Bool.and_eq_true, Option.isNone_iff_eq_none,
                    Bool.not_eq_true'] at shape
                  obtain ⟨rfl, noData, bare⟩ := shape
                  exact getNode_of_dead noData bare d ds

theorem getNode_removeNode {t t' : TernarySearchTree α} {c : Int8} {cs : List Int8} {dead : Bool}
    (removed : removeNode t c cs = some (t', dead)) (d : Int8) (ds : List Int8) :
    getNode t' d ds = if d = c ∧ ds = cs then none else getNode t d ds := by
  induction t generalizing t' c cs dead d ds with
  | nil => simp [removeNode] at removed
  | node key data left mid right ihl ihm ihr =>
      simp only [removeNode] at removed
      split at removed
      · simp only [Option.map_eq_some_iff, Prod.exists, Prod.mk.injEq] at removed
        obtain ⟨left', _, inner, rfl, _⟩ := removed
        simp only [getNode, ihl inner]
        grind [char_eq, char_irrefl]
      · split at removed
        · simp only [Option.map_eq_some_iff, Prod.exists, Prod.mk.injEq] at removed
          obtain ⟨right', _, inner, rfl, _⟩ := removed
          simp only [getNode, ihr inner]
          grind [char_eq, char_irrefl]
        · have same : c = key := char_eq ‹_› ‹_›
          cases cs with
          | nil =>
              have bare : t' = node key none left mid right := by
                cases data <;> simp_all
              subst bare
              cases ds <;> simp only [getNode] <;> grind [char_eq, char_irrefl]
          | cons next rest =>
              simp only [Option.map_eq_some_iff, Prod.exists] at removed
              obtain ⟨mid', dead', inner, shape⟩ := removed
              cases dead' with
              | false =>
                  simp only [Bool.false_eq_true, if_false, Prod.mk.injEq] at shape
                  obtain ⟨rfl, _⟩ := shape
                  cases ds with
                  | nil => simp only [getNode]; grind [char_eq, char_irrefl]
                  | cons e es =>
                      simp only [getNode, ihm inner]
                      grind [char_eq, char_irrefl]
              | true =>
                  simp only [if_true, Prod.mk.injEq] at shape
                  obtain ⟨rfl, _⟩ := shape
                  cases ds with
                  | nil => simp only [getNode]; grind [char_eq, char_irrefl]
                  | cons e es =>
                      have gone := removeNode_dead inner e es
                      rw [ihm inner] at gone
                      simp only [getNode]
                      grind [char_eq, char_irrefl]

/-- Removing a key that is present never dereferences a null pointer. -/
theorem removeNode_isSome {t : TernarySearchTree α} {c : Int8} {cs : List Int8} {el : α}
    (present : getNode t c cs = some el) : (removeNode t c cs).isSome := by
  induction t generalizing c cs with
  | nil => simp [getNode] at present
  | node key data left mid right ihl ihm ihr =>
      simp only [getNode] at present
      simp only [removeNode]
      split at present
      · simp [*, ihl present]
      · split at present
        · simp [*, ihr present]
        · rw [if_neg ‹_›, if_neg ‹_›]
          cases cs with
          | nil => subst present; simp
          | cons next rest => simpa using ihm present

theorem get_put {t t' : TernarySearchTree α} {key : List Int8} {el : α}
    (added : t.put key el = some t') (other : List Int8) :
    t'.get other = if other = key then some el else t.get other := by
  cases key with
  | nil => simp [put] at added
  | cons c cs =>
      simp only [put, Option.some.injEq] at added
      subst added
      cases other with
      | nil => simp [get]
      | cons d ds => simp [get, getNode_putNode]

theorem get_remove {t t' : TernarySearchTree α} {key : List Int8}
    (removed : t.remove key = some t') (other : List Int8) :
    t'.get other = if other = key then none else t.get other := by
  cases key with
  | nil => simp [remove] at removed
  | cons c cs =>
      simp only [remove, Option.map_eq_some_iff, Prod.exists] at removed
      obtain ⟨t'', dead, inner, rfl⟩ := removed
      cases other with
      | nil => simp [get]
      | cons d ds => simp [get, getNode_removeNode inner]

theorem remove_isSome {t : TernarySearchTree α} {key : List Int8} {el : α}
    (present : t.get key = some el) : ∃ t', t.remove key = some t' := by
  cases key with
  | nil => simp [get] at present
  | cons c cs =>
      obtain ⟨⟨t', dead⟩, inner⟩ := Option.isSome_iff_exists.mp (removeNode_isSome present)
      exact ⟨t', by simp [remove, inner]⟩

/-! ## Sequences of changes -/

/-- A call that changes the tree. -/
inductive Change (α : Type) where
  | put (key : List Int8) (el : α)
  | remove (key : List Int8)

def change (t : TernarySearchTree α) : Change α → Option (TernarySearchTree α)
  | .put key el => t.put key el
  | .remove key => t.remove key

/-- What the callers check: keys are not empty, and removed keys are present. -/
def Allowed (t : TernarySearchTree α) : List (Change α) → Prop
  | [] => True
  | c :: history => (match c with
      | .put key _ => key ≠ []
      | .remove key => t.get key ≠ none) ∧ ∀ t', t.change c = some t' → t'.Allowed history

/-- The value of a key after a call, from its value before. -/
def latest (key : List Int8) (last : Option α) : Change α → Option α
  | .put other el => if key = other then some el else last
  | .remove other => if key = other then none else last

/-- The value of the last put of a key that no remove of it follows. -/
def lastPut (history : List (Change α)) (key : List Int8) : Option α :=
  history.foldl (latest key) none

theorem get_change {t t' : TernarySearchTree α} {c : Change α} (changed : t.change c = some t')
    (key : List Int8) : t'.get key = latest key (t.get key) c := by
  cases c with
  | put other el => exact get_put changed key
  | remove other => exact get_remove changed key

theorem change_isSome {t : TernarySearchTree α} {c : Change α} {history : List (Change α)}
    (allowed : t.Allowed (c :: history)) : ∃ t', t.change c = some t' := by
  cases c with
  | put key el =>
      cases key with
      | nil => exact absurd rfl allowed.1
      | cons first rest => exact ⟨_, rfl⟩
  | remove key =>
      obtain ⟨el, present⟩ := Option.ne_none_iff_exists'.mp allowed.1
      exact remove_isSome present

theorem foldlM_change {t : TernarySearchTree α} {history : List (Change α)}
    (allowed : t.Allowed history) : ∃ t', history.foldlM change t = some t' ∧
      ∀ key, t'.get key = history.foldl (latest key) (t.get key) := by
  induction history generalizing t with
  | nil => exact ⟨t, rfl, fun _ => rfl⟩
  | cons c history ih =>
      obtain ⟨next, changed⟩ := change_isSome allowed
      obtain ⟨last, run, found⟩ := ih (allowed.2 next changed)
      refine ⟨last, ?_, fun key => ?_⟩
      · rw [List.foldlM_cons, changed]
        exact run
      · rw [found, get_change changed, List.foldl_cons]

/-- The tree is a finite map: no allowed call fails, and a key always leads to the
    value of its last put. -/
theorem get_eq_lastPut {history : List (Change α)}
    (allowed : (nil : TernarySearchTree α).Allowed history) :
    ∃ t, history.foldlM change nil = some t ∧ ∀ key, t.get key = lastPut history key := by
  obtain ⟨t, run, found⟩ := foldlM_change allowed
  refine ⟨t, run, fun key => ?_⟩
  rw [found]
  cases key <;> rfl

/-- Two keys that share a prefix, the shorter one removed again. -/
theorem get_eq_lastPut_prefix :
    (nil : TernarySearchTree Nat).Allowed
        [.put [97, 98] 1, .put [97] 2, .put [97, 98] 3, .remove [97]] ∧
      ∃ t, [Change.put [97, 98] 1, .put [97] 2, .put [97, 98] 3, .remove [97]].foldlM change nil =
          some t ∧ ∀ key, t.get key =
        lastPut [.put [97, 98] 1, .put [97] 2, .put [97, 98] 3, .remove [97]] key := by
  have allowed : (nil : TernarySearchTree Nat).Allowed
      [.put [97, 98] 1, .put [97] 2, .put [97, 98] 3, .remove [97]] := by
    refine ⟨nofun, fun t₁ first => ⟨nofun, fun t₂ second => ⟨nofun, fun t₃ third =>
      ⟨?_, fun _ _ => trivial⟩⟩⟩⟩
    obtain rfl := Option.some.inj first
    obtain rfl := Option.some.inj second
    obtain rfl := Option.some.inj third
    decide
  exact ⟨allowed, get_eq_lastPut allowed⟩

/-! ## Removing any key -/

/-- `gnl_ternary_search_tree_remove` with the check of the tree: the tree after the
    call. -/
def checkedRemove (t : TernarySearchTree α) (key : List Int8) :
    Except Failure (TernarySearchTree α) :=
  match t with
  | .nil => .error (.errno .EINVAL)
  | t => match t.remove key with
    | none => .error (.fault .nullPointer)
    | some t' => .ok t'

/-- The characters of a key lead from the root to a node, whether it has data or not. -/
def spells : TernarySearchTree α → Int8 → List Int8 → Bool
  | .nil, _, _ => false
  | .node key _ left mid right, c, cs =>
      if c < key then spells left c cs
      else if key < c then spells right c cs
      else match cs with
        | [] => true
        | next :: rest => spells mid next rest

theorem removeNode_eq_none (t : TernarySearchTree α) (c : Int8) (cs : List Int8) :
    removeNode t c cs = none ↔ t.spells c cs = false := by
  induction t generalizing c cs with
  | nil => simp [removeNode, spells]
  | node key data left mid right ihl ihm ihr =>
      simp only [removeNode, spells]
      split
      · rw [Option.map_eq_none_iff, ihl]
      · split
        · rw [Option.map_eq_none_iff, ihr]
        · cases cs with
          | nil => cases data <;> simp
          | cons next rest => simpa using ihm next rest

theorem removeNode_absent {t t' : TernarySearchTree α} {c : Int8} {cs : List Int8} {dead : Bool}
    (absent : getNode t c cs = none) (removed : removeNode t c cs = some (t', dead)) :
    t' = t ∧ dead = false := by
  induction t generalizing t' c cs dead with
  | nil => cases removed
  | node key data left mid right ihl ihm ihr =>
      simp only [getNode] at absent
      simp only [removeNode] at removed
      split at absent
      · rw [if_pos ‹_›] at removed
        obtain ⟨⟨left', _⟩, inner, same⟩ := Option.map_eq_some_iff.mp removed
        obtain ⟨rfl, rfl⟩ := Prod.mk.inj same
        rw [(ihl absent inner).1]
        exact ⟨rfl, rfl⟩
      · rw [if_neg ‹_›] at removed
        split at absent
        · rw [if_pos ‹_›] at removed
          obtain ⟨⟨right', _⟩, inner, same⟩ := Option.map_eq_some_iff.mp removed
          obtain ⟨rfl, rfl⟩ := Prod.mk.inj same
          rw [(ihr absent inner).1]
          exact ⟨rfl, rfl⟩
        · rw [if_neg ‹_›] at removed
          cases cs with
          | nil =>
              subst absent
              obtain ⟨rfl, rfl⟩ := Prod.mk.inj (Option.some.inj removed)
              exact ⟨rfl, rfl⟩
          | cons next rest =>
              obtain ⟨⟨mid', dead'⟩, inner, same⟩ := Option.map_eq_some_iff.mp removed
              obtain ⟨rfl, rfl⟩ := ihm absent inner
              obtain ⟨rfl, rfl⟩ := Prod.mk.inj same
              exact ⟨rfl, rfl⟩

/-- The removal of a key is safe, and leaves a tree without it as it is, exactly when
    the tree is null or the characters of the key lead to a node of it. -/
theorem checkedRemove_safe_iff (t : TernarySearchTree α) (c : Int8) (cs : List Int8) :
    (t.checkedRemove (c :: cs) ≠ .error (.fault .nullPointer) ∧
      (t.get (c :: cs) = none → ∀ t', t.checkedRemove (c :: cs) = .ok t' → t' = t)) ↔
      t = nil ∨ t.spells c cs = true := by
  cases t with
  | nil => simp [checkedRemove]
  | node key data left mid right =>
      generalize whole : node key data left mid right = t
      have called : t.checkedRemove (c :: cs) = match removeNode t c cs with
          | none => .error (.fault .nullPointer)
          | some (t', _) => .ok t' := by
        subst whole
        simp only [checkedRemove, remove]
        cases removeNode (node key data left mid right) c cs <;> rfl
      have notNull : t ≠ nil := by
        subst whole
        nofun
      rw [called]
      cases removed : removeNode t c cs with
      | none =>
          have outside := (removeNode_eq_none t c cs).mp removed
          simp [notNull, outside]
      | some result =>
          obtain ⟨t', dead⟩ := result
          have inside : t.spells c cs = true := by
            rw [← Bool.not_eq_false]
            intro outside
            rw [← removeNode_eq_none, removed] at outside
            cases outside
          refine ⟨fun _ => .inr inside, fun _ => ⟨nofun, fun absent t'' same => ?_⟩⟩
          obtain rfl := Except.ok.inj same
          exact (removeNode_absent absent removed).1

/-- With one key stored, the removal of a key that begins with another character
    follows a null pointer. -/
theorem checkedRemove_unsafe :
    ¬ ∀ (history : List (Change Nat)) (t : TernarySearchTree Nat) (c : Int8) (cs : List Int8),
      history.foldlM change nil = some t →
      t.checkedRemove (c :: cs) ≠ .error (.fault .nullPointer) ∧
        (t.get (c :: cs) = none → ∀ t', t.checkedRemove (c :: cs) = .ok t' → t' = t) := by
  intro safe
  exact (safe [.put [97] 1] _ 98 [] rfl).1 rfl

end TernarySearchTree

end FileStorage
