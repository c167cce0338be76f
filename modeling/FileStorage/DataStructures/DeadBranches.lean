import FileStorage.DataStructures.TernarySearchTree

/-! # Dead branches of the ternary search tree

A node that leads to no key is of no use. `remove_node` reports to its caller whether
the node it was called on became one, and only the call through a middle link listens:
a chain of nodes that hangs from a left or a right link and serves a single key keeps
its first node when that key is removed.
-/

namespace FileStorage.TernarySearchTree

variable {α : Type}

/-- A node that is of no use: it has neither data nor children. -/
def Dead : TernarySearchTree α → Prop
  | .node _ none .nil .nil .nil => True
  | _ => False

/-- No node is dead, the root included. -/
def Live : TernarySearchTree α → Prop
  | .nil => True
  | .node key data left mid right =>
      ¬ Dead (.node key data left mid right) ∧ left.Live ∧ mid.Live ∧ right.Live

/-- No node but the root is dead. -/
def Pruned : TernarySearchTree α → Prop
  | .nil => True
  | .node _ _ left mid right => left.Live ∧ mid.Live ∧ right.Live

/-- Some node has data. -/
def Stores : TernarySearchTree α → Prop
  | .nil => False
  | .node _ data left mid right => data ≠ none ∨ left.Stores ∨ mid.Stores ∨ right.Stores

theorem Live.stores {t : TernarySearchTree α} (live : t.Live) (present : t ≠ nil) : t.Stores := by
  induction t with
  | nil => exact absurd rfl present
  | node key data left mid right ihl ihm ihr =>
      obtain ⟨useful, liveLeft, liveMid, liveRight⟩ := live
      cases data with
      | some el => exact .inl nofun
      | none =>
          cases left with
          | node => exact .inr (.inl (ihl liveLeft nofun))
          | nil =>
              cases mid with
              | node => exact .inr (.inr (.inl (ihm liveMid nofun)))
              | nil =>
                  cases right with
                  | node => exact .inr (.inr (.inr (ihr liveRight nofun)))
                  | nil => exact absurd trivial useful

theorem live_iff {t : TernarySearchTree α} : t.Live ↔ ¬ t.Dead ∧ t.Pruned := by
  cases t with
  | nil => exact ⟨fun _ => ⟨id, trivial⟩, fun _ => trivial⟩
  | node key data left mid right => exact Iff.rfl

theorem Dead.pruned {t : TernarySearchTree α} (dead : t.Dead) : t.Pruned := by
  cases t with
  | nil => exact trivial
  | node key data left mid right =>
      cases data <;> cases left <;> cases mid <;> cases right <;> simp only [Dead] at dead
      exact ⟨trivial, trivial, trivial⟩

theorem dead_node {key : Int8} {data : Option α} {left mid right : TernarySearchTree α} :
    Dead (node key data left mid right) ↔
      data = none ∧ (node key data left mid right).hasChild = false := by
  cases data <;> cases left <;> cases mid <;> cases right <;> simp [Dead, hasChild]

theorem not_dead_of_left {key : Int8} {data : Option α} {left mid right : TernarySearchTree α}
    (present : left ≠ nil) : ¬ Dead (node key data left mid right) := by
  cases left with
  | nil => exact absurd rfl present
  | node => simp [Dead]

theorem not_dead_of_mid {key : Int8} {data : Option α} {left mid right : TernarySearchTree α}
    (present : mid ≠ nil) : ¬ Dead (node key data left mid right) := by
  cases mid with
  | nil => exact absurd rfl present
  | node => simp [Dead]

theorem not_dead_of_right {key : Int8} {data : Option α} {left mid right : TernarySearchTree α}
    (present : right ≠ nil) : ¬ Dead (node key data left mid right) := by
  cases right with
  | nil => exact absurd rfl present
  | node => simp [Dead]

/-! ## Puts -/

theorem chain_ne_nil (c : Int8) (cs : List Int8) (el : α) : chain c cs el ≠ nil := by
  cases cs <;> simp [chain]

theorem chain_live (c : Int8) (cs : List Int8) (el : α) : (chain c cs el).Live := by
  induction cs generalizing c with
  | nil => exact ⟨id, trivial, trivial, trivial⟩
  | cons next rest ih =>
      exact ⟨not_dead_of_mid (chain_ne_nil next rest el), trivial, ih next, trivial⟩

theorem node_ne_nil (key : Int8) (data : Option α) (left mid right : TernarySearchTree α) :
    node key data left mid right ≠ nil := nofun

theorem putNode_ne_nil (t : TernarySearchTree α) (c : Int8) (cs : List Int8) (el : α) :
    putNode t c cs el ≠ nil := by
  cases t with
  | nil => exact chain_ne_nil c cs el
  | node key data left mid right =>
      unfold putNode
      split
      · exact node_ne_nil _ _ _ _ _
      · split
        · exact node_ne_nil _ _ _ _ _
        · cases cs <;> exact node_ne_nil _ _ _ _ _

/-- A put makes no node dead, and gives the root a use. -/
theorem putNode_live {t : TernarySearchTree α} (pruned : t.Pruned) (c : Int8) (cs : List Int8)
    (el : α) : (putNode t c cs el).Live := by
  induction t generalizing c cs with
  | nil => exact chain_live c cs el
  | node key data left mid right ihl ihm ihr =>
      obtain ⟨liveLeft, liveMid, liveRight⟩ := pruned
      unfold putNode
      split
      · exact ⟨not_dead_of_left (putNode_ne_nil left c cs el),
          ihl (live_iff.mp liveLeft).2 c cs, liveMid, liveRight⟩
      · split
        · exact ⟨not_dead_of_right (putNode_ne_nil right c cs el), liveLeft, liveMid,
            ihr (live_iff.mp liveRight).2 c cs⟩
        · cases cs with
          | nil => exact ⟨id, liveLeft, liveMid, liveRight⟩
          | cons next rest =>
              exact ⟨not_dead_of_mid (putNode_ne_nil mid next rest el), liveLeft,
                ihm (live_iff.mp liveMid).2 next rest, liveRight⟩

/-! ## Removes -/

/-- All the nodes of the tree were made for one key. -/
def Serves (t : TernarySearchTree α) (c : Int8) (cs : List Int8) : Prop :=
  ∃ el, t = chain c cs el

/-- On the way of the key, a left or a right link leads to nodes that serve it alone. -/
def Strands : TernarySearchTree α → Int8 → List Int8 → Prop
  | .nil, _, _ => False
  | .node key _ left mid right, c, cs =>
      if c < key then left.Serves c cs ∨ left.Strands c cs
      else if key < c then right.Serves c cs ∨ right.Strands c cs
      else match cs with
        | [] => False
        | next :: rest => mid.Strands next rest

theorem removeNode_ne_nil {t t' : TernarySearchTree α} {c : Int8} {cs : List Int8} {dead : Bool}
    (removed : removeNode t c cs = some (t', dead)) : t' ≠ nil := by
  cases t with
  | nil => cases removed
  | node key data left mid right =>
      unfold removeNode at removed
      split at removed
      · obtain ⟨⟨left', _⟩, _, same⟩ := Option.map_eq_some_iff.mp removed
        cases same
        exact node_ne_nil _ _ _ _ _
      · split at removed
        · obtain ⟨⟨right', _⟩, _, same⟩ := Option.map_eq_some_iff.mp removed
          cases same
          exact node_ne_nil _ _ _ _ _
        · cases cs with
          | nil =>
              cases data <;> cases removed <;> exact node_ne_nil _ _ _ _ _
          | cons next rest =>
              obtain ⟨⟨mid', dead'⟩, _, same⟩ := Option.map_eq_some_iff.mp removed
              cases dead' <;> cases same <;> exact node_ne_nil _ _ _ _ _

/-- The caller is told to free exactly what is of no use any more. -/
theorem removeNode_dead_iff {t t' : TernarySearchTree α} {c : Int8} {cs : List Int8} {dead : Bool}
    {el : α} (present : getNode t c cs = some el) (removed : removeNode t c cs = some (t', dead)) :
    dead = true ↔ t'.Dead := by
  cases t with
  | nil => cases removed
  | node key data left mid right =>
      unfold getNode at present
      unfold removeNode at removed
      split at removed
      · obtain ⟨⟨left', _⟩, inner, same⟩ := Option.map_eq_some_iff.mp removed
        cases same
        simp only [Bool.false_eq_true, not_dead_of_left (removeNode_ne_nil inner)]
      · rw [if_neg ‹_›] at present
        split at removed
        · obtain ⟨⟨right', _⟩, inner, same⟩ := Option.map_eq_some_iff.mp removed
          cases same
          simp only [Bool.false_eq_true, not_dead_of_right (removeNode_ne_nil inner)]
        · rw [if_neg ‹_›] at present
          cases cs with
          | nil =>
              subst present
              cases removed
              rw [dead_node]
              simp only [Bool.not_eq_true', true_and]
          | cons next rest =>
              obtain ⟨⟨mid', dead'⟩, inner, same⟩ := Option.map_eq_some_iff.mp removed
              cases dead' with
              | true =>
                  cases same
                  rw [dead_node]
                  simp only [Bool.and_eq_true, Option.isNone_iff_eq_none, Bool.not_eq_true']
              | false =>
                  cases same
                  simp only [Bool.false_eq_true, not_dead_of_mid (removeNode_ne_nil inner)]

theorem removeNode_chain (c : Int8) (cs : List Int8) (el : α) :
    removeNode (chain c cs el) c cs = some (.node c none .nil .nil .nil, true) := by
  induction cs generalizing c with
  | nil => simp [chain, removeNode, hasChild]
  | cons next rest ih => simp [chain, removeNode, ih next, hasChild]

theorem hasChild_eq_false {key : Int8} {data : Option α} {left mid right : TernarySearchTree α} :
    (node key data left mid right).hasChild = false ↔ left = nil ∧ mid = nil ∧ right = nil := by
  cases left <;> cases mid <;> cases right <;> simp [hasChild]

theorem removeNode_serves {t t' : TernarySearchTree α} {c : Int8} {cs : List Int8} {dead : Bool}
    (removed : removeNode t c cs = some (t', dead)) : dead = true ↔ t.Serves c cs := by
  constructor
  · intro freed
    subst freed
    induction t generalizing t' c cs with
    | nil => cases removed
    | node key data left mid right ihl ihm ihr =>
        unfold removeNode at removed
        split at removed
        · obtain ⟨_, _, same⟩ := Option.map_eq_some_iff.mp removed
          cases same
        · split at removed
          · obtain ⟨_, _, same⟩ := Option.map_eq_some_iff.mp removed
            cases same
          · obtain rfl : c = key := char_eq ‹_› ‹_›
            cases cs with
            | nil =>
                cases data with
                | none => cases removed
                | some el =>
                    obtain ⟨rfl, childless⟩ := Prod.mk.inj (Option.some.inj removed)
                    rw [Bool.not_eq_true'] at childless
                    obtain ⟨rfl, rfl, rfl⟩ := hasChild_eq_false.mp childless
                    exact ⟨el, rfl⟩
            | cons next rest =>
                obtain ⟨⟨mid', dead'⟩, inner, same⟩ := Option.map_eq_some_iff.mp removed
                cases dead' with
                | false => cases same
                | true =>
                    obtain ⟨rfl, bare⟩ := Prod.mk.inj same
                    rw [Bool.and_eq_true, Option.isNone_iff_eq_none, Bool.not_eq_true'] at bare
                    obtain ⟨rfl, childless⟩ := bare
                    obtain ⟨rfl, -, rfl⟩ := hasChild_eq_false.mp childless
                    obtain ⟨el, rfl⟩ := ihm inner
                    exact ⟨el, rfl⟩
  · rintro ⟨el, rfl⟩
    rw [removeNode_chain] at removed
    exact (Prod.mk.inj (Option.some.inj removed)).2.symm

theorem removeNode_pruned_iff {t t' : TernarySearchTree α} {c : Int8} {cs : List Int8}
    {dead : Bool} {el : α} (pruned : t.Pruned) (present : getNode t c cs = some el)
    (removed : removeNode t c cs = some (t', dead)) : t'.Pruned ↔ ¬ t.Strands c cs := by
  induction t generalizing t' c cs dead with
  | nil => cases removed
  | node key data left mid right ihl ihm ihr =>
      obtain ⟨liveLeft, liveMid, liveRight⟩ := pruned
      unfold getNode at present
      unfold removeNode at removed
      unfold Strands
      split at removed
      · rw [if_pos ‹_›] at present ⊢
        obtain ⟨⟨left', dead'⟩, inner, same⟩ := Option.map_eq_some_iff.mp removed
        cases same
        have kept := ihl (live_iff.mp liveLeft).2 present inner
        have told := removeNode_dead_iff present inner
        rw [removeNode_serves inner] at told
        have alive : left'.Live ↔ ¬ (left.Serves c cs ∨ left.Strands c cs) := by
          rw [live_iff, ← told, kept, not_or]
        exact ⟨fun live => alive.mp live.1, fun frees => ⟨alive.mpr frees, liveMid, liveRight⟩⟩
      · rw [if_neg ‹_›] at present ⊢
        split at removed
        · rw [if_pos ‹_›] at present ⊢
          obtain ⟨⟨right', dead'⟩, inner, same⟩ := Option.map_eq_some_iff.mp removed
          cases same
          have kept := ihr (live_iff.mp liveRight).2 present inner
          have told := removeNode_dead_iff present inner
          rw [removeNode_serves inner] at told
          have alive : right'.Live ↔ ¬ (right.Serves c cs ∨ right.Strands c cs) := by
            rw [live_iff, ← told, kept, not_or]
          exact ⟨fun live => alive.mp live.2.2, fun frees => ⟨liveLeft, liveMid, alive.mpr frees⟩⟩
        · rw [if_neg ‹_›] at present ⊢
          cases cs with
          | nil =>
              subst present
              cases removed
              exact ⟨fun _ => id, fun _ => ⟨liveLeft, liveMid, liveRight⟩⟩
          | cons next rest =>
              obtain ⟨⟨mid', dead'⟩, inner, same⟩ := Option.map_eq_some_iff.mp removed
              have kept := ihm (live_iff.mp liveMid).2 present inner
              have told := removeNode_dead_iff present inner
              cases dead' with
              | true =>
                  cases same
                  have whole := kept.mp (Dead.pruned (told.mp rfl))
                  exact ⟨fun _ => whole, fun _ => ⟨liveLeft, trivial, liveRight⟩⟩
              | false =>
                  cases same
                  have useful : ¬ mid'.Dead := fun dead => Bool.false_ne_true (told.mpr dead)
                  have alive : mid'.Live ↔ ¬ mid.Strands next rest := by
                    rw [live_iff, kept, and_iff_right useful]
                  exact ⟨fun live => alive.mp live.2.1,
                    fun frees => ⟨liveLeft, alive.mpr frees, liveRight⟩⟩

/-! ## Sequences of changes -/

/-- The call strands no nodes of the key that it removes. -/
def Frees (t : TernarySearchTree α) : Change α → Prop
  | .put _ _ => True
  | .remove [] => True
  | .remove (c :: cs) => ¬ t.Strands c cs

def FreesAll (t : TernarySearchTree α) : List (Change α) → Prop
  | [] => True
  | c :: history => t.Frees c ∧ ∀ t', t.change c = some t' → t'.FreesAll history

/-- The tree is pruned before and after each call. -/
def StaysPruned (t : TernarySearchTree α) (history : List (Change α)) : Prop :=
  ∀ past, past <+: history → ∀ t', past.foldlM change t = some t' → t'.Pruned

theorem change_pruned_iff {t t' : TernarySearchTree α} {c : Change α} {history : List (Change α)}
    (pruned : t.Pruned) (allowed : t.Allowed (c :: history)) (changed : t.change c = some t') :
    t'.Pruned ↔ t.Frees c := by
  cases c with
  | put key el =>
      cases key with
      | nil => cases changed
      | cons first rest =>
          cases changed
          exact ⟨fun _ => trivial, fun _ => (live_iff.mp (putNode_live pruned first rest el)).2⟩
  | remove key =>
      cases key with
      | nil => cases changed
      | cons first rest =>
          obtain ⟨el, present⟩ := Option.ne_none_iff_exists'.mp allowed.1
          obtain ⟨⟨t'', dead⟩, inner, rfl⟩ := Option.map_eq_some_iff.mp changed
          exact removeNode_pruned_iff pruned present inner

theorem staysPruned_cons {t t' : TernarySearchTree α} {c : Change α} {history : List (Change α)}
    (changed : t.change c = some t') :
    t.StaysPruned (c :: history) ↔ t.Pruned ∧ t'.StaysPruned history := by
  constructor
  · intro stays
    refine ⟨stays [] (List.nil_prefix) t rfl, fun past isPast t'' run => ?_⟩
    apply stays (c :: past) (List.cons_prefix_cons.mpr ⟨rfl, isPast⟩) t''
    rw [List.foldlM_cons, changed]
    exact run
  · intro stays past isPast t'' run
    cases past with
    | nil =>
        cases run
        exact stays.1
    | cons first past =>
        obtain ⟨rfl, shorter⟩ := List.cons_prefix_cons.mp isPast
        rw [List.foldlM_cons, changed] at run
        exact stays.2 past shorter t'' run

theorem staysPruned_of_pruned {t : TernarySearchTree α} {history : List (Change α)}
    (pruned : t.Pruned) (allowed : t.Allowed history) :
    t.StaysPruned history ↔ t.FreesAll history := by
  induction history generalizing t with
  | nil =>
      refine ⟨fun _ => trivial, fun _ past isPast t' run => ?_⟩
      rw [List.prefix_nil.mp isPast] at run
      cases run
      exact pruned
  | cons c history ih =>
      obtain ⟨t', changed⟩ := change_isSome allowed
      have step := change_pruned_iff pruned allowed changed
      have rest : t'.Pruned → (t'.StaysPruned history ↔ t'.FreesAll history) :=
        fun pruned' => ih pruned' (allowed.2 t' changed)
      have now : t'.StaysPruned history → t'.Pruned :=
        fun stays => stays [] (List.nil_prefix) t' rfl
      have next : t.FreesAll (c :: history) ↔ t.Frees c ∧ t'.FreesAll history := by
        simp only [FreesAll, changed, Option.some.injEq, forall_eq']
      rw [staysPruned_cons changed, next, ← step]
      exact ⟨fun ⟨_, stays⟩ => ⟨now stays, (rest (now stays)).mp stays⟩,
        fun ⟨pruned', frees⟩ => ⟨pruned, (rest pruned').mpr frees⟩⟩

/-- From the empty tree on, no node but the root is ever dead exactly when no remove
    takes a key with a left or a right link on its way to nodes that serve it alone. -/
theorem staysPruned_iff {history : List (Change α)}
    (allowed : (nil : TernarySearchTree α).Allowed history) :
    (nil : TernarySearchTree α).StaysPruned history ↔
      (nil : TernarySearchTree α).FreesAll history :=
  staysPruned_of_pruned trivial allowed

theorem staysPruned_prefix :
    (nil : TernarySearchTree Nat).Allowed
        [.put [97, 98] 1, .put [97] 2, .remove [97], .remove [97, 98]] ∧
      ((nil : TernarySearchTree Nat).StaysPruned
          [.put [97, 98] 1, .put [97] 2, .remove [97], .remove [97, 98]] ↔
        (nil : TernarySearchTree Nat).FreesAll
          [.put [97, 98] 1, .put [97] 2, .remove [97], .remove [97, 98]]) := by
  have allowed : (nil : TernarySearchTree Nat).Allowed
      [.put [97, 98] 1, .put [97] 2, .remove [97], .remove [97, 98]] := by
    refine ⟨nofun, fun t₁ first => ⟨nofun, fun t₂ second => ⟨?_, fun t₃ third =>
      ⟨?_, fun _ _ => trivial⟩⟩⟩⟩
    · obtain rfl := Option.some.inj first
      obtain rfl := Option.some.inj second
      decide
    · obtain rfl := Option.some.inj first
      obtain rfl := Option.some.inj second
      obtain rfl := Option.some.inj third
      decide
  exact ⟨allowed, staysPruned_iff allowed⟩

/-- A key that hangs from a left link leaves its node behind. -/
theorem stranded_left :
    ¬ ∀ (history : List (Change Nat)), (nil : TernarySearchTree Nat).Allowed history →
      (nil : TernarySearchTree Nat).StaysPruned history := by
  intro claimed
  have allowed : (nil : TernarySearchTree Nat).Allowed
      [.put [98] 1, .put [97] 2, .remove [97]] := by
    refine ⟨nofun, fun t₁ first => ⟨nofun, fun t₂ second => ⟨?_, fun _ _ => trivial⟩⟩⟩
    obtain rfl := Option.some.inj first
    obtain rfl := Option.some.inj second
    decide
  exact (claimed _ allowed _ (List.prefix_refl _) _ rfl).1.1 trivial

end FileStorage.TernarySearchTree
