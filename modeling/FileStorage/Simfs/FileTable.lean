import FileStorage.DataStructures.TernarySearchTree
import FileStorage.Simfs.Inode

/-! # The file table

`gnl_simfs_file_table.c`: the original inodes in a ternary search tree, and the
list of the names stored in it. Every table carries the proof that the list and
the tree agree and that an inode is stored under its own name. `update` stands
for an assignment through a pointer to an inode; nothing assigns to its name.
-/

namespace FileStorage

/-- `struct gnl_simfs_file_table`. -/
structure FileTable where
  table : TernarySearchTree Inode
  presenceList : List Filename
  size : Nat
  count : Int
  nodup : presenceList.Nodup
  listed : ∀ name, name ∈ presenceList ↔ (table.get name).isSome
  named : ∀ name inode, table.get name = some inode → inode.name = name

namespace FileTable

def init : FileTable where
  table := .nil
  presenceList := []
  size := 0
  count := 0
  nodup := List.nodup_nil
  listed := by
    intro name
    cases name <;> simp [TernarySearchTree.get, TernarySearchTree.getNode]
  named := by
    intro name
    cases name <;> simp [TernarySearchTree.get, TernarySearchTree.getNode]

/-- `gnl_simfs_file_table_get`; `none` is the error ENOENT. -/
def get (t : FileTable) (name : Filename) : Option Inode := t.table.get name

theorem mem_presenceList {t : FileTable} {name : Filename} :
    name ∈ t.presenceList ↔ ∃ inode, t.get name = some inode := by
  rw [t.listed, Option.isSome_iff_exists, get]

/-- The tree with an inode put at its name, and the list with the name if it is new. -/
def put (t : FileTable) (name : Filename) (inode : Inode) : Option FileTable :=
  match added : t.table.put name { inode with name } with
  | none => none
  | some table => some { t with
      table
      presenceList := if name ∈ t.presenceList then t.presenceList else t.presenceList ++ [name]
      nodup := by
        split
        · exact t.nodup
        · rename_i fresh
          rw [List.nodup_append]
          refine ⟨t.nodup, List.nodup_singleton name, ?_⟩
          intro a ha b hb same
          rw [List.mem_singleton] at hb
          exact fresh (hb ▸ same ▸ ha)
      listed := by
        intro other
        rw [TernarySearchTree.get_put added]
        by_cases same : other = name
        · subst same
          split <;> simp_all
        · split <;> simp [same, t.listed]
      named := by
        intro other stored
        rw [TernarySearchTree.get_put added]
        split
        · rintro ⟨rfl⟩
          simp_all
        · exact t.named other stored }

theorem get_put {t t' : FileTable} {name : Filename} {inode : Inode}
    (added : t.put name inode = some t') (other : Filename) :
    t'.get other = if other = name then some { inode with name } else t.get other := by
  unfold put at added
  split at added
  · cases added
  · rename_i table inserted
    obtain rfl := Option.some.inj added
    exact TernarySearchTree.get_put inserted other

theorem put_isSome {t : FileTable} {name : Filename} (nonempty : name ≠ []) (inode : Inode) :
    ∃ t', t.put name inode = some t' := by
  cases name with
  | nil => exact absurd rfl nonempty
  | cons c cs =>
      unfold put
      split
      · rename_i fails
        cases fails
      · exact ⟨_, rfl⟩

/-- `gnl_simfs_file_table_create` for a name that is not empty. -/
def create (t : FileTable) (name : Filename) (generation : Nat) (now : Int) :
    Except Errno FileTable :=
  match t.get name with
  | some _ => .error .EEXIST
  | none =>
      match t.put name (.init name generation now) with
      | none => .error .bubbled
      | some t => .ok { t with count := t.count + 1 }

theorem create_spec {t t' : FileTable} {name : Filename} {generation : Nat} {now : Int}
    (created : t.create name generation now = .ok t') (other : Filename) :
    t'.get other = if other = name then some (.init name generation now) else t.get other := by
  unfold create at created
  split at created
  · cases created
  · split at created
    · cases created
    · rename_i u added
      obtain rfl := Except.ok.inj created
      exact get_put added other

def update (t : FileTable) (name : Filename) (f : Inode → Inode) : FileTable :=
  match t.get name with
  | none => t
  | some inode => (t.put name (f inode)).getD t

theorem get_update (t : FileTable) (name : Filename) (f : Inode → Inode) (other : Filename) :
    (t.update name f).get other = if other = name then
      (t.get name).map (fun inode => { f inode with name }) else t.get other := by
  unfold update
  split
  · rename_i absent
    by_cases same : other = name
    · simp [same, absent]
    · simp [same]
  · rename_i inode present
    have nonempty : name ≠ [] := by
      rintro rfl
      cases present
    obtain ⟨u, added⟩ := t.put_isSome nonempty (f inode)
    rw [added, Option.getD_some, get_put added, present]
    rfl

theorem update_counters (t : FileTable) (name : Filename) (f : Inode → Inode) :
    (t.update name f).presenceList = t.presenceList ∧ (t.update name f).size = t.size := by
  unfold update
  split
  · exact ⟨rfl, rfl⟩
  · rename_i inode present
    have member : name ∈ t.presenceList := mem_presenceList.mpr ⟨inode, present⟩
    cases added : t.put name (f inode) with
    | none => exact ⟨rfl, rfl⟩
    | some u =>
        unfold put at added
        split at added
        · cases added
        · obtain rfl := Option.some.inj added
          exact ⟨if_pos member, rfl⟩

/-- `gnl_simfs_file_table_remove` for a name that is stored. The inode itself is
    destroyed by the caller. -/
def remove (t : FileTable) (name : Filename) : Option FileTable :=
  match removed : t.table.remove name, t.get name with
  | some table, some inode => some { t with
      table
      presenceList := t.presenceList.erase name
      size := toUnsigned64 (t.size - toInt32 inode.size)
      count := t.count - 1
      nodup := t.nodup.erase name
      listed := by
        intro other
        rw [TernarySearchTree.get_remove removed, t.nodup.mem_erase_iff, t.listed]
        by_cases same : other = name <;> simp [same]
      named := by
        intro other stored
        rw [TernarySearchTree.get_remove removed]
        split
        · exact nofun
        · exact t.named other stored }
  | _, _ => none

theorem get_remove {t t' : FileTable} {name : Filename} (removed : t.remove name = some t')
    (other : Filename) : t'.get other = if other = name then none else t.get other := by
  unfold remove at removed
  split at removed
  · rename_i table inode erased _
    obtain rfl := Option.some.inj removed
    exact TernarySearchTree.get_remove erased other
  · cases removed

theorem remove_counters {t t' : FileTable} {name : Filename} {inode : Inode}
    (removed : t.remove name = some t') (present : t.get name = some inode) :
    t'.presenceList = t.presenceList.erase name ∧
      t'.size = toUnsigned64 (t.size - toInt32 inode.size) := by
  unfold remove at removed
  split at removed
  · rename_i table stored _ found
    obtain rfl := Option.some.inj removed
    obtain rfl := Option.some.inj (present.symm.trans found)
    exact ⟨rfl, rfl⟩
  · cases removed

theorem remove_isSome {t : FileTable} {name : Filename} {inode : Inode}
    (present : t.get name = some inode) : ∃ t', t.remove name = some t' := by
  obtain ⟨table, removed⟩ := TernarySearchTree.remove_isSome present
  unfold remove
  split
  · exact ⟨_, rfl⟩
  · rename_i fails
    exact absurd present (fails _ _ removed)

end FileTable

end FileStorage
