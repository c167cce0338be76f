import FileStorage.Simfs.Generations
import Mathlib.Data.Finset.Card
import Mathlib.Data.List.Count

/-! # References and descriptors

The reference list of a file and the descriptor table are changed separately. As
long as names are retired before they are created again, the list of a file holds
the owners of the live descriptors with its name.
-/

namespace FileStorage

open FileSystem Program

variable {codec : Codec}

/-! ## Held descriptors -/

namespace View

variable {v w : View codec} {name : Filename} {pid : Pid} {fd : Nat}

@[irreducible] def held (v : View codec) (name : Filename) (pid : Pid) : Finset Nat :=
  (Finset.range maxOpenFiles).filter fun fd =>
    (v.slot fd).any fun s => s.owner = pid ∧ s.name = name

theorem mem_held : fd ∈ v.held name pid ↔
    fd < maxOpenFiles ∧ ∃ s, v.slot fd = some s ∧ s.owner = pid ∧ s.name = name := by
  simp [held, Option.any_eq_true]

theorem held_congr (same : ∀ fd, (w.slot fd).map SlotView.key = (v.slot fd).map SlotView.key)
    (name : Filename) (pid : Pid) : w.held name pid = v.held name pid := by
  ext fd
  have key := same fd
  simp only [mem_held]
  cases left : w.slot fd with
  | none =>
      rw [left, Option.map_none, eq_comm, Option.map_eq_none_iff] at key
      simp [key]
  | some s =>
      rw [left, Option.map_some, eq_comm, Option.map_eq_some_iff] at key
      obtain ⟨t, found, key⟩ := key
      obtain ⟨owner, named, -⟩ := SlotView.key_eq.mp key
      simp [found, owner, named]

theorem held_attach (free : v.slot fd = none) (inside : fd < maxOpenFiles) {opened : Filename}
    {owner : Pid} {f : FileView} (stored : v.file opened = some f) :
    (v.apply (.attach fd opened owner)).held name pid =
      if owner = pid ∧ opened = name then insert fd (v.held name pid) else v.held name pid := by
  ext other
  simp only [apply, stored, Option.map_some, mem_held, Function.update_apply]
  by_cases wanted : owner = pid ∧ opened = name
  · rw [if_pos wanted, Finset.mem_insert, mem_held]
    by_cases this : other = fd <;> simp [this, inside, wanted]
  · rw [if_neg wanted, mem_held]
    by_cases this : other = fd <;> simp [this, free, wanted]

theorem held_close {s : SlotView} (live : v.slot fd = some s) :
    (v.apply (.close fd)).held name pid = (v.held name pid).erase fd := by
  ext other
  simp only [apply, live, Finset.mem_erase, mem_held, Function.update_apply]
  by_cases this : other = fd <;> simp [this]

theorem held_leave (name : Filename) (leaver : Pid) : (v.apply (.leave leaver)).held name pid =
    if pid = leaver then ∅ else v.held name pid := by
  ext fd
  have filtered : ∀ s, (v.apply (.leave leaver)).slot fd = some s ↔
      v.slot fd = some s ∧ s.owner ≠ leaver := by
    simp [apply, Option.filter_eq_some_iff]
  rw [mem_held]
  split
  · rename_i this
    simp only [Finset.notMem_empty, iff_false, not_and, not_exists]
    rintro - s live rfl
    exact absurd this ((filtered s).mp live).2
  · rename_i other
    rw [mem_held]
    refine and_congr_right fun _ => exists_congr fun s => ?_
    rw [filtered]
    constructor
    · exact fun found => ⟨found.1.1, found.2⟩
    · exact fun found => ⟨⟨found.1, fun this => other (found.2.1.symm.trans this)⟩, found.2⟩

end View

/-! ## References -/

def Counted (v : View codec) : Prop :=
  ∀ name f, v.file name = some f → f.referenceCount = f.referenceList.length

theorem FileView.released_counted {f : FileView} (counted : f.referenceCount = f.referenceList.length)
    (pid : Pid) : (f.released pid).referenceCount = (f.released pid).referenceList.length ∧
      (f.released pid).referenceList = f.referenceList.erase pid := by
  unfold released
  split
  · rename_i given
    simp [List.length_erase_of_mem given.2, counted]
  · rename_i refused
    have away : pid ∉ f.referenceList := fun member =>
      refused ⟨by rw [counted]; exact Nat.ne_of_gt (List.length_pos_of_mem member), member⟩
    exact ⟨counted, (List.erase_of_not_mem away).symm⟩

theorem FileView.left_counted {f : FileView} (counted : f.referenceCount = f.referenceList.length)
    (pid : Pid) : (f.left pid).referenceCount = (f.left pid).referenceList.length := by
  have parts := List.length_eq_countP_add_countP (fun p => p == pid) (l := f.referenceList)
  have others : f.referenceList.countP (fun p => ¬ (p == pid) = true) =
      (f.referenceList.filter (· ≠ pid)).length := by
    rw [List.countP_eq_length_filter]
    simp
  simp only [left, counted, List.count]
  omega

theorem Counted.apply {v : View codec} (counted : Counted v) {a : Action codec}
    (enabled : v.Enabled a) : Counted (v.apply a) := by
  intro name f' stored
  cases a with
  | create created =>
      by_cases this : name = created
      · subst this
        obtain rfl := Option.some.inj ((Function.update_self _ _ v.file).symm.trans stored)
        rfl
      · exact counted name f' (by simpa [View.apply, this] using stored)
  | attach fd opened pid =>
      obtain ⟨f, found, rfl⟩ := View.file_of_changeFile stored
      split <;> simp [counted name f found]
  | close fd =>
      simp only [View.apply] at stored
      split at stored
      · exact counted name f' stored
      · obtain ⟨f, found, rfl⟩ := View.file_of_changeFile stored
        split
        · exact (FileView.released_counted (counted name f found) _).1
        · exact counted name f found
  | release other pid =>
      obtain ⟨f₀, found₀, some_, member⟩ := enabled
      obtain ⟨f, found, rfl⟩ := View.file_of_changeFile stored
      split
      · rename_i this
        subst this
        obtain rfl := Option.some.inj (found₀.symm.trans found)
        simp [List.length_erase_of_mem member, counted _ _ found]
      · exact counted name f found
  | leave pid =>
      obtain ⟨f, found, rfl⟩ := Option.map_eq_some_iff.mp stored
      exact FileView.left_counted (counted name f found) pid
  | _ =>
      obtain ⟨f, found, -, references, -⟩ := View.file_of_apply rfl stored
      obtain ⟨list, count⟩ := references rfl
      rw [list, count]
      exact counted name f found

/-- The reference lists hold the owners of the descriptors. -/
structure Referenced (v : View codec) : Prop where
  inside : ∀ fd s, v.slot fd = some s → fd < maxOpenFiles
  counted : Counted v
  listed : ∀ name f, v.file name = some f →
    ∀ pid, f.referenceList.count pid = (v.held name pid).card

/-- Names are retired, and sessions end as a whole. -/
def Orderly (v : View codec) (a : Action codec) : Prop :=
  RetiredName v a ∧ a.leavesPartly = false

theorem Referenced.apply {v : View codec} (referenced : Referenced v) {a : Action codec}
    (enabled : v.Enabled a) (orderly : Orderly v a) : Referenced (v.apply a) := by
  refine ⟨fun fd s' live => ?_, referenced.counted.apply enabled, fun name f' stored pid => ?_⟩
  · cases a with
    | attach opened other pid =>
        by_cases this : fd = opened
        · exact this ▸ enabled.2.1
        · exact referenced.inside fd s' (by simpa [View.apply, this] using live)
    | create other => exact referenced.inside fd s' live
    | _ =>
        obtain ⟨s, found, -⟩ := (View.apply_shrinks v _ rfl rfl).slots
          fd s' live
        exact referenced.inside fd s found
  · have listed := referenced.listed name
    cases a with
    | release other pid | forget pid => cases orderly.2
    | create created =>
        rw [View.held_congr (View.slot_apply rfl)]
        by_cases this : name = created
        · subst this
          obtain rfl := Option.some.inj ((Function.update_self _ _ v.file).symm.trans stored)
          have none_ : v.held name pid = ∅ := by
            refine Finset.eq_empty_of_forall_notMem fun fd member => ?_
            obtain ⟨-, s, live, -, named⟩ := View.mem_held.mp member
            exact orderly.1 fd s live named
          rw [none_]
          rfl
        · exact listed f' (by simpa [View.apply, this] using stored) pid
    | attach fd opened owner =>
        obtain ⟨free, inside, f₀, found₀, -⟩ := enabled
        obtain ⟨f, found, rfl⟩ := View.file_of_changeFile stored
        rw [View.held_attach free inside found₀]
        have fresh : fd ∉ v.held name pid := by simp [View.mem_held, free]
        have count := listed f found pid
        by_cases this : name = opened
        · by_cases own : owner = pid
          · rw [if_pos this, if_pos ⟨own, this.symm⟩, Finset.card_insert_of_notMem fresh, ← count, own,
              List.count_cons_self]
          · rw [if_pos this, if_neg (fun both => own both.1), ← count, List.count_cons_of_ne own]
        · rw [if_neg this, if_neg (fun both => this both.2.symm), count]
    | close fd =>
        obtain ⟨s, live⟩ := Option.ne_none_iff_exists'.mp enabled
        simp only [View.apply, live] at stored
        obtain ⟨f, found, rfl⟩ := View.file_of_changeFile stored
        rw [View.held_close live]
        have count := listed f found pid
        have member : fd ∈ v.held name pid ↔ s.owner = pid ∧ s.name = name := by
          simp [View.mem_held, live, referenced.inside fd s live]
        by_cases this : name = s.name
        · rw [if_pos this, (FileView.released_counted (referenced.counted name f found) _).2,
            List.count_erase, count]
          by_cases own : s.owner = pid
          · rw [Finset.card_erase_of_mem (member.mpr ⟨own, this.symm⟩)]
            simp [own]
          · rw [Finset.erase_eq_of_notMem fun held => own (member.mp held).1]
            simp [own]
        · rw [if_neg this, count, Finset.erase_eq_of_notMem fun held => this (member.mp held).2.symm]
    | leave leaver =>
        obtain ⟨f, found, rfl⟩ := Option.map_eq_some_iff.mp stored
        rw [View.held_leave]
        by_cases own : pid = leaver
        · rw [if_pos own, Finset.card_empty, List.count_eq_zero]
          simp [FileView.left, own]
        · rw [if_neg own, ← listed f found pid]
          exact List.count_filter (by simpa using own)
    | _ =>
        obtain ⟨f, found, -, references, -⟩ := View.file_of_apply rfl stored
        rw [(references rfl).1, View.held_congr (View.slot_apply rfl)]
        exact listed f found pid

end FileStorage
