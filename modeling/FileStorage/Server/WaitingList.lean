import FileStorage.Basic
import FileStorage.Lib.Trace
import Mathlib.Data.List.Count

/-! # The waiting list

`gnl_fss_waiting_list.c`: one queue of waiting clients for each target, and the
list of the pids that are waiting. A removal takes the pid off that second list
only; its entries stay in the queues and are thrown away when they are popped.
Which request an entry carries does not matter here, so it is a parameter.
-/

namespace FileStorage

/-- `struct gnl_fss_waiting_list_el`. -/
structure Waiting (ρ : Type) where
  pid : Pid
  request : ρ
  deriving DecidableEq

/-- `struct gnl_fss_waiting_list_internal_el`. -/
structure TargetQueue (ρ : Type) where
  target : Filename
  queue : List (Waiting ρ)
  deriving DecidableEq

/-- `struct gnl_fss_waiting_list`. -/
structure WaitingList (ρ : Type) where
  targetList : List (TargetQueue ρ)
  presenceList : List Pid
  deriving DecidableEq

namespace WaitingList

variable {ρ : Type}

def init : WaitingList ρ := { targetList := [], presenceList := [] }

def changeQueue (target : Filename) (f : List (Waiting ρ) → List (Waiting ρ)) :
    List (TargetQueue ρ) → List (TargetQueue ρ)
  | [] => []
  | el :: rest =>
      if el.target = target then { el with queue := f el.queue } :: rest
      else el :: changeQueue target f rest

def push (w : WaitingList ρ) (target : Filename) (pid : Pid) (request : ρ) : WaitingList ρ where
  targetList :=
    if w.targetList.any fun el => el.target = target then
      changeQueue target (fun queue => queue ++ [{ pid, request }]) w.targetList
    else w.targetList ++ [{ target, queue := [{ pid, request }] }]
  presenceList := w.presenceList ++ [pid]

/-- The inner loop of `gnl_fss_waiting_list_pop`: the first entry whose pid is
    present, and the queue behind it. -/
def dequeueValid (presenceList : List Pid) :
    List (Waiting ρ) → Option (Waiting ρ) × List (Waiting ρ)
  | [] => (none, [])
  | el :: queue =>
      if el.pid ∈ presenceList then (some el, queue) else dequeueValid presenceList queue

def queueOf (w : WaitingList ρ) (target : Filename) : List (Waiting ρ) :=
  (w.targetList.find? fun el => el.target = target).elim [] TargetQueue.queue

/-- `gnl_fss_waiting_list_pop`; `none` is the null pointer. -/
def pop (w : WaitingList ρ) (target : Filename) : Option (Waiting ρ) × WaitingList ρ :=
  match w.targetList.find? fun el => el.target = target with
  | none => (none, w)
  | some el =>
      let popped := dequeueValid w.presenceList el.queue
      (popped.1, {
        targetList := changeQueue target (fun _ => popped.2) w.targetList
        presenceList := popped.1.elim w.presenceList fun el => w.presenceList.erase el.pid })

/-- `gnl_fss_waiting_list_remove`: every occurrence of the pid is deleted. -/
def remove (w : WaitingList ρ) (pid : Pid) : WaitingList ρ :=
  { w with presenceList := w.presenceList.filter (· ≠ pid) }

/-! ## The queues after a call -/

theorem find?_changeQueue (target : Filename) (f : List (Waiting ρ) → List (Waiting ρ))
    (list : List (TargetQueue ρ)) (other : Filename) :
    (changeQueue target f list).find? (fun el => el.target = other) =
      (list.find? fun el => el.target = other).map fun el =>
        if other = target then { el with queue := f el.queue } else el := by
  induction list with
  | nil => rfl
  | cons el rest ih =>
      simp only [changeQueue]
      by_cases here : el.target = target
      · rw [if_pos here]
        by_cases wanted : el.target = other
        · simp [wanted, ← here]
        · have away : other ≠ target := fun same => wanted (here.trans same.symm)
          simp [wanted, away]
      · rw [if_neg here]
        by_cases wanted : el.target = other
        · have away : other ≠ target := fun same => here (wanted.trans same)
          simp [wanted, away]
        · simp [wanted, ih]

theorem queueOf_push (w : WaitingList ρ) (target : Filename) (pid : Pid) (request : ρ)
    (other : Filename) : (w.push target pid request).queueOf other =
      if other = target then w.queueOf target ++ [⟨pid, request⟩] else w.queueOf other := by
  simp only [queueOf, push]
  split
  · rename_i known
    rw [find?_changeQueue]
    by_cases same : other = target
    · subst same
      obtain ⟨el, found⟩ : ∃ el, (w.targetList.find? fun el => el.target = other) = some el := by
        rw [← Option.isSome_iff_exists, List.find?_isSome]
        simpa using known
      simp [found]
    · simp [same]
  · rename_i unknown
    rw [List.find?_append]
    by_cases same : other = target
    · subst same
      have none_ : (w.targetList.find? fun el => el.target = other) = none := by
        simpa using unknown
      simp [none_]
    · have away : target ≠ other := Ne.symm same
      cases w.targetList.find? fun el => el.target = other <;> simp [same, away]

theorem pop_fst (w : WaitingList ρ) (target : Filename) :
    (w.pop target).1 = (dequeueValid w.presenceList (w.queueOf target)).1 := by
  simp only [pop, queueOf]
  cases w.targetList.find? fun el => el.target = target <;> rfl

theorem pop_presenceList (w : WaitingList ρ) (target : Filename) :
    (w.pop target).2.presenceList =
      (w.pop target).1.elim w.presenceList fun el => w.presenceList.erase el.pid := by
  simp only [pop]
  cases w.targetList.find? fun el => el.target = target <;> rfl

theorem queueOf_pop (w : WaitingList ρ) (target other : Filename) :
    (w.pop target).2.queueOf other = if other = target then
      (dequeueValid w.presenceList (w.queueOf target)).2 else w.queueOf other := by
  simp only [pop, queueOf]
  cases found : w.targetList.find? fun el => el.target = target with
  | none =>
      by_cases same : other = target
      · simp [same, found, dequeueValid]
      · simp [same]
  | some el =>
      simp only [find?_changeQueue]
      by_cases same : other = target
      · simp [same, found]
      · simp [same]

/-- What an entry skipped or taken does to the queue: the valid ones before are
    none, the first valid one is returned. -/
theorem dequeueValid_spec (presenceList : List Pid) (queue : List (Waiting ρ)) :
    ∃ skipped, (∀ el ∈ skipped, el.pid ∉ presenceList) ∧
      queue = skipped ++ (dequeueValid presenceList queue).1.toList ++
        (dequeueValid presenceList queue).2 ∧
      (∀ el, (dequeueValid presenceList queue).1 = some el → el.pid ∈ presenceList) ∧
      ((dequeueValid presenceList queue).1 = none → (dequeueValid presenceList queue).2 = []) := by
  induction queue with
  | nil => exact ⟨[], nofun, rfl, nofun, fun _ => rfl⟩
  | cons el queue ih =>
      simp only [dequeueValid]
      split
      · rename_i present
        refine ⟨[], nofun, rfl, ?_, nofun⟩
        rintro other ⟨⟩
        exact present
      · rename_i absent
        obtain ⟨skipped, invalid, split, rest⟩ := ih
        refine ⟨el :: skipped, ?_, ?_, rest⟩
        · exact List.forall_mem_cons.mpr ⟨absent, invalid⟩
        · rw [List.cons_append, List.cons_append, ← split]

/-! ## Counting the entries of a pid -/

/-- How many entries of a pid the queues hold, valid or not. -/
def queued (pid : Pid) (list : List (TargetQueue ρ)) : Nat :=
  (list.flatMap TargetQueue.queue).countP (·.pid = pid)

theorem queued_changeQueue (pid : Pid) (target : Filename)
    (f : List (Waiting ρ) → List (Waiting ρ)) {list : List (TargetQueue ρ)} {el : TargetQueue ρ}
    (found : list.find? (fun el => el.target = target) = some el) :
    queued pid (changeQueue target f list) + el.queue.countP (·.pid = pid) =
      queued pid list + (f el.queue).countP (·.pid = pid) := by
  induction list with
  | nil => simp at found
  | cons first rest ih =>
      by_cases here : first.target = target
      · have same : first = el := by simpa [here] using found
        subst same
        simp only [changeQueue, if_pos here, queued, List.flatMap_cons, List.countP_append]
        omega
      · have later : rest.find? (fun el => el.target = target) = some el := by
          simpa [here] using found
        have counts := ih later
        simp only [queued] at counts
        simp only [changeQueue, if_neg here, queued, List.flatMap_cons, List.countP_append]
        omega

theorem queued_push (w : WaitingList ρ) (target : Filename) (pid : Pid) (request : ρ)
    (other : Pid) : queued other (w.push target pid request).targetList =
      queued other w.targetList + if pid = other then 1 else 0 := by
  simp only [push]
  split
  · rename_i known
    obtain ⟨el, found⟩ : ∃ el, (w.targetList.find? fun el => el.target = target) = some el := by
      rw [← Option.isSome_iff_exists, List.find?_isSome]
      simpa using known
    have counts := queued_changeQueue other target (fun queue => queue ++ [⟨pid, request⟩]) found
    simp only [List.countP_append, List.countP_singleton, decide_eq_true_eq] at counts
    omega
  · simp [queued, List.flatMap_append, List.countP_singleton]

theorem mem_flatMap_queue (w : WaitingList ρ) {target : Filename} {el : Waiting ρ}
    (member : el ∈ w.queueOf target) : el ∈ w.targetList.flatMap TargetQueue.queue := by
  simp only [queueOf] at member
  cases found : w.targetList.find? fun el => el.target = target with
  | none => simp [found] at member
  | some queue =>
      rw [found] at member
      exact List.mem_flatMap.mpr ⟨queue, List.mem_of_find?_eq_some found, member⟩

/-- The entries of a pid after a pop: those whose pid is not present may be
    fewer, and the one that is returned is gone. -/
theorem queued_pop (w : WaitingList ρ) (target : Filename) (pid : Pid)
    (present : pid ∈ w.presenceList) :
    queued pid (w.pop target).2.targetList +
      (w.pop target).1.elim 0 (fun el => if el.pid = pid then 1 else 0) =
      queued pid w.targetList := by
  simp only [pop]
  cases found : w.targetList.find? fun el => el.target = target with
  | none => rfl
  | some queue =>
      have counts := queued_changeQueue pid target
        (fun _ => (dequeueValid w.presenceList queue.queue).2) found
      obtain ⟨skipped, invalid, split, -, -⟩ := dequeueValid_spec w.presenceList queue.queue
      have none_ : skipped.countP (·.pid = pid) = 0 := by
        rw [List.countP_eq_zero]
        intro el member same
        exact invalid el member (by simpa [show el.pid = pid by simpa using same] using present)
      have parts := congrArg (List.countP fun el => decide (el.pid = pid)) split
      rw [List.countP_append, List.countP_append, none_] at parts
      have taken : (dequeueValid w.presenceList queue.queue).1.toList.countP (·.pid = pid) =
          (dequeueValid w.presenceList queue.queue).1.elim 0
            (fun el => if el.pid = pid then 1 else 0) := by
        cases (dequeueValid w.presenceList queue.queue).1 <;> simp [List.countP_singleton]
      rw [taken] at parts
      simp only at counts ⊢
      omega

/-! ## A family of queues

What the waiting list is for: each target has a queue, a removal deletes the
entries of its pid from all of them.
-/

inductive Call (ρ : Type) where
  | push (target : Filename) (pid : Pid) (request : ρ)
  | pop (target : Filename)
  | remove (pid : Pid)

def calls : ActionSystem (WaitingList ρ) (Call ρ) where
  Enabled _ _ := True
  apply w
    | .push target pid request => w.push target pid request
    | .pop target => (w.pop target).2
    | .remove pid => w.remove pid

def pendingStep (pending : Filename → List (Waiting ρ)) : Call ρ → Filename → List (Waiting ρ)
  | .push target pid request => fun other =>
      if other = target then pending target ++ [⟨pid, request⟩] else pending other
  | .pop target => fun other =>
      if other = target then (pending target).tail else pending other
  | .remove pid => fun other => (pending other).filter (·.pid ≠ pid)

/-- The entries a history has pushed for each target and that it has neither
    popped nor removed, oldest first. -/
def pending (history : List (Call ρ)) : Filename → List (Waiting ρ) :=
  history.foldl pendingStep fun _ => []

/-- A pid is pushed only when it is present or when none of its entries is left
    in a queue, so never on top of entries that a removal has cancelled. -/
def Fresh (w : WaitingList ρ) : Call ρ → Prop
  | .push _ pid _ => pid ∈ w.presenceList ∨ queued pid w.targetList = 0
  | _ => True

/-- The waiting list stands for a family of queues: the entries of a present pid
    are all valid, and the valid entries are the ones of the family. -/
structure Refines (w : WaitingList ρ) (pending : Filename → List (Waiting ρ)) : Prop where
  counted : ∀ pid ∈ w.presenceList, w.presenceList.count pid = queued pid w.targetList
  valid : ∀ target, pending target = (w.queueOf target).filter (·.pid ∈ w.presenceList)

theorem refines_init : Refines (init : WaitingList ρ) fun _ => [] where
  counted _ := nofun
  valid _ := rfl

variable {w : WaitingList ρ} {family : Filename → List (Waiting ρ)}

theorem pid_ne_of_queued_zero {pid : Pid} (none_ : queued pid w.targetList = 0)
    {target : Filename} {el : Waiting ρ} (member : el ∈ w.queueOf target) : el.pid ≠ pid := by
  intro same
  have positive : 0 < queued pid w.targetList :=
    List.countP_pos_iff.mpr ⟨el, w.mem_flatMap_queue member, by simpa using same⟩
  omega

theorem Refines.push (refines : Refines w family) (target : Filename) (pid : Pid) (request : ρ)
    (fresh : w.Fresh (.push target pid request)) :
    Refines (w.push target pid request) (pendingStep family (.push target pid request)) := by
  have present : ∀ other, other ∈ (w.push target pid request).presenceList ↔
      other ∈ w.presenceList ∨ other = pid := by
    intro other
    simp [WaitingList.push]
  -- the push makes no other entry valid
  have kept : ∀ other, (w.queueOf other).filter
      (·.pid ∈ (w.push target pid request).presenceList) = family other := by
    intro other
    rw [refines.valid other]
    apply List.filter_congr
    intro el member
    rw [decide_eq_decide, present]
    constructor
    · intro either
      rcases either with before | same
      · exact before
      · rcases fresh with before | gone
        · rw [same]
          exact before
        · exact absurd same (pid_ne_of_queued_zero gone member)
    · exact Or.inl
  constructor
  · intro other member
    have count : (w.push target pid request).presenceList.count other =
        w.presenceList.count other + if pid = other then 1 else 0 := by
      simp [WaitingList.push, List.count_append, List.count_singleton]
    rw [count, queued_push]
    congr 1
    by_cases before : other ∈ w.presenceList
    · exact refines.counted other before
    · have same : other = pid := ((present other).mp member).resolve_left before
      subst same
      rw [List.count_eq_zero.mpr before, fresh.resolve_left before]
  · intro other
    rw [queueOf_push]
    simp only [pendingStep]
    by_cases same : other = target
    · subst same
      rw [if_pos rfl, if_pos rfl, List.filter_append, kept]
      simp [WaitingList.push]
    · rw [if_neg same, if_neg same, kept]

theorem Refines.remove (refines : Refines w family) (pid : Pid) :
    Refines (w.remove pid) (pendingStep family (.remove pid)) := by
  constructor
  · intro other member
    have both : other ∈ w.presenceList ∧ other ≠ pid := by
      simpa [WaitingList.remove] using member
    calc (w.remove pid).presenceList.count other
        = w.presenceList.count other := List.count_filter (by simpa using both.2)
      _ = queued other w.targetList := refines.counted other both.1
  · intro other
    simp only [pendingStep]
    rw [refines.valid other, List.filter_filter]
    apply List.filter_congr
    intro el member
    simp [WaitingList.remove, and_comm]

theorem filter_dequeueValid (presenceList : List Pid) (queue : List (Waiting ρ)) :
    queue.filter (·.pid ∈ presenceList) = (dequeueValid presenceList queue).1.toList ++
      (dequeueValid presenceList queue).2.filter (·.pid ∈ presenceList) := by
  induction queue with
  | nil => rfl
  | cons el queue ih =>
      simp only [dequeueValid]
      split
      · rename_i present
        simp [present]
      · rename_i absent
        simp [absent, ih]

theorem dequeueValid_none {presenceList : List Pid} {queue : List (Waiting ρ)}
    (nothing : (dequeueValid presenceList queue).1 = none) :
    (dequeueValid presenceList queue).2 = [] := by
  obtain ⟨-, -, -, -, emptied⟩ := dequeueValid_spec presenceList queue
  exact emptied nothing

theorem Refines.pop_eq_head? (refines : Refines w family) (target : Filename) :
    (w.pop target).1 = (family target).head? := by
  rw [pop_fst, refines.valid target, filter_dequeueValid]
  cases taken : (dequeueValid w.presenceList (w.queueOf target)).1 with
  | none => simp [dequeueValid_none taken]
  | some el => rfl

theorem mem_presenceList_of_pop {target : Filename} {pid : Pid}
    (member : pid ∈ (w.pop target).2.presenceList) : pid ∈ w.presenceList := by
  rw [pop_presenceList] at member
  cases taken : (w.pop target).1 with
  | none => simpa [taken] using member
  | some el => exact List.mem_of_mem_erase (by simpa [taken] using member)

theorem Refines.counted_pop (refines : Refines w family) (target : Filename) {pid : Pid}
    (present : pid ∈ w.presenceList) :
    (w.pop target).2.presenceList.count pid = queued pid (w.pop target).2.targetList := by
  have entries := w.queued_pop target pid present
  rw [← refines.counted pid present] at entries
  rw [pop_presenceList]
  cases taken : (w.pop target).1 with
  | none =>
      rw [taken] at entries
      exact entries.symm
  | some el =>
      rw [taken] at entries
      simp only [Option.elim_some] at entries ⊢
      rw [List.count_erase]
      simp only [beq_iff_eq]
      omega

/-- The entries that stay queued are as valid as they were. -/
theorem Refines.valid_pop (refines : Refines w family) {target other : Filename} {el : Waiting ρ}
    (member : el ∈ (w.pop target).2.queueOf other) :
    el.pid ∈ (w.pop target).2.presenceList ↔ el.pid ∈ w.presenceList := by
  constructor
  · exact mem_presenceList_of_pop
  · intro present
    have positive : 0 < queued el.pid (w.pop target).2.targetList :=
      List.countP_pos_iff.mpr ⟨el, mem_flatMap_queue _ member, by simp⟩
    rw [← refines.counted_pop target present] at positive
    exact List.count_pos_iff.mp positive

theorem Refines.pop (refines : Refines w family) (target : Filename) :
    Refines (w.pop target).2 (pendingStep family (.pop target)) := by
  constructor
  · intro pid member
    exact refines.counted_pop target (mem_presenceList_of_pop member)
  · intro other
    have kept : ((w.pop target).2.queueOf other).filter (·.pid ∈ (w.pop target).2.presenceList) =
        ((w.pop target).2.queueOf other).filter (·.pid ∈ w.presenceList) := by
      apply List.filter_congr
      intro el member
      exact decide_eq_decide.mpr (refines.valid_pop member)
    rw [kept, queueOf_pop]
    simp only [pendingStep]
    by_cases same : other = target
    · rw [if_pos same, if_pos same, refines.valid target, filter_dequeueValid]
      cases taken : (dequeueValid w.presenceList (w.queueOf target)).1 with
      | none => simp [dequeueValid_none taken]
      | some el => rfl
    · rw [if_neg same, if_neg same, refines.valid other]

theorem Refines.step (refines : Refines w family) (call : Call ρ) (fresh : w.Fresh call) :
    Refines (calls.apply w call) (pendingStep family call) := by
  cases call with
  | push target pid request => exact refines.push target pid request fresh
  | pop target => exact refines.pop target
  | remove pid => exact refines.remove pid

theorem refines_pending {history : List (Call ρ)} (run : calls.Trace init history w)
    (fresh : calls.Meets Fresh init history) : Refines w (pending history) := by
  unfold pending
  exact run.simulates (fun _ _ call refines _ fresh => refines.step call fresh) fresh refines_init

/-- As long as no pid is pushed on top of entries that a removal has cancelled, a
    pop returns the oldest entry of its target that was neither popped nor
    removed, and nothing exactly when there is none. -/
theorem pop_eq_oldest_pending (history : List (Call ρ)) (w : WaitingList ρ)
    (run : calls.Trace init history w) (fresh : calls.Meets Fresh init history)
    (target : Filename) : (w.pop target).1 = (pending history target).head? :=
  (refines_pending run fresh).pop_eq_head? target

/-- A pid that waits, leaves and waits again under another name. -/
def rejoined : List (Call Bool) :=
  [.push [1] 6 true, .remove 6, .pop [1], .push [2] 6 false]

theorem pop_eq_oldest_pending_rejoined :
    calls.Meets Fresh init rejoined ∧
      ((((((init : WaitingList Bool).push [1] 6 true).remove 6).pop [1]).2.push [2] 6 false).pop
        [2]).1 = some ⟨6, false⟩ := by
  have fresh : calls.Meets Fresh init rejoined :=
    ⟨.inr rfl, trivial, trivial, .inr (by decide), trivial⟩
  exact ⟨fresh, pop_eq_oldest_pending rejoined _
    (.cons trivial (.cons trivial (.cons trivial (.cons trivial (.nil _))))) fresh [2]⟩

/-- Without the pop in between, the entry the removal has cancelled comes back. -/
theorem pop_returns_removed :
    ∃ (history : List (Call Bool)) (w : WaitingList Bool), calls.Trace init history w ∧
      ∃ target, (w.pop target).1 ≠ (pending history target).head? := by
  refine ⟨[.push [1] 6 true, .remove 6, .push [2] 6 false], _,
    .cons trivial (.cons trivial (.cons trivial (.nil _))), [1], ?_⟩
  decide

end WaitingList

end FileStorage
