import FileStorage.Basic

/-! # The queue

`gnl_queue_t.c`. A pointer to a node is the number of its allocation; the list of
allocations holds `none` where a node has been freed. A function that would follow
a dangling pointer has no result.
-/

namespace FileStorage

/-- `struct gnl_queue_node`. -/
structure QueueNode (α : Type) where
  data : α
  next : Option Nat
  deriving DecidableEq

/-- `struct gnl_queue_t`, with its nodes. -/
structure Queue (α : Type) where
  nodes : List (Option (QueueNode α))
  front : Option Nat
  rear : Option Nat
  size : Nat
  deriving DecidableEq

namespace Queue

variable {α : Type}

def init : Queue α := { nodes := [], front := none, rear := none, size := 0 }

def node (q : Queue α) (pointer : Nat) : Option (QueueNode α) := q.nodes[pointer]?.join

def enqueue (q : Queue α) (el : α) : Option (Queue α) :=
  let temp := q.nodes.length
  let nodes := q.nodes ++ [some { data := el, next := none }]
  match q.rear with
  | none => some {
      nodes, front := some temp, rear := some temp, size := toUnsigned64 (q.size + 1) }
  | some rear => (q.node rear).map fun node => {
      nodes := nodes.set rear (some { node with next := some temp })
      front := q.front, rear := some temp, size := toUnsigned64 (q.size + 1) }

/-- The element and the queue afterwards; an empty queue gives a null pointer. -/
def dequeue (q : Queue α) : Option (Option α × Queue α) :=
  match q.front with
  | none => some (none, q)
  | some temp => (q.node temp).map fun node => (some node.data, {
      nodes := q.nodes.set temp none
      front := node.next
      rear := if node.next = none then none else q.rear
      size := toUnsigned64 (q.size - 1) })

/-! ## Linked nodes -/

/-- The nodes at the given pointers hold the elements, each linked to the next one
    and the last to `stop`. -/
def Linked (nodes : List (Option (QueueNode α))) (stop : Option Nat) : List Nat → List α → Prop
  | [], [] => True
  | pointer :: pointers, el :: els =>
      nodes[pointer]? = some (some { data := el, next := pointers.head?.or stop }) ∧
        Linked nodes stop pointers els
  | _, _ => False

variable {nodes nodes' : List (Option (QueueNode α))} {stop : Option Nat} {pointers : List Nat}
  {els : List α}

theorem Linked.frame (linked : Linked nodes stop pointers els)
    (same : ∀ pointer ∈ pointers, nodes'[pointer]? = nodes[pointer]?) :
    Linked nodes' stop pointers els := by
  induction pointers generalizing els with
  | nil =>
      cases els with
      | nil => trivial
      | cons el els => exact linked
  | cons pointer pointers ih =>
      cases els with
      | nil => exact linked
      | cons el els =>
          refine ⟨(same pointer List.mem_cons_self).trans linked.1, ih linked.2 ?_⟩
          exact fun other member => same other (List.mem_cons_of_mem _ member)

theorem Linked.length_eq (linked : Linked nodes stop pointers els) :
    pointers.length = els.length := by
  induction pointers generalizing els with
  | nil =>
      cases els with
      | nil => rfl
      | cons el els => exact linked.elim
  | cons pointer pointers ih =>
      cases els with
      | nil => exact linked.elim
      | cons el els => exact congrArg (· + 1) (ih linked.2)

theorem Linked.inside (linked : Linked nodes stop pointers els) :
    ∀ pointer ∈ pointers, pointer < nodes.length := by
  induction pointers generalizing els with
  | nil => exact nofun
  | cons pointer pointers ih =>
      cases els with
      | nil => exact linked.elim
      | cons el els =>
          intro other member
          rcases List.mem_cons.mp member with rfl | later
          · exact (List.getElem?_eq_some_iff.mp linked.1).1
          · exact ih linked.2 other later

theorem linked_concat {last : Nat} {el : α} :
    Linked nodes stop (pointers ++ [last]) (els ++ [el]) ↔
      Linked nodes (some last) pointers els ∧
        nodes[last]? = some (some { data := el, next := stop }) := by
  induction pointers generalizing els with
  | nil =>
      cases els with
      | nil => simp [Linked]
      | cons first els => cases els <;> simp [Linked]
  | cons pointer pointers ih =>
      cases els with
      | nil => cases pointers <;> simp [Linked]
      | cons first els =>
          simp only [List.cons_append, Linked, ih, and_assoc]
          cases pointers <;> simp

/-! ## What a queue holds -/

/-- The queue holds the elements, from the front to the rear. -/
structure Holds (q : Queue α) (els : List α) : Prop where
  linked : ∃ pointers, pointers.Nodup ∧ Linked q.nodes none pointers els ∧
    q.front = pointers.head? ∧ q.rear = pointers.getLast?
  size : q.size = els.length

variable {q : Queue α}

theorem holds_init : Holds (init : Queue α) [] where
  linked := ⟨[], List.nodup_nil, trivial, rfl, rfl⟩
  size := rfl

theorem Holds.enqueue (holds : Holds q els) (room : els.length + 1 < 2 ^ 64) (el : α) :
    ∃ q', q.enqueue el = some q' ∧ Holds q' (els ++ [el]) := by
  obtain ⟨⟨pointers, distinct, linked, front, rear⟩, size⟩ := holds
  have grown : toUnsigned64 (q.size + 1) = (els ++ [el]).length := by
    rw [size, List.length_append]
    exact_mod_cast toUnsigned64_of_nat room
  have fresh : q.nodes.length ∉ pointers := fun member =>
    Nat.lt_irrefl _ (linked.inside _ member)
  rcases List.eq_nil_or_concat pointers with rfl | ⟨before, last, rfl⟩
  · obtain rfl : els = [] := List.length_eq_zero_iff.mp linked.length_eq.symm
    refine ⟨_, by rw [Queue.enqueue, rear]; rfl, ⟨[q.nodes.length], ?_, ?_, rfl, rfl⟩, grown⟩
    · simp
    · simp [Linked]
  · obtain ⟨els', el', rfl⟩ : ∃ els' el', els = els' ++ [el'] := by
      rcases List.eq_nil_or_concat els with rfl | ⟨els', el', rfl⟩
      · simpa using linked.length_eq
      · exact ⟨els', el', by simp⟩
    rw [List.concat_eq_append] at *
    obtain ⟨front_linked, last_node⟩ := linked_concat.mp linked
    rw [List.getLast?_concat] at rear
    have found : q.node last = some { data := el', next := none } := by
      rw [node, last_node]
      rfl
    have last_inside := linked.inside last (by simp)
    have last_fresh : last ∉ before := by
      rw [List.nodup_append] at distinct
      exact fun member => distinct.2.2 last member last (by simp) rfl
    refine ⟨_, by rw [Queue.enqueue, rear]; exact congrArg (Option.map _) found, ?_, grown⟩
    refine ⟨before ++ [last] ++ [q.nodes.length], ?_, ?_, ?_, ?_⟩
    · rw [List.nodup_append]
      refine ⟨distinct, by simp, fun pointer member other is same => ?_⟩
      rw [List.mem_singleton.mp is] at same
      exact fresh (same ▸ member)
    · rw [linked_concat, linked_concat]
      refine ⟨⟨front_linked.frame fun pointer member => ?_, ?_⟩, ?_⟩
      · have inside := front_linked.inside pointer member
        have other : last ≠ pointer := fun same => last_fresh (same ▸ member)
        rw [List.getElem?_set_ne other, List.getElem?_append_left inside]
      · rw [List.getElem?_set_self (by simp; omega)]
      · rw [List.getElem?_set_ne (Nat.ne_of_lt last_inside)]
        simp
    · rw [front]
      simp
    · simp

theorem Holds.dequeue {el : α} (holds : Holds q (el :: els)) (small : els.length + 1 < 2 ^ 64) :
    ∃ q', q.dequeue = some (some el, q') ∧ Holds q' els := by
  obtain ⟨⟨pointers, distinct, linked, front, rear⟩, size⟩ := holds
  cases pointers with
  | nil => exact linked.elim
  | cons temp pointers =>
      obtain ⟨first, linked⟩ := linked
      obtain ⟨gone, distinct⟩ := List.nodup_cons.mp distinct
      have found : q.node temp = some { data := el, next := pointers.head? } := by
        rw [node, first]
        simp
      have shrunk : toUnsigned64 ((q.size : Int) - 1) = els.length := by
        have less : (q.size : Int) - 1 = els.length := by
          rw [size, List.length_cons]
          omega
        rw [less]
        exact toUnsigned64_of_nat (by omega)
      refine ⟨_, by rw [Queue.dequeue, front]; exact congrArg (Option.map _) found, ?_, shrunk⟩
      refine ⟨pointers, distinct, linked.frame fun pointer member => ?_, rfl, ?_⟩
      · have other : temp ≠ pointer := fun same => gone (same ▸ member)
        exact List.getElem?_set_ne other
      · cases pointers with
        | nil => rfl
        | cons second pointers => simpa using rear

end Queue

end FileStorage
